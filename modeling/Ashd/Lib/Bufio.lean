import Ashd.Lib.Utils

/-!
# `lib/bufio.c`

Buffered reading and writing over two functions `ops->read` and `ops->write`.
Every `bufio` of the programs is opened with both of them (`mtbioopen`,
lib/mtio.c:200–227, and the TLS handlers), so the tests for a missing one are
left out.

What the two functions do is given by a `Source` and a `Sink`: the bytes that
the other side will still send before end-of-file, the bytes it has taken, and
for each a schedule that decides, call by call, how much is transferred or which
error is returned. Loops take a bound on their iterations that is computed from
the state, which is large enough (`fillLoop_fuel`, for one).
-/

namespace Ashd

/-! ## The underlying read and write -/

/-- The outcome of one call: transfer up to `n + 1` bytes, or fail with an `errno`. -/
inductive Answer
  | upto (n : ℕ)
  | err (e : ℤ)

/-- No call fails. -/
def NoErr (sched : List Answer) : Prop := ∀ e, .err e ∉ sched

/-- The reading side of `pdata`: the bytes still to come before end-of-file, the bytes
    delivered so far, and the lengths asked for, latest first. When the schedule has run
    out, as much is delivered as is asked for. -/
structure Source where
  avail : Bytes
  sched : List Answer := []
  delivered : Bytes := []
  lens : List ℕ := []

/-- The next `n` bytes change hands, in a call that asked for `len`. -/
def Source.deliver (src : Source) (n len : ℕ) (sched : List Answer) : Source :=
  { avail := src.avail.drop n, sched := sched, delivered := src.delivered ++ src.avail.take n,
    lens := len :: src.lens }

/-- `ops->read(pdata, buf, len)`: `.error` for `-1`, else the bytes delivered; none at
    all is end-of-file. -/
def Source.read (src : Source) (len : ℕ) : Except ℤ Bytes × Source :=
  match src.sched with
  | [] => (.ok (src.avail.take len), src.deliver len len [])
  | .upto n :: sched =>
    (.ok (src.avail.take (min (n + 1) len)), src.deliver (min (n + 1) len) len sched)
  | .err e :: sched => (.error e, { src with sched := sched, lens := len :: src.lens })

/-- The writing side of `pdata`: what it has taken so far. When the schedule has run
    out, everything is taken. -/
structure Sink where
  consumed : Bytes := []
  sched : List Answer := []

/-- `ops->write(pdata, data, len)`: `.error` for `-1`, else the count. -/
def Sink.write (snk : Sink) (data : Bytes) : Except ℤ ℕ × Sink :=
  match snk.sched with
  | [] => (.ok data.length, { snk with consumed := snk.consumed ++ data })
  | .upto n :: sched => (.ok (min (n + 1) data.length),
      { consumed := snk.consumed ++ data.take (n + 1), sched := sched })
  | .err e :: sched => (.error e, { snk with sched := sched })

/-! ## The buffer -/

/-- `struct bufio` (lib/bufio.h:10–16). -/
structure Bufio where
  rbuf : Charbuf := {}
  wbuf : Charbuf := {}
  rh : ℕ := 0
  wh : ℕ := 0
  bufhint : ℕ
  err : ℤ := 0
  eof : Bool := false
  src : Source
  snk : Sink

/-- `bioopen` (lib/bufio.c:29–38). -/
def bioopen (src : Source) (snk : Sink) : Bufio := { bufhint := 4096, src := src, snk := snk }

/-! ## Reading -/

/-- `biordata` (lib/bufio.c:55–58). -/
def biordata (bio : Bufio) : ℕ := bio.rbuf.d - bio.rh

/-- `biorspace` (lib/bufio.c:60–65). -/
def biorspace (bio : Bufio) : ℕ :=
  if biordata bio ≥ bio.bufhint then 0 else bio.bufhint - biordata bio

/-- `bioeof` (lib/bufio.c:67–70). -/
def bioeof (bio : Bufio) : Bool := bio.eof && decide (bio.rh ≥ bio.rbuf.d)

/-- `biofill` drops what has been consumed when that is all (lib/bufio.c:83–84). -/
def Bufio.rreset (bio : Bufio) : Bufio :=
  if bio.rh = bio.rbuf.d then { bio with rh := 0, rbuf := { bio.rbuf with d := 0 } } else bio

/-- `biofill` compacts a full buffer, or else grows it (lib/bufio.c:85–94). -/
def Bufio.rgrow (bio : Bufio) : Bufio :=
  if bio.rbuf.d = bio.rbuf.s then
    if bio.rh > 0 then { bio with rbuf := bio.rbuf.shift bio.rh, rh := 0 }
    else
      let ns := if bio.rbuf.s * 2 < bio.bufhint then bio.bufhint else bio.rbuf.s * 2
      { bio with rbuf := sizebuf bio.rbuf ns }
  else bio

/-- `biofill` shrinks a buffer that has grown (lib/bufio.c:95–96). -/
def Bufio.rshrink (bio : Bufio) : Bufio :=
  if bio.rbuf.s > bio.bufhint ∧ bio.rbuf.d < bio.bufhint then
    { bio with rbuf := bio.rbuf.realloc bio.bufhint }
  else bio

/-- `biofill` (lib/bufio.c:72–107). -/
def biofill (bio : Bufio) : ℤ × Bufio :=
  if bio.eof then (0, bio)
  else
    let bio := bio.rreset.rgrow.rshrink
    match bio.src.read (bio.rbuf.s - bio.rbuf.d) with
    | (.error e, src) => (-1, { bio with err := e, src := src })
    | (.ok [], src) => (0, { bio with eof := true, src := src })
    | (.ok (c :: data), src) =>
      let bio := { bio with rbuf := bio.rbuf.put (c :: data), src := src }
      (biordata bio, bio)

/-- `while(bio->rbuf.d - bio->rh < bytes) { if((ret = biofill(bio)) <= 0) return(ret); }`,
    followed by `return(bio->rbuf.d - bio->rh)`. -/
def fillLoop (bytes : ℕ) : ℕ → Bufio → ℤ × Bufio
  | 0, bio => (biordata bio, bio)
  | fuel + 1, bio =>
    if biordata bio < bytes then
      match biofill bio with
      | (ret, bio) => if ret ≤ 0 then (ret, bio) else fillLoop bytes fuel bio
    else (biordata bio, bio)

/-- `biorensure` (lib/bufio.c:109–118). -/
def biorensure (bio : Bufio) (bytes : ℕ) : ℤ × Bufio := fillLoop bytes bytes bio

/-- `biofillsome` (lib/bufio.c:120–123). -/
def biofillsome (bio : Bufio) : ℤ × Bufio := biofill bio

/-- `biogetc` (lib/bufio.c:125–134). Its loop condition `rbuf.d <= rh` is
    `rbuf.d - rh < 1`; `none` is `EOF`. -/
def biogetc (bio : Bufio) : Option UInt8 × Bufio :=
  match fillLoop 1 1 bio with
  | (ret, bio) =>
    if ret ≤ 0 then (none, bio)
    else (bio.rbuf.b[bio.rh]?, { bio with rh := bio.rh + 1 })

/-- `bioreadsome` (lib/bufio.c:136–146), with the bytes put into `buf`. -/
def bioreadsome (bio : Bufio) (len : ℕ) : ℤ × Bytes × Bufio :=
  match if bio.rh ≥ bio.rbuf.d then biofill bio else (1, bio) with
  | (ret, bio) =>
    if ret ≤ 0 then (ret, [], bio)
    else
      let ret := min len (biordata bio)
      (ret, peek bio.rbuf.b bio.rh ret, { bio with rh := bio.rh + ret })

/-- A caller consuming `n` bytes of `rbuf` itself: `bio->rh += n`. -/
def Bufio.skip (bio : Bufio) (n : ℕ) : Bufio := { bio with rh := bio.rh + n }

/-! ## Writing -/

/-- `biowdata` (lib/bufio.c:148–151). -/
def biowdata (bio : Bufio) : ℕ := bio.wbuf.d - bio.wh

/-- `biowspace` (lib/bufio.c:153–158). -/
def biowspace (bio : Bufio) : ℕ :=
  if biowdata bio ≥ bio.bufhint then 0 else bio.bufhint - biowdata bio

/-- `ret = bio->ops->write(bio->pdata, bio->wbuf.b + bio->wh, bio->wbuf.d - bio->wh)`, with
    the error return of `bioflush` and `bioflushsome`. -/
def flushOnce (bio : Bufio) : Option ℤ × Bufio :=
  match bio.snk.write (bio.wbuf.window bio.wh) with
  | (.error e, snk) => (some (-1), { bio with err := e, snk := snk })
  | (.ok ret, snk) => (none, { bio with wh := bio.wh + ret, snk := snk })

/-- The loop of `bioflush`. -/
def flushLoop : ℕ → Bufio → ℤ × Bufio
  | 0, bio => (0, bio)
  | fuel + 1, bio =>
    if bio.wh < bio.wbuf.d then
      match flushOnce bio with
      | (some ret, bio) => (ret, bio)
      | (none, bio) => flushLoop fuel bio
    else (0, bio)

/-- `bioflush` (lib/bufio.c:160–173). -/
def bioflush (bio : Bufio) : ℤ × Bufio := flushLoop (biowdata bio) bio

/-- `bioflushsome` (lib/bufio.c:175–190). -/
def bioflushsome (bio : Bufio) : ℤ × Bufio :=
  if bio.wh < bio.wbuf.d then
    match flushOnce bio with
    | (some ret, bio) => (ret, bio)
    | (none, bio) => (1, bio)
  else (0, bio)

/-- `bio->wh = bio->wbuf.d = 0`. -/
def Bufio.wreset (bio : Bufio) : Bufio := { bio with wh := 0, wbuf := { bio.wbuf with d := 0 } }

/-- `biowensure` (lib/bufio.c:192–208). -/
def biowensure (bio : Bufio) (bytes : ℕ) : ℤ × Bufio :=
  if bio.wbuf.s - bio.wbuf.d < bytes then
    match bioflush bio with
    | (ret, bio) =>
      if ret < 0 then (-1, bio)
      else
        let bio := bio.wreset
        if bio.wbuf.s > bio.bufhint ∧ bytes ≤ bio.bufhint then
          (0, { bio with wbuf := bio.wbuf.realloc bio.bufhint })
        else
          (0, { bio with wbuf := sizebuf bio.wbuf (if bytes < bio.bufhint then bio.bufhint else bytes) })
  else (0, bio)

/-- `memcpy(bio->wbuf.b + bio->wbuf.d, data, len); bio->wbuf.d += len`. -/
def Bufio.wput (bio : Bufio) (data : Bytes) : Bufio := { bio with wbuf := bio.wbuf.put data }

/-- `bioputc` (lib/bufio.c:210–216). -/
def bioputc (bio : Bufio) (c : UInt8) : ℤ × Bufio :=
  match biowensure bio 1 with
  | (ret, bio) => if ret < 0 then (-1, bio) else (0, bio.wput [c])

/-- The loop of `biowrite`, with the `data` still to be written and the count `wb`. -/
def biowriteLoop : ℕ → Bytes → ℤ → Bufio → ℤ × Bufio
  | 0, _, wb, bio => (wb, bio)
  | fuel + 1, data, wb, bio =>
    if data.length > 0 then
      match biowensure bio (min data.length bio.bufhint) with
      | (ret, bio) =>
        if ret < 0 then (if wb > 0 then wb else -1, bio)
        else if data.length < bio.wbuf.s - bio.wbuf.d then
          (wb + data.length, bio.wput data)
        else
          match bioflush bio with
          | (ret, bio) =>
            if ret < 0 then (if wb > 0 then wb else -1, bio)
            else
              let bio := bio.wreset
              match bio.snk.write data with
              | (.error e, snk) =>
                if wb > 0 then (wb, { bio with snk := snk })
                else (-1, { bio with err := e, snk := snk })
              | (.ok ret, snk) =>
                biowriteLoop fuel (data.drop ret) (wb + ret) { bio with snk := snk }
    else (wb, bio)

/-- `biowrite` (lib/bufio.c:218–252). -/
def biowrite (bio : Bufio) (data : Bytes) : ℤ × Bufio := biowriteLoop data.length data 0 bio

/-- `sizebuf(bio->wbuf, bio->bufhint)`. -/
def Bufio.wgrow (bio : Bufio) : Bufio := { bio with wbuf := sizebuf bio.wbuf bio.bufhint }

/-- `if(bio->wh == bio->wbuf.d) bio->wh = bio->wbuf.d = 0`. -/
def Bufio.wdrop (bio : Bufio) : Bufio := if bio.wh = bio.wbuf.d then bio.wreset else bio

/-- Compacting a full write buffer, as `biowritesome` and `biocopybuf` do
    (lib/bufio.c:261–266, 318–323). -/
def Bufio.wcompact (bio : Bufio) : Bufio :=
  if bio.wbuf.d = bio.wbuf.s then
    if bio.wh > 0 then { bio with wbuf := bio.wbuf.shift bio.wh, wh := 0 } else bio
  else bio

/-- `biowritesome` (lib/bufio.c:254–279). -/
def biowritesome (bio : Bufio) (data : Bytes) : ℤ × Bufio :=
  let bio := bio.wgrow.wdrop.wcompact
  let ret := min data.length (bio.wbuf.s - bio.wbuf.d)
  let bio := bio.wput (data.take ret)
  match bioflushsome bio with
  | (fl, bio) =>
    if fl < 0 then
      if ret = 0 then (-1, bio)
      else if ret < biowdata bio then
        -- "Should never be false", but is when the buffer was empty before
        (-1, { bio with wbuf := { bio.wbuf with d := bio.wbuf.d - ret } })
      else (ret, bio)
    else (ret, bio)

/-- The loop of `bioprintf`, with the result `text` of the formatting. -/
def bioprintfLoop (text : Bytes) : ℕ → Bufio → ℤ × Bufio
  | 0, bio => (0, bio)
  | fuel + 1, bio =>
    if text.length < bio.wbuf.s - bio.wbuf.d then (0, bio.wput text)
    else
      match biowensure bio (text.length + 1) with
      | (ret, bio) => if ret < 0 then (-1, bio) else bioprintfLoop text fuel bio

/-- `bioprintf` (lib/bufio.c:281–299) with a format of length `flen` that expands to
    `text`. -/
def bioprintf (bio : Bufio) (flen : ℕ) (text : Bytes) : ℤ × Bufio :=
  match biowensure bio flen with
  | (ret, bio) => if ret < 0 then (-1, bio) else bioprintfLoop text 2 bio

/-! ## Copying -/

/-- `biocopysome` (lib/bufio.c:301–311), with the new states of `dst` and `src`. -/
def biocopysome (dst src : Bufio) : ℤ × Bufio × Bufio :=
  if src.rh ≥ src.rbuf.d then (0, dst, src)
  else
    match biowritesome dst (src.rbuf.window src.rh) with
    | (ret, dst) => if ret < 0 then (-1, dst, src) else (ret, dst, src.skip ret.toNat)

/-- `biocopybuf` (lib/bufio.c:313–329). -/
def biocopybuf (dst src : Bufio) : ℤ × Bufio × Bufio :=
  let dst := dst.wgrow.wcompact
  let ret := min (biordata src) (dst.wbuf.s - dst.wbuf.d)
  (ret, dst.wput (peek src.rbuf.b src.rh ret), src.skip ret)

end Ashd
