import Ashd.Cgi.Env
import Ashd.Cgi.Records
import Ashd.Common.Message
import Ashd.Python.Proto

/-!
# SCGI

`serve` of src/callscgi.c sends the environment of a request as a netstring, and the body after
it; `readhead` of python/ashd/scgi.py reads them.

Main results:
* `bvprintf_spec`: formatted text is appended whatever room there was.
* `window_mkcgienv`: the buffer that `mkcgienv` fills.
* `readns_netstring`, `headLoop_parts`: the two halves of the decoder.
* `scgi_roundtrip`: the environment is read as it was built.
-/

namespace Ashd.Cgi

/-! ## Appending -/

/-- `bufcat(dst, data, len)`, and for a single byte `bufadd` (lib/utils.h:23–34). -/
def bufcat (dst : Charbuf) (data : Bytes) : Charbuf := (sizebuf dst (dst.d + data.length)).put data

/-- `bufcatstr2` (lib/utils.h:41–46): a string with its NUL. -/
def bufcatstr2 (dst : Charbuf) (str : Bytes) : Charbuf := bufcat dst (cstr str ++ [0])

/-- `vsnprintf(buf->b + buf->d, buf->s - buf->d, ..)`, with the text that the format expands to:
    as much of it as there is room for, and a NUL. -/
def vsnprintf (buf : Charbuf) (text : Bytes) : Charbuf :=
  let room := buf.s - buf.d
  if room = 0 then buf else { buf.put (text.take (room - 1) ++ [0]) with d := buf.d }

/-- The loop of `bvprintf`. -/
def bvprintfLoop (text : Bytes) : ℕ → Charbuf → Charbuf
  | 0, buf => buf
  | fuel + 1, buf =>
    let buf := vsnprintf buf text
    if text.length < buf.s - buf.d then { buf with d := buf.d + text.length }
    else bvprintfLoop text fuel (sizebuf buf (buf.d + text.length + 1))

/-- `bvprintf` (lib/utils.c:202–217). There is room the second time. -/
def bvprintf (buf : Charbuf) (text : Bytes) : Charbuf := bvprintfLoop text 2 buf

/-- `bufaddenv` (src/callscgi.c:386–395). -/
def bufaddenv (dst : Charbuf) (name text : Bytes) : Charbuf :=
  bufcat (bvprintf (bufcatstr2 dst name) (cstr text)) [0]

/-- One call of `mkcgienv`. -/
def putEntry (dst : Charbuf) : Entry → Charbuf
  | .fmt name text => bufaddenv dst name text
  | .kv name val => bufcatstr2 (bufcatstr2 dst name) val

/-- The variables of `mkcgienv` (src/callscgi.c:413–484). -/
def scgienv (cwd : Bytes) (req : Hthead) : List Entry :=
  cgienv [.fmt (bytes "SCGI") (bytes "1")] cwd req

/-- `mkcgienv` (src/callscgi.c:413–484). -/
def mkcgienv (cwd : Bytes) (req : Hthead) (dst : Charbuf) : Charbuf :=
  (scgienv cwd req).foldl putEntry dst

/-! ## Sending -/

/-- A stream that is read from: what it still delivers, whether it then ends in an error, and
    whether the end was seen. -/
structure Infile where
  left : Bytes
  bad : Bool := false
  eof : Bool := false

/-- `passdata` (src/callscgi.c:368–384), as long as there is anything to read. -/
def passdataLoop : ℕ → Infile → File → Bool × File
  | 0, _, out => (false, out)
  | fuel + 1, inp, out =>
    if inp.eof then (true, out)
    else
      let buf := inp.left.take 8192
      if buf.length < 8192 ∧ inp.bad then (false, out)
      else
        match fputs buf out with
        | (false, out) => (false, out)
        | (true, out) =>
          passdataLoop fuel
            { inp with left := inp.left.drop 8192, eof := decide (buf.length < 8192) } out

@[inherit_doc passdataLoop]
def passdata (inp : Infile) (out : File) : Bool × File := passdataLoop (inp.left.length + 2) inp out

/-- What `serve` sends (src/callscgi.c:528–535). Only the result of `passdata` is looked at. -/
def sendreq (cwd : Bytes) (req : Hthead) (is : Infile) (os : File) : Bool × File :=
  let head := mkcgienv cwd req {}
  let (_, os) := fputs (numeral 10 head.d ++ [58]) os
  let (_, os) := fputs (head.window 0) os
  let (_, os) := fputc 44 os
  passdata is os

/-! ## Receiving -/

/-- What `readhead` can raise. -/
inductive Exn
  | protoerr (msg : String)
  | typeError
  | valueError
  | overflowError
  deriving DecidableEq

/-- The loop of `readns`. At the end of the stream, `ord(b"")` raises a `TypeError`, as does the
    text of the `protoerr`, which is a `str` with a `bytes` added to it. -/
def readlen : ℤ → Bytes → Except Exn (ℤ × Bytes)
  | _, [] => .error .typeError
  | hln, c :: sk =>
    if c = 58 then .ok (hln, sk)
    else if c ≥ 48 ∨ c ≤ 57 then readlen (hln * 10 + (c.toNat - 48)) sk
    else .error .typeError

/-- `sk.read(n)` of a buffered stream, for an `n` that is not beyond `sys.maxsize`. -/
def read (n : ℤ) (sk : Bytes) : Except Exn (Bytes × Bytes) :=
  if n < -1 then .error .valueError
  else if n = -1 then .ok (sk, [])
  else .ok (sk.take n.toNat, sk.drop n.toNat)

/-- `readns` (python/ashd/scgi.py:4–17), with what is left of the stream. -/
def readns (sk : Bytes) : Except Exn (Bytes × Bytes) :=
  match readlen 0 sk with
  | .error e => .error e
  | .ok (hln, sk) =>
    match read hln sk with
    | .error e => .error e
    | .ok (ret, sk) =>
      match sk with
      | 44 :: sk => .ok (ret, sk)
      | _ => .error (.protoerr "Non-terminated netstring")

/-- A dictionary: the keys in the order in which they were first set. -/
abbrev Dict := List (Bytes × Bytes)

/-- `ret[key] = val`. -/
def Dict.set (key val : Bytes) : Dict → Dict
  | [] => [(key, val)]
  | (k, v) :: d => if k = key then (k, val) :: d else (k, v) :: set key val d

/-- `ret[key]`, if there is one. -/
def Dict.get (key : Bytes) (d : Dict) : Option Bytes := d.lookup key

/-- The loop of `readhead`. -/
def headLoop (ret : Dict) : List Bytes → Dict
  | key :: val :: parts => headLoop (ret.set key val) parts
  | _ => ret

/-- `readhead` (python/ashd/scgi.py:19–28), with what is left of the stream. -/
def readhead (sk : Bytes) : Except Exn (Dict × Bytes) :=
  match readns sk with
  | .error e => .error e
  | .ok (ns, sk) =>
    let parts := (ns.splitOn 0).dropLast
    if parts.length % 2 ≠ 0 then .error (.protoerr "Malformed headers")
    else .ok (headLoop [] parts, sk)

/-! ## The buffer -/

theorem window_zero (buf : Charbuf) : buf.window 0 = buf.b.take buf.d := by
  simp [Charbuf.window, peek]

theorem bufcat_spec {dst : Charbuf} (h : dst.Ok) (data : Bytes) :
    (bufcat dst data).Ok ∧ (bufcat dst data).window 0 = dst.window 0 ++ data := by
  have hok := h.sizebuf (dst.d + data.length)
  obtain ⟨-, hd, -⟩ := sizebuf_eq h (dst.d + data.length)
  have hs := le_sizebuf_s dst (dst.d + data.length)
  refine ⟨hok.put (by rw [hd]; exact hs), ?_⟩
  rw [bufcat, window_put hok (Nat.zero_le _), window_sizebuf h]

/-- A text that there is no room for changes nothing in use. -/
theorem vsnprintf_spec {buf : Charbuf} (h : buf.Ok) (text : Bytes) :
    (vsnprintf buf text).Ok ∧ (vsnprintf buf text).window 0 = buf.window 0 ∧
      (vsnprintf buf text).d = buf.d ∧ (vsnprintf buf text).s = buf.s := by
  unfold vsnprintf
  simp only
  by_cases hroom : buf.s - buf.d = 0
  · rw [if_pos hroom]
    exact ⟨h, rfl, rfl, rfl⟩
  · rw [if_neg hroom]
    have hlen : (text.take (buf.s - buf.d - 1) ++ [0]).length ≤ buf.s - buf.d := by
      rw [List.length_append, List.length_take, List.length_singleton]
      omega
    have hput : (buf.put (text.take (buf.s - buf.d - 1) ++ [0])).Ok := h.put (by omega)
    refine ⟨⟨le_trans ?_ hput.d_le, hput.b_le⟩, window_put_undo h _ 0, rfl, rfl⟩
    exact Nat.le_add_right _ _

/-- A text that there is room for is there behind what is in use. -/
theorem vsnprintf_room {buf : Charbuf} (h : buf.Ok) {text : Bytes} (hroom : text.length < buf.s - buf.d) :
    let buf' := { vsnprintf buf text with d := buf.d + text.length }
    Charbuf.Ok buf' ∧ buf'.window 0 = buf.window 0 ++ text := by
  have htake : text.take (buf.s - buf.d - 1) = text := List.take_of_length_le (by omega)
  have hput : (buf.put (text ++ [0])).Ok := by
    refine h.put ?_
    rw [List.length_append, List.length_singleton]
    omega
  have heq : vsnprintf buf text = { buf.put (text ++ [0]) with d := buf.d } := by
    unfold vsnprintf
    simp only
    rw [if_neg (by omega), htake]
  have hd := hput.d_le
  have hwin := window_put h (Nat.zero_le _) (text ++ [0])
  have hold := length_window h (Nat.zero_le _)
  rw [window_zero] at hwin
  simp only [Charbuf.put, List.length_append, List.length_singleton] at hd hwin
  rw [heq]
  refine ⟨⟨by simp only [Charbuf.put]; omega, hput.b_le⟩, ?_⟩
  rw [window_zero]
  have htk : ∀ b : Bytes, b.take (buf.d + text.length) =
      (b.take (buf.d + (text.length + 1))).take (buf.d + text.length) := by
    intro b
    rw [List.take_take, Nat.min_eq_left (by omega)]
  simp only [Charbuf.put]
  rw [htk, hwin, ← List.append_assoc, List.take_left' (by rw [List.length_append]; omega)]

theorem bvprintf_spec {buf : Charbuf} (h : buf.Ok) (text : Bytes) :
    (bvprintf buf text).Ok ∧ (bvprintf buf text).window 0 = buf.window 0 ++ text := by
  obtain ⟨hok, hwin, hd, hs⟩ := vsnprintf_spec h text
  unfold bvprintf
  rw [bvprintfLoop]
  by_cases hroom : text.length < buf.s - buf.d
  · rw [if_pos (by omega), hd]
    exact vsnprintf_room h hroom
  · rw [if_neg (by omega), bvprintfLoop]
    -- the second time
    have hok₂ := hok.sizebuf ((vsnprintf buf text).d + text.length + 1)
    have hwin₂ := window_sizebuf hok ((vsnprintf buf text).d + text.length + 1) 0
    have hsz := le_sizebuf_s (vsnprintf buf text) ((vsnprintf buf text).d + text.length + 1)
    obtain ⟨-, hd₂, -⟩ := sizebuf_eq hok ((vsnprintf buf text).d + text.length + 1)
    generalize sizebuf (vsnprintf buf text) ((vsnprintf buf text).d + text.length + 1) = buf₂ at *
    obtain ⟨-, -, hd₃, hs₃⟩ := vsnprintf_spec hok₂ text
    have hroom₂ : text.length < buf₂.s - buf₂.d := by omega
    rw [if_pos (by omega), hd₃]
    obtain ⟨h1, h2⟩ := vsnprintf_room hok₂ hroom₂
    exact ⟨h1, by rw [h2, hwin₂, hwin]⟩

theorem bufcatstr2_spec {dst : Charbuf} (h : dst.Ok) (str : Bytes) :
    (bufcatstr2 dst str).Ok ∧ (bufcatstr2 dst str).window 0 = dst.window 0 ++ (cstr str ++ [0]) :=
  bufcat_spec h _

/-- A variable in the environment. -/
def envText (e : Bytes × Bytes) : Bytes := e.1 ++ [0] ++ e.2 ++ [0]

/-- Either way to append one. -/
theorem putEntry_spec {dst : Charbuf} (h : dst.Ok) (e : Entry) :
    (putEntry dst e).Ok ∧ (putEntry dst e).window 0 = dst.window 0 ++ envText e.pair := by
  cases e with
  | fmt name text =>
    obtain ⟨h1, w1⟩ := bufcatstr2_spec h name
    obtain ⟨h2, w2⟩ := bvprintf_spec h1 (cstr text)
    obtain ⟨h3, w3⟩ := bufcat_spec h2 [0]
    refine ⟨h3, ?_⟩
    show (bufcat (bvprintf (bufcatstr2 dst name) (cstr text)) [0]).window 0 = _
    rw [w3, w2, w1]
    simp [envText, Entry.pair]
  | kv name val =>
    obtain ⟨h1, w1⟩ := bufcatstr2_spec h name
    obtain ⟨h2, w2⟩ := bufcatstr2_spec h1 val
    refine ⟨h2, ?_⟩
    show (bufcatstr2 (bufcatstr2 dst name) val).window 0 = _
    rw [w2, w1]
    simp [envText, Entry.pair]

/-- Several calls that append, one after the other. -/
theorem foldl_window {α : Type*} {f : Charbuf → α → Charbuf} {g : α → Bytes}
    (hf : ∀ dst x, Charbuf.Ok dst → (f dst x).Ok ∧ (f dst x).window 0 = dst.window 0 ++ g x)
    (xs : List α) {dst : Charbuf} (h : dst.Ok) :
    (xs.foldl f dst).Ok ∧ (xs.foldl f dst).window 0 = dst.window 0 ++ xs.flatMap g := by
  induction xs generalizing dst with
  | nil => exact ⟨h, (List.append_nil _).symm⟩
  | cons x xs ih =>
    obtain ⟨hok, hwin⟩ := hf dst x h
    obtain ⟨hok', hwin'⟩ := ih hok
    refine ⟨hok', ?_⟩
    rw [List.foldl_cons, hwin', hwin, List.flatMap_cons, List.append_assoc]

/-- The buffer that `mkcgienv` fills. -/
theorem window_mkcgienv (cwd : Bytes) (req : Hthead) :
    (mkcgienv cwd req {}).Ok ∧
      (mkcgienv cwd req {}).window 0 = ((scgienv cwd req).map Entry.pair).flatMap envText := by
  have h0 : Charbuf.Ok {} := ⟨Nat.zero_le _, Nat.zero_le _⟩
  rw [List.flatMap_map]
  exact foldl_window (fun dst e h => putEntry_spec h e) _ h0

/-! ## The stream -/

/-- The body is copied as far as it can be read. -/
theorem passdataLoop_spec :
    ∀ fuel (inp : Infile) (out : File), out.room = none →
      inp.left.length + (if inp.eof then 0 else 1) < fuel →
      ∃ part, (passdataLoop fuel inp out).2.written = out.written ++ part ∧ part <+: inp.left ∧
        (inp.bad = false → inp.eof = false → part = inp.left) := by
  intro fuel
  induction fuel with
  | zero => intro inp out _ hf; omega
  | succ fuel ih =>
    intro inp out hout hf
    rw [passdataLoop]
    by_cases heof : inp.eof = true
    · rw [if_pos heof]
      exact ⟨[], (List.append_nil _).symm, List.nil_prefix, fun _ h => by rw [h] at heof; cases heof⟩
    rw [if_neg heof]
    rw [if_neg heof] at hf
    have hlen : (inp.left.take 8192).length = min 8192 inp.left.length := List.length_take
    by_cases hbad : (inp.left.take 8192).length < 8192 ∧ inp.bad = true
    · rw [if_pos hbad]
      exact ⟨[], (List.append_nil _).symm, List.nil_prefix,
        fun h => by rw [hbad.2] at h; cases h⟩
    rw [if_neg hbad, fputs_ok _ hout]
    simp only
    obtain ⟨part, hw, hpre, hall⟩ := ih
      { inp with left := inp.left.drop 8192, eof := decide ((inp.left.take 8192).length < 8192) }
      { out with written := out.written ++ inp.left.take 8192 } hout (by
        simp only [List.length_drop, decide_eq_true_eq]
        split_ifs <;> omega)
    refine ⟨inp.left.take 8192 ++ part, by rw [hw, List.append_assoc], ?_, ?_⟩
    · obtain ⟨t, ht⟩ := hpre
      refine ⟨t, ?_⟩
      rw [List.append_assoc, ht, List.take_append_drop]
    · intro hgood _
      by_cases hshort : (inp.left.take 8192).length < 8192
      · -- nothing comes after a short read
        have hdrop : inp.left.drop 8192 = [] := List.drop_eq_nil_of_le (by omega)
        simp only [hdrop, List.prefix_nil] at hpre
        rw [hpre, List.append_nil, List.take_of_length_le (by omega)]
      · rw [hall hgood (by simpa using hshort), List.take_append_drop]

theorem sendreq_spec (cwd : Bytes) (req : Hthead) (is : Infile) {os : File} (h : os.room = none) :
    ∃ part, (sendreq cwd req is os).2.written = os.written ++
        (numeral 10 (((scgienv cwd req).map Entry.pair).flatMap envText).length ++ 58 ::
          ((scgienv cwd req).map Entry.pair).flatMap envText ++ 44 :: part) ∧
      part <+: is.left ∧ (is.bad = false → is.eof = false → part = is.left) := by
  obtain ⟨hok, hwin⟩ := window_mkcgienv cwd req
  have hd : (mkcgienv cwd req {}).d = (((scgienv cwd req).map Entry.pair).flatMap envText).length := by
    rw [← hwin, length_window hok (Nat.zero_le _), Nat.sub_zero]
  generalize ((scgienv cwd req).map Entry.pair).flatMap envText = env at *
  let os' : File := { os with written := os.written ++ (numeral 10 env.length ++ [58]) ++ env ++ [44] }
  have hcalls : sendreq cwd req is os = passdata is os' := by
    unfold sendreq
    simp only [hd, hwin]
    have h₂ : ({ os with written := os.written ++ (numeral 10 env.length ++ [58]) } : File).room = none := h
    rw [fputs_ok _ h]
    simp only
    rw [fputs_ok env h₂]
    simp only [fputc, h]
    rw [← h]
  obtain ⟨part, hw, hpre, hall⟩ := passdataLoop_spec (is.left.length + 2) is os' h
    (by split_ifs <;> omega)
  refine ⟨part, ?_, hpre, hall⟩
  rw [hcalls, passdata, hw]
  simp [os']

/-! ## Reading it -/

/-- The number that bytes spell, each of which counts for its distance from the digit 0. -/
def spelled (s : Bytes) (v : ℤ) : ℤ := s.foldl (fun hln c => hln * 10 + (c.toNat - 48)) v

theorem spelled_digits {ds : Bytes} (h : ∀ c ∈ ds, isdigit c = true) (v : ℕ) :
    spelled ds v = (ds.foldl (fun acc c => acc * 10 + (digitVal c).getD 0) v : ℕ) := by
  induction ds generalizing v with
  | nil => rfl
  | cons c ds ih =>
    have hc := h c (by simp)
    have hdigit : 48 ≤ c ∧ c ≤ 57 := by simpa [isdigit] using hc
    have hle : 48 ≤ c.toNat := UInt8.le_iff_toNat_le.mp hdigit.1
    have hstep : (v : ℤ) * 10 + (c.toNat - 48) = ((v * 10 + (c.toNat - 48) : ℕ) : ℤ) := by
      push_cast [Nat.cast_sub hle]
      rfl
    rw [List.foldl_cons, digitVal_of_isdigit hc, Option.getD_some,
      ← ih (fun x hx => h x (List.mem_cons_of_mem _ hx)), ← hstep]
    rfl

/-- Any byte but a colon is taken for a digit: it is not both below `0` and above `9`. -/
theorem readlen_colon {head : Bytes} (h : (58 : UInt8) ∉ head) (v : ℤ) (sk : Bytes) :
    readlen v (head ++ 58 :: sk) = .ok (spelled head v, sk) := by
  induction head generalizing v with
  | nil => rfl
  | cons c head ih =>
    rw [List.mem_cons, not_or] at h
    obtain ⟨hc, hhead⟩ := h
    have htest : c ≥ 48 ∨ c ≤ 57 := by
      simp only [ge_iff_le, UInt8.le_iff_toNat_le, UInt8.reduceToNat]
      omega
    rw [List.cons_append, readlen, if_neg (Ne.symm hc), if_pos htest, ih hhead]
    rfl

/-- The digits of a length, and the colon. -/
theorem readlen_digits {ds : Bytes} (h : ∀ c ∈ ds, isdigit c = true) (v : ℕ) (sk : Bytes) :
    readlen v (ds ++ 58 :: sk) =
      .ok ((ds.foldl (fun acc c => acc * 10 + (digitVal c).getD 0) v : ℕ), sk) := by
  have hcolon : (58 : UInt8) ∉ ds := fun hmem => absurd (h 58 hmem) (by decide)
  rw [readlen_colon hcolon, spelled_digits h]

theorem readns_netstring (ns sk : Bytes) :
    readns (numeral 10 ns.length ++ 58 :: ns ++ 44 :: sk) = .ok (ns, sk) := by
  have hlen : readlen 0 (numeral 10 ns.length ++ 58 :: (ns ++ 44 :: sk)) =
      .ok ((ns.length : ℤ), ns ++ 44 :: sk) := by
    have hv : numeralValue 10 (numeral 10 ns.length) = ns.length :=
      numeralValue_numeral (by norm_num) (by norm_num) _
    have := readlen_digits (Message.isDecimal_numeral ns.length).2 0 (ns ++ 44 :: sk)
    unfold numeralValue at hv
    rwa [hv] at this
  have hread : read ns.length (ns ++ 44 :: sk) = .ok (ns, 44 :: sk) := by
    unfold read
    rw [if_neg (by omega), if_neg (by omega), Int.toNat_natCast, List.take_left, List.drop_left]
  unfold readns
  rw [List.append_assoc, List.cons_append, hlen]
  simp only [hread]

/-- The parts that the netstring is split into. -/
theorem splitOn_envText {es : List (Bytes × Bytes)} (h : ∀ e ∈ es, NulFree e.1 ∧ NulFree e.2) :
    (es.flatMap envText).splitOn 0 = es.flatMap (fun e => [e.1, e.2]) ++ [[]] := by
  induction es with
  | nil => rfl
  | cons e es ih =>
    obtain ⟨hn, hv⟩ := h e (by simp)
    have hsplit : (e :: es).flatMap envText = e.1 ++ 0 :: (e.2 ++ 0 :: es.flatMap envText) := by
      simp [envText]
    rw [hsplit, List.splitOn_append_cons_self_of_not_mem hn,
      List.splitOn_append_cons_self_of_not_mem hv, ih fun x hx => h x (List.mem_cons_of_mem _ hx),
      List.flatMap_cons]
    rfl

theorem length_parts (es : List (Bytes × Bytes)) :
    (es.flatMap fun e => [e.1, e.2]).length = 2 * es.length := by
  induction es with
  | nil => rfl
  | cons e es ih =>
    rw [List.flatMap_cons, List.length_append, ih, List.length_cons]
    show 2 + 2 * es.length = 2 * (es.length + 1)
    omega

theorem headLoop_parts (d : Dict) (es : List (Bytes × Bytes)) :
    headLoop d (es.flatMap fun e => [e.1, e.2]) = es.foldl (fun d e => d.set e.1 e.2) d := by
  induction es generalizing d with
  | nil => rfl
  | cons e es ih =>
    rw [List.flatMap_cons, List.foldl_cons]
    exact ih _

/-! ## The dictionary -/

theorem Dict.get_cons (d : Dict) (key val k : Bytes) :
    Dict.get k ((key, val) :: d) = if k = key then some val else d.get k := by
  unfold Dict.get
  rw [List.lookup_cons]
  by_cases hk : k = key
  · rw [if_pos hk, beq_iff_eq.mpr hk]
  · rw [if_neg hk, beq_eq_false_iff_ne.mpr hk]

theorem Dict.get_set (d : Dict) (key val k : Bytes) :
    (d.set key val).get k = if k = key then some val else d.get k := by
  induction d with
  | nil => exact Dict.get_cons [] key val k
  | cons e d ih =>
    obtain ⟨k₀, v₀⟩ := e
    rw [Dict.set]
    by_cases h0 : k₀ = key
    · subst h0
      rw [if_pos rfl, Dict.get_cons, Dict.get_cons]
      split_ifs <;> rfl
    · rw [if_neg h0, Dict.get_cons, Dict.get_cons, ih]
      by_cases hk : k = k₀
      · rw [if_pos hk, if_pos hk, if_neg (by rw [hk]; exact h0)]
      · rw [if_neg hk, if_neg hk]

/-- The value of a variable that may be set several times: the last one. -/
def lastVal (env : List (Bytes × Bytes)) (key : Bytes) : Option Bytes := env.reverse.lookup key

theorem get_foldl_set (es : List (Bytes × Bytes)) (d : Dict) (k : Bytes) :
    (es.foldl (fun d e => d.set e.1 e.2) d).get k = (lastVal es k).or (d.get k) := by
  induction es generalizing d with
  | nil => rfl
  | cons e es ih =>
    rw [List.foldl_cons, ih, Dict.get_set, lastVal, lastVal, List.reverse_cons, List.lookup_append,
      List.lookup_singleton, Option.or_assoc]
    by_cases hk : k = e.1
    · simp [hk]
    · simp [hk]

theorem Dict.keys_set (d : Dict) (key val : Bytes) :
    (d.set key val).map Prod.fst =
      if key ∈ d.map Prod.fst then d.map Prod.fst else d.map Prod.fst ++ [key] := by
  induction d with
  | nil => rfl
  | cons e d ih =>
    obtain ⟨k₀, v₀⟩ := e
    rw [Dict.set]
    by_cases h0 : k₀ = key
    · simp [h0]
    · rw [if_neg h0, List.map_cons, ih]
      by_cases hm : key ∈ d.map Prod.fst
      · rw [if_pos hm, if_pos (by simp [List.mem_map.mp hm])]
        rfl
      · rw [if_neg hm, if_neg]
        · rfl
        · rw [List.map_cons, List.mem_cons, not_or]
          exact ⟨Ne.symm h0, hm⟩

/-- No key is there twice. -/
theorem Dict.nodup_set {d : Dict} (h : (d.map Prod.fst).Nodup) (key val : Bytes) :
    ((d.set key val).map Prod.fst).Nodup := by
  rw [Dict.keys_set]
  by_cases hm : key ∈ d.map Prod.fst
  · rwa [if_pos hm]
  · rw [if_neg hm]
    exact List.Nodup.append h (List.nodup_singleton key) (by simpa using hm)

theorem nodup_foldl_set (es : List (Bytes × Bytes)) {d : Dict} (h : (d.map Prod.fst).Nodup) :
    ((es.foldl (fun d e => d.set e.1 e.2) d).map Prod.fst).Nodup := by
  induction es generalizing d with
  | nil => exact h
  | cons e es ih =>
    rw [List.foldl_cons]
    exact ih (Dict.nodup_set h e.1 e.2)

theorem readhead_env {es : List (Bytes × Bytes)} (h : ∀ e ∈ es, NulFree e.1 ∧ NulFree e.2)
    (sk : Bytes) :
    readhead (numeral 10 (es.flatMap envText).length ++ 58 :: es.flatMap envText ++ 44 :: sk) =
      .ok (es.foldl (fun d e => Dict.set e.1 e.2 d) [], sk) := by
  unfold readhead
  rw [readns_netstring]
  simp only
  rw [splitOn_envText h, List.dropLast_concat, length_parts, if_neg (by omega), headLoop_parts]

theorem Entry.nulFree_pair (e : Entry) : NulFree e.pair.1 ∧ NulFree e.pair.2 := by
  cases e with
  | fmt name text => exact ⟨nulFree_cstr _, nulFree_cstr _⟩
  | kv name val => exact ⟨nulFree_cstr _, nulFree_cstr _⟩

/-- **SCGI round trip.** What `serve` sends of a request and its body is read by `readhead` as the
    environment that `mkcgienv` built, and what is left is the body. -/
theorem scgi_roundtrip (cwd : Bytes) (req : Hthead) (is : Infile) (os : File) (h : os.room = none) :
    ∃ stream body env, (sendreq cwd req is os).2.written = os.written ++ stream ∧
      readhead stream = .ok (env, body) ∧
      (env.map Prod.fst).Nodup ∧
      (∀ key, env.get key = lastVal ((scgienv cwd req).map Entry.pair) key) ∧
      body <+: is.left ∧ (is.bad = false → is.eof = false → body = is.left) := by
  obtain ⟨body, hw, hpre, hall⟩ := sendreq_spec cwd req is h
  have hnul : ∀ e ∈ (scgienv cwd req).map Entry.pair, NulFree e.1 ∧ NulFree e.2 := by
    intro e he
    obtain ⟨x, -, rfl⟩ := List.mem_map.mp he
    exact x.nulFree_pair
  refine ⟨_, body, _, hw, readhead_env hnul body, nodup_foldl_set _ List.nodup_nil, ?_, hpre, hall⟩
  intro key
  rw [get_foldl_set]
  exact Option.or_none

/-- A form that is posted. -/
def formRequest : Hthead :=
  { mkreq (bytes "POST") (bytes "/a?b") (bytes "HTTP/1.1") with
    rest := bytes "a"
    headers := [(bytes "Content-Length", bytes "3"), (bytes "X-A", bytes "1"), (bytes "X_A", bytes "2")] }

theorem scgi_roundtrip_form :
    ∃ stream body env, (sendreq (bytes "/srv") formRequest { left := bytes "c=d" } {}).2.written =
        [] ++ stream ∧
      readhead stream = .ok (env, body) ∧ (env.map Prod.fst).Nodup ∧
      (∀ key, Dict.get key env = lastVal ((scgienv (bytes "/srv") formRequest).map Entry.pair) key) ∧
      body <+: bytes "c=d" ∧ ((false = false) → (false = false) → body = bytes "c=d") :=
  scgi_roundtrip (bytes "/srv") formRequest { left := bytes "c=d" } {} rfl

end Ashd.Cgi
