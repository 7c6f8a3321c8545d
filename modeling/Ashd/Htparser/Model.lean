import Ashd.Common.Message
import Ashd.Lib.Req

/-!
# `src/htparser.c`

One connection as `serve` sees it: a `bufio` to the client, and for each request a
fresh socket pair to the root handler. Everything else that decides how a request
goes is in a `Round`: whether the handler can be reached, the headers that `initreq`
adds, and what the other end of the socket pair sends and takes.

`serveOnce` is the body of the `while` loop of `serve`; it gives the `bufio` to the
client with which the loop goes round, or nothing if it is left. What `passduplex`
relays on a connection that is given up to a handler comes after that.
-/

namespace Ashd

open Message (CRLF)

/-! ## Parsing requests -/

/-- The prefix `"x-ash-"`. -/
def xash : Bytes := bytes "x-ash-"

/-- `trimx` (src/htparser.c:46–61). -/
def trimx (req : Hthead) : Hthead :=
  { req with headers := req.headers.filter fun h => !hasPrefixCase xash h.1 }

/-- The three loops of `parsereq`. -/
def methodStep : Bytes → UInt8 → Next Bytes Bytes := wordStep 128 128

@[inherit_doc methodStep]
def urlStep : Bytes → UInt8 → Next Bytes Bytes := wordStep 256 65536

@[inherit_doc methodStep]
def reqverStep : Bytes → UInt8 → Next Bytes Bytes := lineStep 128 128

/-- `parsereq` (src/htparser.c:63–129) over any `getc`. -/
def parsereqFrom {α : Type*} (getc : α → Option UInt8 × α) (left : ℕ) (a : α) : Option Hthead × α :=
  andThen (scan getc methodStep left [] a) fun method a =>
    andThen (scan getc urlStep left [] a) fun url a =>
      andThen (scan getc reqverStep left [] a) fun ver a =>
        andThen (parseheaders getc (mkreq method url ver) a) fun req a => (some (trimx req), a)

/-- `parsereq`. -/
def parsereq (inb : Bufio) : Option Hthead × Bufio :=
  parsereqFrom biogetc (inb.unread.length + 1) inb

/-- `hasheader` (src/htparser.c:227–234). -/
def hasheader (head : Hthead) (name val : Bytes) : Bool :=
  match getheader head name with
  | none => false
  | some hd => strcaseeq hd val

/-- `strstr(s, needle)` for a non-empty `needle`: what comes before the match, and the rest
    from the match on. -/
def strstr (needle : Bytes) : Bytes → Option (Bytes × Bytes)
  | [] => none
  | c :: s =>
    if needle.isPrefixOf (c :: s) then some ([], c :: s)
    else (strstr needle s).map fun r => (c :: r.1, r.2)

/-- `replrest(req, url + 1)`, and the query string cut off. -/
def restFromUrl (req : Hthead) : Hthead := replrest req (req.url.tail.takeWhile (· ≠ 63))

/-- `canonreq` (src/htparser.c:236–269), with `none` for 0. -/
def canonreq (req : Hthead) : Option Hthead :=
  if req.url.head? = some 47 then some (restFromUrl req)
  else
    match strstr (bytes "://") req.url with
    | none => none
    | some (scheme, p) =>
      if strcaseeq scheme (bytes "http") ∨ strcaseeq scheme (bytes "https") then
        if (getheader req (bytes "host")).isSome then none
        else
          let p := p.drop 3
          let req := headappheader req (bytes "Host") (p.takeWhile (· ≠ 47))
          match p.dropWhile (· ≠ 47) with
          | [] => some (restFromUrl { req with url := bytes "/" })
          | r => some (restFromUrl { req with url := r })
      else none

/-! ## Copying bodies -/

/-- A bound on the rounds of the loops that copy from `inb` to `out`: every round takes
    bytes out of `inb` or drains `out`, or fills the buffer of `inb`. -/
def copyFuel (inb out : Bufio) : ℕ := 2 * inb.unread.length + inb.src.avail.length + biowdata out + 2

/-- The first half of a round of `passdata` and of the inner loop of `recvchunks`: copy at
    most `lim` of the buffered bytes, with `none` for a failure. -/
def copyRound (lim : ℕ) (inb out : Bufio) : Option ℕ × Bufio × Bufio :=
  if biordata inb > 0 then
    match biowritesome out (peek inb.rbuf.b inb.rh (min lim (biordata inb))) with
    | (read, out) => if read < 0 then (none, inb, out) else (some read.toNat, inb.skip read.toNat, out)
  else (some 0, inb, out)

/-- The loop of `passdata`. -/
def passdataLoop (max : ℤ) : ℕ → ℤ → Bufio → Bufio → ℤ × Bufio × Bufio
  | 0, total, inb, out => (total, inb, out)
  | fuel + 1, total, inb, out =>
    if bioeof inb = false ∧ (max < 0 ∨ total < max) then
      match copyRound (if max ≥ 0 then (max - total).toNat else biordata inb) inb out with
      | (none, inb, out) => (-1, inb, out)
      | (some read, inb, out) =>
        let total := total + read
        if biorspace inb > 0 ∧ (max < 0 ∨ (biordata inb : ℤ) < max - total) then
          match biofillsome inb with
          | (ret, inb) =>
            if ret < 0 then (-1, inb, out) else passdataLoop max fuel total inb out
        else passdataLoop max fuel total inb out
    else (total, inb, out)

/-- `passdata` (src/htparser.c:131–150), with the new states of `in` and `out`. -/
def passdata (inb out : Bufio) (max : ℤ) : ℤ × Bufio × Bufio :=
  passdataLoop max (copyFuel inb out) 0 inb out

/-- A 64-bit signed value: `chlen << 4` keeps the low 64 bits. -/
def ssize (n : ℤ) : ℤ := n.bmod (2 ^ 64)

/-- The loop of `recvchunks` over a chunk-size line, with `chlen` and `r`
    (src/htparser.c:160–183). -/
def sizeStep (s : ℤ × Bool) (c : UInt8) : Next (ℤ × Bool) ℤ :=
  if c = 10 then if s.2 then .stop s.1 else .fail
  else if c = 13 then .more s
  else
    match digitVal c with
    | some d => .more (ssize (s.1 * 16 + d), true)
    | none => .fail

/-- The loop of `recvchunks` over the data of a chunk (src/htparser.c:186–195), with
    `false` for a failure. -/
def chunkLoop : ℕ → ℤ → Bufio → Bufio → Bool × Bufio × Bufio
  | 0, _, inb, out => (false, inb, out)
  | fuel + 1, chlen, inb, out =>
    if chlen > 0 then
      match copyRound chlen.toNat inb out with
      | (none, inb, out) => (false, inb, out)
      | (some read, inb, out) =>
        let chlen := chlen - read
        if biorspace inb > 0 ∧ (biordata inb : ℤ) < chlen then
          match biofillsome inb with
          | (ret, inb) => if ret ≤ 0 then (false, inb, out) else chunkLoop fuel chlen inb out
        else chunkLoop fuel chlen inb out
    else (true, inb, out)

/-- `(biogetc(in) != 13) || (biogetc(in) != 10)`, negated. -/
def getcrlf (inb : Bufio) : Bool × Bufio :=
  match biogetc inb with
  | (some 13, inb) =>
    match biogetc inb with
    | (some 10, inb) => (true, inb)
    | (_, inb) => (false, inb)
  | (_, inb) => (false, inb)

/-- The outer loop of `recvchunks`. -/
def recvchunksLoop : ℕ → Bufio → Bufio → ℤ × Bufio × Bufio
  | 0, inb, out => (-1, inb, out)
  | fuel + 1, inb, out =>
    match scan biogetc sizeStep (inb.unread.length + 1) (0, false) inb with
    | (none, inb) => (-1, inb, out)
    | (some chlen, inb) =>
      if chlen = 0 then
        match getcrlf inb with
        | (ok, inb) => (if ok then 0 else -1, inb, out)
      else
        match chunkLoop (copyFuel inb out) chlen inb out with
        | (false, inb, out) => (-1, inb, out)
        | (true, inb, out) =>
          match getcrlf inb with
          | (true, inb) => recvchunksLoop fuel inb out
          | (false, inb) => (-1, inb, out)

/-- `recvchunks` (src/htparser.c:152–204), with the new states of `in` and `out`. -/
def recvchunks (inb out : Bufio) : ℤ × Bufio × Bufio :=
  recvchunksLoop (inb.unread.length + 1) inb out

/-- The first half of a round of `passchunks`: the buffered bytes are written as one chunk.
    The results of `bioprintf` are not looked at. -/
def chunkRound (inb out : Bufio) : Bool × Bufio × Bufio :=
  if biordata inb > 0 then
    let read := biordata inb
    match bioprintf out 5 (numeral 16 read ++ CRLF) with
    | (_, out) =>
      match biowrite out (peek inb.rbuf.b inb.rh read) with
      | (ret, out) =>
        if ret ≠ read then (false, inb, out)
        else
          match bioprintf out 2 CRLF with
          | (_, out) =>
            match bioflush out with
            | (ret, out) => (decide (ret ≥ 0), inb.skip read, out)
  else (true, inb, out)

/-- The loop of `passchunks`. -/
def passchunksLoop : ℕ → Bufio → Bufio → ℤ × Bufio × Bufio
  | 0, inb, out => (-1, inb, out)
  | fuel + 1, inb, out =>
    if bioeof inb = false then
      match chunkRound inb out with
      | (false, inb, out) => (-1, inb, out)
      | (true, inb, out) =>
        if biorspace inb > 0 then
          match biofillsome inb with
          | (ret, inb) => if ret < 0 then (-1, inb, out) else passchunksLoop fuel inb out
        else passchunksLoop fuel inb out
    else (0, inb, (bioprintf out 5 (48 :: CRLF ++ CRLF)).2)

/-- `passchunks` (src/htparser.c:206–225), with the new states of `in` and `out`. -/
def passchunks (inb out : Bufio) : ℤ × Bufio × Bufio :=
  passchunksLoop (inb.unread.length + inb.src.avail.length + 2) inb out

/-! ## Serving a connection -/

/-- A header that the programs of ashd add to a request: its name has the prefix that
    `trimx` strips from what the client sent. -/
structure AshHeader where
  name : Bytes
  val : Bytes
  ash : hasPrefixCase xash name = true
  nulFree : NulFree name ∧ NulFree val

/-- Appending such headers, as the `initreq` functions do (src/plaintcp.c:129–147,
    src/ssl-gnutls.c:269–292, src/ssl-openssl.c:144–161; none of them fails). -/
def appendAsh (req : Hthead) (xs : List AshHeader) : Hthead :=
  { req with headers := req.headers ++ xs.map fun x => (x.name, x.val) }

/-- What decides the course of one round of `serve`, besides the client: whether the root
    handler takes a request within 60 seconds, whether `socketpair` and `sendreq` succeed,
    what `initreq` adds, and the other end of the socket pair: what the handler writes to it
    before it closes it, and how the reads and the writes of `serve` go. -/
structure Round where
  ready : Bool
  socketpair : Bool
  sendreq : Bool
  initreq : List AshHeader
  response : Bytes
  reads : List Answer := []
  writes : List Answer := []

/-- The `bufio` that `mtbioopen` makes of the socket pair. -/
def Round.out (round : Round) : Bufio :=
  bioopen { avail := round.response, sched := round.reads } { sched := round.writes }

/-- `http10keep` (src/htparser.c:271–285), with the new state of `resp`. -/
def http10keep (req resp : Hthead) : Bool × Hthead :=
  let fc := hasheader resp (bytes "connection") (bytes "close")
  let resp := headrmheader resp (bytes "connection")
  if !fc && hasheader req (bytes "connection") (bytes "keep-alive") then
    (true, headappheader resp (bytes "Connection") (bytes "Keep-Alive"))
  else (false, resp)

/-- The request as it is passed to the handler: parsed, brought into canonical form and
    with the headers that tell where it came from (src/htparser.c:364–372). -/
def acceptreq (id : Bytes) (round : Round) (inb : Bufio) : Option (Hthead × Bufio) :=
  let inb := (bioflush inb).2
  match parsereq inb with
  | (none, _) => none
  | (some req, inb) =>
    match canonreq req with
    | none => none
    | some req =>
      let req := headappheader req (bytes "X-Ash-Connection-ID") id
      some (appendAsh req round.initreq, inb)

/-- Passing the request body (src/htparser.c:383–400). -/
def passreq (req : Hthead) (inb out : Bufio) : Option (Hthead × Bufio × Bufio) :=
  if (getheader req (bytes "content-type")).isSome then
    match getheader req (bytes "content-length") with
    | some hd =>
      let dlen := atoo hd
      if dlen > 0 then
        match passdata inb out dlen with
        | (ret, inb, out) => if ret ≠ dlen then none else some (req, inb, out)
      else some (req, inb, out)
    | none =>
      if hasheader req (bytes "transfer-encoding") (bytes "chunked") then
        match recvchunks inb out with
        | (ret, inb, out) => if ret ≠ 0 then none else some (req, inb, out)
      else some (headrmheader req (bytes "content-type"), inb, out)
  else some (req, inb, out)

/-- Getting the response head into its final form (src/htparser.c:404–411), with `duplex`. -/
def fixresp (req resp : Hthead) : Bool × Hthead :=
  let resp := { resp with ver := req.ver }
  let resp := if (getheader resp (bytes "server")).isSome then resp
    else headappheader resp (bytes "Server") (bytes "ashd/0.13")
  (hasheader resp (bytes "x-ash-switch") (bytes "duplex"), trimx resp)

/-- `writerespb(in, resp); bioprintf(in, "\r\n")`. -/
def writehead (resp : Hthead) (inb : Bufio) : Bufio :=
  (bioprintf (writerespb inb resp).2 2 CRLF).2

/-- Passing the response to an HTTP/1.0 client (src/htparser.c:424–446): the new state of
    `in`, unless the loop is left. -/
def passresp10 (req resp : Hthead) (inb out : Bufio) : Option Bufio :=
  if strcaseeq req.method (bytes "head") then
    let (keep, resp) := http10keep req resp
    let inb := writehead resp inb
    if keep then some inb else none
  else
    match getheader resp (bytes "content-length") with
    | some hd =>
      let (keep, resp) := http10keep req resp
      let dlen := atoo hd
      match passdata out (writehead resp inb) dlen with
      | (ret, _, inb) => if ret ≠ dlen then none else if keep then some inb else none
    | none => none

/-- Passing the response to an HTTP/1.1 client (src/htparser.c:447–467). -/
def passresp11 (req resp : Hthead) (inb out : Bufio) : Option Bufio :=
  let keep (resp : Hthead) (inb : Bufio) : Option Bufio :=
    if hasheader req (bytes "connection") (bytes "close") ∨
        hasheader resp (bytes "connection") (bytes "close") then none
    else some inb
  if strcaseeq req.method (bytes "head") then keep resp (writehead resp inb)
  else
    match getheader resp (bytes "content-length") with
    | some hd =>
      let dlen := atoo hd
      match passdata out (writehead resp inb) dlen with
      | (ret, _, inb) => if ret ≠ dlen then none else keep resp inb
    | none =>
      if (getheader resp (bytes "transfer-encoding")).isSome then none
      else
        let resp := headappheader resp (bytes "Transfer-Encoding") (bytes "chunked")
        match passchunks out (writehead resp inb) with
        | (ret, _, inb) => if ret ≠ 0 then none else keep resp inb

/-- The rest of a round, once the request has been passed on (src/htparser.c:402–469). -/
def passresp (req : Hthead) (inb out : Bufio) : Option Bufio :=
  match parseresponseb out with
  | (none, _) => none
  | (some resp, out) =>
    let (duplex, resp) := fixresp req resp
    if duplex then none
    else if strcaseeq req.ver (bytes "HTTP/1.0") then passresp10 req resp inb out
    else if strcaseeq req.ver (bytes "HTTP/1.1") then passresp11 req resp inb out
    else none

/-- One round of the loop of `serve` (src/htparser.c:363–476). -/
def serveOnce (id : Bytes) (round : Round) (inb : Bufio) : Option Bufio :=
  match acceptreq id round inb with
  | none => none
  | some (req, inb) =>
    if round.ready && round.socketpair && round.sendreq then
      match passreq req inb round.out with
      | none => none
      | some (req, inb, out) =>
        match bioflush out with
        | (ret, out) => if ret ≠ 0 then none else passresp req inb out
    else none

end Ashd
