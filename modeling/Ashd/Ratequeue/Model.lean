import Ashd.Common.Probe
import Ashd.Lib.Req
import Mathlib.Algebra.Order.Field.Basic

/-!
# The rate limiter

The buckets of `ratequeue`, the table in which they are found by their source, the heap
of the times at which they are to be looked at, and what is done for a request and at such
a time. Numbers of type `double` are elements of an ordered field.

A pointer to a bucket is the number of its allocation, and `mem` is the memory that these
point to. Allocations succeed, but for a table of 2^31 pointers, for which the size that is
asked of `smalloc` overflows; `sendreq` succeeds. (Where either fails, the program ends.)

Main definitions:
* `hashget`, `hashdel`, `rehash`: the table.
* `thraise`, `thlower`, `thadjust`: the heap.
* `serve`, `checkbtime`: the two things that happen to a bucket.
-/

namespace Ashd.Ratequeue

open Probe (Slots search)

def SBUCKETS : ℕ := 7

/-- `struct source` (src/ratequeue.c:43–47). Of `data`, only the first `len` bytes. -/
structure Source where
  type : ℕ := 0
  data : Bytes := []
  hash : UInt32 := 0
  deriving DecidableEq

def Source.len (src : Source) : ℕ := src.data.length

/-- `struct waiting` (src/ratequeue.c:49–52). -/
structure Waiting where
  req : Hthead
  fd : ℤ

/-- `struct bucket` (src/ratequeue.c:54–59). -/
structure Bucket (α : Type*) where
  id : Source
  level : α
  last : α
  etime : α
  wtime : α
  brim : List Waiting
  thpos : ℤ
  blocked : ℤ

/-- `struct btime` (src/ratequeue.c:61–64). -/
structure Btime (α : Type*) where
  bk : ℕ
  tm : α

/-- `struct config` (src/ratequeue.c:66–69). -/
structure Config (α : Type*) where
  size : α
  rate : α
  retain : α
  warnrate : α
  brimsize : Int32

/-- The variables of the program (src/ratequeue.c:71–81), and its memory: `sbuckets` is
    whether `buckets` is the table of that name, and `fresh` is the next bucket to be
    allocated. -/
structure State (α : Type*) where
  buckets : Slots ℕ
  sbuckets : Bool
  hashlen : ℕ
  nbuckets : ℕ
  timeheap : List (Btime α)
  now : α
  mem : ℕ → Bucket α
  fresh : ℕ

/-- How a call may end the program. -/
inductive Abort
  /-- An assertion fails. -/
  | assert
  /-- A loop does not end. -/
  | loop
  /-- There is not enough memory. -/
  | nomem
  deriving DecidableEq

variable {α : Type*}

/-- The program when it starts. -/
def start [Zero α] (now : α) : State α where
  buckets := fun _ => none
  sbuckets := true
  hashlen := SBUCKETS
  nbuckets := 0
  timeheap := []
  now := now
  mem := fun _ =>
    { id := {}, level := 0, last := 0, etime := 0, wtime := 0, brim := [], thpos := 0, blocked := 0 }
  fresh := 0

/-! ## Sources -/

def AF_INET : ℕ := 2

def AF_INET6 : ℕ := 10

/-- `reqsource` (src/ratequeue.c:98–118), with `inet_pton` of the C library; `char` is
    signed. -/
def reqsource (inet_pton : ℕ → Bytes → Option Bytes) (req : Hthead) : Source :=
  let ret : Source :=
    match getheader req (bytes "X-Ash-Address") with
    | none => {}
    | some sa =>
      match inet_pton AF_INET sa with
      | some a4 => { type := AF_INET, data := a4 }
      | none =>
        match inet_pton AF_INET6 sa with
        | some a6 => { type := AF_INET6, data := a6 }
        | none => {}
  { ret with
    hash := ret.data.foldl (fun h c => h * 31 + c.toInt8.toInt32.toUInt32) (UInt32.ofNat ret.type) }

/-- Whether `srccmp` (src/ratequeue.c:120–129) is 0. -/
def srccmp (a b : Source) : Bool := a.len = b.len ∧ a.type = b.type ∧ a.data = b.data

/-! ## The table -/

/-- The difference of two numbers of type `unsigned int`. -/
def usub (a b : ℕ) : ℕ := (a + 2 ^ 32 - b) % 2 ^ 32

/-- The slot of a table of `2 ^ hashlen` slots at which the search for a source begins. -/
def home (hashlen : ℕ) (src : Source) : ℕ := src.hash.toNat % 2 ^ hashlen

/-- The loop of `rehash` over the first `pl` slots of the old table. -/
def rehashLoop (s : State α) (nlen : ℕ) : ℕ → Slots ℕ
  | 0 => fun _ => none
  | pl + 1 =>
    let new := rehashLoop s nlen pl
    match s.buckets pl with
    | none => new
    | some bk =>
      match search (2 ^ nlen) Option.isNone new (2 ^ nlen) (home nlen (s.mem bk).id) with
      | some o => Function.update new o (some bk)
      | none => new

/-- `rehash` (src/ratequeue.c:154–185). -/
def rehash (nlen : ℕ) (s : State α) : Except Abort (State α) :=
  let sbuckets := decide (nlen ≤ SBUCKETS)
  let nlen := if nlen ≤ SBUCKETS then SBUCKETS else nlen
  if nlen > 30 then .error .nomem
  else if nlen = s.hashlen then .ok s
  else if s.sbuckets && sbuckets then .error .assert
  else .ok { s with
    buckets := rehashLoop s nlen (2 ^ s.hashlen), sbuckets := sbuckets, hashlen := nlen }

/-- The first loop of `hashget`. -/
def lookup (src : Source) (s : State α) : Option ℕ :=
  (search (2 ^ s.hashlen) (fun o => o.any fun bk => srccmp (s.mem bk).id src) s.buckets (2 ^ s.hashlen)
    (home s.hashlen src)).bind s.buckets

/-- A bucket as `hashget` makes it. -/
def newBucket [Zero α] (src : Source) (now : α) : Bucket α :=
  { id := src, level := 0, last := now, etime := now, wtime := 0, brim := [], thpos := -1, blocked := -1 }

/-- `hashget` (src/ratequeue.c:187–207). -/
def hashget [Zero α] (src : Source) (s : State α) : Except Abort (ℕ × State α) :=
  match lookup src s with
  | some bk => .ok (bk, s)
  | none =>
    match search (2 ^ s.hashlen) Option.isNone s.buckets (2 ^ s.hashlen) (home s.hashlen src) with
    | none => .error .loop
    | some i =>
      let bk := s.fresh
      let s := { s with
        buckets := Function.update s.buckets i (some bk)
        nbuckets := s.nbuckets + 1
        fresh := s.fresh + 1
        mem := Function.update s.mem bk (newBucket src s.now) }
      if s.nbuckets > 2 ^ (s.hashlen - 1) then (rehash (s.hashlen + 1) s).map fun s => (bk, s)
      else .ok (bk, s)

/-- The second loop of `hashdel`, for at most as many slots as there are. -/
def shiftLoop (s : State α) : ℕ → ℕ → ℕ → Slots ℕ → Option (Slots ℕ)
  | 0, _, _, _ => none
  | n + 1, i, o, t =>
    match t o with
    | none => some t
    | some sb =>
      let p := usub (s.mem sb).id.hash.toNat i % 2 ^ s.hashlen
      if p = 0 ∨ p > usub o i % 2 ^ s.hashlen then
        shiftLoop s n o ((o + 1) % 2 ^ s.hashlen) (Function.update (Function.update t i (some sb)) o none)
      else shiftLoop s n i ((o + 1) % 2 ^ s.hashlen) t

/-- `hashdel` (src/ratequeue.c:209–233). The first loop stops at a slot that is free, where
    the first assertion fails, or that holds a bucket of the same source. -/
def hashdel (bk : ℕ) (s : State α) : Except Abort (State α) :=
  let N := 2 ^ s.hashlen
  match search N (fun o => o.all fun sb => srccmp (s.mem sb).id (s.mem bk).id) s.buckets N
      (home s.hashlen (s.mem bk).id) with
  | none => .error .assert
  | some i =>
    if s.buckets i ≠ some bk then .error .assert
    else
      match shiftLoop s N i ((i + 1) % N) (Function.update s.buckets i none) with
      | none => .error .loop
      | some t =>
        let s := { s with buckets := t, nbuckets := s.nbuckets - 1 }
        if s.nbuckets ≤ 2 ^ (s.hashlen - 3) then rehash (s.hashlen - 1) s else .ok s

/-! ## The heap -/

/-- `timeheap.b[n]`. -/
def State.heapAt [Zero α] (s : State α) (n : ℕ) : Btime α := s.timeheap.getD n { bk := 0, tm := 0 }

/-- Writing to the bucket at `bk`. -/
def State.store (s : State α) (bk : ℕ) (b : Bucket α) : State α :=
  { s with mem := Function.update s.mem bk b }

/-- `(timeheap.b[n] = bt).bk->thpos = n`. -/
def State.heapSet (s : State α) (n : ℕ) (bt : Btime α) : State α :=
  { s with timeheap := s.timeheap.set n bt }.store bt.bk { s.mem bt.bk with thpos := n }

section Heap

variable [Zero α] [LinearOrder α]

/-- The loop of `thraise`, for at most `n` rounds. -/
def thraiseLoop (bt : Btime α) : ℕ → ℕ → State α → State α
  | 0, n, s => s.heapSet n bt
  | fuel + 1, n, s =>
    if n > 0 then
      let p := (n - 1) / 2
      if (s.heapAt p).tm ≤ bt.tm then s.heapSet n bt
      else thraiseLoop bt fuel p (s.heapSet n (s.heapAt p))
    else s.heapSet n bt

/-- `thraise` (src/ratequeue.c:235–247). -/
def thraise (bt : Btime α) (n : ℕ) (s : State α) : State α := thraiseLoop bt n n s

/-- The loop of `thlower`, for at most as many rounds as there are entries. -/
def thlowerLoop (bt : Btime α) : ℕ → ℕ → State α → State α
  | 0, n, s => s.heapSet n bt
  | fuel + 1, n, s =>
    let c1 := 2 * n + 1
    let c2 := c1 + 1
    if c1 ≥ s.timeheap.length then s.heapSet n bt
    else
      let c := if c2 < s.timeheap.length ∧ (s.heapAt c2).tm < (s.heapAt c1).tm then c2 else c1
      if (s.heapAt c).tm > bt.tm then s.heapSet n bt
      else thlowerLoop bt fuel c (s.heapSet n (s.heapAt c))

/-- `thlower` (src/ratequeue.c:249–264). -/
def thlower (bt : Btime α) (n : ℕ) (s : State α) : State α :=
  thlowerLoop bt s.timeheap.length n s

/-- `thadjust` (src/ratequeue.c:266–272). -/
def thadjust (bt : Btime α) (n : ℕ) (s : State α) : State α :=
  if n > 0 ∧ (s.heapAt ((n - 1) / 2)).tm > bt.tm then thraise bt n s else thlower bt n s

/-- Taking a bucket out of the heap, in `freebucket`. -/
def thremove (thpos : ℤ) (s : State α) : State α :=
  if thpos ≥ 0 then
    let r := s.heapAt (s.timeheap.length - 1)
    let s := { s with timeheap := s.timeheap.dropLast }
    if thpos < s.timeheap.length then thadjust r thpos.toNat s else s
  else s

/-- `freebucket` (src/ratequeue.c:274–291), with the requests that are closed. -/
def freebucket (bk : ℕ) (s : State α) : Except Abort (State α × List Waiting) :=
  (hashdel bk s).map fun s => (thremove (s.mem bk).thpos s, (s.mem bk).brim)

end Heap

/-! ## The buckets -/

section Buckets

variable [Field α] [LinearOrder α] (cf : Config α)

/-- The time at which a bucket is to be looked at (src/ratequeue.c:297–304). -/
def btime (b : Bucket α) : α :=
  let tm := if b.level = 0 then b.etime + cf.retain else b.last + b.level / cf.rate + cf.retain
  let tm := if b.blocked > 0 ∧ b.wtime + cf.warnrate > tm then b.wtime + cf.warnrate else tm
  let tm := if b.brim.length > 0 ∧ b.last + (b.level - cf.size) / cf.rate < tm then
    b.last + (b.level - cf.size) / cf.rate else tm
  if b.blocked > 0 ∧ b.wtime + cf.warnrate < tm then b.wtime + cf.warnrate else tm

/-- `updbtime` (src/ratequeue.c:293–312). -/
def updbtime (bk : ℕ) (s : State α) : State α :=
  let bt : Btime α := { bk := bk, tm := btime cf (s.mem bk) }
  if (s.mem bk).thpos < 0 then
    thraise bt s.timeheap.length { s with timeheap := s.timeheap ++ [bt] }
  else thadjust bt (s.mem bk).thpos.toNat s

/-- The loop of `tickbucket` that passes requests on (src/ratequeue.c:326–335): those that
    are, the new level and those that still wait. -/
def release : α → List Waiting → List Waiting × α × List Waiting
  | level, [] => ([], level, [])
  | level, w :: brim =>
    if level < cf.size then
      match release (level + 1) brim with
      | (sent, level, brim) => (w :: sent, level, brim)
    else ([], level, w :: brim)

/-- The leak of a bucket (src/ratequeue.c:318–325). -/
def leak (now : α) (b : Bucket α) : Bucket α :=
  let delta := now - b.last
  let level := b.level - delta * cf.rate
  if level < 0 then
    { b with
      last := now, level := 0
      etime := if b.level > 0 then now + level / cf.rate else b.etime }
  else { b with last := now, level := level }

/-- `tickbucket` (src/ratequeue.c:314–341), with the requests that are passed on. -/
def tickbucket (now : α) (b : Bucket α) : Bucket α × List Waiting :=
  let b := leak cf now b
  match release cf b.level b.brim with
  | (sent, level, brim) =>
    let b := { b with level := level, brim := brim }
    (if b.blocked > 0 ∧ now - b.wtime ≥ cf.warnrate then { b with blocked := 0, wtime := now } else b,
      sent)

/-- What becomes of a request: it is passed on to the child, answered with a 429, or closed
    without an answer. -/
inductive Event
  | passed (w : Waiting)
  | refused (w : Waiting)
  | closed (w : Waiting)

/-- `checkbtime` (src/ratequeue.c:343–351). -/
def checkbtime (bk : ℕ) (s : State α) : Except Abort (State α × List Event) :=
  match tickbucket cf s.now (s.mem bk) with
  | (b, sent) =>
    let s := s.store bk b
    let sent := sent.map Event.passed
    if b.level = 0 ∧ s.now ≥ b.etime + cf.retain ∧ b.blocked ≤ 0 then
      (freebucket bk s).map fun r => (r.1, sent ++ r.2.map Event.closed)
    else .ok (updbtime cf bk s, sent)

/-- A bucket that refuses a request (src/ratequeue.c:373–381). -/
def block (now : α) (b : Bucket α) : Bucket α :=
  let b := if b.blocked < 0 then { b with blocked := 0, wtime := now } else b
  { b with blocked := b.blocked + 1 }

/-- What `serve` does with a request, given its bucket (src/ratequeue.c:361–382);
    `brimsize` is compared to a number of type `size_t`. -/
def serveBucket (now : α) (w : Waiting) (b : Bucket α) : Bucket α × List Event :=
  if b.level < cf.size then ({ b with level := b.level + 1 }, [.passed w])
  else if (b.brim.length : ℤ) < cf.brimsize.toInt % 2 ^ 64 then ({ b with brim := b.brim ++ [w] }, [])
  else (block now b, [.refused w])

/-- `serve` (src/ratequeue.c:353–384), where `now` is what `rtime` returns. -/
def serve (inet_pton : ℕ → Bytes → Option Bytes) (now : α) (w : Waiting) (s : State α) :
    Except Abort (State α × List Event) :=
  match hashget (reqsource inet_pton w.req) { s with now := now } with
  | .error e => .error e
  | .ok (bk, s) =>
    match tickbucket cf now (s.mem bk) with
    | (b, sent) =>
      match serveBucket cf now w b with
      | (b, evs) => .ok (updbtime cf bk (s.store bk b), sent.map Event.passed ++ evs)

end Buckets

end Ashd.Ratequeue
