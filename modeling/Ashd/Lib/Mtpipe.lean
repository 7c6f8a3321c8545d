import Ashd.Common.Bytes

/-!
# The pipes of `lib/mtio.c`

`piperead`, `piperclose`, `pipewrite` and `pipewclose`, as a thread that reads and a thread that
writes call them. Threads are coroutines (lib/mt.c): of those that run, `current` is the first,
and the others have each resumed the one before. A step goes on until a thread is resumed,
yields or returns from its call. In between, and in all other threads, anything may be done: a
thread that is in no call may yield elsewhere, end, and resume or start any thread that does not
run, be it parked here or elsewhere.

Main definitions:
* `piperead`, `pipewrite`, `piperclose`, `pipewclose`.
* `Sys`: the pipe, where the two threads are, and what has come of it.
* `Step`: what the threads do.
-/

namespace Ashd.Mtpipe

inductive Thread
  | reader
  | writer
  | other (id : ℕ)
  deriving DecidableEq

/-- `struct pipe` (lib/mtio.c:229–234). -/
structure Pipe where
  data : Bytes := []
  bufmax : ℕ
  /-- `closed & 1`. -/
  rclosed : Bool := false
  /-- `closed & 2`. -/
  wclosed : Bool := false
  r : Option Thread := none
  w : Option Thread := none

/-- Where the reading thread is. -/
inductive Reading
  | outside
  /-- In `yield`, at the top of the loop of `piperead`. -/
  | parked (len : ℕ)
  /-- In `resume`, at the end of `piperead`. -/
  | resuming
  /-- In `resume`, in `piperclose`. -/
  | closing
  /-- It has closed its end. -/
  | closed

/-- Where the writing thread is. -/
inductive Writing
  | outside
  | parked (buf : Bytes)
  /-- In `resume`, at the end of `pipewrite`, which is to return that it has written `sent`. -/
  | resuming (sent : Bytes)
  | closing
  | closed

structure Sys where
  pipe : Pipe
  /-- The threads that run, `current` first. -/
  running : List Thread := []
  reader : Reading := .outside
  writer : Writing := .outside
  /-- What `piperead` has put into its buffers. -/
  got : Bytes := []
  /-- What `pipewrite` has returned that it has written. -/
  reported : Bytes := []
  frees : ℕ := 0
  /-- A call has failed with `EBUSY`. -/
  busy : Bool := false
  /-- `resume` has aborted. -/
  aborted : Bool := false
  /-- The pipe has been used after it was freed. -/
  stale : Bool := false

/-- The pipe is used. -/
def Sys.touch (s : Sys) : Sys := if s.frees > 0 then { s with stale := true } else s

/-- `resume` (lib/mt.c:101–115). A thread that runs has `last` set. -/
def Sys.resume (s : Sys) (muth : Thread) : Sys :=
  if muth ∈ s.running then { s with aborted := true } else { s with running := muth :: s.running }

/-- `yield` (lib/mt.c:89–99). -/
def Sys.yield (s : Sys) : Sys := { s with running := s.running.tail }

/-- `if(p->w) resume(p->w, 0)`. -/
def Sys.resumew (s : Sys) : Sys :=
  match s.pipe.w with
  | some w => s.resume w
  | none => s

/-- `if(p->r) resume(p->r, 0)`. -/
def Sys.resumer (s : Sys) : Sys :=
  match s.pipe.r with
  | some r => s.resume r
  | none => s

/-- `freepipe` (lib/mtio.c:236–240). -/
def Sys.freepipe (s : Sys) : Sys := { s with frees := s.frees + 1 }

/-- `piperead` from the test of its loop on (lib/mtio.c:247–263). -/
def readloop (s : Sys) (len : ℕ) : Sys :=
  if s.pipe.data = [] then
    if s.pipe.wclosed then s
    else if s.pipe.r.isSome then { s with busy := true }
    else { s with pipe.r := some .reader, reader := .parked len }.yield
  else
    let s := { s with pipe.data := s.pipe.data.drop len, got := s.got ++ s.pipe.data.take len }
    if s.pipe.w.isSome then { s with reader := .resuming }.resumew else s

/-- `piperead` (lib/mtio.c:242–264). -/
def piperead (s : Sys) (len : ℕ) : Sys := readloop s.touch len

/-- `piperclose` (lib/mtio.c:266–278). -/
def piperclose (s : Sys) : Sys :=
  let s := s.touch
  if s.pipe.wclosed then { s with reader := .closed }.freepipe
  else
    let s := { s with pipe.rclosed := true }
    if s.pipe.w.isSome then { s with reader := .closing }.resumew else { s with reader := .closed }

/-- `pipewrite` from the test of its loop on (lib/mtio.c:289–308). -/
def writeloop (s : Sys) (buf : Bytes) : Sys :=
  if s.pipe.data.length ≥ s.pipe.bufmax then
    if s.pipe.w.isSome then { s with busy := true }
    else { s with pipe.w := some .writer, writer := .parked buf }.yield
  else
    let sent := buf.take (s.pipe.bufmax - s.pipe.data.length)
    let s := { s with pipe.data := s.pipe.data ++ sent }
    if s.pipe.r.isSome then { s with writer := .resuming sent }.resumer
    else { s with reported := s.reported ++ sent }

/-- `pipewrite` (lib/mtio.c:280–309). -/
def pipewrite (s : Sys) (buf : Bytes) : Sys :=
  let s := s.touch
  if s.pipe.rclosed then s else writeloop s buf

/-- `pipewclose` (lib/mtio.c:311–323). -/
def pipewclose (s : Sys) : Sys :=
  let s := s.touch
  if s.pipe.rclosed then { s with writer := .closed }.freepipe
  else
    let s := { s with pipe.wclosed := true }
    if s.pipe.r.isSome then { s with writer := .closing }.resumer else { s with writer := .closed }

/-- The reading thread goes on, from where it is in a call. -/
def readcont (s : Sys) : Option Sys :=
  match s.reader with
  | .parked len => some (readloop { s.touch with pipe.r := none, reader := .outside } len)
  | .resuming => some { s with reader := .outside }
  | .closing => some { s with reader := .closed }
  | .outside | .closed => none

/-- The writing thread goes on. -/
def writecont (s : Sys) : Option Sys :=
  match s.writer with
  | .parked buf =>
    let s := { s.touch with pipe.w := none, writer := .outside }
    some (if s.pipe.rclosed then s else writeloop s buf)
  | .resuming sent => some { s with writer := .outside, reported := s.reported ++ sent }
  | .closing => some { s with writer := .closed }
  | .outside | .closed => none

/-- The thread is in none of the calls. -/
def Sys.free (s : Sys) : Option Thread → Prop
  | some .reader => s.reader = .outside ∨ s.reader = .closed
  | some .writer => s.writer = .outside ∨ s.writer = .closed
  | _ => True

/-- What `current` does. -/
inductive Step : Sys → Sys → Prop
  | read (s : Sys) (len : ℕ) : s.running.head? = some .reader → s.reader = .outside → Step s (piperead s len)
  | rclose (s : Sys) : s.running.head? = some .reader → s.reader = .outside → Step s (piperclose s)
  | write (s : Sys) (buf : Bytes) : s.running.head? = some .writer → s.writer = .outside → Step s (pipewrite s buf)
  | wclose (s : Sys) : s.running.head? = some .writer → s.writer = .outside → Step s (pipewclose s)
  | readcont (s s' : Sys) : s.running.head? = some .reader → readcont s = some s' → Step s s'
  | writecont (s s' : Sys) : s.running.head? = some .writer → writecont s = some s' → Step s s'
  /-- It resumes or starts a thread that does not run. -/
  | resume (s : Sys) (muth : Thread) : s.free s.running.head? → muth ∉ s.running → Step s (s.resume muth)
  /-- It yields elsewhere, or ends. -/
  | yield (s : Sys) : s.free s.running.head? → s.running ≠ [] → Step s s.yield

inductive Reachable (bufmax : ℕ) : Sys → Prop
  | init : Reachable bufmax { pipe := { bufmax } }
  | step {s s' : Sys} : Reachable bufmax s → Step s s' → Reachable bufmax s'

end Ashd.Mtpipe
