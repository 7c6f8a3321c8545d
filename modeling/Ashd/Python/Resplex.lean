import Mathlib.Data.Finset.Card
import Mathlib.Logic.Function.Basic

/-!
# The handler that multiplexes responses

`resplex` (ashd/serve.py) as steps of its threads: those that call `handle`, a thread for each
request, the response thread, and the one that calls `close`. A section under `lk` is one step. A
request has the number of its thread; of a buffer only the length is kept, and of a response
iterator only whether there is one. Starting a thread does not fail. The response thread comes to
no more steps where it aborts the process.

Main definitions:
* `Closing`: what was the case of a request when it was closed.
* `Mux`: what the threads share, and where each of them is.
* `ckiter`, `closereq`: the functions of the response thread.
* `step`: what a thread does.
-/

namespace Ashd.Resplex

/-! ## Where the threads are -/

/-- What was the case of a request when it was closed. -/
structure Closing where
  /-- Its response iterator had been exhausted or had failed, or making it had failed. -/
  iterated : Bool
  /-- What its buffer still held. -/
  buffer : ℕ
  /-- Its client had been found gone. -/
  gone : Bool := false
  deriving DecidableEq

/-- The thread of a request, in `handle1` (serve.py:349–379). -/
inductive Thread
  | absent
  /-- It has been started, and has not registered. -/
  | started
  /-- It makes the response. -/
  | running
  /-- The response is in `cqueue`, and it is to write to the pipe. -/
  | queued
  /-- `req` is `None`, and it wants `lk`. -/
  | leaving
  /-- It still has the request, and wants `lk`. -/
  | failed (c : Closing)
  /-- It is no longer in `current`, and is to close the request. -/
  | closing (c : Closing)
  | ended
  deriving DecidableEq

/-- A thread that may call `handle` (serve.py:338–347). -/
inductive Caller
  | idle
  /-- It wants `lk`, or waits until there are fewer requests than `max`. -/
  | entering
  /-- It waits for the thread of the request to register. -/
  | registering (req : ℕ)

/-- The thread that calls `close` (serve.py:462–471). -/
inductive Closer
  | idle
  /-- At the top of the loop. -/
  | looping
  | joining (req : ℕ)
  /-- It has left the loop, and is to close the pipe. -/
  | leaving
  /-- In `self.rthread.join()`. -/
  | closed
  | returned

/-- An entry of the table `current` of `handle2`: an iterator, or `None`, and whether that had been
    exhausted or had failed. -/
inductive Respiter
  | iter
  | spent (iterated : Bool)
  deriving DecidableEq

def Respiter.iterated : Respiter → Bool
  | .iter => false
  | .spent iterated => iterated

/-- One of the two loops in a round of `handle2`, with what is left of `wls`. -/
inductive Loop
  | drain (wls : List ℕ)
  | flush (wls : List ℕ)
  deriving DecidableEq

/-- The response thread, in `handle2` (serve.py:381–460). -/
inductive Responder
  | select
  /-- The pipe is to be read. -/
  | reading (wls : List ℕ)
  | loop (l : Loop)
  /-- In `ckiter(req)`. -/
  | check (req : ℕ) (l : Loop)
  | done
  deriving DecidableEq

structure Mux where
  current : Finset ℕ := ∅
  cqueue : List ℕ := []
  /-- The bytes in `cnpipe`, and whether its end to write to is open. -/
  pipe : ℕ := 0
  wopen : Bool := true
  /-- The table `current` of `handle2`. -/
  table : ℕ → Option Respiter := fun _ => none
  buffer : ℕ → ℕ := fun _ => 0
  closed : ℕ → Option Closing := fun _ => none
  thread : ℕ → Thread := fun _ => .absent
  caller : ℕ → Caller := fun _ => .idle
  responder : Responder := .select
  closer : Closer := .idle
  /-- The requests that `handle` has returned for, and those of them that it had when `close` was
      called. -/
  handed : Finset ℕ := ∅
  before : Finset ℕ := ∅

namespace Mux

variable (s : Mux)

def setThread (r : ℕ) (x : Thread) : Mux := { s with thread := Function.update s.thread r x }

def setCaller (c : ℕ) (x : Caller) : Mux := { s with caller := Function.update s.caller c x }

def setTable (r : ℕ) (x : Option Respiter) : Mux :=
  { s with table := Function.update s.table r x }

def setBuffer (r n : ℕ) : Mux := { s with buffer := Function.update s.buffer r n }

/-- The request is closed. -/
def setClosed (r : ℕ) (c : Closing) : Mux :=
  { s with closed := Function.update s.closed r (some c) }

end Mux

/-! ## The response thread -/

/-- What `next(respiter)` and what is done with its result come to. -/
inductive Next
  /-- `StopIteration`, after which `flushreq` puts so much into the buffer. -/
  | stop (head : ℕ)
  | raised
  /-- Data, of which so much comes into the buffer with what `flushreq` puts there, nothing if it
      is empty. -/
  | data (n : ℕ)
  /-- Data that cannot be handled, as `flushreq` or `writedata` fails. -/
  | unhandled (n : ℕ)

/-- `closereq` (serve.py:386–397). -/
def closereq (s : Mux) (r : ℕ) (gone : Bool) : Option Mux :=
  match s.table r with
  -- `KeyError`
  | none => none
  | some it => some ((s.setClosed r ⟨it.iterated, s.buffer r, gone⟩).setTable r none)

/-- The last lines of `ckiter`: a request that is done is closed. -/
def settle (s : Mux) (r : ℕ) (it : Respiter) : Option Mux :=
  match it with
  | .iter => some s
  | .spent _ => if s.buffer r = 0 then closereq s r false else some s

/-- `ckiter` (serve.py:398–430). -/
def ckiter (s : Mux) (r : ℕ) (next : Next) : Option Mux :=
  match s.table r with
  | none => none
  | some (.spent b) => settle s r (.spent b)
  | some .iter =>
    match next with
    | .stop head =>
      settle ((s.setBuffer r (s.buffer r + head)).setTable r (some (.spent true))) r (.spent true)
    | .raised => settle (s.setTable r (some (.spent true))) r (.spent true)
    | .data n => settle (s.setBuffer r (s.buffer r + n)) r .iter
    | .unhandled n =>
      settle ((s.setBuffer r (s.buffer r + n)).setTable r (some (.spent false))) r (.spent false)

/-- What `req.flush()` comes to. -/
inductive Flush
  | sent (n : ℕ)
  /-- The client is gone. -/
  | closed
  | raised

/-- A request of `wls` is flushed (serve.py:447–457). -/
def flush (s : Mux) (r : ℕ) (wls : List ℕ) : Flush → Option Mux
  | .sent n =>
    if n ≤ s.buffer r then
      let s := s.setBuffer r (s.buffer r - n)
      if s.buffer r < 65536 then some { s with responder := .check r (.flush wls) }
      else some { s with responder := .loop (.flush wls) }
    else none
  | .closed => (closereq s r true).map fun s => { s with responder := .loop (.flush wls) }
  | .raised => (closereq s r false).map fun s => { s with responder := .loop (.flush wls) }

/-- `select.select` returned, the pipe readable if `rd`. -/
def selected (s : Mux) (rd : Bool) (wls : List ℕ) : Option Mux :=
  if (∀ r ∈ wls, s.table r ≠ none ∧ 0 < s.buffer r) ∧ wls.Nodup ∧
      (rd = true → 0 < s.pipe ∨ s.wopen = false) then
    some { s with responder := if rd then .reading wls else .loop (.flush wls) }
  else none

/-- `os.read(rp, 1024)`, and the end of the thread if there is nothing any more. -/
def readpipe (s : Mux) (wls : List ℕ) : Option Mux :=
  if 0 < s.pipe then some { s with pipe := s.pipe - 1024, responder := .loop (.drain wls) }
  else if s.wopen = false then some { s with responder := .done }
  else none

/-! ## Steps -/

/-- What a thread does. -/
inductive Event
  /-- `handle` is called. -/
  | call (c : ℕ)
  /-- The call has `lk`, and starts a thread. -/
  | start (c req : ℕ)
  /-- It finds that the thread has registered, and returns. -/
  | registered (c : ℕ)
  /-- The thread takes `lk`, and registers. -/
  | register (req : ℕ)
  /-- The response has been made, with so much in the buffer, and is put into the queue. -/
  | put (req n : ℕ)
  /-- Making it has failed, with so much in the buffer. -/
  | raised (req n : ℕ)
  /-- It was made without a call of `start_request`. -/
  | unstarted (req n : ℕ)
  /-- The thread writes to the pipe. -/
  | write (req : ℕ)
  /-- It takes `lk`, and is removed from `current`. -/
  | remove (req : ℕ)
  /-- It closes the request. -/
  | closereq (req : ℕ)
  /-- The response thread comes out of `select`. -/
  | select (rd : Bool) (wls : List ℕ)
  | read
  /-- It takes a response from the queue. -/
  | get
  /-- It finds the queue empty. -/
  | empty
  | ckiter (next : Next)
  | flush (f : Flush)
  /-- It is through with `wls`. -/
  | again
  /-- `close` is called. -/
  | close
  /-- It takes `lk`, and a thread from `current`. -/
  | pick (req : ℕ)
  | join
  /-- It takes `lk`, and finds `current` empty. -/
  | leave
  | closepipe
  /-- The response thread has been joined. -/
  | rjoin

/-- The step of an event, with the bound `max`; `none` if it cannot happen. -/
def step (max : Option ℕ) (s : Mux) : Event → Option Mux
  | .call c =>
    match s.caller c with
    | .idle => some (s.setCaller c .entering)
    | _ => none
  | .start c r =>
    match s.caller c, s.thread r with
    | .entering, .absent =>
      if ∀ m ∈ max, s.current.card < m then
        some ((s.setThread r .started).setCaller c (.registering r))
      else none
    | _, _ => none
  | .registered c =>
    match s.caller c with
    | .registering r =>
      if s.thread r = .started then none
      else some ({ s with handed := insert r s.handed }.setCaller c .idle)
    | _ => none
  | .register r =>
    match s.thread r with
    | .started => some ({ s with current := insert r s.current }.setThread r .running)
    | _ => none
  | .put r n =>
    match s.thread r with
    | .running =>
      if s.cqueue.length < 5 then
        some (({ s with cqueue := s.cqueue ++ [r] }.setBuffer r n).setThread r .queued)
      else none
    | _ => none
  | .raised r n =>
    match s.thread r with
    | .running => some ((s.setBuffer r n).setThread r (.failed ⟨true, n, false⟩))
    | _ => none
  | .unstarted r n =>
    match s.thread r with
    | .running => some ((s.setBuffer r n).setThread r (.failed ⟨false, n, false⟩))
    | _ => none
  | .write r =>
    match s.thread r with
    | .queued =>
      if s.wopen then some ({ s with pipe := s.pipe + 1 }.setThread r .leaving)
      else some (s.setThread r (.failed ⟨false, s.buffer r, false⟩))
    | _ => none
  | .remove r =>
    match s.thread r with
    | .leaving => some ({ s with current := s.current.erase r }.setThread r .ended)
    | .failed c => some ({ s with current := s.current.erase r }.setThread r (.closing c))
    | _ => none
  | .closereq r =>
    match s.thread r with
    | .closing c => some ((s.setClosed r c).setThread r .ended)
    | _ => none
  | .select rd wls =>
    match s.responder with
    | .select => selected s rd wls
    | _ => none
  | .read =>
    match s.responder with
    | .reading wls => readpipe s wls
    | _ => none
  | .get =>
    match s.responder, s.cqueue with
    | .loop (.drain wls), r :: cqueue =>
      some ({ s with cqueue, responder := .check r (.drain wls) }.setTable r (some .iter))
    | _, _ => none
  | .empty =>
    match s.responder, s.cqueue with
    | .loop (.drain wls), [] => some { s with responder := .loop (.flush wls) }
    | _, _ => none
  | .ckiter next =>
    match s.responder with
    | .check r l => (ckiter s r next).map fun s => { s with responder := .loop l }
    | _ => none
  | .flush f =>
    match s.responder with
    | .loop (.flush (r :: wls)) => flush s r wls f
    | _ => none
  | .again =>
    match s.responder with
    | .loop (.flush []) => some { s with responder := .select }
    | _ => none
  | .close =>
    match s.closer with
    | .idle => some { s with closer := .looping, before := s.handed }
    | _ => none
  | .pick r =>
    match s.closer with
    | .looping => if r ∈ s.current then some { s with closer := .joining r } else none
    | _ => none
  | .join =>
    match s.closer with
    | .joining r => if s.thread r = .ended then some { s with closer := .looping } else none
    | _ => none
  | .leave =>
    match s.closer with
    | .looping => if s.current = ∅ then some { s with closer := .leaving } else none
    | _ => none
  | .closepipe =>
    match s.closer with
    | .leaving => some { s with closer := .closed, wopen := false }
    | _ => none
  | .rjoin =>
    match s.closer, s.responder with
    | .closed, .done => some { s with closer := .returned }
    | _, _ => none

end Ashd.Resplex
