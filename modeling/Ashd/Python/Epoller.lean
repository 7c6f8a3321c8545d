import Ashd.Common.Lifetime
import Mathlib.Data.List.AList

/-!
# The epoll watcher of ashd/asyncio.py

The methods of `epoller` and its thread. Whoever holds the lock can be in a method of a channel,
or in `exc_handler`, that was called with it: what is to be done when that is over is kept on a
stack. Whether the kernel takes a descriptor is given with the calls that register it.

Main definitions:
* `Epoller`: the watcher, with the state of the channels.
* `Epoller.call`: its methods, up to where they call `close`.
* `Frame`, `Machine`: what is still to be done.
* `Action`, `step`: what can happen next.
-/

namespace Ashd.Asyncio

open Lifetime

/-! ## The watcher -/

def EPOLLIN : ℕ := 1

def EPOLLOUT : ℕ := 4

def EPOLLERR : ℕ := 8

def EPOLLHUP : ℕ := 16

/-- The thread of a watcher: there is none (`th` is `None`), or it is before the first block of
    `_run`, in its loop, or before the `finally`. -/
inductive Thread
  | none
  | starting
  | running
  | ending
  deriving DecidableEq

/-- An `epoller`, with the descriptors that are registered with the epoll object, whether the
    channels are readable and writable, and how they have been taken in and closed. In a dict, what
    was put in first is the last entry. -/
structure Epoller (Ch : Type*) where
  registered : AList fun _ : ℤ => Ch × ℕ := ∅
  fdcache : AList fun _ : Ch => ℤ := ∅
  ep : Option (AList fun _ : ℤ => ℕ) := none
  th : Thread := .none
  stopped : Bool := false
  readable : Ch → Bool
  writable : Ch → Bool
  calls : List (Use Ch) := []

/-- How a method goes on: it returns, it raises an exception, or it calls `close` of the channel
    and is done. -/
inductive Next
  | ret
  | raise
  | close
  deriving DecidableEq

variable {Ch : Type*} [DecidableEq Ch]

namespace Epoller

/-- `_evsfor` (asyncio.py:18–21). -/
def evsfor (s : Epoller Ch) (ch : Ch) : ℕ :=
  (if s.readable ch then EPOLLIN else 0) ||| (if s.writable ch then EPOLLOUT else 0)

/-- `_ckrun` (asyncio.py:23–28). -/
def ckrun (s : Epoller Ch) : Epoller Ch :=
  if s.registered.entries ≠ [] ∧ s.th = .none then { s with th := .starting } else s

/-- `if self.ep: self.ep.register(fd, evs)`. There is no state where that raises an exception. -/
def register (s : Epoller Ch) (fd : ℤ) (evs : ℕ) (takes : Bool) : Option (Epoller Ch) :=
  match s.ep with
  | none => some s
  | some ep =>
    if takes = true ∧ fd ∉ ep then some { s with ep := some (ep.insert fd evs) } else none

/-- `if self.ep: self.ep.unregister(fd)`. -/
def unregister (s : Epoller Ch) (fd : ℤ) : Option (Epoller Ch) :=
  match s.ep with
  | none => some s
  | some ep => if fd ∈ ep then some { s with ep := some (ep.erase fd) } else none

/-- `if self.ep: self.ep.modify(fd, evs)`. -/
def modify (s : Epoller Ch) (fd : ℤ) (evs : ℕ) : Option (Epoller Ch) :=
  match s.ep with
  | none => some s
  | some ep => if fd ∈ ep then some { s with ep := some (ep.replace fd evs) } else none

/-- `ch.close()` is called. -/
def close (s : Epoller Ch) (ch : Ch) : Epoller Ch := { s with calls := s.calls ++ [Use.closed ch] }

/-- `del self.fdcache[ch]`, `del self.registered[fd]`, `unregister` and `close`, as in `_run`,
    `remove` and `update`. -/
def drop (s : Epoller Ch) (ch : Ch) (fd : ℤ) : Epoller Ch × Next :=
  let s := { s with fdcache := s.fdcache.erase ch, registered := s.registered.erase fd }
  match s.unregister fd with
  | none => (s, .raise)
  | some s => (s.close ch, .close)

/-- `self.registered[fd] = ch, evs` and `modify`, as in `_run` and `update`. -/
def rewatch (s : Epoller Ch) (ch : Ch) (fd : ℤ) (evs : ℕ) : Epoller Ch × Next :=
  let s := { s with registered := s.registered.replace fd (ch, evs) }
  match s.modify fd evs with
  | none => (s, .raise)
  | some s => (s, .ret)

/-- `add` (asyncio.py:114–128), by what `ch.fileno()` returns, unless it raises an exception. -/
def add (s : Epoller Ch) (ch : Ch) (fileno : Option ℤ) (takes : Bool) : Epoller Ch × Next :=
  match fileno with
  | none => (s, .raise)
  | some fd =>
    if fd ∈ s.registered then (s, .raise)
    else
      let evs := s.evsfor ch
      let s := { s with calls := s.calls ++ [Use.opened ch] }
      if evs = 0 then (s.close ch, .close)
      else
        let s :=
          { s with
            fdcache := s.fdcache.insert ch fd
            registered := s.registered.insert fd (ch, evs) }
        match s.register fd evs takes with
        | none => (s, .raise)
        | some s => (s.ckrun, .ret)

/-- `remove` (asyncio.py:130–145). That the messages of its exceptions cannot be made is no
    difference: those are exceptions, too. -/
def remove (s : Epoller Ch) (ch : Ch) (ignore : Bool) : Epoller Ch × Next :=
  match s.fdcache.lookup ch with
  | none => (s, if ignore then .ret else .raise)
  | some fd =>
    match s.registered.lookup fd with
    | none => (s, .raise)
    | some (pch, _) => if pch ≠ ch then (s, .raise) else s.drop ch fd

/-- `update` (asyncio.py:147–168). -/
def update (s : Epoller Ch) (ch : Ch) (ignore : Bool) : Epoller Ch × Next :=
  match s.fdcache.lookup ch with
  | none => (s, if ignore then .ret else .raise)
  | some fd =>
    match s.registered.lookup fd with
    | none => (s, .raise)
    | some (pch, cevs) =>
      if pch ≠ ch then (s, .raise)
      else
        let evs := s.evsfor ch
        if evs = 0 then s.drop ch fd
        else if evs ≠ cevs then s.rewatch ch fd evs
        else (s, .ret)

/-- `stop` (asyncio.py:170–179), in the thread of the watcher or with a `callbuffer`, that calls
    `tgt` when it is read. -/
def stop (s : Epoller Ch) (own : Bool) (cb : Ch) (rp : ℤ) (takes : Bool) : Epoller Ch × Next :=
  if own then ({ s with stopped := true }, .ret)
  else
    { s with
      readable := Function.update s.readable cb true
      writable := Function.update s.writable cb false }.add cb (some rp) takes

/-- `ep.register(fd, evs)` for every descriptor (asyncio.py:59–60), with a new `ep`. -/
def registerall (takes : ℤ → Bool) :
    List (Σ _ : ℤ, Ch × ℕ) → AList (fun _ : ℤ => ℕ) → Option (AList fun _ : ℤ => ℕ)
  | [], ep => some ep
  | ⟨fd, _, evs⟩ :: items, ep =>
    if takes fd = true ∧ fd ∉ ep then registerall takes items (ep.insert fd evs) else none

/-- The first block of `_run` (asyncio.py:57–64). -/
def start (s : Epoller Ch) (takes : ℤ → Bool) : Epoller Ch :=
  match registerall takes s.registered.entries.reverse ∅ with
  | none => { s with registered := ∅, th := .ending }
  | some ep => { s with ep := some ep, th := .running }

/-- The `finally` of `_run` (asyncio.py:98–103). -/
def finish (s : Epoller Ch) : Epoller Ch := ckrun { s with th := .none, ep := none }

end Epoller

/-- A call of a method of the watcher. -/
inductive Call (Ch : Type*)
  | add (ch : Ch) (fileno : Option ℤ) (takes : Bool)
  | remove (ch : Ch) (ignore : Bool)
  | update (ch : Ch) (ignore : Bool)
  | stop (own : Bool) (cb : Ch) (rp : ℤ) (takes : Bool)

def Epoller.call (s : Epoller Ch) : Call Ch → Epoller Ch × Next
  | .add ch fileno takes => s.add ch fileno takes
  | .remove ch ignore => s.remove ch ignore
  | .update ch ignore => s.update ch ignore
  | .stop own cb rp takes => s.stop own cb rp takes

/-! ## What is still to be done -/

/-- Where `_cb` is called, with the local variables of `_run`: for `read`, `write` and `close` in
    the body of its inner loop, and in `_closeall`. -/
inductive Place (Ch : Type*)
  | read (fd : ℤ) (evs : ℕ) (ch : Ch) (cevs : ℕ)
  | write (fd : ℤ) (ch : Ch) (cevs : ℕ)
  | close
  | closeall

/-- What has called the code that runs: a method that is done then, `_cb`, the `remove` in
    `exception`, or `exception` itself. -/
inductive Frame (Ch : Type*)
  | method
  | cb (ch : Ch) (place : Place Ch)
  | remove (place : Place Ch)
  | handler (place : Place Ch)

/-- The watcher, and what is to be done when the code that runs is over. With nothing, the lock is
    free. -/
structure Machine (Ch : Type*) where
  watcher : Epoller Ch
  stack : List (Frame Ch)

/-- An exception leaves the loop of `_run`. -/
def failed (s : Epoller Ch) (stack : List (Frame Ch)) : Machine Ch :=
  ⟨{ s with th := .ending }, stack⟩

/-- The end of the body of the inner loop of `_run` (asyncio.py:87–96). -/
def settle (s : Epoller Ch) (fd : ℤ) (ch : Ch) (cevs : ℕ) (stack : List (Frame Ch)) : Machine Ch :=
  if fd ∈ s.registered then
    let nevs := s.evsfor ch
    if nevs = 0 then
      if ch ∈ s.fdcache then
        match s.drop ch fd with
        | (s, .close) => ⟨s, .cb ch .close :: stack⟩
        | (s, _) => failed s stack
      else failed s stack
    else if nevs ≠ cevs then
      match s.rewatch ch fd nevs with
      | (s, .ret) => ⟨s, stack⟩
      | (s, _) => failed s stack
    else ⟨s, stack⟩
  else ⟨s, stack⟩

/-- The part before that (asyncio.py:85–86). -/
def write (s : Epoller Ch) (fd : ℤ) (evs : ℕ) (ch : Ch) (cevs : ℕ) (stack : List (Frame Ch)) :
    Machine Ch :=
  if fd ∈ s.registered ∧ evs &&& EPOLLOUT ≠ 0 then ⟨s, .cb ch (.write fd ch cevs) :: stack⟩
  else settle s fd ch cevs stack

/-- The body of the inner loop of `_run` (asyncio.py:79–96). -/
def dispatch (s : Epoller Ch) (fd : ℤ) (evs : ℕ) (stack : List (Frame Ch)) : Machine Ch :=
  match s.registered.lookup fd with
  | none => ⟨s, stack⟩
  | some (ch, cevs) =>
    if evs &&& (EPOLLIN ||| EPOLLHUP ||| EPOLLERR) ≠ 0 then
      ⟨s, .cb ch (.read fd evs ch cevs) :: stack⟩
    else write s fd evs ch cevs stack

/-- The loop of `_closeall` (asyncio.py:48–52), up to the next call of `_cb`. -/
def closeall (s : Epoller Ch) (stack : List (Frame Ch)) : Machine Ch :=
  match s.registered.entries.getLast? with
  | none => ⟨{ s with th := .ending }, stack⟩
  | some ⟨fd, ch, _⟩ =>
    let s := { s with registered := s.registered.erase fd }
    match s.unregister fd with
    | none => failed s stack
    | some s => ⟨s.close ch, .cb ch .closeall :: stack⟩

/-- What comes after `_cb`. -/
def resume (s : Epoller Ch) (stack : List (Frame Ch)) : Place Ch → Machine Ch
  | .read fd evs ch cevs => write s fd evs ch cevs stack
  | .write fd ch cevs => settle s fd ch cevs stack
  | .close => ⟨s, stack⟩
  | .closeall => closeall s stack

/-- `exception` (asyncio.py:30–35). Whatever `traceback` does is code like that of `exc_handler`. -/
def exception (s : Epoller Ch) (stack : List (Frame Ch)) (ch : Ch) (place : Place Ch) :
    Machine Ch :=
  match s.remove ch false with
  | (s, .ret) => ⟨s, .handler place :: stack⟩
  | (s, .raise) => failed s stack
  | (s, .close) => ⟨s, .remove place :: stack⟩

/-! ## What can happen -/

/-- What happens next: a channel changes, or `tgt` is called; a method of the watcher is called by
    the code that runs; that code returns, or raises an exception (an `Exception`, or not); the
    thread starts, has an event, is left by an exception, finds nothing registered, finds that the
    watcher is stopped, or comes to the `finally`. -/
inductive Action (Ch : Type*)
  | set (ch : Ch) (readable writable : Bool)
  | tgt
  | call (c : Call Ch)
  | ret
  | raise (isException : Bool)
  | start (takes : ℤ → Bool)
  | event (fd : ℤ) (evs : ℕ)
  | fail
  | leave
  | closeall
  | finish

/-- One step, where it can happen. Code that calls a method of the watcher goes on if an exception
    comes from it. -/
def step (m : Machine Ch) : Action Ch → Option (Machine Ch)
  | .set ch readable writable =>
    some { m with
      watcher := { m.watcher with
        readable := Function.update m.watcher.readable ch readable
        writable := Function.update m.watcher.writable ch writable } }
  | .tgt => some { m with watcher := { m.watcher with stopped := true } }
  | .call c =>
    match m.watcher.call c with
    | (s, .close) => some ⟨s, .method :: m.stack⟩
    | (s, _) => some ⟨s, m.stack⟩
  | .ret =>
    match m.stack with
    | [] => none
    | .method :: stack => some ⟨m.watcher, stack⟩
    | .cb _ place :: stack => some (resume m.watcher stack place)
    | .remove place :: stack => some ⟨m.watcher, .handler place :: stack⟩
    | .handler place :: stack => some (resume m.watcher stack place)
  | .raise isException =>
    match m.stack with
    | [] => none
    | .method :: stack => some ⟨m.watcher, stack⟩
    | .cb ch place :: stack =>
      some (if isException then exception m.watcher stack ch place else failed m.watcher stack)
    | .remove _ :: stack | .handler _ :: stack => some (failed m.watcher stack)
  | .start takes =>
    if m.stack.isEmpty ∧ m.watcher.th = .starting then some ⟨m.watcher.start takes, []⟩ else none
  | .event fd evs =>
    if m.stack.isEmpty ∧ m.watcher.th = .running then some (dispatch m.watcher fd evs []) else none
  | .fail =>
    if m.stack.isEmpty ∧ m.watcher.th = .running then some (failed m.watcher []) else none
  | .leave =>
    if m.stack.isEmpty ∧ m.watcher.th = .running ∧ m.watcher.registered.entries = [] then
      some (failed m.watcher [])
    else none
  | .closeall =>
    if m.stack.isEmpty ∧ m.watcher.th = .running ∧ m.watcher.stopped = true then
      some (closeall m.watcher [])
    else none
  | .finish =>
    if m.stack.isEmpty ∧ m.watcher.th = .ending then some ⟨m.watcher.finish, []⟩ else none

/-- A run: what happens, and what it leads to. -/
def IsRun (m : Machine Ch) : List (Action Ch × Machine Ch) → Prop
  | [] => True
  | (a, m') :: run => step m a = some m' ∧ IsRun m' run

/-- A new watcher. -/
def new (readable writable : Ch → Bool) : Machine Ch :=
  ⟨{ readable := readable, writable := writable }, []⟩

end Ashd.Asyncio
