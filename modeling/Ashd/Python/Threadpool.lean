import Mathlib.Algebra.Order.Ring.Rat
import Mathlib.Data.Finset.Card
import Mathlib.Logic.Function.Basic

/-!
# The thread pool of the Python handlers

`threadpool.handle` and `threadpool.run` (ashd/serve.py) as steps of their threads. A section
under `qlk` or `clk` is one step, and a wait on a condition releases the lock until the thread
is notified or its time is out, from when on it wants the lock back. Threads are told apart by
numbers, those that call `handle` and the workers; the clock may show anything when it is read;
which of the threads that wait is notified is left open. Neither starting a thread nor closing
a request fails.

Main definitions:
* `Pool`: what the threads share, and where each of them is.
* `enqueue`, `dequeue`: the sections under `qlk`.
* `step`: what a thread does.
-/

namespace Ashd.Threadpool

/-- A worker, in `run` (serve.py:271–303). -/
inductive Worker
  | absent
  /-- It has been started, and has not registered. -/
  | started
  /-- At the top of the loop. -/
  | top
  /-- It has read the clock, and wants `qlk`. -/
  | ready (start : ℚ)
  /-- In `self.qfcond.wait`. -/
  | parked (start : ℚ)
  | notified (start : ℚ)
  | timedout (start : ℚ)
  /-- In `handle1`. -/
  | busy (req : ℕ)
  /-- It has left the loop, and wants `clk`. -/
  | leaving
  | gone

/-- A thread that may call `handle` (serve.py:229–253). -/
inductive Caller
  | idle
  /-- It wants `qlk`. -/
  | entering (req : ℕ)
  /-- In `self.qecond.wait`. -/
  | blocked (req : ℕ) (start : ℚ)
  /-- That has been notified, or its time is out. -/
  | unblocked (req : ℕ) (start : ℚ)
  /-- `spawn` is true, and it wants `clk`. -/
  | spawning
  /-- It waits for the worker to register. -/
  | registering (th : ℕ)

/-- The arguments of `threadpool`. -/
structure Limits where
  max : ℕ
  qsz : ℕ
  timeout : Option ℚ

structure Pool where
  queue : List ℕ := []
  waiting : Finset ℕ := ∅
  current : Finset ℕ := ∅
  wlstart : ℚ := 0
  /-- The workers that wait on `qfcond`. -/
  qfcond : Finset ℕ := ∅
  /-- The calls that wait on `qecond`. -/
  qecond : Finset ℕ := ∅
  worker : ℕ → Worker := fun _ => .absent
  caller : ℕ → Caller := fun _ => .idle

/-- `self.waitlimit`. -/
def waitlimit : ℕ := 5

/-- `timeout` of `run`. -/
def patience : ℚ := 10

namespace Pool

variable (s : Pool)

def setWorker (w : ℕ) (x : Worker) : Pool := { s with worker := Function.update s.worker w x }

def setCaller (c : ℕ) (x : Caller) : Pool := { s with caller := Function.update s.caller c x }

end Pool

theorem setWorker_self (s : Pool) (w : ℕ) (x : Worker) : (s.setWorker w x).worker w = x := Function.update_self _ _ _

theorem setWorker_of_ne (s : Pool) {w v : ℕ} (h : w ≠ v) (x : Worker) : (s.setWorker v x).worker w = s.worker w :=
  Function.update_of_ne h _ _

/-- `notify` takes one out of those that wait, if there are any. -/
def notify (cond : Finset ℕ) (woken : Option ℕ) : Option (Finset ℕ) :=
  match woken with
  | some th => if th ∈ cond then some (cond.erase th) else none
  | none => if cond = ∅ then some ∅ else none

/-- The worker leaves its wait. -/
def Worker.wake : Worker → Worker
  | .parked start => .notified start
  | w => w

def Caller.wake : Caller → Caller
  | .blocked req start => .unblocked req start
  | c => c

/-- `self.qfcond.notify()`. -/
def qfnotify (s : Pool) (woken : Option ℕ) : Option Pool :=
  (notify s.qfcond woken).map fun qfcond =>
    match woken with
    | some w => { s with qfcond }.setWorker w (s.worker w).wake
    | none => { s with qfcond }

/-- `self.qecond.notify()`. -/
def qenotify (s : Pool) (woken : Option ℕ) : Option Pool :=
  (notify s.qecond woken).map fun qecond =>
    match woken with
    | some c => { s with qecond }.setCaller c (s.caller c).wake
    | none => { s with qecond }

/-- The rest of `handle` under `qlk`, from the test of the queue's length on (serve.py:234–245). -/
def enqueue (p : Limits) (s : Pool) (c req : ℕ) (start : ℚ) (woken : Option ℕ) : Option Pool :=
  if s.queue.length ≥ p.qsz then
    some ({ s with qecond := insert c s.qecond }.setCaller c (.blocked req start))
  else
    (qfnotify { s with queue := s.queue ++ [req] } woken).map fun s =>
      s.setCaller c (if s.waiting.card < 1 then .spawning else .idle)

/-- The loop of `run` under `qlk`, from the test of the queue on (serve.py:282–289, 295–296). -/
def dequeue (s : Pool) (w : ℕ) (start now : ℚ) (woken : Option ℕ) : Option Pool :=
  match s.queue with
  | req :: queue => (qenotify { s with queue } woken).map (·.setWorker w (.busy req))
  | [] =>
    if s.waiting.card ≥ waitlimit ∧ now - s.wlstart ≥ patience then some (s.setWorker w .leaving)
    else
      let waiting := insert w s.waiting
      some ({ s with
        waiting
        wlstart := if waiting.card = waitlimit then now else s.wlstart
        qfcond := insert w s.qfcond }.setWorker w (.parked start))

/-- What a thread does. The clock shows `now`, and `woken` is who is notified. -/
inductive Event
  /-- `handle(req)` is called. -/
  | call (c req : ℕ)
  /-- The call takes `qlk`. -/
  | enter (c : ℕ) (now : ℚ) (woken : Option ℕ)
  /-- The time of its wait is out. -/
  | expire (c : ℕ)
  /-- It takes `qlk` again. -/
  | retry (c : ℕ) (now : ℚ) (woken : Option ℕ)
  /-- It takes `clk`, and may start the worker. -/
  | spawn (c th : ℕ)
  /-- It finds that the worker has registered. -/
  | joined (c : ℕ)
  /-- The worker takes `clk`, and registers. -/
  | register (w : ℕ)
  /-- It reads the clock. -/
  | start (w : ℕ) (now : ℚ)
  /-- It takes `qlk`. -/
  | test (w : ℕ) (woken : Option ℕ)
  /-- The time of its wait is out. -/
  | timeout (w : ℕ)
  /-- It takes `qlk` again. -/
  | wake (w : ℕ) (now : ℚ) (woken : Option ℕ)
  /-- The request is done. -/
  | finish (w : ℕ)
  /-- It takes `clk`, and is gone. -/
  | leave (w : ℕ)

/-- A worker that has waited takes `qlk` again (serve.py:291–294). -/
def wakeup (s : Pool) (w : ℕ) (start now : ℚ) (woken : Option ℕ) : Option Pool :=
  let s := { s with waiting := s.waiting.erase w }
  if now - start > patience then some (s.setWorker w .leaving) else dequeue s w start now woken

/-- The step of an event, `none` if it cannot happen or the process is aborted. -/
def step (p : Limits) (s : Pool) : Event → Option Pool
  | .call c req =>
    match s.caller c with
    | .idle => some (s.setCaller c (.entering req))
    | _ => none
  | .enter c now woken =>
    match s.caller c with
    | .entering req => enqueue p s c req now woken
    | _ => none
  | .expire c =>
    match s.caller c, p.timeout with
    | .blocked req start, some _ =>
      some ({ s with qecond := s.qecond.erase c }.setCaller c (.unblocked req start))
    | _, _ => none
  | .retry c now woken =>
    match s.caller c, p.timeout with
    | .unblocked req start, some timeout =>
      -- `os.abort()`
      if now - start > timeout then none else enqueue p s c req start woken
    | .unblocked req start, none => enqueue p s c req start woken
    | _, _ => none
  | .spawn c th =>
    match s.caller c, s.worker th with
    | .spawning, .absent =>
      if s.current.card < p.max then some ((s.setWorker th .started).setCaller c (.registering th))
      else some (s.setCaller c .idle)
    | _, _ => none
  | .joined c =>
    match s.caller c with
    | .registering th =>
      match s.worker th with
      | .started => none
      | _ => some (s.setCaller c .idle)
    | _ => none
  | .register w =>
    match s.worker w with
    | .started => some ({ s with current := insert w s.current }.setWorker w .top)
    | _ => none
  | .start w now =>
    match s.worker w with
    | .top => some (s.setWorker w (.ready now))
    | _ => none
  | .test w woken =>
    match s.worker w with
    | .ready start => dequeue s w start start woken
    | _ => none
  | .timeout w =>
    match s.worker w with
    | .parked start => some ({ s with qfcond := s.qfcond.erase w }.setWorker w (.timedout start))
    | _ => none
  | .wake w now woken =>
    match s.worker w with
    | .notified start | .timedout start => wakeup s w start now woken
    | _ => none
  | .finish w =>
    match s.worker w with
    | .busy _ => some (s.setWorker w .top)
    | _ => none
  | .leave w =>
    match s.worker w with
    | .leaving => some ({ s with current := s.current.erase w }.setWorker w .gone)
    | _ => none

inductive Reachable (p : Limits) : Pool → Prop
  | init : Reachable p {}
  | step {s s' : Pool} (e : Event) : Reachable p s → step p s e = some s' → Reachable p s'

end Ashd.Threadpool
