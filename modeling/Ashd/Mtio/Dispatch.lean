import Ashd.Mtio.Select

/-!
# The blocker that is examined next

While `ioloop` walks along the blockers of a descriptor and resumes their threads, these are
removed, by the very threads that are resumed, and others are added. The loop on `epoll` has
saved the next one before; that on `select` has an iterator that follows. What is saved is still
there if it is not of the thread that is resumed, nor of one that is resumed meanwhile.

Main definitions:
* `Step`: what threads do, and the steps of `ioloop` on `epoll`.
* `Spares`: the blocker that is saved is not removed.
* `Safe`: the blocker that is examined is registered, and its thread waits.

Main results:
* `step_inv`: what holds between two steps.
* `dispatch_safe`: both loops.
* `unsafe_of_careless`: a step that removes the blocker that is saved.
-/

namespace Ashd.Mtio

/-- Where `ioloop` is. -/
inductive Ctrl
  /-- Not in the loop over the blockers of a descriptor. -/
  | outside
  /-- At the start of the loop's body, or at its end. -/
  | examine (fd : ℕ) (ev : Option Events) (bl : Option ℕ)
  /-- In a `resume` in its body. -/
  | running (fd : ℕ) (ev : Option Events) (nbl : Option ℕ)

structure Loop where
  state : State
  ctrl : Ctrl

/-- A thread runs, or may run. -/
def Ctrl.threads : Ctrl → Bool
  | .examine .. => false
  | _ => true

/-- What `nbl` is going to be at the next `resume`, or is during it. -/
def Loop.next (x : Loop) : Option ℕ :=
  match x.ctrl with
  | .examine _ _ (some bl) => x.state.n2 bl
  | .running _ _ nbl => nbl
  | _ => none

/-- What threads do, while it is not the loop that runs, and the steps of `ioloop`
    (mtio-epoll.c:274–335), with the blockers that are removed. It is not restricted what
    `epoll_wait` says of which descriptor. The loop at the start of `ioloop` is taken apart, as in
    `Reached`. -/
inductive Step (ctl : ℕ → Bool) : Loop → List ℕ → Loop → Prop
  | act {x : Loop} (o : Act) (ht : x.ctrl.threads = true) (h : o.Enabled x.state) :
    Step ctl x o.removed ⟨o.run ctl .epoll x.state, x.ctrl⟩
  | create {s : State} (hidle : s.polling = false) : Step ctl ⟨s, .outside⟩ [] ⟨create s, .outside⟩
  | register {s : State} (a : ℕ) (hp : s.polling = true) (ha : a ∈ s.all) (hreg : s.reg a = false) :
    Step ctl ⟨s, .outside⟩ [] ⟨(regfd ctl .epoll a s).2, .outside⟩
  | finish {s : State} (hp : s.polling = true) : Step ctl ⟨s, .outside⟩ [] ⟨finish ctl .epoll s, .outside⟩
  | event {s : State} (fd : ℕ) (ev : Option Events) (hp : s.polling = true) :
    Step ctl ⟨s, .outside⟩ [] ⟨s, .examine fd ev (s.fdlist fd)⟩
  | skip {s : State} {fd bl : ℕ} {ev : Option Events} (h : ready ev (s.blk bl) = false) :
    Step ctl ⟨s, .examine fd ev (some bl)⟩ [] ⟨s, .examine fd ev (s.n2 bl)⟩
  | resume {s : State} {fd bl : ℕ} {ev : Option Events} {bls : List ℕ} (h : ready ev (s.blk bl) = true)
    (hwait : s.waiting (s.blk bl).th = some bls) :
    Step ctl ⟨s, .examine fd ev (some bl)⟩ bls ⟨wake ctl .epoll (s.blk bl).th bls s, .running fd ev (s.n2 bl)⟩
  | return {s : State} {fd : ℕ} {ev : Option Events} {nbl : Option ℕ} :
    Step ctl ⟨s, .running fd ev nbl⟩ [] ⟨s, .examine fd ev nbl⟩
  | done {s : State} {fd : ℕ} {ev : Option Events} : Step ctl ⟨s, .examine fd ev none⟩ [] ⟨s, .outside⟩
  | timeout {s : State} {bls : List ℕ} (now : ℤ) (hd : 0 < s.timeheap.d)
    (hdue : s.timeouts (s.timeheap.b 0) ≤ now)
    (hwait : s.waiting (s.blk (s.timeheap.b 0)).th = some bls) :
    Step ctl ⟨s, .outside⟩ bls ⟨wake ctl .epoll (s.blk (s.timeheap.b 0)).th bls s, .outside⟩

/-- The states of a run of which every step meets the condition `C`. -/
inductive Run (ctl : ℕ → Bool) (C : Loop → List ℕ → Prop) : Loop → Prop
  | init : Run ctl C ⟨.init, .outside⟩
  | step {x y : Loop} {bls : List ℕ} (h : Run ctl C x) (hstep : Step ctl x bls y) (hc : C x bls) : Run ctl C y

/-- The blocker that is saved is none of those that are removed: it is neither of the thread that
    the loop resumes nor of one that is resumed meanwhile. -/
def Spares (x : Loop) (bls : List ℕ) : Prop := ∀ c, x.next = some c → c ∉ bls

/-- `bl` is a blocker of a thread that waits. -/
def State.Parked (s : State) (bl : ℕ) : Prop := ∃ bls, s.waiting (s.blk bl).th = some bls ∧ bl ∈ bls

/-- The blocker that is examined is registered, and its thread waits; and so does that of the
    one that is first in the heap. -/
structure Safe (x : Loop) : Prop where
  examined : ∀ fd ev bl, x.ctrl = .examine fd ev (some bl) → bl ∈ x.state.onfd fd ∧ x.state.Parked bl
  timeout : 0 < x.state.timeheap.d → x.state.Parked (x.state.timeheap.b 0)

/-! ## What holds between two steps -/

variable {ctl : ℕ → Bool} {s : State} {l : List ℕ} {fl : ℕ → List ℕ} {x y : Loop} {bls : List ℕ}

/-- What is examined next is in the list. -/
def Ctrl.Saved (fl : ℕ → List ℕ) : Ctrl → Prop
  | .outside => True
  | .examine fd _ bl => ∀ c, bl = some c → c ∈ fl fd
  | .running fd _ nbl => ∀ c, nbl = some c → c ∈ fl fd

structure Loop.Inv (x : Loop) (l : List ℕ) (fl : ℕ → List ℕ) : Prop where
  state : Mtio.Inv x.state l fl
  saved : x.ctrl.Saved fl

/-- Whatever a thread does, no other blockers are removed than those of the threads that are
    resumed. -/
theorem act_inv (ctl : ℕ → Bool) (h : Inv s l fl) {o : Act} (henabled : o.Enabled s) :
    ∃ l' fl', Inv (o.run ctl .epoll s) l' fl' ∧ ∀ fd, ∀ a ∈ fl fd, a ∉ o.removed → a ∈ fl' fd := by
  cases o with
  | block th now fd ev to' =>
    rw [Act.run, block_epoll]
    obtain ⟨l', fl', hinv, hmem⟩ := attempt_inv ctl .epoll [mkblocker th now fd ev to'] h henabled mkblocker_th
    exact ⟨l', fl', hinv, fun fd a ha _ => hmem fd a ha⟩
  | mblock th now to' spec =>
    obtain ⟨l', fl', hinv, hmem⟩ := attempt_inv ctl .epoll (mkblockers th (deadline now to') spec) h henabled
      mkblockers_th
    exact ⟨l', fl', hinv, fun fd a ha _ => hmem fd a ha⟩
  | wake th bls =>
    refine ⟨_, _, h.wake henabled, fun fd a ha hnot => ?_⟩
    exact (h.wf.fds.linked fd).nodup.mem_sdiff_iff.mpr ⟨ha, hnot⟩

theorem step_inv (h : x.Inv l fl) (hstep : Step ctl x bls y) (hspares : Spares x bls) :
    ∃ l' fl', y.Inv l' fl' := by
  cases hstep with
  | act o ht henabled =>
    obtain ⟨l', fl', hinv, hmem⟩ := act_inv ctl h.state henabled
    refine ⟨l', fl', hinv, ?_⟩
    have hsaved := h.saved
    unfold Spares Loop.next at hspares
    cases hctrl : x.ctrl with
    | outside => trivial
    | examine fd ev bl =>
      rw [hctrl] at ht
      cases ht
    | running fd ev nbl =>
      rw [hctrl] at hsaved hspares
      exact fun c hc => hmem fd c (hsaved c hc) (hspares c hc)
  | create hidle => exact ⟨l, fl, h.state.create, trivial⟩
  | register a hp ha hreg =>
    obtain ⟨fl', hinv⟩ := h.state.regfd (h.state.wf.alls.all ▸ ha) hreg hp
    exact ⟨l, fl', hinv, trivial⟩
  | finish hp =>
    obtain ⟨fl', hinv⟩ := h.state.finish
    exact ⟨l, fl', hinv, trivial⟩
  | event fd ev hp =>
    refine ⟨l, fl, h.state, fun c hc => ?_⟩
    rw [h.state.wf.fds.head] at hc
    exact List.mem_of_head? hc
  | skip hready => exact ⟨l, fl, h.state, fun c hc => (h.state.wf.fds.linked _).next_mem (h.saved _ rfl) hc⟩
  | resume hready hwait =>
    refine ⟨_, _, h.state.wake hwait, fun c hc => ?_⟩
    have hmem := (h.state.wf.fds.linked _).next_mem (h.saved _ rfl) hc
    exact (h.state.wf.fds.linked _).nodup.mem_sdiff_iff.mpr ⟨hmem, hspares c hc⟩
  | «return» => exact ⟨l, fl, h.state, h.saved⟩
  | done => exact ⟨l, fl, h.state, trivial⟩
  | timeout now hd hdue hwait => exact ⟨_, _, h.state.wake hwait, trivial⟩

theorem run_inv (h : Run ctl Spares x) : ∃ l fl, x.Inv l fl := by
  induction h with
  | init => exact ⟨[], _, inv_init, trivial⟩
  | step _ hstep hspares ih =>
    obtain ⟨l, fl, hinv⟩ := ih
    exact step_inv hinv hstep hspares

theorem Loop.Inv.safe (h : x.Inv l fl) : Safe x where
  examined := by
    intro fd ev bl hctrl
    have hsaved := h.saved
    rw [hctrl] at hsaved
    have hmem := hsaved bl rfl
    rw [h.state.wf.fds.onfd]
    exact ⟨hmem, h.state.waits.parked (h.state.wf.reg bl ((h.state.wf.fds.mem fd bl).mp hmem).1).1⟩
  timeout := fun hd => h.state.waits.parked (h.state.wf.alls.heap.pos 0 hd).1.1

/-- A step that does not spare it is followed by one that leads astray. -/
theorem unsafe_of_careless (h : Run ctl Spares x) (hstep : Step ctl x bls y) (hcareless : ¬ Spares x bls) :
    ∃ z, Step ctl y [] z ∧ ¬ Safe z := by
  obtain ⟨l, fl, hinv⟩ := run_inv h
  unfold Spares at hcareless
  push Not at hcareless
  obtain ⟨c, hnext, hc⟩ := hcareless
  -- what has been removed is in no list
  have hgone {th : ℕ} (hwait : x.state.waiting th = some bls) (fd : ℕ) (ev : Option Events) :
      ¬ Safe ⟨wake ctl .epoll th bls x.state, .examine fd ev (some c)⟩ := by
    intro hsafe
    have hmem := (hsafe.examined fd ev c rfl).1
    rw [(hinv.state.wake hwait).wf.fds.onfd] at hmem
    exact ((hinv.state.wf.fds.linked fd).nodup.mem_sdiff_iff.mp hmem).2 hc
  cases hstep with
  | act o ht henabled =>
    cases hctrl : x.ctrl with
    | outside => simp [Loop.next, hctrl] at hnext
    | examine fd ev bl =>
      rw [hctrl] at ht
      cases ht
    | running fd ev nbl =>
      obtain rfl : nbl = some c := by simpa [Loop.next, hctrl] using hnext
      cases o with
      | block th now fd ev to' => cases hc
      | mblock th now to' spec => cases hc
      | wake th bls => exact ⟨_, .return, hgone henabled fd ev⟩
  | @resume s fd bl ev _ hready hwait =>
    have hnext : s.n2 bl = some c := hnext
    refine ⟨_, .return, ?_⟩
    rw [hnext]
    exact hgone hwait fd ev
  | timeout now hd hdue hwait => cases hnext
  | _ => cases hc

end Ashd.Mtio
