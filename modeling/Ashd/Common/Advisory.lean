import Mathlib.Logic.Function.Basic
import Mathlib.Data.List.Basic

/-!
# Advisory locks on whole files

The locks of `fcntl`: a lock belongs to a process and a file, not to a descriptor. A process has
every file that it has locked open, and closing any descriptor of a file gives up the lock on it,
also when the lock was set through another descriptor.

Main results:
* `setlk_eq_some`: when a lock is granted, and what is then locked.
* `owner_closed`: which lock is given up by closing a file.
* `only_opened`, `only_setlk`, `only_closed`, `only_exited`: what a process does changes nothing for
  the others.
-/

namespace Ashd.Advisory

variable {P F : Type*} [DecidableEq P] [DecidableEq F]

/-- The files that the processes have open, one for each descriptor, and who has locked them. -/
structure Table (P F : Type*) where
  fds : P → List F
  owner : F → Option P
  owned : ∀ f p, owner f = some p → f ∈ fds p

namespace Table

/-- Nothing is open. -/
def empty : Table P F := ⟨fun _ => [], fun _ => none, nofun⟩

/-- `p` gets a descriptor for `f`. -/
def opened (t : Table P F) (p : P) (f : F) : Table P F where
  fds := Function.update t.fds p (t.fds p ++ [f])
  owner := t.owner
  owned g q h := by
    by_cases hq : q = p
    · subst hq
      rw [Function.update_self]
      exact List.mem_append_left _ (t.owned g q h)
    · rw [Function.update_of_ne hq]
      exact t.owned g q h

/-- `F_SETLK` with an `F_WRLCK` on the whole of `f`; `none` is `EAGAIN`. -/
def setlk (t : Table P F) (p : P) (f : F) : Option (Table P F) :=
  if hf : f ∈ t.fds p then
    if t.owner f = none ∨ t.owner f = some p then
      some
        { fds := t.fds
          owner := Function.update t.owner f (some p)
          owned := fun g q h => by
            by_cases hg : g = f
            · subst hg
              rw [Function.update_self] at h
              rw [← Option.some.inj h]
              exact hf
            · rw [Function.update_of_ne hg] at h
              exact t.owned g q h }
    else none
  else none

/-- `F_GETLK` with an `F_WRLCK` on the whole of `f`: whose lock is in the way of one by `p`. -/
def getlk (t : Table P F) (p : P) (f : F) : Option P :=
  if t.owner f = some p then none else t.owner f

/-- `p` closes one of its descriptors for `f`. -/
def closed (t : Table P F) (p : P) (f : F) : Table P F where
  fds := Function.update t.fds p ((t.fds p).erase f)
  owner := if t.owner f = some p then Function.update t.owner f none else t.owner
  owned g q h := by
    have hg : t.owner g = some q ∧ (q = p → g ≠ f) := by
      split_ifs at h with ho
      · by_cases hgf : g = f
        · rw [hgf, Function.update_self] at h
          cases h
        · rw [Function.update_of_ne hgf] at h
          exact ⟨h, fun _ => hgf⟩
      · exact ⟨h, fun hq hgf => ho (by rw [← hgf, h, hq])⟩
    by_cases hq : q = p
    · subst hq
      rw [Function.update_self]
      exact (List.mem_erase_of_ne (hg.2 rfl)).mpr (t.owned g q hg.1)
    · rw [Function.update_of_ne hq]
      exact t.owned g q hg.1

/-- `p` is gone, and what it had open is closed. -/
def exited (t : Table P F) (p : P) : Table P F where
  fds := Function.update t.fds p []
  owner f := if t.owner f = some p then none else t.owner f
  owned g q h := by
    split_ifs at h with ho
    have hq : q ≠ p := by
      rintro rfl
      exact ho h
    rw [Function.update_of_ne hq]
    exact t.owned g q h

/-! ## What is open -/

omit [DecidableEq P] [DecidableEq F] in
@[simp] theorem fds_empty (p : P) : (empty : Table P F).fds p = [] := rfl

omit [DecidableEq P] [DecidableEq F] in
@[simp] theorem owner_empty (f : F) : (empty : Table P F).owner f = none := rfl

omit [DecidableEq F] in
theorem fds_opened (t : Table P F) (p q : P) (f : F) :
    (t.opened p f).fds q = if q = p then t.fds p ++ [f] else t.fds q :=
  Function.update_apply ..

theorem fds_closed (t : Table P F) (p q : P) (f : F) :
    (t.closed p f).fds q = if q = p then (t.fds p).erase f else t.fds q :=
  Function.update_apply ..

omit [DecidableEq F] in
theorem fds_exited (t : Table P F) (p q : P) :
    (t.exited p).fds q = if q = p then [] else t.fds q :=
  Function.update_apply ..

/-! ## What is locked -/

omit [DecidableEq F] in
@[simp] theorem owner_opened (t : Table P F) (p : P) (f g : F) :
    (t.opened p f).owner g = t.owner g := rfl

theorem setlk_eq_some {t t' : Table P F} {p : P} {f : F} (h : t.setlk p f = some t') :
    (t.owner f = none ∨ t.owner f = some p) ∧ t'.fds = t.fds ∧
      ∀ g, t'.owner g = if g = f then some p else t.owner g := by
  unfold setlk at h
  split_ifs at h with hf ho
  cases h
  exact ⟨ho, rfl, fun g => Function.update_apply ..⟩

theorem owner_closed (t : Table P F) (p : P) (f g : F) :
    (t.closed p f).owner g = if g = f ∧ t.owner f = some p then none else t.owner g := by
  unfold closed
  by_cases ho : t.owner f = some p
  · simp only [ho, if_true, and_true, Function.update_apply]
  · simp only [ho, if_false, and_false]

omit [DecidableEq F] in
theorem owner_exited (t : Table P F) (p : P) (f : F) :
    (t.exited p).owner f = if t.owner f = some p then none else t.owner f := rfl

/-! ## The other processes -/

/-- Only `p` has opened, locked or closed anything. -/
def Only (p : P) (t t' : Table P F) : Prop :=
  ∀ q, q ≠ p → t'.fds q = t.fds q ∧ ∀ f, t'.owner f = some q ↔ t.owner f = some q

omit [DecidableEq P] [DecidableEq F] in
theorem only_refl (p : P) (t : Table P F) : Only p t t := fun _ _ => ⟨rfl, fun _ => Iff.rfl⟩

omit [DecidableEq F] in
theorem only_opened (t : Table P F) (p : P) (f : F) : Only p t (t.opened p f) :=
  fun q hq => ⟨by rw [fds_opened, if_neg hq], fun _ => Iff.rfl⟩

theorem only_setlk {t t' : Table P F} {p : P} {f : F} (h : t.setlk p f = some t') :
    Only p t t' := by
  obtain ⟨ho, hfds, howner⟩ := setlk_eq_some h
  refine fun q hq => ⟨by rw [hfds], fun g => ?_⟩
  rw [howner]
  split_ifs with hg
  · subst hg
    have hp : (some p : Option P) ≠ some q := fun h => hq (Option.some.inj h).symm
    refine iff_of_false hp fun hgq => ?_
    rcases ho with ho | ho
    · rw [ho] at hgq
      cases hgq
    · exact hp (ho.symm.trans hgq)
  · rfl

theorem only_closed (t : Table P F) (p : P) (f : F) : Only p t (t.closed p f) := by
  refine fun q hq => ⟨by rw [fds_closed, if_neg hq], fun g => ?_⟩
  rw [owner_closed]
  split_ifs with hg
  · obtain ⟨rfl, ho⟩ := hg
    rw [ho]
    exact iff_of_false nofun fun h => hq (Option.some.inj h).symm
  · rfl

omit [DecidableEq F] in
theorem only_exited (t : Table P F) (p : P) : Only p t (t.exited p) := by
  refine fun q hq => ⟨by rw [fds_exited, if_neg hq], fun f => ?_⟩
  rw [owner_exited]
  split_ifs with ho
  · rw [ho]
    exact iff_of_false nofun fun h => hq (Option.some.inj h).symm
  · rfl

end Table

end Ashd.Advisory
