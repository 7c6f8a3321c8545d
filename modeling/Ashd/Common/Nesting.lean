import Mathlib.Algebra.Ring.Nat
import Mathlib.Data.List.Induction

/-!
# Nesting

Blocks that are opened and closed, at levels that are entered and left. A block that is open
when a level is entered is open in it, but cannot be closed there.

Main definitions:
* `Nesting.run`: how many blocks are open at each level.
* `Nested`: all marks are allowed where they stand.

Main results:
* `Nested.flat`, `Nested.finish`: where all that has been opened has been closed.
-/

namespace Ashd

/-- What can be at a place: a block that is opened or closed, an assertion that no block is
    open, a level that is entered or left, and an assertion that all have been left, too. -/
inductive Mark
  | opens
  | closes
  | flat
  | enter
  | leave
  | finish
  deriving DecidableEq

namespace Nesting

/-- The numbers of open blocks after a mark, the innermost level first, if it is allowed. -/
def step : List ℕ → Mark → Option (List ℕ)
  | d :: ds, .opens => some ((d + 1) :: ds)
  | (d + 1) :: ds, .closes => some (d :: ds)
  | ds, .flat => if ∀ d ∈ ds, d = 0 then some ds else none
  | ds, .enter => some (0 :: ds)
  | 0 :: d :: ds, .leave => some (d :: ds)
  | [0], .finish => some [0]
  | _, _ => none

def run (ms : List Mark) : Option (List ℕ) := ms.foldlM step [0]

variable {ms : List Mark} {ds : List ℕ}

@[simp] theorem run_nil : run [] = some [0] := rfl

theorem run_append (ms ms' : List Mark) : run (ms ++ ms') = (run ms).bind (ms'.foldlM step) :=
  List.foldlM_append

theorem run_append_of_eq_some (h : run ms = some ds) (ms' : List Mark) :
    run (ms ++ ms') = ms'.foldlM step ds := by
  rw [run_append, h]
  rfl

/-- The open blocks are those that have been opened and not closed. -/
theorem step_sum {m : Mark} {ds' : List ℕ} (h : step ds m = some ds') :
    ds'.sum + [m].count .closes = ds.sum + [m].count .opens := by
  unfold step at h
  split at h
  · cases h
    simp
    omega
  · cases h
    simp
    omega
  · split_ifs at h
    cases h
    simp
  · cases h
    simp
  · cases h
    simp
  · cases h
    simp
  · cases h

theorem run_sum (h : run ms = some ds) : ds.sum + ms.count .closes = ms.count .opens := by
  induction ms using List.reverseRec generalizing ds with
  | nil =>
    cases h
    rfl
  | append_singleton ms m ih =>
    rw [run_append] at h
    cases hms : run ms with
    | none =>
      rw [hms] at h
      cases h
    | some ds₀ =>
      rw [hms] at h
      have hstep : step ds₀ m = some ds := by simpa using h
      have := step_sum hstep
      have := ih hms
      rw [List.count_append, List.count_append]
      omega

end Nesting

/-- All marks are allowed where they stand. -/
def Nested (ms : List Mark) : Prop := (Nesting.run ms).isSome

instance (ms : List Mark) : Decidable (Nested ms) := inferInstanceAs (Decidable (_ = true))

variable {ms ms' : List Mark}

/-- What comes later does not matter. -/
theorem Nested.prefix (h : Nested (ms ++ ms')) : Nested ms := by
  unfold Nested at h ⊢
  rw [Nesting.run_append] at h
  cases hms : Nesting.run ms with
  | none =>
    rw [hms] at h
    exact h
  | some => rfl

/-- Where a mark has been allowed, and what the levels were. -/
theorem Nested.step {m : Mark} (h : Nested (ms ++ m :: ms')) :
    ∃ ds ds', Nesting.run ms = some ds ∧ Nesting.step ds m = some ds' := by
  obtain ⟨ds, hds⟩ := Option.isSome_iff_exists.mp h.prefix
  rw [← List.singleton_append, ← List.append_assoc] at h
  have h' : Nested (ms ++ [m]) := h.prefix
  unfold Nested at h'
  rw [Nesting.run_append_of_eq_some hds] at h'
  obtain ⟨ds', hds'⟩ := Option.isSome_iff_exists.mp h'
  exact ⟨ds, ds', hds, by simpa using hds'⟩

/-- Where no block may be open, all have been closed. -/
theorem Nested.flat (h : Nested (ms ++ .flat :: ms')) : ms.count .closes = ms.count .opens := by
  obtain ⟨ds, ds', hds, hstep⟩ := h.step
  have hsum := Nesting.run_sum hds
  have hzero : ∀ d ∈ ds, d = 0 := by
    by_contra hne
    simp [Nesting.step, hne] at hstep
  have : ds.sum = 0 := List.sum_eq_zero_iff_forall_eq_nat.mpr hzero
  omega

theorem Nested.finish (h : Nested (ms ++ .finish :: ms')) :
    Nesting.run ms = some [0] ∧ ms.count .closes = ms.count .opens := by
  obtain ⟨ds, ds', hds, hstep⟩ := h.step
  have hsum := Nesting.run_sum hds
  have hzero : ds = [0] := by
    unfold Nesting.step at hstep
    split at hstep <;> simp_all
  subst hzero
  exact ⟨hds, by simpa using hsum⟩

end Ashd
