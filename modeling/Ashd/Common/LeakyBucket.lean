import Mathlib.Algebra.Order.Field.Basic
import Mathlib.Tactic.Linarith
import Mathlib.Tactic.Ring

/-!
# Leaky buckets

A bucket has a level that sinks at a fixed rate down to zero and rises by one with
everything that passes. When things only pass while the level is below a bound, then only so
many pass in any period of time, however irregularly the level is brought up to date.

Main results:
* `Accounted.leak`, `Accounted.pass`: the level accounts for all that has passed.
* `Bounded.pass`: the bound on every window of time.
-/

namespace Ashd.LeakyBucket

variable {α : Type*} [LinearOrder α]

/-- How many of `ts` are in the window from `a` to `b`. -/
def within (a b : α) (ts : List α) : ℕ := ts.countP fun t => a ≤ t ∧ t ≤ b

/-- How many of `ts` are not before `a`. -/
def since (a : α) (ts : List α) : ℕ := ts.countP fun t => a ≤ t

theorem within_le_since (a b : α) (ts : List α) : within a b ts ≤ since a ts :=
  List.countP_mono_left fun t _ h => by
    rw [decide_eq_true_iff] at h ⊢
    exact h.1

theorem since_eq_zero {a last : α} {ts : List α} (h : ∀ t ∈ ts, t ≤ last) (ha : last < a) :
    since a ts = 0 := by
  refine List.countP_eq_zero.mpr fun t ht => ?_
  rw [decide_eq_true_iff, not_le]
  exact (h t ht).trans_lt ha

variable [Field α]

/-- The level `level` that a bucket had at time `last` accounts for what has passed at the
    times `ts`. -/
structure Accounted (rate level last : α) (ts : List α) : Prop where
  nonneg : 0 ≤ level
  le_last : ∀ t ∈ ts, t ≤ last
  since_le : ∀ a ≤ last, (since a ts : α) ≤ level + rate * (last - a)

/-- In every window, less than `cap` and what leaks in that time have passed. -/
def Bounded (rate cap : α) (ts : List α) : Prop :=
  ∀ a b, a ≤ b → (within a b ts : α) < cap + rate * (b - a)

variable [IsStrictOrderedRing α] {rate level last cap : α} {ts : List α}

theorem Accounted.nil (rate last : α) (hr : 0 ≤ rate) : Accounted rate 0 last [] where
  nonneg := le_rfl
  le_last := by simp
  since_le := by
    intro a ha
    simp only [since, List.countP_nil, Nat.cast_zero, zero_add]
    exact mul_nonneg hr (sub_nonneg.mpr ha)

/-- Bringing the level up to date. -/
theorem Accounted.leak (h : Accounted rate level last ts) (hr : 0 ≤ rate) {now : α}
    (hn : last ≤ now) : Accounted rate (max 0 (level - (now - last) * rate)) now ts where
  nonneg := le_max_left _ _
  le_last := fun t ht => (h.le_last t ht).trans hn
  since_le := by
    intro a ha
    rcases le_or_gt a last with hal | hal
    · have hcount := h.since_le a hal
      have hmax : level - (now - last) * rate ≤ max 0 (level - (now - last) * rate) :=
        le_max_right _ _
      calc (since a ts : α) ≤ level + rate * (last - a) := hcount
        _ = level - (now - last) * rate + rate * (now - a) := by ring
        _ ≤ max 0 (level - (now - last) * rate) + rate * (now - a) := add_le_add_left hmax _
    · rw [since_eq_zero h.le_last hal, Nat.cast_zero]
      exact add_nonneg (le_max_left _ _) (mul_nonneg hr (sub_nonneg.mpr ha))

/-- Something passes at the time up to which the level is. -/
theorem Accounted.pass (h : Accounted rate level last ts) :
    Accounted rate (level + 1) last (ts ++ [last]) where
  nonneg := add_nonneg h.nonneg zero_le_one
  le_last := by
    intro t ht
    rcases List.mem_append.mp ht with ht | ht
    · exact h.le_last t ht
    · exact (List.mem_singleton.mp ht).le
  since_le := by
    intro a ha
    have hcount := h.since_le a ha
    have : since a (ts ++ [last]) = since a ts + 1 := by
      simp [since, List.countP_append, ha]
    rw [this, Nat.cast_add, Nat.cast_one]
    linarith

theorem Bounded.nil (hr : 0 ≤ rate) (hc : 0 < cap) : Bounded rate cap [] := by
  intro a b hab
  simp only [within, List.countP_nil, Nat.cast_zero]
  exact add_pos_of_pos_of_nonneg hc (mul_nonneg hr (sub_nonneg.mpr hab))

/-- Something passes while the level is below `size`. -/
theorem Bounded.pass {size : α} (hb : Bounded rate (size + 1) ts) (h : Accounted rate level last ts)
    (hr : 0 ≤ rate) (hl : level < size) : Bounded rate (size + 1) (ts ++ [last]) := by
  intro a b hab
  have hw : within a b (ts ++ [last]) = within a b ts + if a ≤ last ∧ last ≤ b then 1 else 0 := by
    simp [within, List.countP_append, List.countP_singleton]
  rw [hw]
  split_ifs with hin
  · have hcount := h.since_le a hin.1
    have hle : (within a b ts : α) ≤ since a ts := Nat.cast_le.mpr (within_le_since a b ts)
    have hrate : rate * (last - a) ≤ rate * (b - a) :=
      mul_le_mul_of_nonneg_left (sub_le_sub_right hin.2 a) hr
    rw [Nat.cast_add, Nat.cast_one]
    linarith
  · rw [Nat.add_zero]
    exact hb a b hab

end Ashd.LeakyBucket
