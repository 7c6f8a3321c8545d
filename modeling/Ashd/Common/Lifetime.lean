import Mathlib.Data.Multiset.AddSub
import Mathlib.Data.List.Count

/-!
# Opening and closing

What is opened is to be closed exactly once, and nothing else is to be closed. Whether a sequence
of uses does so is seen by keeping what is open while going through it.

Main results:
* `closedOnce_iff`: everything is closed once exactly if it goes through and nothing is left.
* `openAfter_append`: going through one sequence after the other.
-/

namespace Ashd.Lifetime

variable {α : Type*}

/-- Something is opened, or closed; what has been closed can be opened again. -/
inductive Use (α : Type*)
  | opened (a : α)
  | closed (a : α)
  deriving DecidableEq

variable [DecidableEq α]

/-- Everything that is opened is closed exactly once, after it has been opened, and nothing else is
    closed. -/
def ClosedOnce (us : List (Use α)) : Prop :=
  ∀ a, us.count (.closed a) = us.count (.opened a) ∧
    ∀ n, (us.take n).count (.closed a) ≤ (us.take n).count (.opened a)

/-- What is open afterwards, if nothing is closed that is not open. -/
def openAfter : List (Use α) → Multiset α → Option (Multiset α)
  | [], s => some s
  | .opened a :: us, s => openAfter us (a ::ₘ s)
  | .closed a :: us, s => if a ∈ s then openAfter us (s.erase a) else none

/-- Whether `a` is open afterwards, if it is never opened while it is open, nor closed while it is
    not. -/
def isOpen (a : α) : List (Use α) → Bool → Option Bool
  | [], b => some b
  | u :: us, b =>
    if u = .opened a then if b then none else isOpen a us true
    else if u = .closed a then if b then isOpen a us false else none
    else isOpen a us b

theorem isOpen_append (a : α) (us vs : List (Use α)) (b : Bool) :
    isOpen a (us ++ vs) b = (isOpen a us b).bind (isOpen a vs) := by
  induction us generalizing b with
  | nil => rfl
  | cons u us ih =>
    rw [List.cons_append, isOpen, isOpen]
    split_ifs
    · rfl
    · exact ih true
    · exact ih false
    · rfl
    · exact ih b

theorem openAfter_append (us vs : List (Use α)) (s : Multiset α) :
    openAfter (us ++ vs) s = (openAfter us s).bind (openAfter vs) := by
  induction us generalizing s with
  | nil => rfl
  | cons u us ih =>
    cases u with
    | opened a => exact ih _
    | closed a =>
      rw [List.cons_append, openAfter, openAfter]
      split_ifs
      · exact ih _
      · rfl

theorem openAfter_opened (l : List α) (s : Multiset α) :
    openAfter (l.map .opened) s = some (↑l + s) := by
  induction l generalizing s with
  | nil => simp [openAfter]
  | cons a l ih =>
    rw [List.map_cons, openAfter, ih, ← Multiset.cons_coe, Multiset.cons_add, Multiset.add_cons]

theorem openAfter_closed (l : List α) (s : Multiset α) :
    openAfter (l.map .closed) (↑l + s) = some s := by
  induction l with
  | nil => simp [openAfter]
  | cons a l ih =>
    rw [List.map_cons, openAfter, ← Multiset.cons_coe, Multiset.cons_add,
      if_pos (Multiset.mem_cons_self _ _), Multiset.erase_cons_head, ih]

/-- Going through is counting. -/
theorem openAfter_eq_some_iff (us : List (Use α)) (s s' : Multiset α) :
    openAfter us s = some s' ↔
      ∀ a, s'.count a + us.count (.closed a) = s.count a + us.count (.opened a) ∧
        ∀ n, (us.take n).count (.closed a) ≤ s.count a + (us.take n).count (.opened a) := by
  induction us generalizing s with
  | nil =>
    simp only [openAfter, Option.some.injEq, List.count_nil, Nat.add_zero, List.take_nil,
      Nat.zero_le, implies_true, and_true]
    exact ⟨fun h a => by rw [h], fun h => (Multiset.ext.mpr h).symm⟩
  | cons u us ih =>
    cases u with
    | opened a =>
      rw [openAfter, ih]
      refine forall_congr' fun x => ?_
      rw [← Nat.and_forall_add_one (p := fun n => ((Use.opened a :: us).take n).count _ ≤ _)]
      simp only [List.take_zero, List.take_succ_cons, List.count_cons, List.count_nil,
        Multiset.count_cons, beq_iff_eq, reduceCtorEq, Use.opened.injEq, if_false, eq_comm (a := a),
        Nat.zero_le, true_and]
      refine and_congr (by omega) (forall_congr' fun n => by omega)
    | closed a =>
      rw [openAfter]
      by_cases ha : a ∈ s
      · rw [if_pos ha, ih]
        refine forall_congr' fun x => ?_
        have hpos := Multiset.one_le_count_iff_mem.mpr ha
        have herase : (s.erase a).count x + (if x = a then 1 else 0) = s.count x := by
          by_cases hx : x = a
          · rw [hx, if_pos rfl, Multiset.count_erase_self]
            omega
          · rw [if_neg hx, Multiset.count_erase_of_ne hx, Nat.add_zero]
        rw [← Nat.and_forall_add_one (p := fun n => ((Use.closed a :: us).take n).count _ ≤ _)]
        simp only [List.take_zero, List.take_succ_cons, List.count_cons, List.count_nil,
          beq_iff_eq, reduceCtorEq, Use.closed.injEq, if_false, eq_comm (a := a), Nat.zero_le,
          true_and]
        refine and_congr (by omega) (forall_congr' fun n => by omega)
      · -- what is not open is closed at once
        rw [if_neg ha]
        constructor
        · intro h
          cases h
        · intro h
          have := (h a).2 1
          simp [Multiset.count_eq_zero_of_notMem ha] at this

theorem closedOnce_iff (us : List (Use α)) : ClosedOnce us ↔ openAfter us 0 = some 0 := by
  rw [openAfter_eq_some_iff]
  simp only [Multiset.count_zero, Nat.zero_add]
  rfl

end Ashd.Lifetime
