import Mathlib.Data.List.Nodup
import Mathlib.Data.List.Perm.Subperm

/-!
# Doubly linked lists

The cells of a list that are linked by two fields, `next` and `prev`. What an operation does to
the fields is said cell by cell, so that it does not matter how they are stored.

Main definitions:
* `Linked`: the fields make up the list.
* `walk`: the cells from one on.

Main results:
* `Linked.push`: a cell is put in front.
* `Linked.unlink`, `Linked.erase`: a cell is taken out.
* `Linked.walk_eq`: the list is found by following `next`.
-/

namespace Ashd

variable {P : Type*}

/-- Every cell points to the one behind it and to the one before it, if there are such. -/
structure Linked (next prev : P → Option P) (l : List P) : Prop where
  nodup : l.Nodup
  links : ∀ xs a ys, l = xs ++ a :: ys → next a = ys.head? ∧ prev a = xs.getLast?

variable {next prev next' prev' : P → Option P} {l xs ys : List P} {a : P}

@[simp] theorem linked_nil : Linked next prev [] := ⟨List.nodup_nil, fun xs a ys h => by simp at h⟩

theorem Linked.next_eq (h : Linked next prev (xs ++ a :: ys)) : next a = ys.head? :=
  (h.links xs a ys rfl).1

theorem Linked.prev_eq (h : Linked next prev (xs ++ a :: ys)) : prev a = xs.getLast? :=
  (h.links xs a ys rfl).2

theorem Linked.congr (h : Linked next prev l) (hn : ∀ c ∈ l, next' c = next c)
    (hp : ∀ c ∈ l, prev' c = prev c) : Linked next' prev' l where
  nodup := h.nodup
  links := by
    rintro xs a ys rfl
    rw [hn a (by simp), hp a (by simp)]
    exact h.links xs a ys rfl

/-- The list determines the fields. -/
theorem Linked.unique (h : Linked next prev l) (h' : Linked next' prev' l) (ha : a ∈ l) :
    next' a = next a ∧ prev' a = prev a := by
  obtain ⟨xs, ys, rfl⟩ := List.append_of_mem ha
  rw [h.next_eq, h.prev_eq, h'.next_eq, h'.prev_eq]
  exact ⟨rfl, rfl⟩

theorem Linked.next_ne (h : Linked next prev l) (ha : a ∈ l) : next a ≠ some a := by
  obtain ⟨xs, ys, rfl⟩ := List.append_of_mem ha
  rw [h.next_eq]
  intro hhead
  have := (List.nodup_cons.mp (List.nodup_append.mp h.nodup).2.1).1
  exact this (List.mem_of_head? hhead)

/-- The next cell is in the list, too. -/
theorem Linked.next_mem (h : Linked next prev l) (ha : a ∈ l) {c : P} (hc : next a = some c) : c ∈ l := by
  obtain ⟨xs, ys, rfl⟩ := List.append_of_mem ha
  rw [h.next_eq] at hc
  have := List.mem_of_head? hc
  simp [this]

theorem Linked.prev_mem (h : Linked next prev l) (ha : a ∈ l) {c : P} (hc : prev a = some c) : c ∈ l := by
  obtain ⟨xs, ys, rfl⟩ := List.append_of_mem ha
  rw [h.prev_eq] at hc
  have := List.mem_of_getLast? hc
  simp [this]

/-! ## Walking along the list -/

/-- The cells from `p` on, as far as the fuel goes. -/
def walk (next : P → Option P) : ℕ → Option P → List P
  | 0, _ => []
  | _ + 1, none => []
  | fuel + 1, some a => a :: walk next fuel (next a)

@[simp] theorem walk_none (next : P → Option P) (fuel : ℕ) : walk next fuel none = [] := by
  cases fuel <;> rfl

/-- From a cell on, `next` leads to the end of the list. -/
theorem Linked.walk_suffix (xs : List P) (h : Linked next prev (xs ++ ys)) {fuel : ℕ} (hfuel : ys.length ≤ fuel) :
    walk next fuel ys.head? = ys := by
  induction ys generalizing xs fuel with
  | nil => rw [List.head?_nil, walk_none]
  | cons a ys ih =>
    cases fuel with
    | zero => simp at hfuel
    | succ fuel =>
      rw [List.head?_cons, walk, h.next_eq]
      congr 1
      exact ih (xs ++ [a]) (by simpa using h) (by simpa using hfuel)

theorem Linked.walk_eq (h : Linked next prev l) {fuel : ℕ} (hfuel : l.length ≤ fuel) :
    walk next fuel l.head? = l :=
  Linked.walk_suffix [] h hfuel

section Numbers

variable {next prev : ℕ → Option ℕ} {l : List ℕ} {n : ℕ}

/-- Where the cells are numbers below `n`, there are at most `n` of them. -/
theorem Linked.length_le (h : Linked next prev l) (hlt : ∀ a ∈ l, a < n) : l.length ≤ n := by
  have hsub : l ⊆ List.range n := fun a ha => List.mem_range.mpr (hlt a ha)
  simpa using (List.subperm_of_subset h.nodup hsub).length_le

theorem Linked.walk_lt (h : Linked next prev l) (hlt : ∀ a ∈ l, a < n) : walk next n l.head? = l :=
  h.walk_eq (h.length_le hlt)

end Numbers

/-! ## Changing the list -/

variable [DecidableEq P]

/-- A new cell is put in front of the list. -/
theorem Linked.push (h : Linked next prev l) (ha : a ∉ l) (hna : next' a = l.head?) (hpa : prev' a = none)
    (hn : ∀ c ∈ l, next' c = next c) (hp : ∀ c ∈ l, prev' c = if l.head? = some c then some a else prev c) :
    Linked next' prev' (a :: l) where
  nodup := List.nodup_cons.mpr ⟨ha, h.nodup⟩
  links := by
    intro us b vs hl
    cases us with
    | nil =>
      cases hl
      exact ⟨hna, hpa⟩
    | cons u us =>
      obtain ⟨rfl, rfl⟩ := List.cons.inj hl
      have hb : b ∈ us ++ b :: vs := by simp
      refine ⟨(hn b hb).trans h.next_eq, ?_⟩
      rw [hp b hb]
      cases us with
      | nil => simp
      | cons u' us =>
        have hne : u' ≠ b := by
          rintro rfl
          have := h.nodup
          simp at this
        rw [if_neg (by simpa using hne), h.prev_eq]
        rfl

/-- The cell `a` is taken out; its own fields do not matter. -/
theorem Linked.unlink (h : Linked next prev (xs ++ a :: ys))
    (hn : ∀ c ∈ xs ++ ys, next' c = if prev a = some c then next a else next c)
    (hp : ∀ c ∈ xs ++ ys, prev' c = if next a = some c then prev a else prev c) :
    Linked next' prev' (xs ++ ys) where
  nodup := h.nodup.sublist (List.Sublist.append (List.Sublist.refl xs) (List.sublist_cons_self a ys))
  links := by
    intro us c vs hl
    have hc : c ∈ xs ++ ys := by
      rw [hl]
      simp
    rw [hn c hc, hp c hc, h.prev_eq, h.next_eq]
    have hnodup := h.nodup
    rcases List.append_eq_append_iff.mp hl with ⟨ws, rfl, rfl⟩ | ⟨ws, rfl, hws⟩
    · -- `c` is behind `a`
      obtain ⟨hxs, hys, hdisj⟩ := List.nodup_append.mp hnodup
      have hcx : ¬ xs.getLast? = some c := fun hlast =>
        hdisj c (List.mem_of_getLast? hlast) c (by simp) rfl
      have hlinks := h.links (xs ++ a :: ws) c vs (by simp)
      rw [if_neg hcx, hlinks.1, hlinks.2]
      refine ⟨rfl, ?_⟩
      cases ws with
      | nil => simp
      | cons w ws =>
        have hne : w ≠ c := by
          rintro rfl
          simp at hys
        rw [if_neg (by simpa using hne)]
        simp [List.getLast?_append, List.getLast?_cons]
    · cases ws with
      | nil =>
        -- `c` comes right behind `a`
        obtain ⟨rfl⟩ : ys = c :: vs := by simpa using hws.symm
        have hlinks := h.links (us ++ [a]) c vs (by simp)
        have hcx : ¬ us.getLast? = some c := fun hlast => by
          have := (List.nodup_append.mp hnodup).2.2 c (by simpa using List.mem_of_getLast? hlast) c (by simp)
          exact this rfl
        simp [hcx, hlinks.1]
      | cons w ws =>
        -- `c` is before `a`
        obtain ⟨rfl, rfl⟩ := List.cons.inj hws
        have hlinks := h.links us c (ws ++ a :: ys) (by simp)
        have hcy : ¬ ys.head? = some c := fun hhead => by
          have := (List.nodup_append.mp hnodup).2.2 c (by simp) c (by simp [List.mem_of_head? hhead])
          exact this rfl
        rw [if_neg hcy, hlinks.1, hlinks.2]
        refine ⟨?_, rfl⟩
        cases ws with
        | nil => simp
        | cons w ws =>
          have hne : ¬ (us ++ c :: w :: ws).getLast? = some c := by
            intro hlast
            have hmem : c ∈ w :: ws := by
              rw [List.getLast?_append_of_ne_nil _ (by simp)] at hlast
              exact List.mem_of_getLast? (by simpa using hlast)
            have := (List.nodup_append.mp hnodup).1
            simp [List.nodup_append] at this
            simp at hmem
            tauto
          rw [if_neg hne]
          simp

/-- The head of the list without `a`. -/
theorem Linked.head?_unlink (h : Linked next prev (xs ++ a :: ys)) :
    (xs ++ ys).head? = if (xs ++ a :: ys).head? = some a then next a else (xs ++ a :: ys).head? := by
  rw [h.next_eq]
  cases xs with
  | nil => simp
  | cons x xs =>
    have hne : x ≠ a := by
      rintro rfl
      have := h.nodup
      simp at this
    simp [hne]

/-- The end of the list without `a`. -/
theorem Linked.getLast?_unlink (h : Linked next prev (xs ++ a :: ys)) :
    (xs ++ ys).getLast? = if (xs ++ a :: ys).getLast? = some a then prev a else (xs ++ a :: ys).getLast? := by
  rw [h.prev_eq]
  rcases List.eq_nil_or_concat ys with rfl | ⟨ys, y, rfl⟩
  · simp
  · have hne : y ≠ a := by
      rintro rfl
      have := (List.nodup_append.mp h.nodup).2.1
      simp at this
    rw [List.concat_eq_append, ← List.append_assoc, List.getLast?_concat]
    have : (xs ++ a :: (ys ++ [y])).getLast? = some y := by
      rw [← List.cons_append, ← List.append_assoc, List.getLast?_concat]
    rw [this, if_neg (by simpa using hne)]

/-- `Linked.unlink`, for a cell that is wherever it is. -/
theorem Linked.erase (h : Linked next prev l) (ha : a ∈ l)
    (hn : ∀ c ∈ l.erase a, next' c = if prev a = some c then next a else next c)
    (hp : ∀ c ∈ l.erase a, prev' c = if next a = some c then prev a else prev c) :
    Linked next' prev' (l.erase a) := by
  obtain ⟨xs, ys, hxs, rfl, heq⟩ := List.exists_erase_eq ha
  rw [heq] at hn hp ⊢
  exact h.unlink hn hp

theorem Linked.head?_erase (h : Linked next prev l) (ha : a ∈ l) :
    (l.erase a).head? = if l.head? = some a then next a else l.head? := by
  obtain ⟨xs, ys, hxs, rfl, heq⟩ := List.exists_erase_eq ha
  rw [heq]
  exact h.head?_unlink

end Ashd
