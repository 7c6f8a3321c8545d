import Mathlib.Data.List.Induction

/-!
# Lists of keyed entries

Entries have keys, and a list may have several entries with one key, the first of which counts.
To put an entry is to remove the first one that has its key, and to append it.

Main results:
* `puts_layout`: what a list is after some entries have been put.
* `puts_effective_iff`: when none of the old entries with their keys are left.
-/

namespace Ashd.Keyed

variable {α κ : Type*} [BEq κ] (key : α → κ)

/-- One entry is put. -/
def put (l : List α) (x : α) : List α := (l.eraseP fun y => key y == key x) ++ [x]

/-- Some entries are put, one after another. -/
def puts (l xs : List α) : List α := xs.foldl (put key) l

/-- The first entry with a key. -/
def lookup (l : List α) (k : κ) : Option α := l.find? fun y => key y == k

/-- Putting `xs` into `l` gave `l'`, and had its full effect: for the keys of `xs`, only entries of
    `xs` are left, at the end, of which one is found. The others are those of `l`. -/
structure Effective (l xs l' : List α) : Prop where
  origin : ∃ kept added, l' = kept ++ added ∧ kept.Sublist l ∧ added.Sublist xs ∧
    ∀ y ∈ kept, ∀ x ∈ xs, key y ≠ key x
  found : ∀ x ∈ xs, ∃ y ∈ xs, key y = key x ∧ lookup key l' (key x) = some y
  others : (l'.filter fun y => xs.all fun x => key y != key x) = l.filter fun y => xs.all fun x => key y != key x

/-- What is left after some entries were put: `kept` of the old ones, where each entry that was put
    has removed one with its key, and `added` of the new ones. -/
structure Layout (l xs kept added : List α) : Prop where
  kept_sublist : kept.Sublist l
  added_sublist : added.Sublist xs
  dropped : ∀ k, (kept.filter fun y => key y == k) =
    (l.filter fun y => key y == k).drop (xs.countP fun x => key x == k)
  others : ∀ p : α → Bool, (∀ x ∈ xs, ∀ y, key y = key x → p y = false) → kept.filter p = l.filter p

variable {key}

theorem puts_concat (l xs : List α) (x : α) : puts key l (xs ++ [x]) = put key (puts key l xs) x := by
  unfold puts
  rw [List.foldl_append, List.foldl_cons, List.foldl_nil]

theorem mem_put_self (l : List α) (x : α) : x ∈ put key l x :=
  List.mem_append_right _ (List.mem_singleton_self x)

theorem Layout.nil (l : List α) : Layout key l [] l [] where
  kept_sublist := .refl l
  added_sublist := .refl []
  dropped := fun _ => by rw [List.countP_nil, List.drop_zero]
  others := fun _ _ => rfl

theorem filter_eraseP (p : α → Bool) (l : List α) : (l.eraseP p).filter p = (l.filter p).tail := by
  induction l with
  | nil => rfl
  | cons y l ih =>
    by_cases hy : p y = true
    · rw [List.eraseP_cons_of_pos hy, List.filter_cons_of_pos hy, List.tail_cons]
    · rw [List.eraseP_cons_of_neg hy, List.filter_cons_of_neg hy, List.filter_cons_of_neg hy, ih]

/-- What does not hold of any entry that may be removed is not touched. -/
theorem filter_eraseP_of_not {p q : α → Bool} (h : ∀ y, q y = true → p y = false) (l : List α) :
    (l.eraseP q).filter p = l.filter p := by
  induction l with
  | nil => rfl
  | cons y l ih =>
    by_cases hy : q y = true
    · rw [List.eraseP_cons_of_pos hy, List.filter_cons_of_neg (by simp [h y hy])]
    · rw [List.eraseP_cons_of_neg hy, List.filter_cons, List.filter_cons, ih]

variable [LawfulBEq κ]

theorem mem_put_of_ne {l : List α} {x y : α} (hy : y ∈ l) (hne : key y ≠ key x) : y ∈ put key l x :=
  List.mem_append_left _ ((List.mem_eraseP_of_neg (by simpa using hne)).mpr hy)

/-- Every key that has been put is there. -/
theorem exists_mem_puts (l xs : List α) : ∀ x ∈ xs, ∃ y ∈ puts key l xs, key y = key x := by
  induction xs using List.reverseRecOn with
  | nil => simp
  | append_singleton xs x ih =>
    intro z hz
    rw [puts_concat]
    by_cases hzx : key z = key x
    · exact ⟨x, mem_put_self _ x, hzx.symm⟩
    · obtain ⟨y, hy, hyz⟩ := ih z ((List.mem_append.mp hz).resolve_right fun h0 => hzx (by simp_all))
      exact ⟨y, mem_put_of_ne hy (hyz ▸ hzx), hyz⟩

/-- A key that has been put has at least as many entries as before. -/
theorem countP_puts (k : κ) (l xs : List α) :
    (l.countP fun y => key y == k) ≤ (puts key l xs).countP fun y => key y == k := by
  induction xs using List.reverseRecOn with
  | nil => exact Nat.le_refl _
  | append_singleton xs x ih =>
    refine Nat.le_trans ih ?_
    rw [puts_concat, put, List.countP_append, List.countP_eq_length_filter, List.countP_eq_length_filter]
    by_cases hk : key x = k
    · subst hk
      rw [filter_eraseP, List.length_tail, List.countP_singleton, if_pos (by simp)]
      omega
    · rw [filter_eraseP_of_not (by simpa using fun y hy => hy ▸ hk)]
      omega

/-- One more entry is put, which removes an old one. -/
theorem Layout.put_kept {l xs kept added : List α} (h : Layout key l xs kept added) (x : α) :
    Layout key l (xs ++ [x]) (kept.eraseP fun y => key y == key x) (added ++ [x]) where
  kept_sublist := List.eraseP_sublist.trans h.kept_sublist
  added_sublist := h.added_sublist.append (.refl [x])
  dropped := by
    intro k
    rw [List.countP_append]
    by_cases hk : key x = k
    · subst hk
      rw [filter_eraseP, h.dropped, List.countP_singleton, if_pos (by simp), List.tail_drop]
    · rw [filter_eraseP_of_not (by simpa using fun y hy => hy ▸ hk), h.dropped, List.countP_singleton,
        if_neg (by simpa using hk), Nat.add_zero]
  others := by
    intro p hp
    rw [filter_eraseP_of_not (by simpa using hp x (by simp))]
    exact h.others p fun z hz => hp z (List.mem_append_left _ hz)

/-- One more entry is put, and there is no old one with its key. -/
theorem Layout.put_added {l xs kept added : List α} (h : Layout key l xs kept added) {x : α}
    (hx : ∀ y ∈ kept, key y ≠ key x) :
    Layout key l (xs ++ [x]) kept ((added.eraseP fun y => key y == key x) ++ [x]) where
  kept_sublist := h.kept_sublist
  added_sublist := (List.eraseP_sublist.trans h.added_sublist).append (.refl [x])
  dropped := by
    intro k
    rw [List.countP_append, ← List.drop_drop, ← h.dropped, List.countP_singleton]
    split_ifs with hk
    · rw [List.filter_eq_nil_iff.mpr fun y hy => by simpa [← beq_iff_eq.mp hk] using hx y hy, List.drop_nil]
    · rw [List.drop_zero]
  others := fun p hp => h.others p fun z hz => hp z (List.mem_append_left _ hz)

theorem puts_layout (l xs : List α) :
    ∃ kept added, puts key l xs = kept ++ added ∧ Layout key l xs kept added := by
  induction xs using List.reverseRecOn with
  | nil => exact ⟨l, [], (List.append_nil l).symm, .nil l⟩
  | append_singleton xs x ih =>
    obtain ⟨kept, added, heq, h⟩ := ih
    rw [puts_concat, heq]
    by_cases hx : ∃ y ∈ kept, key y = key x
    · refine ⟨_, _, ?_, h.put_kept x⟩
      obtain ⟨y, hy, hyx⟩ := hx
      rw [put, List.eraseP_append_left (by simpa using hyx) _ hy, List.append_assoc]
    · refine ⟨_, _, ?_, h.put_added fun y hy h0 => hx ⟨y, hy, h0⟩⟩
      rw [put, List.eraseP_append_right _ fun y hy => by simpa using fun h0 => hx ⟨y, hy, h0⟩, List.append_assoc]

/-- **Putting entries.** It has its full effect if and only if the list does not have more entries
    with a key than are put. -/
theorem puts_effective_iff (l xs : List α) : Effective key l xs (puts key l xs) ↔
    ∀ x ∈ xs, (l.countP fun y => key y == key x) ≤ xs.countP fun y => key y == key x := by
  constructor
  · intro h x hx
    obtain ⟨kept, added, heq, -, hadded, hkept⟩ := h.origin
    calc (l.countP fun y => key y == key x)
        ≤ (puts key l xs).countP fun y => key y == key x := countP_puts (key x) l xs
      _ = added.countP fun y => key y == key x := by
          rw [heq, List.countP_append, List.countP_eq_zero.mpr fun y hy => by simpa using hkept y hy x hx, Nat.zero_add]
      _ ≤ xs.countP fun y => key y == key x := hadded.countP_le
  · intro h
    obtain ⟨kept, added, heq, hl⟩ : ∃ kept added, puts key l xs = kept ++ added ∧ Layout key l xs kept added :=
      puts_layout l xs
    have hkept : ∀ y ∈ kept, ∀ x ∈ xs, key y ≠ key x := by
      intro y hy x hx hyx
      have hnil := hl.dropped (key x)
      rw [List.drop_eq_nil_of_le (by rw [← List.countP_eq_length_filter]; exact h x hx), List.filter_eq_nil_iff] at hnil
      exact hnil y hy (by simpa using hyx)
    refine ⟨⟨kept, added, heq, hl.kept_sublist, hl.added_sublist, hkept⟩, fun x hx => ?_, ?_⟩
    · -- one is there, and the first one is not an old one
      obtain ⟨y, hy, hyx⟩ : ∃ y ∈ puts key l xs, key y = key x := exists_mem_puts l xs x hx
      have hsome : (lookup key (puts key l xs) (key x)).isSome := List.find?_isSome.mpr ⟨y, hy, by simpa using hyx⟩
      obtain ⟨z, hz⟩ := Option.isSome_iff_exists.mp hsome
      have hzx : key z = key x := eq_of_beq (List.find?_some (p := fun y => key y == key x) hz)
      refine ⟨z, ?_, hzx, hz⟩
      obtain hzk | hza := List.mem_append.mp (heq ▸ List.mem_of_find?_eq_some hz)
      · exact absurd hzx (hkept z hzk x hx)
      · exact hl.added_sublist.subset hza
    · have hadded : (added.filter fun y => xs.all fun x => key y != key x) = [] := by
        rw [List.filter_eq_nil_iff]
        intro y hy
        simpa using ⟨y, hl.added_sublist.subset hy, rfl⟩
      rw [heq, List.filter_append, hadded, List.append_nil]
      exact hl.others _ fun x hx y hyx => by simpa using ⟨x, hx, hyx⟩

end Ashd.Keyed
