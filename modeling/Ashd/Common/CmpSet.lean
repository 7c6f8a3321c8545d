import Mathlib.Data.List.Pairwise
import Mathlib.Data.Set.Basic

/-!
# Sets under a comparison

What a set is to do whose elements are told apart by a comparison that need not be equality,
and the lists that have the elements of such a set in order.

Main definitions:
* `SetStep`, `SetRun`: putting, deleting and getting elements.
* `Increasing`: a list in order, no two elements of which compare as equal.
-/

namespace Ashd

variable {ι : Type*}

/-- The operations on a set, and what they return. -/
inductive SetOp (ι : Type*)
  | put (x : ι)
  | del (x : ι)
  | get (x : ι)

inductive SetRes (ι : Type*)
  | flag (changed : Bool)
  | item (y : Option ι)

/-- What an operation does: `put` adds an element unless there is one that is equal to it,
    `del` removes the one that is equal, and `get` finds it. -/
inductive SetStep (cmp : ι → ι → Ordering) (S : Set ι) : SetOp ι → SetRes ι → Set ι → Prop
  | added (x) : (∀ y ∈ S, cmp x y ≠ .eq) → SetStep cmp S (.put x) (.flag true) (insert x S)
  | there (x y) : y ∈ S → cmp x y = .eq → SetStep cmp S (.put x) (.flag false) S
  | removed (x y) : y ∈ S → cmp x y = .eq → SetStep cmp S (.del x) (.flag true) (S \ {y})
  | absent (x) : (∀ y ∈ S, cmp x y ≠ .eq) → SetStep cmp S (.del x) (.flag false) S
  | found (x y) : y ∈ S → cmp x y = .eq → SetStep cmp S (.get x) (.item (some y)) S
  | missing (x) : (∀ y ∈ S, cmp x y ≠ .eq) → SetStep cmp S (.get x) (.item none) S

/-- What a sequence of operations on the empty set does. -/
inductive SetRun (cmp : ι → ι → Ordering) : List (SetOp ι) → List (SetRes ι) → Set ι → Prop
  | start : SetRun cmp [] [] ∅
  | call {ops outs S op out S'} : SetRun cmp ops outs S → SetStep cmp S op out S' →
      SetRun cmp (ops ++ [op]) (outs ++ [out]) S'

/-! ## Lists of elements -/

section Lists

variable {cmp : ι → ι → Ordering} {xs xs' zs : List ι} {x : ι}

/-- `xs'` has the elements of `xs` after `put`. -/
def Put (cmp : ι → ι → Ordering) (x : ι) (xs xs' : List ι) (c : Bool) : Prop :=
  if c then (∀ y ∈ xs, cmp x y ≠ .eq) ∧ ∀ y, y ∈ xs' ↔ y = x ∨ y ∈ xs
  else (∃ y ∈ xs, cmp x y = .eq) ∧ ∀ y, y ∈ xs' ↔ y ∈ xs

/-- `xs'` has the elements of `xs` after `del`. -/
def Del (cmp : ι → ι → Ordering) (x : ι) (xs xs' : List ι) (c : Bool) : Prop :=
  (c = true ↔ ∃ y ∈ xs, cmp x y = .eq) ∧ ∀ y, y ∈ xs' ↔ y ∈ xs ∧ cmp x y ≠ .eq

/-- `get` finds `o` in `xs`. -/
def Got (cmp : ι → ι → Ordering) (x : ι) (xs : List ι) : Option ι → Prop
  | some y => y ∈ xs ∧ cmp x y = .eq
  | none => ∀ y ∈ xs, cmp x y ≠ .eq

/-- The elements that are there afterwards are those that were, and the new one. -/
theorem Put.subset {c : Bool} (h : Put cmp x xs xs' c) {y : ι} (hy : y ∈ xs') : y = x ∨ y ∈ xs := by
  unfold Put at h
  split_ifs at h
  · exact (h.2 y).mp hy
  · exact .inr ((h.2 y).mp hy)

/-- Elements that are not equal do not matter, before and after. -/
theorem Put.rest {c : Bool} (h : Put cmp x xs xs' c) (hzs : ∀ y ∈ zs, cmp x y ≠ .eq) {ws ws' : List ι}
    (hws : ∀ y, y ∈ ws ↔ y ∈ xs ∨ y ∈ zs) (hws' : ∀ y, y ∈ ws' ↔ y ∈ xs' ∨ y ∈ zs) : Put cmp x ws ws' c := by
  unfold Put at h ⊢
  split_ifs at h ⊢
  · refine ⟨fun y hy => ((hws y).mp hy).elim (h.1 y) (hzs y), fun y => ?_⟩
    rw [hws, hws', h.2, or_assoc]
  · obtain ⟨⟨y, hy, heq⟩, hmem⟩ := h
    refine ⟨⟨y, (hws y).mpr (.inl hy), heq⟩, fun y => ?_⟩
    rw [hws, hws', hmem]

theorem Del.rest {c : Bool} (h : Del cmp x xs xs' c) (hzs : ∀ y ∈ zs, cmp x y ≠ .eq) {ws ws' : List ι}
    (hws : ∀ y, y ∈ ws ↔ y ∈ xs ∨ y ∈ zs) (hws' : ∀ y, y ∈ ws' ↔ y ∈ xs' ∨ y ∈ zs) : Del cmp x ws ws' c := by
  obtain ⟨hc, hmem⟩ := h
  refine ⟨hc.trans ⟨fun ⟨y, hy, heq⟩ => ⟨y, (hws y).mpr (.inl hy), heq⟩, fun ⟨y, hy, heq⟩ => ⟨y, ?_, heq⟩⟩, fun y => ?_⟩
  · exact ((hws y).mp hy).resolve_right fun hz => hzs y hz heq
  · rw [hws, hws', hmem, or_and_right, and_iff_left_of_imp (hzs y)]

theorem Got.rest {o : Option ι} (h : Got cmp x xs o) (hzs : ∀ y ∈ zs, cmp x y ≠ .eq) {ws : List ι}
    (hws : ∀ y, y ∈ ws ↔ y ∈ xs ∨ y ∈ zs) : Got cmp x ws o := by
  cases o with
  | some y => exact ⟨(hws y).mpr (.inl h.1), h.2⟩
  | none => exact fun y hy => ((hws y).mp hy).elim (h y) (hzs y)

theorem SetStep.put {c : Bool} (h : Put cmp x xs xs' c) :
    SetStep cmp {y | y ∈ xs} (.put x) (.flag c) {y | y ∈ xs'} := by
  cases c with
  | true =>
    have hset : {y | y ∈ xs'} = insert x {y | y ∈ xs} := Set.ext h.2
    rw [hset]
    exact .added x h.1
  | false =>
    obtain ⟨⟨y, hy, heq⟩, hmem⟩ := h
    have hset : {y | y ∈ xs'} = {y | y ∈ xs} := Set.ext hmem
    rw [hset]
    exact .there x y hy heq

theorem SetStep.get {o : Option ι} (h : Got cmp x xs o) :
    SetStep cmp {y | y ∈ xs} (.get x) (.item o) {y | y ∈ xs} := by
  cases o with
  | some y => exact .found x y h.1 h.2
  | none => exact .missing x h

end Lists

/-! ## Lists in order -/

def Increasing (cmp : ι → ι → Ordering) (xs : List ι) : Prop := xs.Pairwise fun a b => cmp a b = .lt

/-- Without the element in the middle, the rest is in order. -/
theorem Increasing.append {cmp : ι → ι → Ordering} {xs ys : List ι} {d : ι}
    (h : Increasing cmp (xs ++ d :: ys)) : Increasing cmp (xs ++ ys) :=
  List.Pairwise.sublist (List.Sublist.append (List.Sublist.refl xs) (List.sublist_cons_self d ys)) h

section Order

variable {cmp : ι → ι → Ordering} [Std.TransCmp cmp] {xs ys : List ι} {d x y z : ι}

/-- An element in the middle is greater than those before it and less than those after it. -/
theorem increasing_mid : Increasing cmp (xs ++ d :: ys) ↔
    Increasing cmp xs ∧ Increasing cmp ys ∧ (∀ a ∈ xs, cmp a d = .lt) ∧ ∀ b ∈ ys, cmp d b = .lt := by
  unfold Increasing
  rw [List.pairwise_append, List.pairwise_cons]
  constructor
  · rintro ⟨hxs, ⟨hd, hys⟩, hacross⟩
    exact ⟨hxs, hys, fun a ha => hacross a ha d List.mem_cons_self, hd⟩
  · rintro ⟨hxs, hys, hbefore, hafter⟩
    refine ⟨hxs, ⟨hafter, hys⟩, fun a ha b hb => ?_⟩
    rcases List.mem_cons.mp hb with rfl | hb
    · exact hbefore a ha
    · exact Std.TransCmp.lt_trans (hbefore a ha) (hafter b hb)

/-- What is less than an element is equal neither to it nor to any after it. -/
theorem Increasing.ne_after (h : Increasing cmp (xs ++ d :: ys)) (hx : cmp x d = .lt) :
    ∀ y ∈ d :: ys, cmp x y ≠ .eq := by
  obtain ⟨-, -, -, hafter⟩ := increasing_mid.mp h
  intro y hy
  have hlt : cmp x y = .lt := by
    rcases List.mem_cons.mp hy with rfl | hy
    · exact hx
    · exact Std.TransCmp.lt_trans hx (hafter y hy)
  rw [hlt]
  decide

/-- What is greater is equal neither to it nor to any before it. -/
theorem Increasing.ne_before (h : Increasing cmp (xs ++ d :: ys)) (hx : cmp x d = .gt) :
    ∀ y ∈ d :: xs, cmp x y ≠ .eq := by
  obtain ⟨-, -, hbefore, -⟩ := increasing_mid.mp h
  intro y hy
  have hgt : cmp x y = .gt := by
    rcases List.mem_cons.mp hy with rfl | hy
    · exact hx
    · exact Std.TransCmp.gt_trans hx (Std.OrientedCmp.gt_of_lt (hbefore y hy))
  rw [hgt]
  decide

/-- What is equal to an element is equal to no other. -/
theorem Increasing.ne_others (h : Increasing cmp (xs ++ d :: ys)) (hx : cmp x d = .eq) :
    ∀ y ∈ xs ++ ys, cmp x y ≠ .eq := by
  obtain ⟨-, -, hbefore, hafter⟩ := increasing_mid.mp h
  intro y hy
  rcases List.mem_append.mp hy with hy | hy
  · rw [Std.TransCmp.gt_of_eq_of_gt hx (Std.OrientedCmp.gt_of_lt (hbefore y hy))]
    decide
  · rw [Std.TransCmp.lt_of_eq_of_lt hx (hafter y hy)]
    decide

theorem Increasing.unique (h : Increasing cmp xs) (hy : y ∈ xs) (hz : z ∈ xs) (hxy : cmp x y = .eq)
    (hxz : cmp x z = .eq) : y = z := by
  have heq : cmp y z = .eq := Std.TransCmp.eq_trans (Std.OrientedCmp.eq_symm hxy) hxz
  have hlt : xs.Pairwise fun a b => cmp a b = .eq → a = b := by
    refine h.imp fun hab heq => ?_
    rw [hab] at heq
    cases heq
  have hgt : xs.Pairwise fun a b => cmp b a = .eq → b = a := by
    refine h.imp fun hab heq => ?_
    rw [Std.OrientedCmp.gt_of_lt hab] at heq
    cases heq
  exact List.Pairwise.forall_of_forall_of_flip (fun _ _ _ => rfl) hlt hgt hy hz heq

/-- The element in the middle is taken out. -/
theorem Increasing.del (h : Increasing cmp (xs ++ d :: ys)) (hx : cmp x d = .eq) :
    Del cmp x (xs ++ d :: ys) (xs ++ ys) true := by
  refine ⟨⟨fun _ => ⟨d, by simp, hx⟩, fun _ => rfl⟩, fun y => ?_⟩
  have hne := h.ne_others hx y
  rw [List.mem_append] at hne
  rw [List.mem_append, List.mem_append, List.mem_cons]
  constructor
  · exact fun hy => ⟨hy.imp_right .inr, hne hy⟩
  · rintro ⟨hy | rfl | hy, hxy⟩
    · exact .inl hy
    · exact absurd hx hxy
    · exact .inr hy

theorem SetStep.del {xs' : List ι} {c : Bool} (hinc : Increasing cmp xs) (h : Del cmp x xs xs' c) :
    SetStep cmp {y | y ∈ xs} (.del x) (.flag c) {y | y ∈ xs'} := by
  obtain ⟨hc, hmem⟩ := h
  cases c with
  | true =>
    obtain ⟨y, hy, heq⟩ := hc.mp rfl
    have hset : {y | y ∈ xs'} = {y | y ∈ xs} \ {y} := by
      ext z
      show z ∈ xs' ↔ z ∈ xs ∧ z ≠ y
      rw [hmem z]
      refine and_congr_right fun hz => not_congr ⟨fun hxz => hinc.unique hz hy hxz heq, ?_⟩
      rintro rfl
      exact heq
    rw [hset]
    exact .removed x y hy heq
  | false =>
    have hnone : ∀ y ∈ xs, cmp x y ≠ .eq := fun y hy heq => nomatch hc.mpr ⟨y, hy, heq⟩
    have hset : {y | y ∈ xs'} = {y | y ∈ xs} :=
      Set.ext fun z => (hmem z).trans (and_iff_left_of_imp (hnone z))
    rw [hset]
    exact .absent x hnone

end Order

end Ashd
