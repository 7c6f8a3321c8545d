import Ashd.Lib.Btree
import Mathlib.Data.List.Induction

/-!
# The balanced tree is a set

Whatever the heights in its nodes are, the items of the tree are in order, and a call does to
them what it is to do to a set.

Main results:
* `bbtreeput_spec`, `bbtreedel_spec`, `btreeget_spec`: one call.
* `btree_set_run`: a sequence of calls.
-/

namespace Ashd

open Btree

variable {ι : Type*} {cmp : ι → ι → Ordering} {t : Btree ι} {x : ι}

/-- The items in order, and no height negative. -/
structure Ordered (cmp : ι → ι → Ordering) (t : Btree ι) : Prop where
  stored : t.Stored
  increasing : Increasing cmp t.items

theorem Ordered.rebalance (h : Ordered cmp t) :
    ∃ t', rebalance t = some t' ∧ Ordered cmp t' ∧ t'.items = t.items := by
  obtain ⟨t', ht', hst, hitems⟩ := rebalance_items h.stored
  exact ⟨t', ht', ⟨hst, hitems ▸ h.increasing⟩, hitems⟩

/-- The leftmost node is taken out of the tree. -/
theorem spliceLeft_items (hst : t.Stored) :
    (t = .null ∧ spliceLeft t = none) ∨ ∃ h d t', spliceLeft t = some ((h, d), t') ∧ 0 ≤ h ∧ t'.Stored ∧
      t.items = d :: t'.items := by
  induction t with
  | null => exact .inl ⟨rfl, rfl⟩
  | node l r h d ihl ihr =>
    obtain ⟨hh, hl, hr⟩ := hst
    right
    rw [spliceLeft]
    rcases ihl hl with ⟨rfl, hnone⟩ | ⟨h', d', l', hsome, hh', hl', hitems⟩
    · rw [hnone]
      exact ⟨h, d, r, rfl, hh, hr, rfl⟩
    · rw [hsome]
      refine ⟨h', d', _, rfl, hh', ⟨hh, hl', hr⟩, ?_⟩
      rw [items, items, hitems, List.cons_append]

theorem spliceRoot_items {l r : Btree ι} (hl : l.Stored) (hr : r.Stored) :
    (spliceRoot l r).Stored ∧ (spliceRoot l r).items = l.items ++ r.items := by
  rw [spliceRoot.eq_def]
  cases l with
  | null => exact ⟨hr, rfl⟩
  | node =>
    rcases spliceLeft_items hr with ⟨rfl, hnone⟩ | ⟨h, d, r', hsome, hh, hr', hitems⟩
    · rw [hnone]
      exact ⟨hl, (List.append_nil _).symm⟩
    · rw [hsome]
      refine ⟨⟨hh, hl, hr'⟩, ?_⟩
      rw [hitems]
      rfl

/-! ## Comparisons that agree -/

section Congr

variable {cmp' : ι → ι → Ordering}

theorem btreeget_congr {x' : ι} (h : ∀ y ∈ t.items, cmp' x' y = cmp x y) : btreeget cmp' x' t = btreeget cmp x t := by
  induction t with
  | null => rfl
  | node l r h' d ihl ihr =>
    simp only [items, List.mem_append, List.mem_cons] at h
    rw [btreeget, btreeget, h d (.inr (.inl rfl)), ihl fun y hy => h y (.inl hy),
      ihr fun y hy => h y (.inr (.inr hy))]

theorem bbtreeput_congr (h : ∀ y ∈ t.items, cmp' x y = cmp x y) : bbtreeput cmp' x t = bbtreeput cmp x t := by
  induction t with
  | null => rfl
  | node l r h' d ihl ihr =>
    simp only [items, List.mem_append, List.mem_cons] at h
    rw [bbtreeput, bbtreeput, h d (.inr (.inl rfl)), ihl fun y hy => h y (.inl hy),
      ihr fun y hy => h y (.inr (.inr hy))]

theorem bbtreedel_congr (h : ∀ y ∈ t.items, cmp' x y = cmp x y) : bbtreedel cmp' x t = bbtreedel cmp x t := by
  induction t with
  | null => rfl
  | node l r h' d ihl ihr =>
    simp only [items, List.mem_append, List.mem_cons] at h
    rw [bbtreedel, bbtreedel, h d (.inr (.inl rfl)), ihl fun y hy => h y (.inl hy),
      ihr fun y hy => h y (.inr (.inr hy))]

theorem Ordered.congr (h : Ordered cmp t) (hcmp : ∀ a ∈ t.items, ∀ b ∈ t.items, cmp' a b = cmp a b) :
    Ordered cmp' t where
  stored := h.stored
  increasing := h.increasing.imp_of_mem fun ha hb hlt => (hcmp _ ha _ hb).trans hlt

end Congr

/-! ## Order -/

variable [Std.TransCmp cmp]

theorem ordered_node {l r : Btree ι} {h : ℤ} {d : ι} :
    Ordered cmp (.node l r h d) ↔ 0 ≤ h ∧ Ordered cmp l ∧ Ordered cmp r ∧
      (∀ a ∈ l.items, cmp a d = .lt) ∧ ∀ b ∈ r.items, cmp d b = .lt := by
  constructor
  · rintro ⟨⟨hh, hl, hr⟩, hinc⟩
    obtain ⟨hil, hir, hbefore, hafter⟩ := increasing_mid.mp hinc
    exact ⟨hh, ⟨hl, hil⟩, ⟨hr, hir⟩, hbefore, hafter⟩
  · rintro ⟨hh, hl, hr, hbefore, hafter⟩
    exact ⟨⟨hh, hl.stored, hr.stored⟩, increasing_mid.mpr ⟨hl.increasing, hr.increasing, hbefore, hafter⟩⟩

theorem mem_left {l r : Btree ι} {h : ℤ} {d : ι} (y : ι) :
    y ∈ (node l r h d).items ↔ y ∈ l.items ∨ y ∈ d :: r.items := List.mem_append

theorem mem_right {l r : Btree ι} {h : ℤ} {d : ι} (y : ι) :
    y ∈ (node l r h d).items ↔ y ∈ r.items ∨ y ∈ d :: l.items := by
  rw [items, List.mem_append, List.mem_cons, List.mem_cons, or_comm, or_comm (a := y = d), or_assoc,
    or_comm (a := y = d)]

theorem btreeget_spec (h : Ordered cmp t) (x : ι) : Got cmp x t.items (btreeget cmp x t) := by
  induction t with
  | null => exact fun _ hy => absurd hy List.not_mem_nil
  | node l r h' d ihl ihr =>
    obtain ⟨-, hl, hr, -, -⟩ := ordered_node.mp h
    rw [btreeget]
    cases hx : cmp x d with
    | lt => exact (ihl hl).rest (h.increasing.ne_after hx) mem_left
    | gt => exact (ihr hr).rest (h.increasing.ne_before hx) mem_right
    | eq => exact ⟨(mem_left d).mpr (.inr List.mem_cons_self), hx⟩

theorem bbtreeput_spec (h : Ordered cmp t) (x : ι) :
    ∃ t' c, bbtreeput cmp x t = some (t', c) ∧ Ordered cmp t' ∧ Put cmp x t.items t'.items c := by
  induction t with
  | null =>
    refine ⟨_, true, rfl, ⟨⟨zero_le_one, trivial, trivial⟩, List.pairwise_singleton _ x⟩, ?_⟩
    exact ⟨fun _ hy => absurd hy List.not_mem_nil, fun y => List.mem_cons⟩
  | node l r h' d ihl ihr =>
    obtain ⟨hh, hl, hr, hbefore, hafter⟩ := ordered_node.mp h
    rw [bbtreeput]
    cases hx : cmp x d with
    | lt =>
      obtain ⟨l', c, hput, hl', hc⟩ := ihl hl
      have hnode : Ordered cmp (.node l' r h' d) := by
        refine ordered_node.mpr ⟨hh, hl', hr, fun a ha => ?_, hafter⟩
        rcases hc.subset ha with rfl | ha
        · exact hx
        · exact hbefore a ha
      obtain ⟨t', ht', ho, hitems⟩ := hnode.rebalance
      refine ⟨t', c, ?_, ho, ?_⟩
      · simp only [hput, ht', Option.bind_eq_bind, Option.bind_some, Option.pure_def]
      · rw [hitems]
        exact hc.rest (h.increasing.ne_after hx) mem_left mem_left
    | gt =>
      obtain ⟨r', c, hput, hr', hc⟩ := ihr hr
      have hnode : Ordered cmp (.node l r' h' d) := by
        refine ordered_node.mpr ⟨hh, hl, hr', hbefore, fun b hb => ?_⟩
        rcases hc.subset hb with rfl | hb
        · exact Std.OrientedCmp.lt_of_gt hx
        · exact hafter b hb
      obtain ⟨t', ht', ho, hitems⟩ := hnode.rebalance
      refine ⟨t', c, ?_, ho, ?_⟩
      · simp only [hput, ht', Option.bind_eq_bind, Option.bind_some, Option.pure_def]
      · rw [hitems]
        exact hc.rest (h.increasing.ne_before hx) mem_right mem_right
    | eq => exact ⟨_, false, rfl, h, ⟨d, (mem_left d).mpr (.inr List.mem_cons_self), hx⟩, fun _ => Iff.rfl⟩

theorem bbtreedel_spec (h : Ordered cmp t) (x : ι) :
    ∃ t' c, bbtreedel cmp x t = some (t', c) ∧ Ordered cmp t' ∧ Del cmp x t.items t'.items c := by
  induction t with
  | null =>
    refine ⟨.null, false, rfl, h, ⟨nofun, ?_⟩, fun y => ⟨fun hy => absurd hy List.not_mem_nil, And.left⟩⟩
    rintro ⟨y, hy, -⟩
    exact absurd hy List.not_mem_nil
  | node l r h' d ihl ihr =>
    obtain ⟨hh, hl, hr, hbefore, hafter⟩ := ordered_node.mp h
    rw [bbtreedel]
    cases hx : cmp x d with
    | lt =>
      obtain ⟨l', c, hdel, hl', hc⟩ := ihl hl
      have hnode : Ordered cmp (.node l' r h' d) :=
        ordered_node.mpr ⟨hh, hl', hr, fun a ha => hbefore a ((hc.2 a).mp ha).1, hafter⟩
      obtain ⟨t', ht', ho, hitems⟩ := hnode.rebalance
      refine ⟨t', c, ?_, ho, ?_⟩
      · simp only [hdel, ht', Option.bind_eq_bind, Option.bind_some, Option.pure_def]
      · rw [hitems]
        exact hc.rest (h.increasing.ne_after hx) mem_left mem_left
    | gt =>
      obtain ⟨r', c, hdel, hr', hc⟩ := ihr hr
      have hnode : Ordered cmp (.node l r' h' d) :=
        ordered_node.mpr ⟨hh, hl, hr', hbefore, fun b hb => hafter b ((hc.2 b).mp hb).1⟩
      obtain ⟨t', ht', ho, hitems⟩ := hnode.rebalance
      refine ⟨t', c, ?_, ho, ?_⟩
      · simp only [hdel, ht', Option.bind_eq_bind, Option.bind_some, Option.pure_def]
      · rw [hitems]
        exact hc.rest (h.increasing.ne_before hx) mem_right mem_right
    | eq =>
      obtain ⟨hst, hsplice⟩ := spliceRoot_items hl.stored hr.stored
      have hnode : Ordered cmp (spliceRoot l r) := ⟨hst, hsplice ▸ h.increasing.append⟩
      obtain ⟨t', ht', ho, hitems⟩ := hnode.rebalance
      refine ⟨t', true, ?_, ho, ?_⟩
      · simp only [ht', Option.bind_eq_bind, Option.bind_some, Option.pure_def]
      · rw [hitems, hsplice]
        exact h.increasing.del hx

/-! ## Runs -/

/-- A call does to the items what it is to do to a set. -/
theorem btreeCall_spec (h : Ordered cmp t) (op : SetOp ι) :
    ∃ t' out, btreeCall cmp t op = some (t', out) ∧ Ordered cmp t' ∧
      SetStep cmp {y | y ∈ t.items} op out {y | y ∈ t'.items} := by
  cases op with
  | put x =>
    obtain ⟨t', c, hput, ht', hc⟩ := bbtreeput_spec h x
    exact ⟨t', .flag c, by rw [btreeCall, hput]; rfl, ht', .put hc⟩
  | del x =>
    obtain ⟨t', c, hdel, ht', hc⟩ := bbtreedel_spec h x
    exact ⟨t', .flag c, by rw [btreeCall, hdel]; rfl, ht', .del h.increasing hc⟩
  | get x => exact ⟨t, _, rfl, h, .get (btreeget_spec h x)⟩

/-- **The tree is a set.** Every sequence of calls from the empty tree can be made, with no
    null pointer dereferenced by a rotation; the items are then in order, no two of them
    equal; and they are those of a set to which the same has been done, with the same
    results. -/
theorem btree_set_run (cmp : ι → ι → Ordering) [Std.TransCmp cmp] (ops : List (SetOp ι)) :
    ∃ t outs, btreeRun cmp ops = some (t, outs) ∧ Increasing cmp t.items ∧
      SetRun cmp ops outs {y | y ∈ t.items} := by
  suffices h : ∃ t outs, btreeRun cmp ops = some (t, outs) ∧ Ordered cmp t ∧
      SetRun cmp ops outs {y | y ∈ t.items} by
    obtain ⟨t, outs, hrun, ht, hset⟩ := h
    exact ⟨t, outs, hrun, ht.increasing, hset⟩
  induction ops using List.reverseRec with
  | nil =>
    refine ⟨.null, [], rfl, ⟨trivial, List.Pairwise.nil⟩, ?_⟩
    have hempty : {y | y ∈ (Btree.null : Btree ι).items} = ∅ :=
      Set.eq_empty_of_forall_notMem fun _ => List.not_mem_nil
    rw [hempty]
    exact .start
  | append_singleton ops op ih =>
    obtain ⟨t, outs, hrun, ht, hset⟩ := ih
    obtain ⟨t', out, hcall, ht', hstep⟩ := btreeCall_spec ht op
    exact ⟨t', outs ++ [out], btreeRun_concat hrun hcall, ht', hset.call hstep⟩

/-- Five calls, the fourth of which takes out the root. -/
theorem btree_set_run_root :
    ∃ t outs, btreeRun compare [.put 2, .put 1, .put 3, .del 2, .get 3] = some (t, outs) ∧
      Increasing compare t.items ∧
      SetRun (compare : ℕ → ℕ → Ordering) [.put 2, .put 1, .put 3, .del 2, .get 3] outs {y | y ∈ t.items} :=
  btree_set_run compare _

end Ashd
