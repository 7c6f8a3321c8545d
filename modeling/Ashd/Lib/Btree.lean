import Mathlib.Algebra.Order.Group.Int
import Mathlib.Data.List.Basic
import Ashd.Common.CmpSet

/-!
# The balanced tree

`bbtreeput`, `bbtreedel` and `btreeget`, with the rotations. A tree is a value, and a function
that changes one returns the new one, or `none` if it dereferences a null pointer. Heights do
not overflow, and of what a comparison returns, only the sign matters.

Main definitions:
* `bbtrr`, `bbtrl`, `rebalance`: the rotations.
* `bbtreedel`, `bbtreeput`, `btreeget`.
* `btreeRun`: a sequence of calls.
-/

namespace Ashd

/-- `struct btree` (lib/utils.h:65–69). -/
inductive Btree (ι : Type*)
  | null
  | node (l r : Btree ι) (h : ℤ) (d : ι)

variable {ι : Type*}

def btheight : Btree ι → ℤ
  | .null => 0
  | .node _ _ h _ => h

def btsetheight : Btree ι → Btree ι
  | .null => .null
  | .node l r _ d => .node l r (max (btheight l) (btheight r) + 1) d

mutual

/-- `bbtrr` (lib/utils.c:335–349). -/
def bbtrr : Btree ι → Option (Btree ι)
  | .null => none
  | .node l r h d =>
    let left :=
      match l with
      | .null => none
      | .node ll lr _ _ => if btheight lr > btheight ll then bbtrl l else some l
    match left with
    | some (.node ll m lh ld) => some (btsetheight (.node ll (btsetheight (.node m r h d)) lh ld))
    | _ => none

/-- `bbtrl` (lib/utils.c:351–365). -/
def bbtrl : Btree ι → Option (Btree ι)
  | .null => none
  | .node l r h d =>
    let right :=
      match r with
      | .null => none
      | .node rl rr _ _ => if btheight rl > btheight rr then bbtrr r else some r
    match right with
    | some (.node m rr rh rd) => some (btsetheight (.node (btsetheight (.node l m h d)) rr rh rd))
    | _ => none

end

/-- `if(btheight((*tree)->l) > btheight((*tree)->r) + 1) bbtrr(tree)`. -/
def lowerLeft : Btree ι → Option (Btree ι)
  | .null => none
  | .node l r h d => if btheight l > btheight r + 1 then bbtrr (.node l r h d) else some (.node l r h d)

/-- `if(btheight((*tree)->r) > btheight((*tree)->l) + 1) bbtrl(tree)`. -/
def lowerRight : Btree ι → Option (Btree ι)
  | .null => none
  | .node l r h d => if btheight r > btheight l + 1 then bbtrl (.node l r h d) else some (.node l r h d)

/-- What `bbtreedel` and `bbtreeput` end with (lib/utils.c:412–418, 453–457). -/
def rebalance : Btree ι → Option (Btree ι)
  | .null => some .null
  | .node l r h d => (lowerLeft (btsetheight (.node l r h d))).bind lowerRight

/-- The leftmost node, as its `h` and `d`, and the tree without it (lib/utils.c:393–399). -/
def spliceLeft : Btree ι → Option ((ℤ × ι) × Btree ι)
  | .null => none
  | .node l r h d =>
    match spliceLeft l with
    | none => some ((h, d), r)
    | some (s, l) => some (s, .node l r h d)

/-- The tree without its root (lib/utils.c:391–409). -/
def spliceRoot (l r : Btree ι) : Btree ι :=
  match l, spliceLeft r with
  | .null, _ => r
  | l, none => l
  | l, some ((h, d), r) => .node l r h d

section Calls

variable (cmp : ι → ι → Ordering)

/-- `bbtreedel` (lib/utils.c:376–420). -/
def bbtreedel (item : ι) : Btree ι → Option (Btree ι × Bool)
  | .null => some (.null, false)
  | .node l r h d =>
    match cmp item d with
    | .lt => do
      let (l, c) ← bbtreedel item l
      let tree ← rebalance (.node l r h d)
      return (tree, c)
    | .gt => do
      let (r, c) ← bbtreedel item r
      let tree ← rebalance (.node l r h d)
      return (tree, c)
    | .eq => do
      let tree ← rebalance (spliceRoot l r)
      return (tree, true)

/-- `bbtreeput` (lib/utils.c:434–458). -/
def bbtreeput (item : ι) : Btree ι → Option (Btree ι × Bool)
  | .null => some (.node .null .null 1 item, true)
  | .node l r h d =>
    match cmp item d with
    | .lt => do
      let (l, c) ← bbtreeput item l
      let tree ← rebalance (.node l r h d)
      return (tree, c)
    | .gt => do
      let (r, c) ← bbtreeput item r
      let tree ← rebalance (.node l r h d)
      return (tree, c)
    | .eq => some (.node l r h d, false)

/-- `btreeget` (lib/utils.c:460–477). -/
def btreeget (key : ι) : Btree ι → Option ι
  | .null => none
  | .node l r _ d =>
    match cmp key d with
    | .lt => btreeget key l
    | .gt => btreeget key r
    | .eq => some d

/-- A call, and what it returns. -/
def btreeCall (tree : Btree ι) : SetOp ι → Option (Btree ι × SetRes ι)
  | .put item => (bbtreeput cmp item tree).map fun (tree, c) => (tree, .flag c)
  | .del item => (bbtreedel cmp item tree).map fun (tree, c) => (tree, .flag c)
  | .get key => some (tree, .item (btreeget cmp key tree))

/-- A sequence of calls, from the empty tree. -/
def btreeRun (ops : List (SetOp ι)) : Option (Btree ι × List (SetRes ι)) :=
  ops.foldlM (fun (tree, outs) op => (btreeCall cmp tree op).map fun (tree, out) => (tree, outs ++ [out]))
    (.null, [])

variable {cmp} in
/-- One call more. -/
theorem btreeRun_concat {ops : List (SetOp ι)} {op : SetOp ι} {t t' : Btree ι} {outs : List (SetRes ι)}
    {out : SetRes ι} (hrun : btreeRun cmp ops = some (t, outs)) (hcall : btreeCall cmp t op = some (t', out)) :
    btreeRun cmp (ops ++ [op]) = some (t', outs ++ [out]) := by
  unfold btreeRun at hrun ⊢
  rw [List.foldlM_append, hrun]
  simp only [Option.bind_eq_bind, Option.bind_some, List.foldlM_cons, List.foldlM_nil, hcall, Option.map_some]
  rfl

end Calls

/-! ## Mirror images -/

namespace Btree

def mirror : Btree ι → Btree ι
  | null => null
  | node l r h d => node r.mirror l.mirror h d

theorem mirror_mirror (t : Btree ι) : t.mirror.mirror = t := by
  induction t with
  | null => rfl
  | node l r h d ihl ihr =>
    rw [mirror, mirror]
    rw [ihl, ihr]

theorem btheight_mirror (t : Btree ι) : btheight t.mirror = btheight t := by
  cases t <;> rfl

theorem btsetheight_mirror (t : Btree ι) : btsetheight t.mirror = (btsetheight t).mirror := by
  cases t with
  | null => rfl
  | node l r h d =>
    rw [mirror, btsetheight, btsetheight, mirror]
    rw [btheight_mirror, btheight_mirror, max_comm]

end Btree

open Btree

/-- A rotation of the mirror image is the mirror image of the other one. -/
theorem rotate_mirror (t : Btree ι) :
    bbtrl t.mirror = (bbtrr t).map mirror ∧ bbtrr t.mirror = (bbtrl t).map mirror := by
  induction t with
  | null => exact ⟨rfl, rfl⟩
  | node l r h d ihl ihr =>
    rw [mirror]
    constructor
    · cases l with
      | null => rfl
      | node ll lr lh ld =>
        rw [bbtrl.eq_def, bbtrr.eq_def]
        simp only [mirror, btheight_mirror]
        rw [mirror] at ihl
        split_ifs with hlean
        · rw [ihl.2]
          rcases bbtrl (node ll lr lh ld) with _ | (_ | ⟨ll', m, lh', ld'⟩)
          · rfl
          · rfl
          · simp only [Option.map_some, mirror, ← btsetheight_mirror]
        · simp only [Option.map_some, mirror, ← btsetheight_mirror]
    · cases r with
      | null => rfl
      | node rl rr rh rd =>
        rw [bbtrl.eq_def, bbtrr.eq_def]
        simp only [mirror, btheight_mirror]
        rw [mirror] at ihr
        split_ifs with hlean
        · rw [ihr.1]
          rcases bbtrr (node rl rr rh rd) with _ | (_ | ⟨m, rr', rh', rd'⟩)
          · rfl
          · rfl
          · simp only [Option.map_some, mirror, ← btsetheight_mirror]
        · simp only [Option.map_some, mirror, ← btsetheight_mirror]

/-- What is proved of one rotation gives the other. -/
theorem bbtrl_eq (t : Btree ι) : bbtrl t = (bbtrr t.mirror).map mirror := by
  have h := (rotate_mirror t.mirror).1
  rwa [mirror_mirror] at h

/-- `bbtrr` calls `bbtrl` for the left subtree, and thus itself for its mirror image. -/
theorem mirror_induction {P : Btree ι → Prop} (null : P .null)
    (node : ∀ l r h d, P l.mirror → P (.node l r h d)) (t : Btree ι) : P t := by
  have both : P t ∧ P t.mirror := by
    induction t with
    | null => exact ⟨null, null⟩
    | node l r h d ihl ihr => exact ⟨node l r h d ihl.2, node _ _ h d (by rw [mirror_mirror]; exact ihr.1)⟩
  exact both.1

/-- The left subtree as `bbtrr` has made it. -/
def leaned : Btree ι → Option (Btree ι)
  | .null => none
  | .node ll lr lh ld =>
    if btheight lr > btheight ll then (bbtrr (Btree.node ll lr lh ld).mirror).map mirror
    else some (.node ll lr lh ld)

theorem bbtrr_node {l r : Btree ι} {h : ℤ} {d : ι} {ll m : Btree ι} {lh : ℤ} {ld : ι}
    (hl : leaned l = some (.node ll m lh ld)) :
    bbtrr (.node l r h d) = some (btsetheight (.node ll (btsetheight (.node m r h d)) lh ld)) := by
  rw [bbtrr.eq_def]
  cases l with
  | null => cases hl
  | node ll' lr' lh' ld' =>
    rw [leaned] at hl
    simp only
    split_ifs at hl ⊢ with hlean
    · rw [bbtrl_eq, hl]
    · rw [hl]

/-! ## Items -/

namespace Btree

/-- The items, from left to right. -/
def items : Btree ι → List ι
  | null => []
  | node l r _ d => l.items ++ d :: r.items

/-- No height is negative. -/
def Stored : Btree ι → Prop
  | null => True
  | node l r h _ => 0 ≤ h ∧ l.Stored ∧ r.Stored

theorem items_mirror (t : Btree ι) : t.mirror.items = t.items.reverse := by
  induction t with
  | null => rfl
  | node l r h d ihl ihr =>
    rw [mirror, items, items, ihl, ihr]
    simp

theorem Stored.mirror {t : Btree ι} (h : t.Stored) : t.mirror.Stored := by
  induction t with
  | null => trivial
  | node l r h d ihl ihr =>
    obtain ⟨hh, hl, hr⟩ := h
    exact ⟨hh, ihr hr, ihl hl⟩

theorem Stored.btheight {t : Btree ι} (h : t.Stored) : 0 ≤ btheight t := by
  cases t with
  | null => exact le_rfl
  | node l r h' d => exact h.1

theorem Stored.btsetheight {l r : Btree ι} (hl : l.Stored) (hr : r.Stored) (h : ℤ) (d : ι) :
    (btsetheight (.node l r h d)).Stored := by
  have := hl.btheight
  refine ⟨?_, hl, hr⟩
  omega

end Btree

/-- `bbtrr` can do its work where there is a left child, and it keeps the items. -/
theorem bbtrr_items (t : Btree ι) : t.Stored → ∀ ll lr lh ld r h d, t = .node (.node ll lr lh ld) r h d →
    ∃ t', bbtrr t = some t' ∧ t' ≠ .null ∧ t'.Stored ∧ t'.items = t.items := by
  induction t using mirror_induction with
  | null => exact fun _ _ _ _ _ _ _ _ h => nomatch h
  | node l r h d ih =>
    rintro hst ll lr lh ld _ _ _ ⟨⟩
    obtain ⟨-, hl, hr⟩ := hst
    -- what `bbtrl` makes of the left child
    obtain ⟨ll', m, lh', ld', hleaned, hl', hitems⟩ : ∃ ll' m lh' ld',
        leaned (.node ll lr lh ld) = some (.node ll' m lh' ld') ∧ (Btree.node ll' m lh' ld').Stored ∧
          (Btree.node ll' m lh' ld').items = (Btree.node ll lr lh ld).items := by
      rw [leaned]
      split_ifs with hlean
      · cases lr with
        | null => exact absurd hl.2.1.btheight (not_le.mpr hlean)
        | node a b c e =>
          obtain ⟨t', ht', hne, hst', hitems⟩ := ih hl.mirror _ _ _ _ _ _ _ rfl
          cases t' with
          | null => exact absurd rfl hne
          | node a' b' c' e' =>
            refine ⟨_, _, _, _, by rw [ht']; rfl, hst'.mirror, ?_⟩
            rw [show (Btree.node b'.mirror a'.mirror c' e') = (Btree.node a' b' c' e').mirror from rfl,
              items_mirror, hitems, items_mirror, List.reverse_reverse]
      · exact ⟨ll, lr, lh, ld, rfl, hl, rfl⟩
    refine ⟨_, bbtrr_node hleaned, nofun, hl'.2.1.btsetheight (hl'.2.2.btsetheight hr _ _) _ _, ?_⟩
    rw [items, ← hitems]
    simp only [btsetheight, items, List.append_assoc, List.cons_append]

theorem bbtrl_items {l rl rr : Btree ι} {rh h : ℤ} {rd d : ι}
    (hst : (Btree.node l (.node rl rr rh rd) h d).Stored) :
    ∃ t', bbtrl (.node l (.node rl rr rh rd) h d) = some t' ∧ t' ≠ .null ∧ t'.Stored ∧
      t'.items = (Btree.node l (.node rl rr rh rd) h d).items := by
  obtain ⟨t', ht', hne, hst', hitems⟩ := bbtrr_items _ hst.mirror _ _ _ _ _ _ _ rfl
  refine ⟨t'.mirror, by rw [bbtrl_eq, ht']; rfl, ?_, hst'.mirror, ?_⟩
  · cases t' with
    | null => exact absurd rfl hne
    | node => exact nofun
  · rw [items_mirror, hitems, items_mirror, List.reverse_reverse]

/-- Whatever the heights are, no child is missed. -/
theorem rebalance_items {t : Btree ι} (hst : t.Stored) :
    ∃ t', rebalance t = some t' ∧ t'.Stored ∧ t'.items = t.items := by
  cases t with
  | null => exact ⟨.null, rfl, trivial, rfl⟩
  | node l r h d =>
    obtain ⟨-, hl, hr⟩ := hst
    -- a tree as `btsetheight` has left it, and then one as `bbtrr` has
    obtain ⟨t', ht', hne, hst', hitems⟩ : ∃ t', lowerLeft (btsetheight (.node l r h d)) = some t' ∧
        t' ≠ .null ∧ t'.Stored ∧ t'.items = (Btree.node l r h d).items := by
      have hset := hl.btsetheight hr h d
      rw [btsetheight] at hset ⊢
      rw [lowerLeft]
      split_ifs with hlean
      · cases l with
        | null =>
          have := hr.btheight
          rw [btheight] at hlean
          omega
        | node ll lr lh ld => exact bbtrr_items _ hset _ _ _ _ _ _ _ rfl
      · exact ⟨_, rfl, nofun, hset, rfl⟩
    rw [rebalance, ht', Option.bind_some]
    cases t' with
    | null => exact absurd rfl hne
    | node l' r' h' d' =>
      rw [lowerRight, ← hitems]
      split_ifs with hlean
      · cases r' with
        | null =>
          have := hst'.2.1.btheight
          rw [btheight] at hlean
          omega
        | node =>
          obtain ⟨t'', ht'', -, h''⟩ := bbtrl_items hst'
          exact ⟨t'', ht'', h''⟩
      · exact ⟨_, rfl, hst', rfl⟩

end Ashd
