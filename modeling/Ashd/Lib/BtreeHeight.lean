import Ashd.Lib.BtreeSet
import Mathlib.Data.List.Infix

/-!
# The heights of the balanced tree

`bbtreedel` takes the leftmost node of the right subtree from where it is without a look at the
heights above it. The tree stays balanced, and the heights in its nodes right, just as long as
no node above it has to change.

Main results:
* `bbtrr_avl`, `rebalance_avl`: the rotations.
* `bbtreeput_avl`, `bbtreedel_avl`, `bbtreedel_stale`: the calls.
* `btree_height_run`: a sequence of calls.
-/

namespace Ashd

open Btree

variable {ι : Type*}

namespace Btree

def height : Btree ι → ℕ
  | null => 0
  | node l r _ _ => max l.height r.height + 1

/-- In every node, the height is right, and those of the subtrees differ by at most one. -/
def Avl : Btree ι → Prop
  | null => True
  | node l r h d => l.Avl ∧ r.Avl ∧ h = (node l r h d).height ∧
      l.height ≤ r.height + 1 ∧ r.height ≤ l.height + 1

theorem height_mirror (t : Btree ι) : t.mirror.height = t.height := by
  induction t with
  | null => rfl
  | node l r h d ihl ihr =>
    rw [mirror, height, height]
    rw [ihl, ihr, max_comm]

theorem Avl.mirror {t : Btree ι} (h : t.Avl) : t.mirror.Avl := by
  induction t with
  | null => trivial
  | node l r h' d ihl ihr =>
    obtain ⟨hl, hr, hh, hlr, hrl⟩ := h
    refine ⟨ihr hr, ihl hl, hh.trans (congrArg _ (height_mirror (node l r h' d)).symm), ?_, ?_⟩
    · rwa [height_mirror, height_mirror]
    · rwa [height_mirror, height_mirror]

theorem Avl.btheight {t : Btree ι} (h : t.Avl) : btheight t = t.height := by
  cases t with
  | null => rfl
  | node l r h' d => exact h.2.2.1

/-- Two subtrees whose heights differ by at most one. -/
theorem Avl.btsetheight {l r : Btree ι} (hl : l.Avl) (hr : r.Avl) (hlr : l.height ≤ r.height + 1)
    (hrl : r.height ≤ l.height + 1) (h : ℤ) (d : ι) : (btsetheight (.node l r h d)).Avl := by
  refine ⟨hl, hr, ?_, hlr, hrl⟩
  rw [hl.btheight, hr.btheight, height]
  omega

theorem Avl.stored {t : Btree ι} (h : t.Avl) : t.Stored := by
  induction t with
  | null => trivial
  | node l r h' d ihl ihr =>
    obtain ⟨hl, hr, hh, -⟩ := h
    exact ⟨by omega, ihl hl, ihr hr⟩

end Btree

/-! ## The rotations -/

/-- `bbtrr` where the left subtree is higher by one or two. If it is by one, the height does
    not change, and the right subtree is then not the lower one. -/
theorem bbtrr_avl (t : Btree ι) : ∀ l r h d, t = .node l r h d → l.Avl → r.Avl →
    r.height + 1 ≤ l.height → l.height ≤ r.height + 2 →
    ∃ l' r' h' d', bbtrr t = some (.node l' r' h' d') ∧ (Btree.node l' r' h' d').Avl ∧
      l.height ≤ (Btree.node l' r' h' d').height ∧ (Btree.node l' r' h' d').height ≤ l.height + 1 ∧
      (l.height = r.height + 1 →
        (Btree.node l' r' h' d').height = l.height + 1 ∧ l'.height ≤ r'.height) := by
  induction t using mirror_induction with
  | null =>
    rintro _ _ _ _ ⟨⟩
  | node l r h d ih =>
    rintro _ _ _ _ ⟨⟩ hl hr hlow hhigh
    -- the left subtree leans to the left, or is made to
    obtain ⟨ll, m, lh, ld, hleaned, ⟨hll, hm, -, hbal⟩, hheight, hlean⟩ : ∃ ll m lh ld,
        leaned l = some (.node ll m lh ld) ∧ (Btree.node ll m lh ld).Avl ∧
          (Btree.node ll m lh ld).height = l.height ∧ m.height ≤ ll.height := by
      cases l with
      | null =>
        rw [height] at hlow
        omega
      | node ll lr lh ld =>
        obtain ⟨hll, hlr, hlh, hbal⟩ := hl
        rw [leaned, hll.btheight, hlr.btheight]
        split_ifs with hgt
        · obtain ⟨a, b, h', d', hrot, havl, -, -, hsame⟩ := ih _ _ _ _ rfl hlr.mirror hll.mirror
            (by rw [height_mirror, height_mirror]; omega) (by rw [height_mirror, height_mirror]; omega)
          rw [height_mirror, height_mirror] at hsame
          obtain ⟨hsame, hle⟩ := hsame (by omega)
          refine ⟨b.mirror, a.mirror, h', d', by rw [hrot]; rfl, havl.mirror, ?_, ?_⟩
          · rw [← mirror, height_mirror, hsame, height]
            omega
          · rwa [height_mirror, height_mirror]
        · exact ⟨ll, lr, lh, ld, rfl, ⟨hll, hlr, hlh, hbal⟩, rfl, by omega⟩
    rw [height] at hheight
    have hinner := Avl.btsetheight hm hr (by omega) (by omega) h d
    have houter : (btsetheight (.node m r h d)).height = max m.height r.height + 1 := rfl
    refine ⟨_, _, _, _, bbtrr_node hleaned, hll.btsetheight hinner ?_ ?_ lh ld, ?_, ?_, fun hone => ?_⟩
    · rw [houter]
      omega
    · rw [houter]
      omega
    · rw [height, houter]
      omega
    · rw [height, houter]
      omega
    · rw [height, houter]
      omega

/-- Where the left subtree is higher by two, `lowerLeft` makes up for it. -/
theorem lowerLeft_avl {l r : Btree ι} (hl : l.Avl) (hr : r.Avl) (hlr : l.height ≤ r.height + 2)
    (h : ℤ) (d : ι) : ∃ l' r' h' d', lowerLeft (.node l r h d) = some (.node l' r' h' d') ∧
      (l.height ≤ r.height + 1 → l' = l ∧ r' = r ∧ h' = h ∧ d' = d) ∧
      (l.height = r.height + 2 → (Btree.node l' r' h' d').Avl ∧
        l.height ≤ (Btree.node l' r' h' d').height ∧ (Btree.node l' r' h' d').height ≤ l.height + 1) := by
  rw [lowerLeft, hl.btheight, hr.btheight]
  split_ifs with hgt
  · obtain ⟨l', r', h', d', hrot, havl, hlow, hhigh, -⟩ :=
      bbtrr_avl _ _ _ _ _ rfl hl hr (by omega) hlr
    exact ⟨l', r', h', d', hrot, fun _ => by omega, fun _ => ⟨havl, hlow, hhigh⟩⟩
  · exact ⟨l, r, h, d, rfl, fun _ => ⟨rfl, rfl, rfl, rfl⟩, fun _ => by omega⟩

theorem lowerRight_avl {l r : Btree ι} (hl : l.Avl) (hr : r.Avl) (hrl : r.height ≤ l.height + 2)
    (h : ℤ) (d : ι) : ∃ t', lowerRight (.node l r h d) = some t' ∧
      (r.height ≤ l.height + 1 → t' = .node l r h d) ∧
      (r.height = l.height + 2 → t'.Avl ∧ r.height ≤ t'.height ∧ t'.height ≤ r.height + 1) := by
  rw [lowerRight, hl.btheight, hr.btheight]
  split_ifs with hgt
  · obtain ⟨l', r', h', d', hrot, havl, hlow, hhigh, -⟩ :=
      bbtrr_avl _ _ _ _ _ rfl hr.mirror hl.mirror (by rw [height_mirror, height_mirror]; omega)
        (by rw [height_mirror, height_mirror]; omega)
    refine ⟨_, by rw [bbtrl_eq]; exact congrArg (Option.map mirror) hrot, fun _ => by omega,
      fun _ => ⟨havl.mirror, ?_⟩⟩
    rw [height_mirror] at hlow hhigh ⊢
    exact ⟨hlow, hhigh⟩
  · exact ⟨_, rfl, fun _ => rfl, fun _ => by omega⟩

/-- Two subtrees whose heights differ by at most two. -/
theorem rebalance_avl {l r : Btree ι} (hl : l.Avl) (hr : r.Avl) (hlr : l.height ≤ r.height + 2)
    (hrl : r.height ≤ l.height + 2) (h : ℤ) (d : ι) : ∃ t', rebalance (.node l r h d) = some t' ∧ t'.Avl ∧
      max l.height r.height ≤ t'.height ∧ t'.height ≤ max l.height r.height + 1 ∧
      (l.height ≤ r.height + 1 → r.height ≤ l.height + 1 → t'.height = max l.height r.height + 1) := by
  rw [rebalance, btsetheight]
  obtain ⟨l', r', h', d', hlower, hsame, hrot⟩ := lowerLeft_avl hl hr hlr
    (max (btheight l) (btheight r) + 1) d
  rw [hlower, Option.bind_some]
  by_cases htwo : l.height = r.height + 2
  · obtain ⟨havl, hlow, hhigh⟩ := hrot htwo
    obtain ⟨t', ht', hkept, -⟩ := lowerRight_avl havl.1 havl.2.1 (by have := havl.2.2.2.2; omega) h' d'
    rw [hkept havl.2.2.2.2] at ht'
    exact ⟨_, ht', havl, by omega, by omega, fun _ => by omega⟩
  · obtain ⟨rfl, rfl, rfl, rfl⟩ := hsame (by omega)
    obtain ⟨t', ht', hkept, hrot'⟩ := lowerRight_avl hl hr hrl (max (btheight l') (btheight r') + 1) d'
    refine ⟨t', ht', ?_⟩
    by_cases htwo' : r'.height = l'.height + 2
    · obtain ⟨havl, hlow, hhigh⟩ := hrot' htwo'
      exact ⟨havl, by omega, by omega, fun _ => by omega⟩
    · rw [hkept (by omega)]
      have havl := hl.btsetheight hr (by omega) (by omega) h d'
      have hset : (Btree.node l' r' (max (btheight l') (btheight r') + 1) d').height =
          max l'.height r'.height + 1 := rfl
      exact ⟨havl, by omega, by omega, fun _ _ => hset⟩

/-! ## The calls -/

section Calls

variable (cmp : ι → ι → Ordering) (x : ι)

/-- A node one of whose subtrees has become higher by one, or not. -/
theorem rebalance_put {l r l' r' : Btree ι} (hl : l'.Avl) (hr : r'.Avl) (hlr : l.height ≤ r.height + 1)
    (hrl : r.height ≤ l.height + 1) (hchange : (l.height ≤ l'.height ∧ l'.height ≤ l.height + 1 ∧ r' = r) ∨
      (r.height ≤ r'.height ∧ r'.height ≤ r.height + 1 ∧ l' = l)) (h : ℤ) (d : ι) :
    ∃ t', rebalance (.node l' r' h d) = some t' ∧ t'.Avl ∧
      max l.height r.height + 1 ≤ t'.height ∧ t'.height ≤ max l.height r.height + 2 := by
  have hbounds : l'.height ≤ r'.height + 2 ∧ r'.height ≤ l'.height + 2 := by
    rcases hchange with ⟨_, _, rfl⟩ | ⟨_, _, rfl⟩ <;> omega
  obtain ⟨t', ht', havl, hlow, hhigh, hsame⟩ := rebalance_avl hl hr hbounds.1 hbounds.2 h d
  refine ⟨t', ht', havl, ?_⟩
  rcases hchange with ⟨_, _, rfl⟩ | ⟨_, _, rfl⟩ <;> omega

theorem bbtreeput_avl {t : Btree ι} (h : t.Avl) :
    ∃ t' c, bbtreeput cmp x t = some (t', c) ∧ t'.Avl ∧ t.height ≤ t'.height ∧ t'.height ≤ t.height + 1 := by
  induction t with
  | null => exact ⟨_, true, rfl, ⟨trivial, trivial, rfl, zero_le_one, zero_le_one⟩, zero_le_one, le_rfl⟩
  | node l r h' d ihl ihr =>
    have hsame := h
    obtain ⟨hl, hr, -, hlr, hrl⟩ := h
    rw [bbtreeput, height]
    cases cmp x d with
    | lt =>
      obtain ⟨l', c, hput, hl', hlow, hhigh⟩ := ihl hl
      obtain ⟨t', ht', ht⟩ := rebalance_put hl' hr hlr hrl (.inl ⟨hlow, hhigh, rfl⟩) h' d
      refine ⟨t', c, ?_, ht⟩
      simp only [hput, ht', Option.bind_eq_bind, Option.bind_some, Option.pure_def]
    | gt =>
      obtain ⟨r', c, hput, hr', hlow, hhigh⟩ := ihr hr
      obtain ⟨t', ht', ht⟩ := rebalance_put hl hr' hlr hrl (.inr ⟨hlow, hhigh, rfl⟩) h' d
      refine ⟨t', c, ?_, ht⟩
      simp only [hput, ht', Option.bind_eq_bind, Option.bind_some, Option.pure_def]
    | eq => exact ⟨_, false, rfl, hsame, le_rfl, Nat.le_succ _⟩

/-- Whether the leftmost node, where it is not the root itself, is as high as the node on the
    other side of the one above it. -/
def SpliceOk : Btree ι → Prop
  | .null => True
  | .node .null _ _ _ => True
  | .node (.node .null lr lh ld) r _ _ => r.height = (Btree.node .null lr lh ld).height
  | .node (.node (.node lll llr llh lld) lr lh ld) _ _ _ => SpliceOk (.node (.node lll llr llh lld) lr lh ld)

/-- The leftmost node is taken out, and the heights above it are left as they are. -/
theorem spliceLeft_avl {t : Btree ι} (h : t.Avl) : ∀ l r h' d, t = .node l r h' d →
    (l = .null → ∃ s, spliceLeft t = some (s, r)) ∧
    (l ≠ .null → ∃ s t', spliceLeft t = some (s, t') ∧ btheight t' = btheight t ∧
      (t'.Avl ↔ SpliceOk t) ∧ (SpliceOk t → t'.height = t.height)) := by
  induction t with
  | null =>
    rintro _ _ _ _ ⟨⟩
  | node l r h' d ihl ihr =>
    rintro _ _ _ _ ⟨⟩
    obtain ⟨hl, hr, hh, hlr, hrl⟩ := h
    rw [spliceLeft]
    constructor
    · rintro rfl
      exact ⟨_, rfl⟩
    · intro hne
      rw [height] at hh
      cases l with
      | null => exact absurd rfl hne
      | node ll lr lh ld =>
        obtain ⟨hleaf, hdeep⟩ := ihl hl _ _ _ _ rfl
        cases ll with
        | null =>
          obtain ⟨s, hs⟩ := hleaf rfl
          rw [hs]
          have hheight : (Btree.node .null lr lh ld).height = lr.height + 1 := by
            rw [height, height]
            omega
          refine ⟨s, _, rfl, rfl, ?_, fun heq => ?_⟩
          · rw [SpliceOk, Avl, height]
            constructor
            · rintro ⟨-, -, hh', hlr', hrl'⟩
              omega
            · intro heq
              exact ⟨hl.2.1, hr, by omega, by omega, by omega⟩
          · rw [SpliceOk] at heq
            rw [height, height]
            omega
        | node lll llr llh lld =>
          obtain ⟨s, l', hs, -, havl, hheight⟩ := hdeep (by rintro ⟨⟩)
          rw [hs]
          refine ⟨s, _, rfl, rfl, ?_, fun hok => ?_⟩
          · rw [SpliceOk, Avl, havl, height]
            constructor
            · exact And.left
            · intro hok
              rw [hheight hok]
              exact ⟨hok, hr, hh, hlr, hrl⟩
          · rw [SpliceOk] at hok
            rw [height, height, hheight hok]

/-- Whether the leftmost node of the right subtree may be taken from where it is, if an item is
    deleted from a node that has two children. -/
def DelOk : Btree ι → Prop
  | .null => True
  | .node l r _ d =>
    match cmp x d with
    | .lt => DelOk l
    | .gt => DelOk r
    | .eq => l ≠ .null → SpliceOk r

/-- A node one of whose subtrees has become lower by one, or not. -/
theorem rebalance_del {l r l' r' : Btree ι} (hl : l'.Avl) (hr : r'.Avl) (hlr : l.height ≤ r.height + 1)
    (hrl : r.height ≤ l.height + 1) (hchange : (l'.height ≤ l.height ∧ l.height ≤ l'.height + 1 ∧ r' = r) ∨
      (r'.height ≤ r.height ∧ r.height ≤ r'.height + 1 ∧ l' = l)) (h : ℤ) (d : ι) :
    ∃ t', rebalance (.node l' r' h d) = some t' ∧ t'.Avl ∧
      t'.height ≤ max l.height r.height + 1 ∧ max l.height r.height ≤ t'.height := by
  have hbounds : l'.height ≤ r'.height + 2 ∧ r'.height ≤ l'.height + 2 := by
    rcases hchange with ⟨_, _, rfl⟩ | ⟨_, _, rfl⟩ <;> omega
  obtain ⟨t', ht', havl, hlow, hhigh, hsame⟩ := rebalance_avl hl hr hbounds.1 hbounds.2 h d
  refine ⟨t', ht', havl, ?_⟩
  rcases hchange with ⟨_, _, rfl⟩ | ⟨_, _, rfl⟩ <;> omega

theorem rebalance_self {t : Btree ι} (h : t.Avl) :
    ∃ t', rebalance t = some t' ∧ t'.Avl ∧ t'.height = t.height := by
  cases t with
  | null => exact ⟨.null, rfl, trivial, rfl⟩
  | node l r h' d =>
    obtain ⟨hl, hr, -, hlr, hrl⟩ := h
    obtain ⟨t', ht', havl, -, -, hsame⟩ := rebalance_avl hl hr (by omega) (by omega) h' d
    exact ⟨t', ht', havl, hsame hlr hrl⟩

/-- The root is taken out. -/
theorem spliceRoot_avl {l r : Btree ι} (hl : l.Avl) (hr : r.Avl) (hlr : l.height ≤ r.height + 1)
    (hrl : r.height ≤ l.height + 1) (hok : l ≠ .null → SpliceOk r) :
    ∃ t', rebalance (spliceRoot l r) = some t' ∧ t'.Avl ∧
      t'.height ≤ max l.height r.height + 1 ∧ max l.height r.height ≤ t'.height := by
  rw [spliceRoot.eq_def]
  cases l with
  | null =>
    obtain ⟨t', ht', havl, hheight⟩ := rebalance_self hr
    rw [height] at hrl ⊢
    exact ⟨t', ht', havl, by omega, by omega⟩
  | node ll lr lh ld =>
    cases r with
    | null =>
      obtain ⟨t', ht', havl, hheight⟩ := rebalance_self hl
      have hnull : (Btree.null : Btree ι).height = 0 := rfl
      exact ⟨t', ht', havl, by omega, by omega⟩
    | node rl rr rh rd =>
      obtain ⟨hleaf, hdeep⟩ := spliceLeft_avl hr _ _ _ _ rfl
      cases rl with
      | null =>
        obtain ⟨⟨h, d⟩, hs⟩ := hleaf rfl
        have hheight : (Btree.node .null rr rh rd).height = rr.height + 1 := by
          rw [height, height]
          omega
        rw [hs]
        exact rebalance_del hl hr.2.1 hlr hrl (.inr ⟨by omega, by omega, rfl⟩) h d
      | node =>
        obtain ⟨⟨h, d⟩, r', hs, -, havl, hheight⟩ := hdeep (by rintro ⟨⟩)
        have hr' := hheight (hok (by rintro ⟨⟩))
        rw [hs]
        exact rebalance_del hl (havl.mpr (hok (by rintro ⟨⟩))) hlr hrl (.inr ⟨by omega, by omega, rfl⟩) h d

theorem bbtreedel_avl {t : Btree ι} (h : t.Avl) (hok : DelOk cmp x t) :
    ∃ t' c, bbtreedel cmp x t = some (t', c) ∧ t'.Avl ∧ t'.height ≤ t.height ∧ t.height ≤ t'.height + 1 := by
  induction t with
  | null => exact ⟨.null, false, rfl, trivial, le_rfl, Nat.le_succ _⟩
  | node l r h' d ihl ihr =>
    obtain ⟨hl, hr, -, hlr, hrl⟩ := h
    rw [DelOk] at hok
    rw [bbtreedel, height]
    cases hx : cmp x d with
    | lt =>
      rw [hx] at hok
      obtain ⟨l', c, hdel, hl', hlow, hhigh⟩ := ihl hl hok
      obtain ⟨t', ht', havl, hle, hge⟩ := rebalance_del hl' hr hlr hrl (.inl ⟨hlow, hhigh, rfl⟩) h' d
      refine ⟨t', c, ?_, havl, hle, by omega⟩
      simp only [hdel, ht', Option.bind_eq_bind, Option.bind_some, Option.pure_def]
    | gt =>
      rw [hx] at hok
      obtain ⟨r', c, hdel, hr', hlow, hhigh⟩ := ihr hr hok
      obtain ⟨t', ht', havl, hle, hge⟩ := rebalance_del hl hr' hlr hrl (.inr ⟨hlow, hhigh, rfl⟩) h' d
      refine ⟨t', c, ?_, havl, hle, by omega⟩
      simp only [hdel, ht', Option.bind_eq_bind, Option.bind_some, Option.pure_def]
    | eq =>
      rw [hx] at hok
      obtain ⟨t', ht', havl, hle, hge⟩ := spliceRoot_avl hl hr hlr hrl hok
      refine ⟨t', true, ?_, havl, hle, by omega⟩
      simp only [ht', Option.bind_eq_bind, Option.bind_some, Option.pure_def]

/-! ## Heights that are no longer right -/

/-- By the heights that are stored, there is nothing to be done. -/
theorem rebalance_kept {l r : Btree ι} (hlr : btheight l ≤ btheight r + 1) (hrl : btheight r ≤ btheight l + 1)
    (h : ℤ) (d : ι) :
    rebalance (.node l r h d) = some (.node l r (max (btheight l) (btheight r) + 1) d) := by
  rw [rebalance, btsetheight, lowerLeft, if_neg (not_lt.mpr hlr), Option.bind_some, lowerRight,
    if_neg (not_lt.mpr hrl)]

/-- A subtree that is wrong is replaced by one with the height that it had. -/
theorem rebalance_stale {l r l' r' : Btree ι} {h : ℤ} {d : ι} (ht : (Btree.node l r h d).Avl)
    (hl : btheight l' = btheight l) (hr : btheight r' = btheight r) (hbad : ¬ l'.Avl ∨ ¬ r'.Avl) (h' : ℤ) (d' : ι) :
    ∃ t', rebalance (.node l' r' h' d') = some t' ∧ btheight t' = h ∧ ¬ t'.Avl := by
  obtain ⟨hlavl, hravl, hh, hlr, hrl⟩ := ht
  have hbl := hlavl.btheight
  have hbr := hravl.btheight
  refine ⟨_, rebalance_kept (by omega) (by omega) h' d', ?_, fun havl => ?_⟩
  · rw [btheight, hl, hr, hh, height]
    omega
  · exact hbad.elim (fun hb => hb havl.1) fun hb => hb havl.2.1

theorem bbtreedel_stale {t : Btree ι} (h : t.Avl) (hbad : ¬ DelOk cmp x t) :
    ∃ t' c, bbtreedel cmp x t = some (t', c) ∧ btheight t' = btheight t ∧ ¬ t'.Avl := by
  induction t with
  | null => exact absurd trivial hbad
  | node l r h' d ihl ihr =>
    have havl := h
    obtain ⟨hl, hr, -⟩ := h
    rw [DelOk] at hbad
    rw [bbtreedel]
    cases hx : cmp x d with
    | lt =>
      rw [hx] at hbad
      obtain ⟨l', c, hdel, hheight, hl'⟩ := ihl hl hbad
      obtain ⟨t', ht', ht⟩ := rebalance_stale havl hheight rfl (.inl hl') h' d
      refine ⟨t', c, ?_, ht⟩
      simp only [hdel, ht', Option.bind_eq_bind, Option.bind_some, Option.pure_def]
    | gt =>
      rw [hx] at hbad
      obtain ⟨r', c, hdel, hheight, hr'⟩ := ihr hr hbad
      obtain ⟨t', ht', ht⟩ := rebalance_stale havl rfl hheight (.inr hr') h' d
      refine ⟨t', c, ?_, ht⟩
      simp only [hdel, ht', Option.bind_eq_bind, Option.bind_some, Option.pure_def]
    | eq =>
      rw [hx] at hbad
      have hsplice : l ≠ .null ∧ ¬ SpliceOk r := Classical.not_imp.mp hbad
      cases l with
      | null => exact absurd rfl hsplice.1
      | node ll lr lh ld =>
        cases r with
        | null => exact absurd trivial hsplice.2
        | node rl rr rh rd =>
          cases rl with
          | null => exact absurd trivial hsplice.2
          | node =>
            obtain ⟨-, hdeep⟩ := spliceLeft_avl hr _ _ _ _ rfl
            obtain ⟨⟨h'', d''⟩, r', hs, hheight, havl', -⟩ := hdeep (by rintro ⟨⟩)
            obtain ⟨t', ht', ht⟩ :=
              rebalance_stale havl rfl hheight (.inr fun hr' => hsplice.2 (havl'.mp hr')) h'' d''
            refine ⟨t', true, ?_, ht⟩
            simp only [spliceRoot, hs, ht', Option.bind_eq_bind, Option.bind_some, Option.pure_def]

/-- The calls of `bbtreedel` for which the heights stay right. -/
def CallOk (t : Btree ι) : SetOp ι → Prop
  | .put _ => True
  | .del x => DelOk cmp x t
  | .get _ => True

theorem btreeCall_avl {t : Btree ι} (h : t.Avl) (op : SetOp ι) :
    ∃ t' out, btreeCall cmp t op = some (t', out) ∧ (t'.Avl ↔ CallOk cmp t op) := by
  cases op with
  | put x =>
    obtain ⟨t', c, hput, havl, -⟩ := bbtreeput_avl cmp x h
    exact ⟨t', .flag c, by rw [btreeCall, hput]; rfl, iff_of_true havl trivial⟩
  | del x =>
    by_cases hok : DelOk cmp x t
    · obtain ⟨t', c, hdel, havl, -⟩ := bbtreedel_avl cmp x h hok
      exact ⟨t', .flag c, by rw [btreeCall, hdel]; rfl, iff_of_true havl hok⟩
    · obtain ⟨t', c, hdel, -, hbad⟩ := bbtreedel_stale cmp x h hok
      exact ⟨t', .flag c, by rw [btreeCall, hdel]; rfl, iff_of_false hbad hok⟩
  | get x => exact ⟨t, _, rfl, iff_of_true h trivial⟩

/-- **The heights.** In a sequence of calls from the empty tree, all heights are right and all
    nodes are balanced after every call if and only if every call of `bbtreedel` that takes out
    a node with two children finds the leftmost node of the right subtree, unless it is its
    root, as high as the node on the other side of the one above it. -/
theorem btree_height_run (ops : List (SetOp ι)) :
    (∀ pre, pre <+: ops → ∃ t outs, btreeRun cmp pre = some (t, outs) ∧ t.Avl) ↔
      ∀ pre op, pre ++ [op] <+: ops → ∀ t outs, btreeRun cmp pre = some (t, outs) → CallOk cmp t op := by
  constructor
  · intro h pre op hpre t outs hrun
    obtain ⟨t₀, outs₀, hrun₀, havl⟩ := h pre ((List.prefix_append pre [op]).trans hpre)
    rw [hrun, Option.some.injEq, Prod.mk.injEq] at hrun₀
    obtain ⟨rfl, rfl⟩ := hrun₀
    obtain ⟨t', out, hcall, hiff⟩ := btreeCall_avl cmp havl op
    obtain ⟨t₁, outs₁, hrun₁, havl₁⟩ := h _ hpre
    rw [btreeRun_concat hrun hcall, Option.some.injEq, Prod.mk.injEq] at hrun₁
    obtain ⟨rfl, -⟩ := hrun₁
    exact hiff.mp havl₁
  · intro h pre
    induction pre using List.reverseRec with
    | nil => exact fun _ => ⟨.null, [], rfl, trivial⟩
    | append_singleton pre op ih =>
      intro hpre
      obtain ⟨t, outs, hrun, havl⟩ := ih ((List.prefix_append pre [op]).trans hpre)
      obtain ⟨t', out, hcall, hiff⟩ := btreeCall_avl cmp havl op
      exact ⟨t', outs ++ [out], btreeRun_concat hrun hcall, hiff.mpr (h pre op hpre t outs hrun)⟩

end Calls

/-- Two nodes are left when the root has been taken out; the upper one has the height 2 in it,
    the lower one is on the right and has none of its own below it. -/
theorem btree_height_stale :
    ∃ t outs, btreeRun (compare : ℕ → ℕ → Ordering) [.put 2, .put 1, .put 4, .put 3, .del 2] = some (t, outs) ∧
      t = .node (.node .null .null 1 1) (.node .null .null 2 4) 3 3 ∧ ¬ t.Avl := by
  refine ⟨_, _, rfl, rfl, ?_⟩
  rintro ⟨-, ⟨-, -, hh, -⟩, -⟩
  cases hh

end Ashd
