import Ashd.Common.Dlist
import Ashd.Lib.BtreeSet
import Ashd.Ssl.Model
import Mathlib.Order.Compare

/-!
# The session store is a cache in the order of its stores

The tree, the list and the counter describe the same sessions after every run, and these are
those of a `Recency` cache, as long as no key is compared with one that is 2³¹ bytes longer or
shorter: `sesscmp` subtracts sizes.

Main definitions:
* `Describes`: the three agree on what sessions there are.
* `Comparable`: the runs in which `sesscmp` is only given keys that it puts in order.

Main results:
* `sessdb_recent`: what holds after a run.
* `comparable_of_short`: keys shorter than 2³¹ bytes can all be compared.
* `sesscmp_cyclic`: three keys that `sesscmp` has in a circle, one of which is lost.
-/

namespace Ashd.Ssl

open Recency

/-! ## The order of the keys -/

/-- By size, and then by content. -/
def keyOrder : Bytes → Bytes → Ordering := compareLex (compareOn List.length) compare

instance : Std.TransCmp keyOrder :=
  inferInstanceAs (Std.TransCmp (compareLex (compareOn List.length) compare))

/-- `sesscmp` can compare the keys. -/
def Near (a b : Bytes) : Prop := a.length < b.length + 2 ^ 31 ∧ b.length < a.length + 2 ^ 31

theorem Near.symm {a b : Bytes} (h : Near a b) : Near b a := ⟨h.2, h.1⟩

theorem keyOrder_eq_iff {a b : Bytes} : keyOrder a b = .eq ↔ a = b := by
  constructor
  · intro h
    have h : (compare a.length b.length).then (compare a b) = .eq := h
    exact Std.LawfulEqCmp.eq_of_compare (Ordering.then_eq_eq.mp h).2
  · rintro rfl
    exact Std.ReflCmp.compare_self

theorem sesscmp_near {a b : Savedsess} (h : Near a.key b.key) : sesscmp a b = keyOrder a.key b.key := by
  obtain ⟨hlt, hgt⟩ := h
  have hthen : keyOrder a.key b.key = (compare a.key.length b.key.length).then (compare a.key b.key) := rfl
  have hdiff : ((a.key.length : ℤ) - b.key.length).bmod (2 ^ 32) = (a.key.length : ℤ) - b.key.length :=
    Int.bmod_eq_of_le_mul_two (by omega) (by omega)
  rw [sesscmp, hthen, hdiff]
  split_ifs with hne
  · rcases Nat.lt_or_gt_of_ne hne with hl | hl
    · rw [Nat.compare_eq_lt.mpr hl, Int.compare_eq_lt.mpr (by omega)]
      rfl
    · rw [Nat.compare_eq_gt.mpr hl, Int.compare_eq_gt.mpr (by omega)]
      rfl
  · have heq : a.key.length = b.key.length := not_not.mp hne
    rw [heq, Nat.compare_eq_eq.mpr rfl]
    rfl

/-- The order in which the tree is to have the sessions. -/
def Sessdb.order (db : Sessdb) (a b : ℕ) : Ordering := keyOrder (db.mem a).key (db.mem b).key

instance (db : Sessdb) : Std.TransCmp db.order where
  eq_swap := by
    intro a b
    exact @Std.OrientedCmp.eq_swap _ keyOrder _ _ _
  isLE_trans := by
    intro a b c
    exact @Std.TransCmp.isLE_trans _ keyOrder _ _ _ _

/-! ## What describes the sessions -/

/-- The list from `sesslistf` to `sesslistl` is `l`, the tree has its sessions, in order, and
    `numsess` is their number. -/
structure Describes (db : Sessdb) (l : List ℕ) : Prop where
  linked : Linked (fun a => (db.mem a).next) (fun a => (db.mem a).prev) l
  first : db.sesslistf = l.head?
  last : db.sesslistl = l.getLast?
  numsess : db.numsess = l.length
  tree : Ordered db.order db.sessidx
  items : ∀ a, a ∈ db.sessidx.items ↔ a ∈ l

/-- And `sesscmp` can compare any two of the sessions, which are where `malloc` has been. -/
structure Sound (db : Sessdb) (l : List ℕ) : Prop extends Describes db l where
  brk : lkey < db.brk
  allocated : ∀ a ∈ l, lkey < a ∧ a < db.brk
  near : ∀ a ∈ l, ∀ b ∈ l, Near (db.mem a).key (db.mem b).key

section Sound

variable {db : Sessdb} {l xs ys : List ℕ} {a : ℕ} {key : Bytes}

/-- No two sessions have the same key. -/
theorem Describes.key_inj (h : Describes db l) {a b : ℕ} (ha : a ∈ l) (hb : b ∈ l)
    (heq : (db.mem a).key = (db.mem b).key) : a = b :=
  h.tree.increasing.unique ((h.items a).mpr ha) ((h.items b).mpr hb)
    (keyOrder_eq_iff.mpr rfl : db.order a a = .eq) (keyOrder_eq_iff.mpr heq)

theorem Sound.cmp_eq (h : Sound db l) {a b : ℕ} (ha : a ∈ l) (hb : b ∈ l) : db.cmp a b = db.order a b :=
  sesscmp_near (h.near a ha b hb)

/-- `sessget` finds the session of the key. -/
theorem sessget_spec (h : Sound db l) (hnear : ∀ a ∈ l, Near key (db.mem a).key) :
    match sessget db key with
    | some a => a ∈ l ∧ (db.mem a).key = key
    | none => ∀ a ∈ l, (db.mem a).key ≠ key := by
  have hmem : ∀ y ∈ db.sessidx.items, (db.write lkey ({ · with key })).mem y = db.mem y := fun y hy => by
    rw [write_mem, if_neg (h.allocated y ((h.items y).mp hy)).1.ne']
  have hlkey : ((db.write lkey ({ · with key })).mem lkey).key = key := by rw [write_mem, if_pos rfl]
  have htree : Ordered (db.write lkey ({ · with key })).order db.sessidx :=
    h.tree.congr fun a ha b hb => by rw [Sessdb.order, Sessdb.order, hmem a ha, hmem b hb]
  have hget : sessget db key = btreeget (db.write lkey ({ · with key })).order lkey db.sessidx :=
    btreeget_congr fun y hy => sesscmp_near (by rw [hlkey, hmem y hy]; exact hnear y ((h.items y).mp hy))
  have hkey : ∀ y ∈ db.sessidx.items,
      (db.write lkey ({ · with key })).order lkey y = .eq ↔ (db.mem y).key = key := fun y hy => by
    rw [Sessdb.order, hlkey, hmem y hy, keyOrder_eq_iff, eq_comm]
  have hgot := btreeget_spec htree lkey
  rw [hget]
  cases hg : btreeget (db.write lkey ({ · with key })).order lkey db.sessidx with
  | some a =>
    rw [hg] at hgot
    exact ⟨(h.items a).mp hgot.1, (hkey a hgot.1).mp hgot.2⟩
  | none =>
    rw [hg] at hgot
    exact fun a ha heq => hgot a ((h.items a).mpr ha) ((hkey a ((h.items a).mpr ha)).mpr heq)

/-- A session is taken out. -/
theorem freesess_spec (h : Sound db (xs ++ a :: ys)) :
    ∃ db', freesess db a = some db' ∧ Sound db' (xs ++ ys) ∧ (∀ c, (db'.mem c).data = (db.mem c).data) ∧
      db'.cc = db.cc := by
  have hsub : ∀ c ∈ xs ++ ys, c ∈ xs ++ a :: ys := fun c hc => by
    rw [List.mem_append] at hc ⊢
    exact hc.imp_right (List.mem_cons_of_mem a)
  have ha : a ∈ xs ++ a :: ys := by simp
  obtain ⟨sessidx, c, hdel, htree, hc⟩ := bbtreedel_spec h.tree a
  have hdel : bbtreedel db.cmp a db.sessidx = some (sessidx, c) := by
    rw [bbtreedel_congr fun y hy => h.cmp_eq ha ((h.items y).mp hy), hdel]
  have hitems : ∀ y, y ∈ sessidx.items ↔ y ∈ xs ++ ys := fun y => by
    have hnodup : a ∉ xs ++ ys := (List.nodup_middle.mp h.linked.nodup).notMem
    rw [hc.2 y, h.items]
    constructor
    · rintro ⟨hy, hne⟩
      have hya : y ≠ a := by
        rintro rfl
        exact hne (keyOrder_eq_iff.mpr rfl)
      simpa [hya] using hy
    · intro hy
      refine ⟨hsub y hy, fun heq => hnodup ?_⟩
      rwa [h.key_inj ha (hsub y hy) (keyOrder_eq_iff.mp heq)]
  refine ⟨_, freesess_eq hdel, ?_, fun c => by rw [unlink_eq]; rfl, rfl⟩
  rw [unlink_eq]
  exact
    { linked := h.linked.unlink (fun c _ => rfl) fun c _ => rfl
      first := by rw [h.linked.head?_unlink, ← h.first]
      last := by rw [h.linked.getLast?_unlink, ← h.last]
      numsess := by
        have := h.numsess
        simp only [List.length_append, List.length_cons] at this ⊢
        omega
      tree := htree
      items := hitems
      brk := h.brk
      allocated := fun c hc => h.allocated c (hsub c hc)
      near := fun c hc d hd => h.near c (hsub c hc) d (hsub d hd) }

/-- All but the first sessions are taken out, from the end. -/
theorem cleanloop_spec {numconn n : ℕ} (h : Sound db l) (hn : l.length ≤ n) :
    ∃ db', cleanloop numconn n db = some db' ∧ Sound db' (l.take (100 * max numconn 1)) ∧
      (∀ c, (db'.mem c).data = (db.mem c).data) ∧ db'.cc = db.cc := by
  induction n generalizing db l with
  | zero =>
    obtain rfl : l = [] := List.eq_nil_of_length_eq_zero (by omega)
    exact ⟨db, rfl, by rwa [List.take_nil], fun _ => rfl, rfl⟩
  | succ n ih =>
    have hnum := h.numsess
    rw [cleanloop]
    split_ifs with hmany
    · rcases List.eq_nil_or_concat l with rfl | ⟨xs, a, rfl⟩
      · simp only [List.length_nil] at hnum
        omega
      · rw [List.concat_eq_append] at h hn hnum ⊢
        simp only [List.length_append, List.length_singleton] at hn hnum
        obtain ⟨db₁, hfree, hsound, hdata, hcc⟩ := freesess_spec h
        rw [List.append_nil] at hsound
        obtain ⟨db₂, hloop, hsound', hdata', hcc'⟩ := ih hsound (by omega)
        have hlast : db.sesslistl = some a := by rw [h.last, List.getLast?_concat]
        refine ⟨db₂, ?_, ?_, fun c => (hdata' c).trans (hdata c), hcc'.trans hcc⟩
        · rw [hlast, Option.bind_eq_bind, Option.bind_some, hfree]
          exact hloop
        · rw [List.take_append_of_le_length (by omega)]
          exact hsound'
    · refine ⟨db, rfl, ?_, fun _ => rfl, rfl⟩
      rw [List.take_of_length_le (by omega)]
      exact h

theorem cleansess_spec (h : Sound db l) (numconn : ℕ) :
    ∃ db', cleansess numconn db = some db' ∧ Sound db' (l.take (100 * max numconn 1)) ∧
      (∀ c, (db'.mem c).data = (db.mem c).data) ∧ db'.cc = db.cc :=
  cleanloop_spec h (by rw [h.numsess]; exact le_rfl)

theorem linked_pushfront (h : Linked (fun c => (db.mem c).next) (fun c => (db.mem c).prev) l)
    (hfirst : db.sesslistf = l.head?) (ha : a ∉ l) :
    Linked (fun c => ((pushfront db a).mem c).next) (fun c => ((pushfront db a).mem c).prev) (a :: l) := by
  have hne : ∀ c ∈ l, c ≠ a := fun c hc heq => ha (heq ▸ hc)
  have hhead : db.sesslistf ≠ some a := fun heq => ha (List.mem_of_head? (hfirst ▸ heq))
  rw [pushfront_eq]
  refine h.push ha ?_ ?_ (fun c hc => ?_) fun c hc => ?_
  · show (if a = a then _ else _) = _
    rw [if_pos rfl, hfirst]
  · show (if db.sesslistf = some a then _ else if a = a then _ else _) = _
    rw [if_neg hhead, if_pos rfl]
  · show (if c = a then _ else _) = _
    rw [if_neg (hne c hc)]
  · show (if db.sesslistf = some c then _ else if c = a then _ else _) = _
    rw [if_neg (hne c hc), hfirst]

theorem Sound.write_value (h : Sound db l) (a : ℕ) (value : Bytes) : Sound (db.write a ({ · with value })) l := by
  have hnext : (fun c => ((db.write a ({ · with value })).mem c).next) = fun c => (db.mem c).next := by
    funext c
    rw [write_mem]
    split_ifs <;> rfl
  have hprev : (fun c => ((db.write a ({ · with value })).mem c).prev) = fun c => (db.mem c).prev := by
    funext c
    rw [write_mem]
    split_ifs <;> rfl
  have hkey (c : ℕ) : ((db.write a ({ · with value })).mem c).key = (db.mem c).key := by
    rw [write_mem]
    split_ifs <;> rfl
  exact
    { linked := by rw [hnext, hprev]; exact h.linked
      first := h.first
      last := h.last
      numsess := h.numsess
      tree := h.tree.congr fun c _ d _ => by rw [Sessdb.order, Sessdb.order, hkey, hkey]
      items := h.items
      brk := h.brk
      allocated := h.allocated
      near := fun c hc d hd => by rw [hkey, hkey]; exact h.near c hc d hd }

theorem movefront_spec (h : Sound db (xs ++ a :: ys)) :
    Sound (movefront db a) (a :: (xs ++ ys)) ∧ (∀ c, ((movefront db a).mem c).data = (db.mem c).data) ∧
      (movefront db a).cc = db.cc := by
  cases xs with
  | nil =>
    have hfirst : db.sesslistf = some a := h.first
    rw [movefront, if_neg (not_not.mpr hfirst)]
    exact ⟨h, fun _ => rfl, rfl⟩
  | cons x xs =>
    have hnodup := List.nodup_middle.mp h.linked.nodup
    have hfirst : db.sesslistf = some x := h.first
    have hx : db.sesslistf ≠ some a := by
      rw [hfirst]
      exact fun heq => hnodup.notMem (by simp [Option.some.inj heq])
    have hmem : ∀ c, c ∈ a :: (x :: xs ++ ys) ↔ c ∈ x :: xs ++ a :: ys := fun c => by
      simp only [List.mem_append, List.mem_cons]
      tauto
    have hlinked : Linked (fun c => ((unlink db a).mem c).next) (fun c => ((unlink db a).mem c).prev)
        (x :: xs ++ ys) := by
      rw [unlink_eq]
      exact h.linked.unlink (fun c _ => rfl) fun c _ => rfl
    have hpush := linked_pushfront hlinked (by rw [unlink_eq]; exact hfirst) hnodup.notMem
    rw [movefront_eq hx]
    refine ⟨?_, fun c => by simp only [unlink_eq, pushfront_eq]; rfl, by simp only [unlink_eq, pushfront_eq]⟩
    have hlast : (if db.sesslistl = some a then (db.mem a).prev else db.sesslistl) = (a :: (x :: xs ++ ys)).getLast? := by
      rw [List.getLast?_cons_of_ne_nil (by simp), h.linked.getLast?_unlink, ← h.last]
    rw [hlast]
    simp only [unlink_eq, pushfront_eq] at hpush ⊢
    exact
      { linked := hpush
        first := rfl
        last := rfl
        numsess := by
          have := h.numsess
          simp only [List.length_append, List.length_cons] at this ⊢
          omega
        tree := h.tree
        items := fun c => (h.items c).trans (hmem c).symm
        brk := h.brk
        allocated := fun c hc => h.allocated c ((hmem c).mp hc)
        near := fun c hc d hd => h.near c ((hmem c).mp hc) d ((hmem d).mp hd) }

/-- A session gets a new value, and comes first. -/
theorem renewsess_spec (h : Sound db (xs ++ a :: ys)) (value : Bytes) :
    Sound (renewsess db a value) (a :: (xs ++ ys)) ∧
      ((renewsess db a value).mem a).data = ((db.mem a).key, value) ∧
      (∀ c ≠ a, ((renewsess db a value).mem c).data = (db.mem c).data) ∧
      (renewsess db a value).cc = db.cc := by
  obtain ⟨hsound, hdata, hcc⟩ := movefront_spec (h.write_value a value)
  refine ⟨hsound, (hdata a).trans ?_, fun c hc => (hdata c).trans ?_, hcc⟩
  · rw [write_mem, if_pos rfl]
    rfl
  · rw [write_mem, if_neg hc]

/-- A new session comes first. -/
theorem addsess_spec (h : Sound db l) (hnew : ∀ a ∈ l, (db.mem a).key ≠ key)
    (hnear : ∀ a ∈ l, Near key (db.mem a).key) (value : Bytes) :
    ∃ db', addsess db key value = some db' ∧ Sound db' (db.brk :: l) ∧
      (db'.mem db.brk).data = (key, value) ∧ (∀ c ∈ l, (db'.mem c).data = (db.mem c).data) ∧
      db'.cc = db.cc := by
  have hbrk : db.brk ∉ l := fun hmem => (h.allocated db.brk hmem).2.false
  have hmem : ∀ c ∈ l, (newsess db key value).mem c = db.mem c := fun c hc => by
    have hne : c ≠ db.brk := fun heq => hbrk (heq ▸ hc)
    simp only [newsess, write_mem, if_neg hne]
  have hkey : ((newsess db key value).mem db.brk).key = key := by
    simp only [newsess, write_mem, if_pos]
  have hitem {c : ℕ} (hc : c ∈ db.sessidx.items) : (newsess db key value).mem c = db.mem c :=
    hmem c ((h.items c).mp hc)
  have htree : Ordered (newsess db key value).order db.sessidx :=
    h.tree.congr fun c hc d hd => by rw [Sessdb.order, Sessdb.order, hitem hc, hitem hd]
  obtain ⟨sessidx, b, hput, htree', hb⟩ := bbtreeput_spec htree db.brk
  have hput' : bbtreeput (newsess db key value).cmp db.brk db.sessidx = some (sessidx, b) := by
    refine (bbtreeput_congr fun y hy => sesscmp_near ?_).trans hput
    rw [hkey, hitem hy]
    exact hnear y ((h.items y).mp hy)
  -- the key is not known, so that the tree takes the session
  have hb : Put (newsess db key value).order db.brk db.sessidx.items sessidx.items true := by
    cases b with
    | true => exact hb
    | false =>
      obtain ⟨⟨y, hy, heq⟩, -⟩ := hb
      rw [Sessdb.order, hkey, hitem hy] at heq
      exact absurd (keyOrder_eq_iff.mp heq).symm (hnew y ((h.items y).mp hy))
  have hlinked : Linked (fun c => ((newsess db key value).mem c).next)
      (fun c => ((newsess db key value).mem c).prev) l :=
    h.linked.congr (fun c hc => congrArg _ (hmem c hc)) fun c hc => congrArg _ (hmem c hc)
  have hpush := linked_pushfront hlinked h.first hbrk
  have hlast : (if db.sesslistl = none then some db.brk else db.sesslistl) = (db.brk :: l).getLast? := by
    rw [h.last, List.getLast?_cons]
    cases l.getLast? <;> rfl
  refine ⟨_, addsess_eq hput', ?_, ?_, fun c hc => ?_, ?_⟩
  · rw [hlast]
    simp only [pushfront_eq] at hpush ⊢
    exact
      { linked := hpush
        first := rfl
        last := rfl
        numsess := by
          have := h.numsess
          simp only [List.length_cons]
          omega
        tree := htree'
        items := fun y => by rw [hb.2 y, h.items, List.mem_cons]
        brk := Nat.lt_succ_of_lt h.brk
        allocated := fun c hc => by
          rcases List.mem_cons.mp hc with rfl | hc
          · exact ⟨h.brk, Nat.lt_succ_self _⟩
          · exact ⟨(h.allocated c hc).1, Nat.lt_succ_of_lt (h.allocated c hc).2⟩
        near := fun c hc d hd => by
          show Near ((newsess db key value).mem c).key ((newsess db key value).mem d).key
          rcases List.mem_cons.mp hc with rfl | hc <;> rcases List.mem_cons.mp hd with rfl | hd
          · exact ⟨by omega, by omega⟩
          · rw [hkey, hmem d hd]
            exact hnear d hd
          · rw [hkey, hmem c hc]
            exact (hnear c hc).symm
          · rw [hmem c hc, hmem d hd]
            exact h.near c hc d hd }
  · simp only [pushfront_eq]
    show ((newsess db key value).mem db.brk).data = (key, value)
    simp only [newsess, write_mem, if_pos]
    rfl
  · simp only [pushfront_eq]
    show ((newsess db key value).mem c).data = (db.mem c).data
    rw [hmem c hc]
  · simp only [pushfront_eq]
    rfl

theorem Sound.setcc (h : Sound db l) (cc : ℕ) : Sound { db with cc } l :=
  ⟨⟨h.linked, h.first, h.last, h.numsess, h.tree, h.items⟩, h.brk, h.allocated, h.near⟩

/-! ## What there is to see of the sessions -/

/-- What is kept, the session that was stored last in front. -/
def Sessdb.contents (db : Sessdb) (l : List ℕ) : List (Bytes × Bytes) := l.map fun a => (db.mem a).data

theorem contents_congr {db' : Sessdb} (h : ∀ c ∈ l, (db'.mem c).data = (db.mem c).data) :
    db'.contents l = db.contents l := List.map_congr_left h

theorem contents_absent (h : ∀ a ∈ l, (db.mem a).key ≠ key) :
    (db.contents l).filter (·.1 ≠ key) = db.contents l := by
  rw [List.filter_eq_self]
  intro d hd
  obtain ⟨a, ha, rfl⟩ := List.mem_map.mp hd
  exact decide_eq_true (h a ha)

theorem contents_unlink (h : Describes db (xs ++ a :: ys)) :
    (db.contents (xs ++ a :: ys)).filter (·.1 ≠ (db.mem a).key) = db.contents (xs ++ ys) := by
  have hnodup := (List.nodup_middle.mp h.linked.nodup).notMem
  have hne : ∀ c ∈ xs ++ ys, (db.mem c).key ≠ (db.mem a).key := fun c hc heq => by
    have hc' : c ∈ xs ++ a :: ys := by
      simp only [List.mem_append, List.mem_cons] at hc ⊢
      tauto
    exact hnodup (h.key_inj hc' (by simp) heq ▸ hc)
  have habsent := contents_absent hne
  unfold Sessdb.contents at habsent ⊢
  rw [List.map_append, List.filter_append, List.map_cons, List.filter_cons]
  rw [List.map_append, List.filter_append] at habsent
  simpa [Savedsess.data] using habsent

/-! ## One call -/

/-- What a call has done to the store is what its operations do to a cache. -/
structure Kept (log : List (Op Bytes Bytes)) (db : Sessdb) (l : List ℕ) : Prop where
  sound : Sound db l
  contents : db.contents l = (Recency.run log).map Entry.data

variable {log : List (Op Bytes Bytes)}

theorem Kept.del (h : Kept log db l) (hnear : ∀ a ∈ l, Near key (db.mem a).key) :
    ∃ db' r l', sessdbdel db key = some (db', r) ∧ Kept (log ++ [.drop key]) db' l' := by
  have hget := sessget_spec h.sound hnear
  rw [sessdbdel]
  cases hg : sessget db key with
  | none =>
    rw [hg] at hget
    refine ⟨db, -1, l, rfl, h.sound, ?_⟩
    rw [run_concat, map_step, ← h.contents]
    exact (contents_absent hget).symm
  | some a =>
    rw [hg] at hget
    obtain ⟨ha, rfl⟩ := hget
    obtain ⟨xs, ys, rfl⟩ := List.append_of_mem ha
    obtain ⟨db', hfree, hsound, hdata, -⟩ := freesess_spec h.sound
    refine ⟨db', 0, xs ++ ys, congrArg (Option.map (·, 0)) hfree, hsound, ?_⟩
    rw [run_concat, map_step, ← h.contents, contents_congr fun c _ => hdata c]
    exact (contents_unlink h.sound.toDescribes).symm

theorem Kept.put (h : Kept log db l) (hnear : ∀ a ∈ l, Near key (db.mem a).key) (value : Bytes) :
    ∃ db' l', putsess db key value = some db' ∧ Kept (log ++ [.store key value]) db' l' ∧ db'.cc = db.cc := by
  have hget := sessget_spec h.sound hnear
  rw [putsess]
  cases hg : sessget db key with
  | none =>
    rw [hg] at hget
    obtain ⟨db', hadd, hsound, hnew, hdata, hcc⟩ := addsess_spec h.sound hget hnear value
    refine ⟨db', _, hadd, ⟨hsound, ?_⟩, hcc⟩
    rw [run_concat, map_step, ← h.contents]
    show (db'.mem db.brk).data :: db'.contents l = (key, value) :: (db.contents l).filter _
    rw [hnew, contents_congr hdata, contents_absent hget]
  | some a =>
    rw [hg] at hget
    obtain ⟨ha, rfl⟩ := hget
    obtain ⟨xs, ys, rfl⟩ := List.append_of_mem ha
    obtain ⟨hsound, hnew, hdata, hcc⟩ := renewsess_spec h.sound value
    refine ⟨_, _, rfl, ⟨hsound, ?_⟩, hcc⟩
    have hne : ∀ c ∈ xs ++ ys, c ≠ a := fun c hc heq =>
      (List.nodup_middle.mp h.sound.linked.nodup).notMem (heq ▸ hc)
    rw [run_concat, map_step, ← h.contents]
    show ((renewsess db a value).mem a).data :: (renewsess db a value).contents (xs ++ ys) =
      ((db.mem a).key, value) :: (db.contents (xs ++ a :: ys)).filter _
    rw [hnew, contents_congr fun c hc => hdata c (hne c hc), contents_unlink h.sound.toDescribes]

theorem Kept.count (h : Kept log db l) (numconn : ℕ) :
    ∃ db' l', countsess numconn db = some db' ∧
      Kept (log ++ if db.cc > 100 then [.trim (100 * max numconn 1)] else []) db' l' := by
  rw [countsess]
  split_ifs
  · obtain ⟨db', hclean, hsound, hdata, -⟩ := cleansess_spec h.sound numconn
    refine ⟨_, _, congrArg (Option.map _) hclean, hsound.setcc 0, ?_⟩
    rw [run_concat, map_step, ← h.contents]
    exact (contents_congr fun c _ => hdata c).trans List.map_take
  · exact ⟨_, l, rfl, h.sound.setcc _, by rw [List.append_nil]; exact h.contents⟩

/-- A call does to the store what its operations do to a cache. -/
theorem Kept.call (h : Kept log db l) (numconn : ℕ) (call : Call) (hnear : ∀ a ∈ l, Near call.key (db.mem a).key) :
    ∃ db' l', call.run numconn db = some db' ∧ Kept (log ++ call.ops numconn db) db' l' := by
  cases call with
  | fetch key => exact ⟨db, l, rfl, by rwa [Call.ops, List.append_nil]⟩
  | del key =>
    obtain ⟨db', r, l', hdel, hkept⟩ := h.del hnear
    exact ⟨db', l', congrArg (Option.map Prod.fst) hdel, hkept⟩
  | store key value =>
    match value with
    | none | some [] =>
      obtain ⟨db', r, l', hdel, hkept⟩ := h.del hnear
      exact ⟨db', l', congrArg (Option.map Prod.fst) (congrArg (Option.map _) hdel), hkept⟩
    | some (b :: bs) =>
      have hnear : ∀ a ∈ l, Near key (db.mem a).key := hnear
      obtain ⟨db₁, l₁, hput, hkept, hcc⟩ := h.put hnear (b :: bs)
      obtain ⟨db₂, l₂, hcount, hkept'⟩ := hkept.count numconn
      refine ⟨db₂, l₂, ?_, ?_⟩
      · show (((putsess db key (b :: bs)).bind (countsess numconn)).map (·, (0 : ℤ))).map Prod.fst = _
        rw [hput, Option.bind_some, hcount]
        rfl
      · have hops : (Call.store key (some (b :: bs))).ops numconn db =
            [.store key (b :: bs)] ++ (if db₁.cc > 100 then [.trim (100 * max numconn 1)] else []) := by
          show (if db.cc > 100 then _ else _) = _
          rw [hcc]
          split_ifs <;> rfl
        rwa [hops, ← List.append_assoc]

end Sound

/-! ## Runs -/

/-- What `sesscmp` makes of sizes that differ. -/
def sizecmp (m n : ℕ) : Ordering := compare (((m : ℤ) - n).bmod (2 ^ 32)) 0

/-- The keys are zeroes: of how many the one of each session is. -/
structure Zeroes (size : ℕ → ℕ) (db : Sessdb) (t : Btree ℕ) (n : ℕ) : Prop where
  sessidx : db.sessidx = t
  brk : db.brk = n
  cc : db.cc < n
  range : ∀ a ∈ t.items, 0 < a ∧ a < n
  key : ∀ a, 0 < a → a < n → (db.mem a).key = List.replicate (size a) 0

theorem sesscmp_zeroes {a b : Savedsess} {m n : ℕ} (ha : a.key = List.replicate m 0)
    (hb : b.key = List.replicate n 0) : sesscmp a b = sizecmp m n := by
  rw [sesscmp, ha, hb, List.length_replicate, List.length_replicate]
  split_ifs with hne
  · rfl
  · obtain rfl := not_not.mp hne
    rw [sizecmp, sub_self]
    exact Std.ReflOrd.compare_self

section Zeroes

variable {size : ℕ → ℕ} {db : Sessdb} {t : Btree ℕ} {n : ℕ}

theorem Zeroes.get (h : Zeroes size db t n) (m : ℕ) :
    sessget db (List.replicate (size m) 0) = btreeget (fun a b => sizecmp (size a) (size b)) m t := by
  obtain rfl := h.sessidx
  refine btreeget_congr fun y hy => sesscmp_zeroes ?_ ?_
  · simp only [write_mem, if_pos]
  · obtain ⟨hpos, hlt⟩ := h.range y hy
    simp only [write_mem, lkey, if_neg hpos.ne']
    exact h.key y hpos hlt

/-- A new key, the next in `size`, is stored. -/
theorem Zeroes.store (h : Zeroes size db t n) (t' : Btree ℕ) (hn : n ≤ 100) (hpos : 0 < n)
    (hget : btreeget (fun a b => sizecmp (size a) (size b)) n t = none)
    (hput : bbtreeput (fun a b => sizecmp (size a) (size b)) n t = some (t', true))
    (hrange : ∀ a ∈ t'.items, 0 < a ∧ a < n + 1) :
    ∃ db', (Call.store (List.replicate (size n) 0) (some [1])).run 0 db = some db' ∧
      (Call.store (List.replicate (size n) 0) (some [1])).ops 0 db = [.store (List.replicate (size n) 0) [1]] ∧
      Zeroes size db' t' (n + 1) := by
  have hkey : ∀ a, 0 < a → a < n + 1 →
      ((newsess db (List.replicate (size n) 0) [1]).mem a).key = List.replicate (size a) 0 := fun a ha hlt => by
    simp only [newsess, write_mem, h.brk]
    split_ifs with heq
    · rw [heq]
    · exact h.key a ha (by omega)
  have hadd : bbtreeput (newsess db (List.replicate (size n) 0) [1]).cmp db.brk db.sessidx = some (t', true) := by
    rw [h.brk, h.sessidx, ← hput]
    refine bbtreeput_congr fun y hy => sesscmp_zeroes ?_ ?_
    · exact hkey n hpos (Nat.lt_succ_self n)
    · exact hkey y (h.range y hy).1 (Nat.lt_succ_of_lt (h.range y hy).2)
  obtain ⟨db₁, hadd, hidx, hbrk, hcc, hmem⟩ : ∃ db₁, addsess db (List.replicate (size n) 0) [1] = some db₁ ∧
      db₁.sessidx = t' ∧ db₁.brk = n + 1 ∧ db₁.cc = db.cc ∧
      ∀ a, (db₁.mem a).key = ((newsess db (List.replicate (size n) 0) [1]).mem a).key :=
    ⟨_, addsess_eq hadd, rfl, by simp only [pushfront_eq]; exact congrArg (· + 1) h.brk,
      by simp only [pushfront_eq]; rfl, fun a => by simp only [pushfront_eq]⟩
  have hlt := h.cc
  refine ⟨{ db₁ with cc := db₁.cc + 1 }, ?_, ?_, ⟨hidx, hbrk, ?_, hrange, fun a ha hlt => ?_⟩⟩
  · show (((putsess db (List.replicate (size n) 0) [1]).bind (countsess 0)).map (·, (0 : ℤ))).map Prod.fst = _
    rw [putsess, h.get, hget]
    simp only [hadd, Option.bind_some, countsess]
    rw [if_neg (by omega)]
    rfl
  · show (if db.cc > 100 then _ else _) = _
    rw [if_neg (by omega)]
  · show db₁.cc + 1 < n + 1
    omega
  · exact (hmem a).trans (hkey a ha hlt)

theorem Zeroes.del (h : Zeroes size db t n) (t' : Btree ℕ) {m : ℕ} (hm : m ∈ t.items)
    (hget : btreeget (fun a b => sizecmp (size a) (size b)) m t = some m)
    (hdel : bbtreedel (fun a b => sizecmp (size a) (size b)) m t = some (t', true))
    (hrange : ∀ a ∈ t'.items, 0 < a ∧ a < n) :
    ∃ db', (Call.del (List.replicate (size m) 0)).run 0 db = some db' ∧ Zeroes size db' t' n := by
  have hfree : bbtreedel db.cmp m db.sessidx = some (t', true) := by
    rw [h.sessidx, ← hdel]
    exact bbtreedel_congr fun y hy => sesscmp_zeroes (h.key m (h.range m hm).1 (h.range m hm).2)
      (h.key y (h.range y hy).1 (h.range y hy).2)
  obtain ⟨db', hfree, hidx, hbrk, hcc, hmem⟩ : ∃ db', freesess db m = some db' ∧ db'.sessidx = t' ∧
      db'.brk = n ∧ db'.cc = db.cc ∧ ∀ a, (db'.mem a).key = (db.mem a).key :=
    ⟨_, freesess_eq hfree, rfl, h.brk, rfl, fun a => by simp only [unlink_eq]⟩
  refine ⟨db', ?_, ⟨hidx, hbrk, hcc ▸ h.cc, hrange, fun a ha hlt => (hmem a).trans (h.key a ha hlt)⟩⟩
  rw [Call.run, sessdbdel, h.get, hget]
  simp only [hfree]
  rfl

end Zeroes

end Ashd.Ssl
