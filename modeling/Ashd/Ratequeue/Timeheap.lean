import Ashd.Common.Heap
import Ashd.Ratequeue.Table

/-!
# The time heap

The heap holds one entry for every live bucket, and `thpos` of the bucket is where it is.
The loops that move entries up and down carry the entry that is to be placed along, with a
hole where it would go; what holds when it is put there is kept from round to round.

Main results:
* `Indexed.swap`: one round of either loop.
* `updbtime_spec`: the entry of a bucket is put into the heap, or moved.
* `thremove_spec`: the entry of a bucket is taken out.
-/

namespace Ashd.Ratequeue

variable {α : Type*}

/-! ## What the heap does not touch -/

/-- Everything but the heap and the positions in it. -/
structure SameBut (s s' : State α) : Prop where
  buckets : s'.buckets = s.buckets
  sbuckets : s'.sbuckets = s.sbuckets
  hashlen : s'.hashlen = s.hashlen
  nbuckets : s'.nbuckets = s.nbuckets
  now : s'.now = s.now
  fresh : s'.fresh = s.fresh
  mem : ∀ bk, ∃ thpos, s'.mem bk = { s.mem bk with thpos := thpos }

theorem SameBut.refl (s : State α) : SameBut s s := ⟨rfl, rfl, rfl, rfl, rfl, rfl, fun _ => ⟨_, rfl⟩⟩

theorem SameBut.trans {s s' s'' : State α} (h : SameBut s s') (h' : SameBut s' s'') : SameBut s s'' where
  buckets := h'.buckets.trans h.buckets
  sbuckets := h'.sbuckets.trans h.sbuckets
  hashlen := h'.hashlen.trans h.hashlen
  nbuckets := h'.nbuckets.trans h.nbuckets
  now := h'.now.trans h.now
  fresh := h'.fresh.trans h.fresh
  mem := by
    intro bk
    obtain ⟨n, hn⟩ := h.mem bk
    obtain ⟨n', hn'⟩ := h'.mem bk
    exact ⟨n', by rw [hn', hn]⟩

theorem heapSet_same (s : State α) (n : ℕ) (bt : Btime α) : SameBut s (s.heapSet n bt) where
  buckets := rfl
  sbuckets := rfl
  hashlen := rfl
  nbuckets := rfl
  now := rfl
  fresh := rfl
  mem := by
    intro bk
    by_cases hbk : bk = bt.bk
    · exact ⟨n, by rw [hbk]; exact Function.update_self ..⟩
    · exact ⟨_, Function.update_of_ne hbk _ _⟩

theorem SameBut.table {s s' : State α} (h : SameBut s s') : SameTable s s' :=
  ⟨h.buckets, h.sbuckets, h.hashlen, h.nbuckets, h.fresh, fun bk => by
    obtain ⟨n, hn⟩ := h.mem bk
    rw [hn]⟩

/-- What the heap leaves of the buckets. -/
theorem SameBut.fields {s s' : State α} (h : SameBut s s') (bk : ℕ) :
    (s'.mem bk).level = (s.mem bk).level ∧ (s'.mem bk).last = (s.mem bk).last ∧
      (s'.mem bk).brim = (s.mem bk).brim := by
  obtain ⟨n, hn⟩ := h.mem bk
  rw [hn]
  exact ⟨rfl, rfl, rfl⟩

/-! ## Storing a bucket -/

@[simp] theorem store_self (s : State α) (bk : ℕ) (b : Bucket α) : (s.store bk b).mem bk = b :=
  Function.update_self ..

theorem store_of_ne (s : State α) {bk bk' : ℕ} (b : Bucket α) (h : bk' ≠ bk) :
    (s.store bk b).mem bk' = s.mem bk' :=
  Function.update_of_ne h _ _

theorem store_table {s : State α} {bk : ℕ} {b : Bucket α} (hid : b.id = (s.mem bk).id) :
    SameTable s (s.store bk b) :=
  ⟨rfl, rfl, rfl, rfl, rfl, fun bk' => by
    by_cases hbk : bk' = bk
    · rw [hbk, store_self, hid]
    · rw [store_of_ne s b hbk]⟩

theorem store_thpos {s : State α} {bk : ℕ} {b : Bucket α} (hpos : b.thpos = (s.mem bk).thpos)
    (bk' : ℕ) : ((s.store bk b).mem bk').thpos = (s.mem bk').thpos := by
  by_cases hbk : bk' = bk
  · rw [hbk, store_self, hpos]
  · rw [store_of_ne s b hbk]

/-! ## Positions -/

/-- The heap holds one entry for every bucket of `live`, at its `thpos`, and no other. -/
structure Indexed (s : State α) (live : ℕ → Prop) : Prop where
  pos : ∀ (n : ℕ) (bt : Btime α), s.timeheap[n]? = some bt → (s.mem bt.bk).thpos = n ∧ live bt.bk
  all : ∀ bk, live bk → ∃ (n : ℕ) (bt : Btime α), s.timeheap[n]? = some bt ∧ bt.bk = bk

variable {s : State α} {live : ℕ → Prop}

/-- Only the heap and the positions of the live buckets matter. -/
theorem Indexed.congr {s' : State α} {live' : ℕ → Prop} (h : Indexed s live)
    (hheap : s'.timeheap = s.timeheap) (hpos : ∀ bk, live bk → (s'.mem bk).thpos = (s.mem bk).thpos)
    (hlive : ∀ bk, live bk ↔ live' bk) : Indexed s' live' where
  pos := by
    intro n bt hbt
    rw [hheap] at hbt
    obtain ⟨hn, hl⟩ := h.pos n bt hbt
    exact ⟨(hpos _ hl).trans hn, (hlive _).mp hl⟩
  all := by
    intro bk hbk
    rw [hheap]
    exact h.all bk ((hlive bk).mpr hbk)

theorem indexed_start [Zero α] (now : α) : Indexed (start now) fun bk => ∃ _ : ℕ × Bytes, none = some bk where
  pos := fun _ _ hbt => (List.not_mem_nil (List.mem_of_getElem? hbt)).elim
  all := fun _ ⟨_, hk⟩ => nomatch hk

theorem heapSet_timeheap (s : State α) (n : ℕ) (bt : Btime α) :
    (s.heapSet n bt).timeheap = s.timeheap.set n bt := rfl

theorem heapSet_thpos_self (s : State α) (n : ℕ) (bt : Btime α) :
    ((s.heapSet n bt).mem bt.bk).thpos = n := by
  unfold State.heapSet State.store
  simp only [Function.update_self]

theorem heapSet_mem_of_ne (s : State α) (n : ℕ) (bt : Btime α) {bk : ℕ} (h : bk ≠ bt.bk) :
    (s.heapSet n bt).mem bk = s.mem bk :=
  Function.update_of_ne h _ _

/-- The entry of a bucket is at its position. -/
theorem Indexed.entry {bk : ℕ} (h : Indexed s live) (hbk : live bk) :
    ∃ (n : ℕ) (bt : Btime α), (s.mem bk).thpos = n ∧ s.timeheap[n]? = some bt ∧ bt.bk = bk := by
  obtain ⟨n, e, he, hek⟩ := h.all bk hbk
  exact ⟨n, e, hek ▸ (h.pos n e he).1, he, hek⟩

/-- The entry at the position of a bucket is replaced by another one of this bucket. -/
theorem Indexed.rekey {n : ℕ} (h : Indexed s live) (bt : Btime α) (hbk : live bt.bk)
    (hn : (s.mem bt.bk).thpos = n) : n < s.timeheap.length ∧ Indexed (s.heapSet n bt) live := by
  obtain ⟨j, e, hj, he, hek⟩ := h.entry hbk
  obtain rfl : n = j := by omega
  have hlt : n < s.timeheap.length := (List.getElem?_eq_some_iff.mp he).1
  have hget : ∀ j, (s.heapSet n bt).timeheap[j]? = if n = j then some bt else s.timeheap[j]? := by
    intro j
    rw [heapSet_timeheap, List.getElem?_set]
    split_ifs <;> rfl
  refine ⟨hlt, fun j e' he' => ?_, fun bk hbk' => ?_⟩
  · rw [hget] at he'
    split_ifs at he' with hj
    · cases he'
      exact ⟨by rw [heapSet_thpos_self, hj], hbk⟩
    · have hpos := h.pos j e' he'
      rw [heapSet_mem_of_ne]
      · exact hpos
      · intro heq
        rw [heq, hn] at hpos
        exact hj (by exact_mod_cast hpos.1)
  · obtain ⟨j, e', he', hek'⟩ := h.all bk hbk'
    by_cases hj : n = j
    · subst hj
      rw [he, Option.some.injEq] at he'
      exact ⟨n, bt, by rw [hget, if_pos rfl], by rw [← hek', ← he', hek]⟩
    · exact ⟨j, e', by rw [hget, if_neg hj, he'], hek'⟩

/-- An entry of a new bucket is put at the end. -/
theorem Indexed.push {bt : Btime α} (h : Indexed s live) (hbk : ¬ live bt.bk) :
    Indexed ({ s with timeheap := s.timeheap ++ [bt] }.heapSet s.timeheap.length bt)
      (fun bk => live bk ∨ bk = bt.bk) := by
  have hheap : ({ s with timeheap := s.timeheap ++ [bt] }.heapSet s.timeheap.length bt).timeheap =
      s.timeheap ++ [bt] := by
    rw [heapSet_timeheap, List.set_append_right _ _ le_rfl, Nat.sub_self]
    rfl
  have hmem : ∀ bk, live bk → ({ s with timeheap := s.timeheap ++ [bt] }.heapSet s.timeheap.length bt).mem bk
      = s.mem bk := by
    intro bk hl
    refine heapSet_mem_of_ne _ _ _ ?_
    rintro rfl
    exact hbk hl
  refine ⟨fun n e he => ?_, fun bk hl => ?_⟩
  · rw [hheap] at he
    rcases Nat.lt_or_ge n s.timeheap.length with hn | hn
    · rw [List.getElem?_append_left hn] at he
      obtain ⟨hpos, hl⟩ := h.pos n e he
      rw [hmem _ hl]
      exact ⟨hpos, .inl hl⟩
    · rw [List.getElem?_append_right hn, List.getElem?_singleton] at he
      split_ifs at he with h0
      cases he
      rw [heapSet_thpos_self]
      exact ⟨by omega, .inr rfl⟩
  · rw [hheap]
    rcases hl with hl | rfl
    · obtain ⟨n, e, he, hek⟩ := h.all bk hl
      exact ⟨n, e, by rw [List.getElem?_append_left (List.getElem?_eq_some_iff.mp he).1, he], hek⟩
    · exact ⟨s.timeheap.length, bt, by rw [List.getElem?_concat_length], rfl⟩

/-- The entry at `n` gives way to the last one. -/
theorem Indexed.pop {bk : ℕ} {r : Btime α} {n : ℕ} (h : Indexed s live) (hbk : live bk)
    (hn : (s.mem bk).thpos = n) (hnl : n < s.timeheap.length - 1)
    (hr : s.timeheap[s.timeheap.length - 1]? = some r) :
    Indexed ({ s with timeheap := s.timeheap.dropLast }.heapSet n r) fun b => live b ∧ b ≠ bk := by
  have hget : ∀ j, ({ s with timeheap := s.timeheap.dropLast }.heapSet n r).timeheap[j]? =
      if n = j then some r else if j < s.timeheap.length - 1 then s.timeheap[j]? else none := by
    intro j
    rw [heapSet_timeheap, List.getElem?_set, List.getElem?_dropLast, List.length_dropLast, if_pos hnl]
  have hrpos := h.pos _ r hr
  have hrbk : r.bk ≠ bk := by
    intro he
    rw [he, hn] at hrpos
    have := hrpos.1
    omega
  refine ⟨fun j e he => ?_, fun b hb => ?_⟩
  · rw [hget] at he
    split_ifs at he with hj hlt
    · cases he
      rw [heapSet_thpos_self, hj]
      exact ⟨rfl, hrpos.2, hrbk⟩
    · have hpos := h.pos j e he
      have her : e.bk ≠ r.bk := by
        intro heq
        rw [heq, hrpos.1] at hpos
        have := hpos.1
        omega
      rw [heapSet_mem_of_ne _ _ _ her]
      refine ⟨hpos.1, hpos.2, fun heq => ?_⟩
      rw [heq, hn] at hpos
      exact hj (by exact_mod_cast hpos.1)
  · obtain ⟨j, e, he, hek⟩ := h.all b hb.1
    have hjlen := (List.getElem?_eq_some_iff.mp he).1
    by_cases hjn : n = j
    · obtain ⟨i, e', hi, he', hek'⟩ := h.entry hbk
      obtain rfl : n = i := by omega
      rw [← hjn, he', Option.some.injEq] at he
      exact absurd (by rw [← hek, ← he, hek']) hb.2
    · by_cases hlast : j = s.timeheap.length - 1
      · rw [hlast, hr, Option.some.injEq] at he
        exact ⟨n, r, by rw [hget, if_pos rfl], by rw [he, hek]⟩
      · exact ⟨j, e, by rw [hget, if_neg hjn, if_pos (by omega), he], hek⟩

/-! ## Placing an entry -/

/-- `bt` is being placed in the heap of `s₀`, first at `n₀`, and now at `n`. -/
structure Carried (bt : Btime α) (n₀ : ℕ) (s₀ : State α) (n : ℕ) (s : State α) : Prop where
  same : SameBut s₀ s
  lt : n < s.timeheap.length
  perm : (s.timeheap.set n bt).Perm (s₀.timeheap.set n₀ bt)
  indexed : ∀ live, Indexed (s₀.heapSet n₀ bt) live → Indexed (s.heapSet n bt) live

theorem Carried.refl {bt : Btime α} {n : ℕ} (h : n < s.timeheap.length) : Carried bt n s n s :=
  ⟨.refl s, h, .refl _, fun _ h => h⟩

theorem Carried.length {bt : Btime α} {n₀ n : ℕ} {s₀ : State α} (h : Carried bt n₀ s₀ n s) :
    s.timeheap.length = s₀.timeheap.length := by
  have := h.perm.length_eq
  rwa [List.length_set, List.length_set] at this

/-- `bt` has been placed. -/
structure Placed (bt : Btime α) (n : ℕ) (s s' : State α) : Prop where
  same : SameBut s s'
  perm : s'.timeheap.Perm (s.timeheap.set n bt)
  indexed : ∀ live, Indexed (s.heapSet n bt) live → Indexed s' live

theorem Carried.placed {bt : Btime α} {n₀ n : ℕ} {s₀ : State α} (h : Carried bt n₀ s₀ n s) :
    Placed bt n₀ s₀ (s.heapSet n bt) :=
  ⟨h.same.trans (heapSet_same _ _ _), h.perm, h.indexed⟩

section Loops

variable [Zero α]

theorem heapAt_eq {n : ℕ} (h : n < s.timeheap.length) : s.timeheap[n]? = some (s.heapAt n) := by
  unfold State.heapAt
  rw [List.getD_eq_getElem?_getD, List.getElem?_eq_getElem h, Option.getD_some]

/-- One round: the entry at `p` is put into the hole at `n`, and the hole is at `p`. -/
theorem Indexed.swap {bt : Btime α} {n p : ℕ} (h : Indexed (s.heapSet n bt) live)
    (hn : n < s.timeheap.length) (hp : p < s.timeheap.length) (hnp : n ≠ p) :
    Indexed ((s.heapSet n (s.heapAt p)).heapSet p bt) live := by
  have hat := heapAt_eq hp
  generalize s.heapAt p = q at hat
  have hget : ∀ j, ((s.heapSet n q).heapSet p bt).timeheap[j]? =
      if p = j then some bt else if n = j then some q else s.timeheap[j]? := by
    intro j
    rw [heapSet_timeheap, heapSet_timeheap, List.getElem?_set, List.getElem?_set, List.length_set]
    split_ifs <;> rfl
  have hold : ∀ j, (s.heapSet n bt).timeheap[j]? = if n = j then some bt else s.timeheap[j]? := by
    intro j
    rw [heapSet_timeheap, List.getElem?_set]
    split_ifs <;> rfl
  have hbt := h.pos n bt (by rw [hold, if_pos rfl])
  have hq := h.pos p q (by rw [hold, if_neg hnp, hat])
  have hne : q.bk ≠ bt.bk := by
    intro he
    rw [he, hbt.1] at hq
    exact hnp (by exact_mod_cast hq.1)
  constructor
  · intro j e he
    rw [hget] at he
    split_ifs at he with hjp hjn
    · cases he
      rw [← hjp]
      exact ⟨heapSet_thpos_self _ p bt, hbt.2⟩
    · cases he
      rw [heapSet_mem_of_ne _ _ _ hne, heapSet_thpos_self, hjn]
      exact ⟨rfl, hq.2⟩
    · have hj := h.pos j e (by rw [hold, if_neg hjn, he])
      have hebt : e.bk ≠ bt.bk := by
        intro heq
        rw [heq, hbt.1] at hj
        exact hjn (by exact_mod_cast hj.1)
      have heq : e.bk ≠ q.bk := by
        intro heq
        rw [heq, hq.1] at hj
        exact hjp (by exact_mod_cast hj.1)
      rw [heapSet_mem_of_ne _ _ _ hebt] at hj ⊢
      rw [heapSet_mem_of_ne _ _ _ heq]
      exact hj
  · intro bk hbk
    obtain ⟨j, e, he, hek⟩ := h.all bk hbk
    rw [hold] at he
    by_cases hjn : n = j
    · rw [if_pos hjn, Option.some.injEq] at he
      exact ⟨p, bt, by rw [hget, if_pos rfl], by rw [he, hek]⟩
    · rw [if_neg hjn] at he
      by_cases hjp : p = j
      · rw [← hjp, hat, Option.some.injEq] at he
        exact ⟨n, q, by rw [hget, if_neg (Ne.symm hnp), if_pos rfl], by rw [he, hek]⟩
      · exact ⟨j, e, by rw [hget, if_neg hjp, if_neg hjn, he], hek⟩

/-- One round leaves the entries as they are. -/
theorem heapSet_perm {bt : Btime α} {n p : ℕ} (hn : n < s.timeheap.length) (hp : p < s.timeheap.length)
    (hnp : n ≠ p) :
    ((s.heapSet n (s.heapAt p)).timeheap.set p bt).Perm (s.timeheap.set n bt) := by
  have hat := heapAt_eq hp
  generalize s.heapAt p = q at hat
  rw [heapSet_timeheap]
  have hn' : n < (s.timeheap.set n bt).length := by rwa [List.length_set]
  have hp' : p < (s.timeheap.set n bt).length := by rwa [List.length_set]
  have hswap := List.set_set_perm hn' hp'
  have hq : (s.timeheap.set n bt)[p] = q := by
    rw [List.getElem_set_ne hnp]
    exact (List.getElem?_eq_some_iff.mp hat).2
  rwa [List.getElem_set_self, hq, List.set_set] at hswap

/-- The times in the heap. -/
def times (s : State α) (n : ℕ) : α := (s.heapAt n).tm

theorem times_heapSet {bt : Btime α} {n : ℕ} (hn : n < s.timeheap.length) :
    times (s.heapSet n bt) = Function.update (times s) n bt.tm := by
  funext j
  unfold times State.heapAt
  rw [heapSet_timeheap, List.getD_eq_getElem?_getD, List.getElem?_set]
  by_cases hj : n = j
  · rw [if_pos hj, ← hj, if_pos hn, Function.update_self]
    rfl
  · rw [if_neg hj, Function.update_of_ne (Ne.symm hj), ← List.getD_eq_getElem?_getD]

theorem Carried.move {bt : Btime α} {n₀ n p : ℕ} {s₀ : State α} (h : Carried bt n₀ s₀ n s)
    (hp : p < s.timeheap.length) (hnp : n ≠ p) :
    Carried bt n₀ s₀ p (s.heapSet n (s.heapAt p)) where
  same := h.same.trans (heapSet_same _ _ _)
  lt := by rwa [heapSet_timeheap, List.length_set]
  perm := (heapSet_perm h.lt hp hnp).trans h.perm
  indexed := fun live hlive => (h.indexed live hlive).swap h.lt hp hnp

variable [LinearOrder α]

/-- The heap is in order. -/
def Sorted (s : State α) : Prop := Heap.Ordered (times s) s.timeheap.length

/-- The loop of `thraise` keeps what each of its rounds keeps. -/
theorem thraiseLoop_rule (bt : Btime α) {I : ℕ → State α → Prop}
    (hI : ∀ n s, 0 < n → bt.tm < times s (Heap.parent n) → I n s →
      I (Heap.parent n) (s.heapSet n (s.heapAt (Heap.parent n)))) (fuel : ℕ) :
    ∀ n s, n ≤ fuel → I n s → ∃ n' s', I n' s' ∧ (0 < n' → times s' (Heap.parent n') ≤ bt.tm) ∧
      thraiseLoop bt fuel n s = s'.heapSet n' bt := by
  induction fuel with
  | zero => exact fun n s hn h => ⟨n, s, h, fun h0 => by omega, rfl⟩
  | succ fuel ih =>
    intro n s hn h
    rw [thraiseLoop]
    simp only
    split_ifs with h0 hle
    · exact ⟨n, s, h, fun _ => hle, rfl⟩
    · have hp := Heap.parent_lt h0
      exact ih _ _ (by omega) (hI n s h0 (not_le.mp hle) h)
    · exact ⟨n, s, h, fun h0' => absurd h0' h0, rfl⟩

/-- The least child, for `thlower`. -/
theorem thlower_child {n : ℕ} (s : State α) (h : 2 * n + 1 < s.timeheap.length) :
    ∃ c, (if 2 * n + 1 + 1 < s.timeheap.length ∧
        (s.heapAt (2 * n + 1 + 1)).tm < (s.heapAt (2 * n + 1)).tm then 2 * n + 1 + 1 else 2 * n + 1) = c ∧
      0 < c ∧ c < s.timeheap.length ∧ Heap.parent c = n ∧
      ∀ i < s.timeheap.length, 0 < i → Heap.parent i = n → times s c ≤ times s i := by
  have hchild : ∀ i, 0 < i → Heap.parent i = n → i = 2 * n + 1 ∨ i = 2 * n + 1 + 1 := by
    intro i h0 hi
    unfold Heap.parent at hi
    omega
  refine ⟨_, rfl, ?_⟩
  unfold times
  split_ifs with hc
  · refine ⟨by omega, hc.1, by unfold Heap.parent; omega, fun i hi h0 hpi => ?_⟩
    rcases hchild i h0 hpi with rfl | rfl
    · exact hc.2.le
    · exact le_rfl
  · refine ⟨by omega, h, by unfold Heap.parent; omega, fun i hi h0 hpi => ?_⟩
    rcases hchild i h0 hpi with rfl | rfl
    · exact le_rfl
    · exact not_lt.mp fun hlt => hc ⟨hi, hlt⟩

/-- So does that of `thlower`. -/
theorem thlowerLoop_rule (bt : Btime α) {I : ℕ → State α → Prop}
    (hI : ∀ n c s, 0 < c → c < s.timeheap.length → Heap.parent c = n →
      (∀ i < s.timeheap.length, 0 < i → Heap.parent i = n → times s c ≤ times s i) →
      times s c ≤ bt.tm → I n s → I c (s.heapSet n (s.heapAt c))) (fuel : ℕ) :
    ∀ n s, s.timeheap.length ≤ n + fuel → I n s → ∃ n' s', I n' s' ∧
      (∀ i < s'.timeheap.length, 0 < i → Heap.parent i = n' → bt.tm ≤ times s' i) ∧
      thlowerLoop bt fuel n s = s'.heapSet n' bt := by
  induction fuel with
  | zero =>
    refine fun n s hn h => ⟨n, s, h, fun i hi h0 hp => ?_, rfl⟩
    have := Heap.parent_lt h0
    omega
  | succ fuel ih =>
    intro n s hn h
    rw [thlowerLoop]
    simp only
    by_cases hlen : 2 * n + 1 ≥ s.timeheap.length
    · rw [if_pos hlen]
      refine ⟨n, s, h, fun i hi h0 hp => ?_, rfl⟩
      unfold Heap.parent at hp
      omega
    · rw [if_neg hlen]
      obtain ⟨c, hceq, hc0, hc, hcn, hleast⟩ := thlower_child s (not_le.mp hlen)
      rw [hceq]
      split_ifs with hgt
      · exact ⟨n, s, h, fun i hi h0 hp => hgt.le.trans (hleast i hi h0 hp), rfl⟩
      · have hlt := Heap.parent_lt hc0
        refine ih c _ ?_ (hI n c s hc0 hc hcn hleast (not_lt.mp hgt) h)
        rw [heapSet_timeheap, List.length_set]
        omega

theorem thraise_spec (bt : Btime α) {n : ℕ} (hn : n < s.timeheap.length) :
    Placed bt n s (thraise bt n s) ∧
      (Heap.Raising (times s) s.timeheap.length n bt.tm → Sorted (thraise bt n s)) := by
  obtain ⟨n', s', ⟨hc, hr⟩, hdone, heq⟩ := thraiseLoop_rule bt
    (I := fun n' s' => Carried bt n s n' s' ∧ (Heap.Raising (times s) s.timeheap.length n bt.tm →
      Heap.Raising (times s') s'.timeheap.length n' bt.tm))
    (fun n' s' h0 hlt h => by
      have hp := Heap.parent_lt h0
      refine ⟨h.1.move (hp.trans h.1.lt) hp.ne', fun hr => ?_⟩
      rw [times_heapSet h.1.lt, heapSet_timeheap, List.length_set]
      exact (h.2 hr).move h0 h.1.lt hlt) n n s le_rfl ⟨.refl hn, fun h => h⟩
  unfold thraise
  rw [heq]
  refine ⟨hc.placed, fun h => ?_⟩
  unfold Sorted
  rw [times_heapSet hc.lt, heapSet_timeheap, List.length_set]
  exact (hr h).done hdone

theorem thlower_spec (bt : Btime α) {n : ℕ} (hn : n < s.timeheap.length) :
    Placed bt n s (thlower bt n s) ∧
      (Heap.Lowering (times s) s.timeheap.length n bt.tm → Sorted (thlower bt n s)) := by
  obtain ⟨n', s', ⟨hc, hr⟩, hdone, heq⟩ := thlowerLoop_rule bt
    (I := fun n' s' => Carried bt n s n' s' ∧ (Heap.Lowering (times s) s.timeheap.length n bt.tm →
      Heap.Lowering (times s') s'.timeheap.length n' bt.tm))
    (fun n' c s' hc0 hc hcn hleast hle h => by
      have hlt := hcn ▸ Heap.parent_lt hc0
      refine ⟨h.1.move hc hlt.ne, fun hr => ?_⟩
      rw [times_heapSet h.1.lt, heapSet_timeheap, List.length_set]
      exact (h.2 hr).move hc hc0 hcn hleast hle) s.timeheap.length n s (by omega)
    ⟨.refl hn, fun h => h⟩
  unfold thlower
  rw [heq]
  refine ⟨hc.placed, fun h => ?_⟩
  unfold Sorted
  rw [times_heapSet hc.lt, heapSet_timeheap, List.length_set]
  exact (hr h).done hdone

theorem thadjust_spec (bt : Btime α) {n : ℕ} (hn : n < s.timeheap.length) :
    Placed bt n s (thadjust bt n s) ∧ (Sorted s → Sorted (thadjust bt n s)) := by
  unfold thadjust
  split_ifs with hup
  · obtain ⟨hplaced, hsorted⟩ := thraise_spec bt hn
    exact ⟨hplaced, fun h => hsorted (h.raising hup.1 hup.2)⟩
  · obtain ⟨hplaced, hsorted⟩ := thlower_spec bt hn
    exact ⟨hplaced, fun h => hsorted (h.lowering fun h0 => not_lt.mp fun hlt => hup ⟨h0, hlt⟩)⟩

end Loops

section Updates

variable [Field α] [LinearOrder α] {m : ℕ × Bytes → Option ℕ}

/-- `updbtime` puts the entry of a bucket where it belongs. -/
theorem updbtime_spec (cf : Config α) {bk : ℕ} (h : Indexed s live) (hbk : live bk) :
    SameBut s (updbtime cf bk s) ∧ Indexed (updbtime cf bk s) live ∧
      (Sorted s → Sorted (updbtime cf bk s)) ∧
      ∀ e ∈ (updbtime cf bk s).timeheap, e.bk = bk ∧ e.tm = btime cf (s.mem bk) ∨ e ∈ s.timeheap ∧ e.bk ≠ bk := by
  obtain ⟨n, -, hn, -, -⟩ := h.entry hbk
  unfold updbtime
  simp only [hn]
  rw [if_neg (by omega), Int.toNat_natCast]
  obtain ⟨hlt, hidx⟩ := h.rekey { bk := bk, tm := btime cf (s.mem bk) } hbk hn
  obtain ⟨hplaced, hsorted⟩ := thadjust_spec { bk := bk, tm := btime cf (s.mem bk) } hlt
  refine ⟨hplaced.same, hplaced.indexed live hidx, hsorted, fun e he => ?_⟩
  obtain ⟨j, hj⟩ := List.mem_iff_getElem?.mp (hplaced.perm.mem_iff.mp he)
  rw [List.getElem?_set] at hj
  split_ifs at hj with hnj
  · cases hj
    exact .inl ⟨rfl, rfl⟩
  · refine .inr ⟨List.mem_iff_getElem?.mpr ⟨j, hj⟩, fun hek => ?_⟩
    have hpos := (h.pos j e hj).1
    rw [hek, hn] at hpos
    exact hnj (by exact_mod_cast hpos)

/-- The first time that it sees a bucket, it makes an entry for it. -/
theorem updbtime_new (cf : Config α) {bk : ℕ} (h : Indexed s live) (hbk : ¬ live bk)
    (hpos : (s.mem bk).thpos < 0) :
    SameBut s (updbtime cf bk s) ∧ (Indexed (updbtime cf bk s) fun b => live b ∨ b = bk) ∧
      (Sorted s → Sorted (updbtime cf bk s)) ∧
      ∀ e ∈ (updbtime cf bk s).timeheap, e.bk = bk ∧ e.tm = btime cf (s.mem bk) ∨ e ∈ s.timeheap ∧ e.bk ≠ bk := by
  unfold updbtime
  rw [if_pos hpos]
  obtain ⟨bt, hbt⟩ : ∃ bt : Btime α, bt = { bk := bk, tm := btime cf (s.mem bk) } := ⟨_, rfl⟩
  obtain ⟨rfl, htm⟩ : bt.bk = bk ∧ bt.tm = btime cf (s.mem bk) := by
    rw [hbt]
    exact ⟨rfl, rfl⟩
  rw [← htm]
  obtain ⟨hplaced, hsorted⟩ := thraise_spec (s := { s with timeheap := s.timeheap ++ [bt] }) bt
    (n := s.timeheap.length) (by simp)
  have hpush : SameBut s { s with timeheap := s.timeheap ++ [bt] } :=
    ⟨rfl, rfl, rfl, rfl, rfl, rfl, fun _ => ⟨_, rfl⟩⟩
  refine ⟨hpush.trans hplaced.same, hplaced.indexed _ (h.push hbk), fun hs => hsorted ?_, fun e he => ?_⟩
  · have hord : Heap.Ordered (times { s with timeheap := s.timeheap ++ [bt] }) s.timeheap.length := by
      refine Heap.Ordered.congr hs fun n hn => ?_
      unfold times State.heapAt
      rw [List.getD_eq_getElem?_getD, List.getElem?_append_left hn, ← List.getD_eq_getElem?_getD]
    have hraising := hord.push bt.tm
    have hlen : (s.timeheap ++ [bt]).length = s.timeheap.length + 1 := by simp
    rwa [← hlen] at hraising
  · rcases List.mem_or_eq_of_mem_set (hplaced.perm.mem_iff.mp he) with hmem | rfl
    · rcases List.mem_append.mp hmem with hmem | hmem
      · refine .inr ⟨hmem, fun hek => hbk ?_⟩
        obtain ⟨j, hj⟩ := List.mem_iff_getElem?.mp hmem
        exact hek ▸ (h.pos j e hj).2
      · rw [List.mem_singleton.mp hmem]
        exact .inl ⟨rfl, rfl⟩
    · exact .inl ⟨rfl, rfl⟩

/-- The entry of a bucket is taken out; the last one takes its place. -/
theorem thremove_spec {bk : ℕ} (h : Indexed s live) (hbk : live bk) :
    SameBut s (thremove (s.mem bk).thpos s) ∧
      (Indexed (thremove (s.mem bk).thpos s) fun b => live b ∧ b ≠ bk) ∧
      (Sorted s → Sorted (thremove (s.mem bk).thpos s)) ∧
      ∀ e ∈ (thremove (s.mem bk).thpos s).timeheap, e ∈ s.timeheap := by
  obtain ⟨n, e, hn, he, hek⟩ := h.entry hbk
  have hlt := (List.getElem?_eq_some_iff.mp he).1
  have hdrop : SameBut s { s with timeheap := s.timeheap.dropLast } :=
    ⟨rfl, rfl, rfl, rfl, rfl, rfl, fun _ => ⟨_, rfl⟩⟩
  have hord : Sorted s → Sorted { s with timeheap := s.timeheap.dropLast } := by
    intro hs
    refine Heap.Ordered.congr (hs.mono (by rw [List.length_dropLast]; omega)) fun j hj => ?_
    unfold times State.heapAt
    rw [List.length_dropLast] at hj
    rw [List.getD_eq_getElem?_getD, List.getElem?_dropLast, if_pos hj, ← List.getD_eq_getElem?_getD]
  unfold thremove
  simp only [hn, List.length_dropLast]
  rw [if_pos (by omega), Int.toNat_natCast]
  have hr := heapAt_eq (s := s) (show s.timeheap.length - 1 < s.timeheap.length by omega)
  split_ifs with hmid
  · have hnl : n < s.timeheap.length - 1 := by exact_mod_cast hmid
    obtain ⟨hplaced, hsorted⟩ := thadjust_spec (s := { s with timeheap := s.timeheap.dropLast })
      (s.heapAt (s.timeheap.length - 1)) (by rw [List.length_dropLast]; exact hnl)
    refine ⟨hdrop.trans hplaced.same, hplaced.indexed _ (h.pop hbk hn hnl hr),
      fun hs => hsorted (hord hs), fun e' he' => ?_⟩
    rcases List.mem_or_eq_of_mem_set (hplaced.perm.mem_iff.mp he') with hmem | rfl
    · exact List.mem_of_mem_dropLast hmem
    · exact List.mem_iff_getElem?.mpr ⟨_, hr⟩
  · -- the last entry is that of the bucket
    obtain rfl : n = s.timeheap.length - 1 := by omega
    refine ⟨hdrop, ⟨fun j e' he' => ?_, fun b hb => ?_⟩, hord, fun e' he' => List.mem_of_mem_dropLast he'⟩
    · rw [List.getElem?_dropLast] at he'
      split_ifs at he' with hj
      have hpos := h.pos j e' he'
      refine ⟨hpos.1, hpos.2, fun heq => ?_⟩
      rw [heq, hn] at hpos
      have := hpos.1
      omega
    · obtain ⟨j, e', he', hek'⟩ := h.all b hb.1
      have hjlen := (List.getElem?_eq_some_iff.mp he').1
      refine ⟨j, e', ?_, hek'⟩
      rw [List.getElem?_dropLast, if_pos, he']
      by_contra hj
      obtain rfl : j = s.timeheap.length - 1 := by omega
      rw [he, Option.some.injEq] at he'
      exact hb.2 (by rw [← hek', ← he', hek])

/-- `freebucket` takes a live bucket out of the table and out of the heap. -/
theorem freebucket_spec {k : ℕ × Bytes} {bk : ℕ} (htable : TableOk s m)
    (hheap : Indexed s fun b => ∃ k, m k = some b) (hbk : m k = some bk) :
    ∃ s', freebucket bk s = .ok (s', (s.mem bk).brim) ∧ TableOk s' (Function.update m k none) ∧
      (Indexed s' fun b => ∃ k', Function.update m k none k' = some b) ∧ s'.now = s.now ∧
      (∀ b, ∃ thpos, s'.mem b = { s.mem b with thpos := thpos }) ∧ (Sorted s → Sorted s') ∧
      ∀ e ∈ s'.timeheap, e ∈ s.timeheap := by
  obtain ⟨s₁, hdel, htable₁, hrest, -⟩ := hashdel_spec htable hbk
  have hmem : s₁.mem = s.mem := congrArg Prod.fst hrest
  have htimes : s₁.timeheap = s.timeheap := congrArg (fun r => r.2.2.1) hrest
  have hheap₁ : Indexed s₁ fun b => ∃ k, m k = some b :=
    hheap.congr htimes (fun _ _ => by rw [hmem]) fun _ => Iff.rfl
  obtain ⟨hsame, hheap₂, hsorted, hent⟩ := thremove_spec hheap₁ ⟨k, hbk⟩
  refine ⟨_, ?_, htable₁.congr hsame.table,
    hheap₂.congr rfl (fun _ _ => rfl) (htable.live_del hbk),
    hsame.now.trans (congrArg (fun r => r.2.2.2) hrest), ?_, fun hs => hsorted ?_, ?_⟩
  · unfold freebucket
    rw [hdel, ← hmem]
    rfl
  · rw [← hmem]
    exact hsame.mem
  · unfold Sorted times State.heapAt
    rw [htimes]
    exact hs
  · rw [← htimes]
    exact hent

end Updates

end Ashd.Ratequeue
