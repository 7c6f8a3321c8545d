import Ashd.Ratequeue.Model

/-!
# The table of buckets

`hashget` and `hashdel` implement a finite map from sources to buckets by a table with
linear probing that grows and shrinks with the number of buckets.

Main results:
* `rehash_spec`: the same buckets are in the new table.
* `hashget_spec`, `hashdel_spec`: what the two do to the map.
* `table_run`: from the empty table on.
-/

namespace Ashd.Ratequeue

open Probe

variable {α : Type*}

/-- What `srccmp` goes by. -/
def Source.key (src : Source) : ℕ × Bytes := (src.type, src.data)

theorem srccmp_iff {a b : Source} : srccmp a b = true ↔ a.key = b.key := by
  unfold srccmp Source.key Source.len
  rw [decide_eq_true_iff, Prod.mk.injEq]
  exact ⟨fun h => h.2, fun h => ⟨by rw [h.2], h⟩⟩

theorem home_lt (hashlen : ℕ) (src : Source) : home hashlen src < 2 ^ hashlen :=
  Nat.mod_lt _ (Nat.two_pow_pos _)

/-- The table is in order and holds the map `m`, with no regard to how full it is. -/
structure IndexOk (s : State α) (m : ℕ × Bytes → Option ℕ) : Prop where
  hashlen_ge : SBUCKETS ≤ s.hashlen
  hashlen_le : s.hashlen ≤ 30
  sbuckets : s.sbuckets = decide (s.hashlen ≤ SBUCKETS)
  hashed : Hashed (2 ^ s.hashlen) (fun bk => home s.hashlen (s.mem bk).id) (fun bk => (s.mem bk).id.key) s.buckets
  maps : ∀ k bk, m k = some bk ↔ Holds (2 ^ s.hashlen) s.buckets bk ∧ (s.mem bk).id.key = k
  count : s.nbuckets = (occupied (2 ^ s.hashlen) s.buckets).card
  fresh : ∀ bk, Holds (2 ^ s.hashlen) s.buckets bk → bk < s.fresh

/-- The table is in order and at most half full. -/
structure TableOk (s : State α) (m : ℕ × Bytes → Option ℕ) : Prop extends IndexOk s m where
  half : 2 * s.nbuckets ≤ 2 ^ s.hashlen

/-- The table of two states is the same. -/
structure SameTable (s s' : State α) : Prop where
  buckets : s'.buckets = s.buckets
  sbuckets : s'.sbuckets = s.sbuckets
  hashlen : s'.hashlen = s.hashlen
  nbuckets : s'.nbuckets = s.nbuckets
  fresh : s'.fresh = s.fresh
  id : ∀ bk, (s'.mem bk).id = (s.mem bk).id

theorem TableOk.congr {s s' : State α} {m : ℕ × Bytes → Option ℕ} (h : TableOk s m)
    (hs : SameTable s s') : TableOk s' m := by
  refine ⟨⟨?_, ?_, ?_, ?_, ?_, ?_, ?_⟩, ?_⟩
  · rw [hs.hashlen]
    exact h.hashlen_ge
  · rw [hs.hashlen]
    exact h.hashlen_le
  · rw [hs.hashlen, hs.sbuckets]
    exact h.sbuckets
  · simp only [hs.hashlen, hs.buckets, hs.id]
    exact h.hashed
  · simp only [hs.hashlen, hs.buckets, hs.id]
    exact h.maps
  · rw [hs.hashlen, hs.buckets, hs.nbuckets]
    exact h.count
  · rw [hs.hashlen, hs.buckets, hs.fresh]
    exact h.fresh
  · rw [hs.hashlen, hs.nbuckets]
    exact h.half

/-! ## Rehashing -/

section Rehash

variable {s : State α} {m : ℕ × Bytes → Option ℕ} {nlen : ℕ}

theorem occupied_succ {t : Slots ℕ} {n : ℕ} :
    (occupied (n + 1) t).card = (occupied n t).card + if (t n).isSome then 1 else 0 := by
  unfold occupied
  rw [Finset.range_add_one, Finset.filter_insert]
  split_ifs
  · rw [Finset.card_insert_of_notMem (by simp)]
  · rfl

theorem holds_succ {t : Slots ℕ} {n x : ℕ} :
    Holds (n + 1) t x ↔ t n = some x ∨ Holds n t x := by
  simp only [Holds, Nat.lt_succ_iff_lt_or_eq, or_and_right, exists_or, exists_eq_left]
  exact or_comm

/-- The first `pl` slots of the old table are in the new one. -/
theorem rehashLoop_spec (h : IndexOk s m) (hroom : s.nbuckets < 2 ^ nlen) (pl : ℕ) (hpl : pl ≤ 2 ^ s.hashlen) :
    Hashed (2 ^ nlen) (fun bk => home nlen (s.mem bk).id) (fun bk => (s.mem bk).id.key)
        (rehashLoop s nlen pl) ∧
      (∀ x, Holds (2 ^ nlen) (rehashLoop s nlen pl) x ↔ Holds pl s.buckets x) ∧
      (occupied (2 ^ nlen) (rehashLoop s nlen pl)).card = (occupied pl s.buckets).card := by
  induction pl with
  | zero => exact ⟨.empty, by simp [Holds, rehashLoop], by simp [occupied, rehashLoop]⟩
  | succ pl ih =>
    obtain ⟨hh, hx, hc⟩ := ih (by omega)
    rw [rehashLoop]
    cases hb : s.buckets pl with
    | none =>
      refine ⟨hh, fun x => ?_, ?_⟩
      · rw [hx, holds_succ, hb]
        simp
      · rw [hc, occupied_succ, hb]
        simp
    | some bk =>
      have hle : (occupied (pl + 1) s.buckets).card ≤ s.nbuckets := by
        rw [h.count]
        refine Finset.card_le_card fun i hi => ?_
        rw [mem_occupied] at hi ⊢
        exact ⟨by omega, hi.2⟩
      have hcard : (occupied (pl + 1) s.buckets).card = (occupied pl s.buckets).card + 1 := by
        rw [occupied_succ, hb]
        rfl
      obtain ⟨o, hoN, ho, hnone, hpath⟩ := exists_first_free
        (show (occupied (2 ^ nlen) (rehashLoop s nlen pl)).card < 2 ^ nlen by omega)
        (home_lt nlen (s.mem bk).id)
      simp only [ho]
      refine ⟨hh.insert hnone hpath fun y hy he => ?_, fun x => ?_, ?_⟩
      · obtain ⟨j, hj, hy⟩ := (hx y).mp hy
        have := h.hashed.keyed j (by omega) pl (by omega) y bk hy hb he
        omega
      · rw [holds_put hoN hnone, hx, holds_succ, hb, Option.some.injEq, eq_comm]
      · rw [occupied_put hoN hnone, hc, hcard]

/-- Everything but the table. -/
def State.rest (s : State α) : (ℕ → Bucket α) × ℕ × List (Btime α) × α :=
  (s.mem, s.fresh, s.timeheap, s.now)

theorem rehash_spec (h : IndexOk s m) (hn : SBUCKETS ≤ nlen) (hn' : nlen ≤ 30) (hne : nlen ≠ s.hashlen)
    (hroom : 2 * s.nbuckets ≤ 2 ^ nlen) :
    ∃ s', rehash nlen s = .ok s' ∧ TableOk s' m ∧ s'.rest = s.rest ∧ s'.nbuckets = s.nbuckets := by
  have hroom' : s.nbuckets < 2 ^ nlen := by
    have := Nat.two_pow_pos nlen
    omega
  obtain ⟨hh, hx, hc⟩ := rehashLoop_spec h hroom' (2 ^ s.hashlen) le_rfl
  have hnlen : (if nlen ≤ SBUCKETS then SBUCKETS else nlen) = nlen := by
    split_ifs <;> omega
  have hstatic : (s.sbuckets && decide (nlen ≤ SBUCKETS)) = false := by
    rw [h.sbuckets]
    have := h.hashlen_ge
    by_cases h1 : s.hashlen ≤ SBUCKETS <;> by_cases h2 : nlen ≤ SBUCKETS <;> simp [h1, h2]
    omega
  unfold rehash
  simp only [hnlen, hstatic]
  rw [if_neg (by omega), if_neg hne, if_neg (by simp)]
  refine ⟨_, rfl, ⟨⟨hn, hn', rfl, hh, fun k bk => ?_, ?_, fun bk hbk => h.fresh bk ((hx bk).mp hbk)⟩,
    hroom⟩, rfl, rfl⟩
  · rw [h.maps]
    exact and_congr_left' (hx bk).symm
  · rw [h.count]
    exact hc.symm

/-- Growing, when the table is more than half full. -/
theorem rehash_grow (h : IndexOk s m) (hroom : s.nbuckets ≤ 2 ^ s.hashlen) :
    rehash (s.hashlen + 1) s = .error .nomem ∧ s.hashlen = 30 ∨
      ∃ s', rehash (s.hashlen + 1) s = .ok s' ∧ TableOk s' m ∧ s'.rest = s.rest ∧
        s'.nbuckets = s.nbuckets := by
  have hge := h.hashlen_ge
  have hle := h.hashlen_le
  by_cases h30 : s.hashlen = 30
  · refine .inl ⟨?_, h30⟩
    unfold rehash
    simp only
    rw [if_neg (show ¬ s.hashlen + 1 ≤ SBUCKETS by omega), if_pos (by omega)]
  · refine .inr (rehash_spec h (by omega) (by omega) (by omega) ?_)
    rw [pow_succ]
    omega

/-- Shrinking, when it is at most an eighth full; the smallest table stays. -/
theorem rehash_shrink (h : IndexOk s m) (hroom : s.nbuckets ≤ 2 ^ (s.hashlen - 3)) :
    ∃ s', rehash (s.hashlen - 1) s = .ok s' ∧ TableOk s' m ∧ s'.rest = s.rest ∧
      s'.nbuckets = s.nbuckets := by
  have hge := h.hashlen_ge
  have hle := h.hashlen_le
  have hpow : 2 ^ (s.hashlen - 1) = 4 * 2 ^ (s.hashlen - 3) := by
    rw [show s.hashlen - 1 = s.hashlen - 3 + 2 by unfold SBUCKETS at hge; omega, pow_add]
    omega
  by_cases h7 : s.hashlen = SBUCKETS
  · have hsize : 2 ^ s.hashlen = 2 ^ (s.hashlen - 1) * 2 := by
      rw [← pow_succ, Nat.sub_add_cancel (by unfold SBUCKETS at hge; omega)]
    refine ⟨s, ?_, ⟨h, by omega⟩, rfl, rfl⟩
    unfold rehash
    simp only
    rw [if_pos (show s.hashlen - 1 ≤ SBUCKETS by omega), if_neg (by decide), if_pos h7.symm]
  · exact rehash_spec h (by omega) (by omega) (by unfold SBUCKETS at hge; omega) (by omega)

end Rehash

/-! ## Finding and adding a bucket -/

section Hashget

variable {s : State α} {m : ℕ × Bytes → Option ℕ}

/-- The bucket that `hashget` looks for. -/
theorem lookup_eq (h : TableOk s m) (src : Source) : lookup src s = m src.key := by
  unfold lookup
  cases hs : search (2 ^ s.hashlen) (fun o => o.any fun bk => srccmp (s.mem bk).id src) s.buckets (2 ^ s.hashlen)
      (home s.hashlen src) with
  | some i =>
    obtain ⟨hi, hp, -⟩ := search_eq_some (home_lt s.hashlen src) le_rfl hs
    rw [Option.bind_some]
    cases hb : s.buckets i with
    | none => simp [hb] at hp
    | some bk =>
    rw [hb, Option.any_some] at hp
    exact ((h.maps _ _).mpr ⟨⟨i, hi, hb⟩, srccmp_iff.mp hp⟩).symm
  | none =>
    rw [Option.bind_none, eq_comm, Option.eq_none_iff_forall_ne_some]
    intro bk hbk
    obtain ⟨⟨i, hi, hb⟩, hkey⟩ := (h.maps _ _).mp hbk
    have := search_eq_none (home_lt s.hashlen src) le_rfl hs i hi (dist_lt (home_lt s.hashlen src))
    rw [hb] at this
    simp [srccmp_iff.mpr hkey] at this

variable [Zero α]

/-- Putting a new bucket into the first free slot. -/
theorem indexOk_put (h : TableOk s m) {src : Source} (hm : m src.key = none) {i : ℕ} (hi : i < 2 ^ s.hashlen)
    (hnone : s.buckets i = none)
    (hpath : ∀ j < 2 ^ s.hashlen, Probe.dist (2 ^ s.hashlen) (home s.hashlen src) j < Probe.dist (2 ^ s.hashlen) (home s.hashlen src) i →
      s.buckets j ≠ none) :
    IndexOk
      { s with
        buckets := Function.update s.buckets i (some s.fresh), nbuckets := s.nbuckets + 1
        fresh := s.fresh + 1, mem := Function.update s.mem s.fresh (newBucket src s.now) }
      (Function.update m src.key (some s.fresh)) where
  hashlen_ge := h.hashlen_ge
  hashlen_le := h.hashlen_le
  sbuckets := h.sbuckets
  hashed := by
    have hold : ∀ x, Holds (2 ^ s.hashlen) s.buckets x →
        Function.update s.mem s.fresh (newBucket src s.now) x = s.mem x := fun x hx =>
      Function.update_of_ne (h.fresh x hx).ne _ _
    refine (h.hashed.congr fun x hx => ?_).insert hnone ?_ fun y hy he => ?_
    · simp only [hold x hx, and_self]
    · simpa [newBucket] using hpath
    · simp only [hold y hy, Function.update_self] at he
      have := (h.maps src.key y).mpr ⟨hy, he⟩
      rw [hm] at this
      cases this
  maps := by
    intro k bk
    refine Iff.trans ?_ (and_congr_left' (holds_put hi hnone bk).symm)
    by_cases hbk : bk = s.fresh
    · subst hbk
      have hne : ∀ k, m k ≠ some s.fresh := fun k hk => (h.fresh _ ((h.maps _ _).mp hk).1).false
      by_cases hk : k = src.key
      · simp [hk, newBucket]
      · simp [Function.update_of_ne hk, hne, newBucket, Ne.symm hk]
    · simp only [hbk, false_or, Function.update_of_ne hbk]
      by_cases hk : k = src.key
      · subst hk
        have hno := h.maps src.key bk
        rw [hm] at hno
        simp only [Function.update_self, Option.some.injEq, Ne.symm hbk, false_iff]
        exact fun hh => by simpa using hno.mpr hh
      · rw [Function.update_of_ne hk]
        exact h.maps k bk
  count := by
    rw [h.count]
    exact (occupied_put hi hnone).symm
  fresh := by
    intro bk hbk
    rcases (holds_put hi hnone bk).mp hbk with rfl | hbk
    · exact Nat.lt_succ_self _
    · exact (h.fresh bk hbk).trans (Nat.lt_succ_self _)

/-- `hashget` finds the bucket of a known source and makes one for a new one. -/
theorem hashget_spec (h : TableOk s m) (src : Source) :
    (∃ bk, m src.key = some bk ∧ hashget src s = .ok (bk, s)) ∨
      m src.key = none ∧
        (hashget src s = .error .nomem ∧ 2 ^ 29 ≤ s.nbuckets ∨
          ∃ s', hashget src s = .ok (s.fresh, s') ∧
            TableOk s' (Function.update m src.key (some s.fresh)) ∧
            s'.rest = (Function.update s.mem s.fresh (newBucket src s.now), s.fresh + 1, s.timeheap, s.now) ∧
            s'.nbuckets = s.nbuckets + 1) := by
  unfold hashget
  simp only [lookup_eq h src]
  cases hm : m src.key with
  | some bk => exact .inl ⟨bk, rfl, rfl⟩
  | none =>
    refine .inr ⟨rfl, ?_⟩
    have hhalf := h.half
    have hcount := h.count
    have hpos : 0 < 2 ^ s.hashlen := Nat.two_pow_pos _
    obtain ⟨i, hi, hfree, hnone, hpath⟩ := exists_first_free
      (show (occupied (2 ^ s.hashlen) s.buckets).card < 2 ^ s.hashlen by omega) (home_lt s.hashlen src)
    have hput := indexOk_put h hm hi hnone hpath
    simp only [hfree]
    have hge := h.hashlen_ge
    have hsize : 2 ^ s.hashlen = 2 * 2 ^ (s.hashlen - 1) := by
      rw [← pow_succ', Nat.sub_add_cancel (by unfold SBUCKETS at hge; omega)]
    by_cases hgrow : s.nbuckets + 1 > 2 ^ (s.hashlen - 1)
    · simp only [if_pos hgrow]
      rcases rehash_grow hput (show s.nbuckets + 1 ≤ 2 ^ s.hashlen by omega) with ⟨he, h30⟩ | ⟨s', hs', hok, hr, hn⟩
      · left
        simp only at h30
        rw [h30] at hgrow
        exact ⟨by simp only [he]; rfl, by omega⟩
      · right
        simp only [hs']
        exact ⟨s', rfl, hok, hr, hn⟩
    · simp only [if_neg hgrow]
      exact .inr ⟨_, rfl, ⟨hput, show 2 * (s.nbuckets + 1) ≤ 2 ^ s.hashlen by omega⟩, rfl, rfl⟩

end Hashget

/-! ## Deleting a bucket -/

section Hashdel

variable {s : State α} {m : ℕ × Bytes → Option ℕ}

/-- `(h - i) & mask` is how far after `i` the slot `h & mask` comes. -/
theorem usub_mod {hashlen : ℕ} (hl : hashlen ≤ 32) (h : ℕ) {i : ℕ} (hi : i < 2 ^ hashlen) :
    usub h i % 2 ^ hashlen = Probe.dist (2 ^ hashlen) i (h % 2 ^ hashlen) := by
  unfold usub Probe.dist
  obtain ⟨c, hc⟩ := Nat.pow_dvd_pow 2 hl
  have hpos : 0 < c := by
    rcases Nat.eq_zero_or_pos c with rfl | hpos
    · simp at hc
    · exact hpos
  rw [Nat.mod_mod_of_dvd _ (Nat.pow_dvd_pow 2 hl), hc]
  generalize 2 ^ hashlen = N at hi
  obtain ⟨c, rfl⟩ : ∃ d, c = d + 1 := ⟨c - 1, by omega⟩
  have hdiv := Nat.div_add_mod h N
  have : h + N * (c + 1) - i = h % N + N - i + N * (h / N + c) := by
    rw [Nat.mul_add, Nat.mul_add, Nat.mul_one]
    omega
  rw [this, Nat.add_mul_mod_self_left]

theorem usub_home {hashlen : ℕ} (hl : hashlen ≤ 32) (src : Source) {i : ℕ} (hi : i < 2 ^ hashlen) :
    usub src.hash.toNat i % 2 ^ hashlen = Probe.dist (2 ^ hashlen) i (home hashlen src) :=
  usub_mod hl _ hi

theorem usub_wrap {hashlen : ℕ} (hl : hashlen ≤ 32) {i d : ℕ} (hi : i < 2 ^ hashlen)
    (hd : d < 2 ^ hashlen) : usub ((i + d) % 2 ^ hashlen) i % 2 ^ hashlen = d := by
  rw [usub_mod hl _ hi, Nat.mod_mod, dist_wrap hi hd]

/-- The loop moves buckets back up to the next free slot. -/
theorem shiftLoop_spec {key : ℕ → ℕ × Bytes} (hl : s.hashlen ≤ 32) {f : ℕ} (hf : f < 2 ^ s.hashlen)
    (n : ℕ) :
    ∀ {t : Slots ℕ} {i d : ℕ},
      Shifting (2 ^ s.hashlen) (fun bk => home s.hashlen (s.mem bk).id) key t i d →
      i < 2 ^ s.hashlen → 1 ≤ d → d ≤ 2 ^ s.hashlen → f ≠ i → t f = none →
      Probe.dist (2 ^ s.hashlen) ((i + d) % 2 ^ s.hashlen) f < n →
      ∃ t', shiftLoop s n i ((i + d) % 2 ^ s.hashlen) t = some t' ∧
        Hashed (2 ^ s.hashlen) (fun bk => home s.hashlen (s.mem bk).id) key t' ∧
        (∀ x, Holds (2 ^ s.hashlen) t' x ↔ Holds (2 ^ s.hashlen) t x) ∧
        (occupied (2 ^ s.hashlen) t').card = (occupied (2 ^ s.hashlen) t).card := by
  induction n with
  | zero => omega
  | succ n ih =>
    intro t i d hs hi hd hdN hfi hfree hn
    have hoN : (i + d) % 2 ^ s.hashlen < 2 ^ s.hashlen := Nat.mod_lt _ (by omega)
    rw [shiftLoop]
    cases ho : t ((i + d) % 2 ^ s.hashlen) with
    | none =>
      exact ⟨t, rfl, hs.done (fun bk => home_lt _ _) hi hd hdN ho, fun _ => Iff.rfl, rfl⟩
    | some sb =>
      have hdN' : d < 2 ^ s.hashlen := by
        rcases Nat.lt_or_ge d (2 ^ s.hashlen) with hlt | hge
        · exact hlt
        · rw [show d = 2 ^ s.hashlen by omega, Nat.add_mod_right, Nat.mod_eq_of_lt hi, hs.hole] at ho
          cases ho
      have hfo : (i + d) % 2 ^ s.hashlen ≠ f := by
        intro he
        rw [he, hfree] at ho
        cases ho
      rw [dist_next hoN hf hfo] at hn
      simp only [usub_home hl (s.mem sb).id hi, usub_wrap hl hi hdN']
      split_ifs with hmove
      · have hs' := hs.move (fun bk => home_lt _ _) hi hd hdN' rfl ho hmove
        obtain ⟨t', ht', hh, hx, hc⟩ := ih hs' hoN le_rfl (by omega) (Ne.symm hfo)
          (by rw [Function.update_of_ne (Ne.symm hfo), Function.update_of_ne hfi, hfree]) (by omega)
        exact ⟨t', ht', hh, fun x => (hx x).trans (holds_move hi hoN hs.hole ho x),
          hc.trans (occupied_move hi hoN hs.hole ho)⟩
      · have hs' := hs.skip (fun bk => home_lt _ _) hi ho (by tauto) (by omega)
        have hnext : ((i + d) % 2 ^ s.hashlen + 1) % 2 ^ s.hashlen = (i + (d + 1)) % 2 ^ s.hashlen := by
          rw [Nat.mod_add_mod, Nat.add_assoc]
        rw [hnext] at hn ⊢
        exact ih hs' hi (by omega) (by omega) hfi hfree (by omega)

/-- The slot that `hashdel` looks for. -/
theorem search_slot (h : TableOk s m) {bk : ℕ} (hbk : Holds (2 ^ s.hashlen) s.buckets bk) :
    ∃ i < 2 ^ s.hashlen, s.buckets i = some bk ∧
      search (2 ^ s.hashlen) (fun o => o.all fun sb => srccmp (s.mem sb).id (s.mem bk).id) s.buckets
        (2 ^ s.hashlen) (home s.hashlen (s.mem bk).id) = some i := by
  obtain ⟨i, hi, hb⟩ := hbk
  refine ⟨i, hi, hb, search_eq (home_lt _ _) hi ?_ fun j hj hlt => ?_⟩
  · rw [hb, Option.all_some]
    exact srccmp_iff.mpr rfl
  · cases ho : s.buckets j with
    | none => exact absurd ho (h.hashed.reach i hi bk hb j hj hlt)
    | some sb =>
      rw [Option.all_some, Bool.eq_false_iff]
      intro hcmp
      have := h.hashed.keyed j hj i hi sb bk ho hb (srccmp_iff.mp hcmp)
      rw [this] at hlt
      exact lt_irrefl _ hlt

/-- A live bucket is found by its source, and no other one is. -/
theorem TableOk.live_del (h : TableOk s m) {k : ℕ × Bytes} {bk : ℕ} (hbk : m k = some bk) (b : ℕ) :
    ((∃ k, m k = some b) ∧ b ≠ bk) ↔ ∃ k', Function.update m k none k' = some b := by
  constructor
  · rintro ⟨⟨k', hk'⟩, hne⟩
    refine ⟨k', ?_⟩
    rw [Function.update_of_ne, hk']
    rintro rfl
    rw [hbk, Option.some.injEq] at hk'
    exact hne hk'.symm
  · rintro ⟨k', hk'⟩
    have hkk : k' ≠ k := by
      rintro rfl
      rw [Function.update_self] at hk'
      cases hk'
    rw [Function.update_of_ne hkk] at hk'
    refine ⟨⟨k', hk'⟩, ?_⟩
    rintro rfl
    exact hkk (((h.maps _ _).mp hk').2.symm.trans ((h.maps _ _).mp hbk).2)

/-- `hashdel` takes a live bucket out of the map. -/
theorem hashdel_spec (h : TableOk s m) {k : ℕ × Bytes} {bk : ℕ} (hm : m k = some bk) :
    ∃ s', hashdel bk s = .ok s' ∧ TableOk s' (Function.update m k none) ∧ s'.rest = s.rest ∧
      s'.nbuckets + 1 = s.nbuckets := by
  obtain ⟨hholds, hkey⟩ := (h.maps k bk).mp hm
  obtain ⟨i, hi, hb, hsearch⟩ := search_slot h hholds
  have hle := h.hashlen_le
  have hhalf := h.half
  have hcount := h.count
  have hpos := Nat.two_pow_pos s.hashlen
  obtain ⟨f, hf, hfree⟩ := exists_free
    (show (occupied (2 ^ s.hashlen) s.buckets).card < 2 ^ s.hashlen by omega)
  have hfi : f ≠ i := by
    rintro rfl
    rw [hfree] at hb
    cases hb
  have hoN : (i + 1) % 2 ^ s.hashlen < 2 ^ s.hashlen := Nat.mod_lt _ hpos
  obtain ⟨t, ht, hh, hx, hc⟩ := shiftLoop_spec (by omega) hf _ (h.hashed.erase hi) hi le_rfl (by omega)
    hfi (by rw [Function.update_of_ne hfi, hfree]) (dist_lt hoN)
  have hclear := occupied_clear hi hb
  have hdel : IndexOk { s with buckets := t, nbuckets := s.nbuckets - 1 } (Function.update m k none) :=
    { hashlen_ge := h.hashlen_ge
      hashlen_le := h.hashlen_le
      sbuckets := h.sbuckets
      hashed := hh
      maps := by
        intro k' bk'
        refine Iff.trans ?_ (and_congr_left' ((hx bk').trans (holds_clear bk')).symm)
        by_cases hk : k' = k
        · simp only [hk, Function.update_self, reduceCtorEq, false_iff]
          rintro ⟨⟨j, hj, hji, hb'⟩, hkey'⟩
          exact hji (h.hashed.keyed j hj i hi bk' bk hb' hb (hkey'.trans hkey.symm))
        · rw [Function.update_of_ne hk, h.maps]
          refine and_congr_left fun hkey' => exists_congr fun j => and_congr_right fun hj => ?_
          refine ⟨fun hb' => ⟨?_, hb'⟩, fun hb' => hb'.2⟩
          rintro rfl
          rw [hb, Option.some.injEq] at hb'
          rw [← hkey', ← hb', hkey] at hk
          exact hk rfl
      count := show s.nbuckets - 1 = (occupied (2 ^ s.hashlen) t).card by omega
      fresh := fun bk' hbk' => by
        obtain ⟨j, hj, -, hb'⟩ := (holds_clear bk').mp ((hx bk').mp hbk')
        exact h.fresh bk' ⟨j, hj, hb'⟩ }
  unfold hashdel
  simp only [hsearch, ht]
  rw [if_neg (not_not.mpr hb)]
  split_ifs with hshrink
  · obtain ⟨s', hs', hok, hr, hn⟩ := rehash_shrink hdel hshrink
    refine ⟨s', hs', hok, hr, ?_⟩
    simp only at hn
    omega
  · exact ⟨_, rfl, ⟨hdel, show 2 * (s.nbuckets - 1) ≤ 2 ^ s.hashlen by omega⟩, rfl,
      show s.nbuckets - 1 + 1 = s.nbuckets by omega⟩

end Hashdel

/-! ## Runs -/

section Run

/-- The time does not matter for the table. -/
theorem TableOk.setNow {s : State α} {m : ℕ × Bytes → Option ℕ} (h : TableOk s m) (now : α) :
    TableOk { s with now := now } m :=
  h.congr ⟨rfl, rfl, rfl, rfl, rfl, fun _ => rfl⟩

variable [Zero α]

/-- The states that calls of `hashget` and of `hashdel` on live buckets lead to, at whatever
    times, with the live buckets: those that `hashget` has returned and that have not been
    deleted since, by their sources. -/
inductive TableRun : State α → (ℕ × Bytes → Option ℕ) → Prop
  | start (now : α) : TableRun (start now) fun _ => none
  | get {s s' m src bk} (now : α) : TableRun s m → hashget src { s with now := now } = .ok (bk, s') →
      TableRun s' (Function.update m src.key (some bk))
  | del {s s' m k bk} : TableRun s m → m k = some bk → hashdel bk s = .ok s' →
      TableRun s' (Function.update m k none)

theorem tableOk_start (now : α) : TableOk (start now) fun _ => none where
  hashlen_ge := le_rfl
  hashlen_le := show SBUCKETS ≤ 30 by decide
  sbuckets := rfl
  hashed := .empty
  maps := by simp [start, Holds]
  count := by simp [start, occupied]
  fresh := by simp [start, Holds]
  half := by simp [start]

theorem TableRun.ok {s : State α} {m : ℕ × Bytes → Option ℕ} (h : TableRun s m) : TableOk s m := by
  induction h with
  | start now => exact tableOk_start now
  | get now _ hget ih =>
    rename_i s s' m src bk _
    rcases hashget_spec (ih.setNow now) src with ⟨bk', hm, hok⟩ | ⟨hm, ⟨herr, -⟩ | ⟨s'', hok, hs, -, -⟩⟩
    · rw [hok] at hget
      cases hget
      rw [← hm, Function.update_eq_self]
      exact ih.setNow now
    · rw [herr] at hget
      cases hget
    · rw [hok] at hget
      cases hget
      exact hs
  | del _ hm hdel ih =>
    obtain ⟨s', hok, hs, -, -⟩ := hashdel_spec ih hm
    rw [hok] at hdel
    cases hdel
    exact hs

/-- **The table of buckets.** After any calls of `hashget` and of `hashdel` on live buckets:
    `hashget` returns the bucket of a known source and makes one for a new source, unless the
    memory does not suffice for a table of more than 2^30 slots; `hashdel` takes a live bucket
    out and no assertion fails; a live bucket is in exactly one slot, the slots from its home on
    are taken up to it, and nothing else is in the table; `nbuckets` is the number of slots that
    are taken, at most half of all. -/
theorem table_run {s : State α} {m : ℕ × Bytes → Option ℕ} (h : TableRun s m) :
    (∀ src bk, m src.key = some bk → hashget src s = .ok (bk, s)) ∧
    (∀ src, m src.key = none →
      hashget src s = .error .nomem ∧ 2 ^ 29 ≤ s.nbuckets ∨
        ∃ bk s', hashget src s = .ok (bk, s') ∧ (∀ k, m k ≠ some bk) ∧ (s'.mem bk).id = src ∧
          s'.nbuckets = s.nbuckets + 1) ∧
    (∀ k bk, m k = some bk →
      ∃ s', hashdel bk s = .ok s' ∧ s'.mem = s.mem ∧ s'.nbuckets + 1 = s.nbuckets) ∧
    (∀ k bk, m k = some bk →
      (s.mem bk).id.key = k ∧ ∃! i, i < 2 ^ s.hashlen ∧ s.buckets i = some bk) ∧
    (∀ i < 2 ^ s.hashlen, ∀ bk, s.buckets i = some bk →
      m (s.mem bk).id.key = some bk ∧
        ∃ d, i = (home s.hashlen (s.mem bk).id + d) % 2 ^ s.hashlen ∧
          ∀ e < d, s.buckets ((home s.hashlen (s.mem bk).id + e) % 2 ^ s.hashlen) ≠ none) ∧
    s.nbuckets = ((Finset.range (2 ^ s.hashlen)).filter fun i => (s.buckets i).isSome).card ∧
    2 * s.nbuckets ≤ 2 ^ s.hashlen := by
  have hok := h.ok
  refine ⟨fun src bk hm => ?_, fun src hm => ?_, fun k bk hm => ?_, fun k bk hm => ?_,
    fun i hi bk hb => ?_, hok.count, hok.half⟩
  · rcases hashget_spec hok src with ⟨bk', hm', hget⟩ | ⟨hm', -⟩
    · rw [hm, Option.some.injEq] at hm'
      rw [hm']
      exact hget
    · rw [hm] at hm'
      cases hm'
  · rcases hashget_spec hok src with ⟨bk', hm', -⟩ | ⟨-, herr | ⟨s', hget, -, hr, hn⟩⟩
    · rw [hm] at hm'
      cases hm'
    · exact .inl herr
    · refine .inr ⟨s.fresh, s', hget, fun k hk => ?_, ?_, hn⟩
      · exact lt_irrefl _ (hok.fresh _ ((hok.maps _ _).mp hk).1)
      · have hmem : s'.mem = Function.update s.mem s.fresh (newBucket src s.now) := congrArg Prod.fst hr
        rw [hmem, Function.update_self]
        rfl
  · obtain ⟨s', hdel, -, hr, hn⟩ := hashdel_spec hok hm
    exact ⟨s', hdel, congrArg Prod.fst hr, hn⟩
  · obtain ⟨⟨i, hi, hb⟩, hkey⟩ := (hok.maps k bk).mp hm
    exact ⟨hkey, i, ⟨hi, hb⟩, fun j hj => hok.hashed.keyed j hj.1 i hi bk bk hj.2 hb rfl⟩
  · refine ⟨(hok.maps _ _).mpr ⟨⟨i, hi, hb⟩, rfl⟩, ?_⟩
    have hh := home_lt s.hashlen (s.mem bk).id
    refine ⟨_, (wrap_dist hh hi).symm, fun e he => ?_⟩
    refine hok.hashed.reach i hi bk hb _ (Nat.mod_lt _ (Nat.two_pow_pos _)) ?_
    rw [dist_wrap hh (he.trans (dist_lt hh))]
    exact he

/-- Two sources with the same home slot, the last one. -/
def collidingSource (data : Bytes) : Source := { type := AF_INET, data := data, hash := 127 }

/-- When the bucket of the first is deleted, that of the second is still found. -/
theorem table_run_collision :
    ∃ (s : State ℕ) (m : ℕ × Bytes → Option ℕ) (bk : ℕ), TableRun s m ∧
      m (collidingSource (bytes "a")).key = none ∧
      m (collidingSource (bytes "b")).key = some bk ∧
      hashget (collidingSource (bytes "b")) s = .ok (bk, s) := by
  have hne : (collidingSource (bytes "a")).key ≠ (collidingSource (bytes "b")).key := by decide
  -- a new source, in a small table
  have hget : ∀ {s : State ℕ} {m : ℕ × Bytes → Option ℕ} (src : Source), TableRun s m →
      m src.key = none → s.nbuckets ≤ 1 → ∃ bk s', hashget src s = .ok (bk, s') ∧
        TableRun s' (Function.update m src.key (some bk)) ∧ s'.nbuckets = s.nbuckets + 1 := by
    intro s m src h hm hn
    rcases (table_run h).2.1 src hm with ⟨-, hbig⟩ | ⟨bk, s', hok, -, -, hn'⟩
    · omega
    · exact ⟨bk, s', hok, h.get s.now hok, hn'⟩
  obtain ⟨a, s₁, -, h₁, hn₁⟩ := hget (collidingSource (bytes "a")) (TableRun.start 0) rfl
    (Nat.zero_le 1)
  obtain ⟨b, s₂, -, h₂, -⟩ := hget (collidingSource (bytes "b")) h₁
    (by rw [Function.update_of_ne hne.symm]) hn₁.le
  have ha : Function.update (Function.update (fun _ => none) (collidingSource (bytes "a")).key (some a))
      (collidingSource (bytes "b")).key (some b) (collidingSource (bytes "a")).key = some a := by
    rw [Function.update_of_ne hne, Function.update_self]
  obtain ⟨s₃, hdel, -, -⟩ := (table_run h₂).2.2.1 _ a ha
  have h₃ := h₂.del ha hdel
  refine ⟨s₃, _, b, h₃, Function.update_self .., ?_, (table_run h₃).1 _ b ?_⟩ <;>
    rw [Function.update_of_ne hne.symm, Function.update_self]

end Run

end Ashd.Ratequeue
