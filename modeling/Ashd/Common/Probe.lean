import Mathlib.Data.Finset.Card
import Mathlib.Data.Finset.Range
import Mathlib.Logic.Function.Basic
import Mathlib.Tactic.SplitIfs

/-!
# Open addressing with linear probing

A table of `N` slots in which every entry is looked for from its home slot on, going
around at the end. What makes that work is that all slots from the home slot of an entry
to the slot that it is in are taken. Deleting an entry makes a hole; entries after the
hole are then moved back into it, one after the other, until the next free slot.

Main results:
* `Hashed.insert`: an entry is put into the first free slot from its home on.
* `Shifting.move`, `Shifting.skip`, `Shifting.done`: moving entries back into the hole.
* `search_eq`: what a search finds.
-/

namespace Ashd.Probe

/-- The slots of a table; those from its size on are not used. -/
abbrev Slots (ι : Type*) := ℕ → Option ι

variable {ι κ : Type*} {N : ℕ}

/-! ## Going around -/

/-- How many slots after `i` the slot `j` comes. -/
def dist (N i j : ℕ) : ℕ := (j + N - i) % N

theorem dist_eq {i j : ℕ} (hi : i < N) (hj : j < N) :
    dist N i j = if i ≤ j then j - i else j + N - i := by
  unfold dist
  split_ifs with h
  · rw [show j + N - i = (j - i) + N by omega, Nat.add_mod_right, Nat.mod_eq_of_lt (by omega)]
  · exact Nat.mod_eq_of_lt (by omega)

theorem wrap_eq {i d : ℕ} (hi : i < N) (hd : d ≤ N) :
    (i + d) % N = if i + d < N then i + d else i + d - N := by
  split_ifs with h
  · exact Nat.mod_eq_of_lt h
  · rw [Nat.mod_eq_sub_mod (by omega), Nat.mod_eq_of_lt (by omega)]

theorem wrap_dist {i j : ℕ} (hi : i < N) (hj : j < N) : (i + dist N i j) % N = j := by
  have hd := dist_eq hi hj
  rw [wrap_eq hi (by rw [hd]; split_ifs <;> omega), hd]
  split_ifs <;> omega

theorem dist_wrap {i d : ℕ} (hi : i < N) (hd : d < N) : dist N i ((i + d) % N) = d := by
  rw [dist_eq hi (Nat.mod_lt _ (by omega)), wrap_eq hi hd.le]
  split_ifs <;> omega

theorem dist_self {i : ℕ} (hi : i < N) : dist N i i = 0 := by
  rw [dist_eq hi hi, if_pos le_rfl, Nat.sub_self]

theorem dist_lt {i j : ℕ} (hi : i < N) : dist N i j < N := Nat.mod_lt _ (by omega)

theorem dist_inj {i j k : ℕ} (hi : i < N) (hj : j < N) (hk : k < N)
    (h : dist N i j = dist N i k) : j = k := by
  rw [← wrap_dist hi hj, h, wrap_dist hi hk]

/-! ## Searching -/

/-- The first of the `n` slots from `i` on that satisfies `p`. -/
def search (N : ℕ) (p : Option ι → Bool) (t : Slots ι) : ℕ → ℕ → Option ℕ
  | 0, _ => none
  | n + 1, i => if p (t i) then some i else search N p t n ((i + 1) % N)

theorem dist_next {i j : ℕ} (hi : i < N) (hj : j < N) (h : i ≠ j) :
    dist N i j = dist N ((i + 1) % N) j + 1 := by
  have hn : (i + 1) % N < N := Nat.mod_lt _ (by omega)
  rw [dist_eq hi hj, dist_eq hn hj, wrap_eq hi (by omega)]
  split_ifs <;> omega

theorem search_eq_some {p : Option ι → Bool} {t : Slots ι} {n i j : ℕ} (hi : i < N) (hn : n ≤ N)
    (h : search N p t n i = some j) :
    j < N ∧ p (t j) = true ∧ ∀ k < N, dist N i k < dist N i j → p (t k) = false := by
  induction n generalizing i with
  | zero => simp [search] at h
  | succ n ih =>
    rw [search] at h
    split_ifs at h with hp
    · cases h
      refine ⟨hi, hp, fun k hk hlt => ?_⟩
      rw [dist_self hi] at hlt
      omega
    · obtain ⟨hj, hpj, hbefore⟩ := ih (Nat.mod_lt _ (by omega)) (by omega) h
      refine ⟨hj, hpj, fun k hk hlt => ?_⟩
      by_cases hik : i = k
      · rw [← hik]
        simpa using hp
      · have hij : i ≠ j := by
          rintro rfl
          exact hp hpj
        rw [dist_next hi hk hik, dist_next hi hj hij] at hlt
        exact hbefore k hk (by omega)

theorem search_eq_none {p : Option ι → Bool} {t : Slots ι} {n i : ℕ} (hi : i < N) (hn : n ≤ N)
    (h : search N p t n i = none) : ∀ k < N, dist N i k < n → p (t k) = false := by
  induction n generalizing i with
  | zero => omega
  | succ n ih =>
    rw [search] at h
    split_ifs at h with hp
    intro k hk hlt
    by_cases hik : i = k
    · rw [← hik]
      simpa using hp
    · rw [dist_next hi hk hik] at hlt
      exact ih (Nat.mod_lt _ (by omega)) (by omega) h k hk (by omega)

/-- What is somewhere in the table is found. -/
theorem search_isSome {p : Option ι → Bool} {t : Slots ι} {i j : ℕ} (hi : i < N) (hj : j < N)
    (hp : p (t j) = true) : (search N p t N i).isSome := by
  rw [Option.isSome_iff_ne_none]
  intro h
  rw [search_eq_none hi le_rfl h j hj (dist_lt hi)] at hp
  cases hp

theorem search_eq {p : Option ι → Bool} {t : Slots ι} {i j : ℕ} (hi : i < N) (hj : j < N)
    (hp : p (t j) = true) (h : ∀ k < N, dist N i k < dist N i j → p (t k) = false) :
    search N p t N i = some j := by
  obtain ⟨k, hk⟩ := Option.isSome_iff_exists.mp (search_isSome hi hj hp)
  obtain ⟨hkN, hpk, hbefore⟩ := search_eq_some hi le_rfl hk
  rw [hk, Option.some.injEq]
  refine dist_inj hi hkN hj (Nat.le_antisymm ?_ ?_)
  · by_contra hlt
    rw [hbefore j hj (by omega)] at hp
    cases hp
  · by_contra hlt
    rw [h k hkN (by omega)] at hpk
    cases hpk

/-! ## What is in the table -/

/-- `x` is in the table. -/
def Holds (N : ℕ) (t : Slots ι) (x : ι) : Prop := ∃ i < N, t i = some x

/-- The slots that are taken. -/
def occupied (N : ℕ) (t : Slots ι) : Finset ℕ := (Finset.range N).filter fun i => (t i).isSome

theorem mem_occupied {t : Slots ι} {i : ℕ} : i ∈ occupied N t ↔ i < N ∧ (t i).isSome := by
  simp [occupied]

theorem occupied_put {t : Slots ι} {i : ℕ} {x : ι} (hi : i < N) (h : t i = none) :
    (occupied N (Function.update t i (some x))).card = (occupied N t).card + 1 := by
  have : occupied N (Function.update t i (some x)) = insert i (occupied N t) := by
    ext j
    by_cases hj : j = i
    · simp [mem_occupied, hj, hi]
    · simp [mem_occupied, hj]
  rw [this, Finset.card_insert_of_notMem (by simp [mem_occupied, h])]

theorem occupied_clear {t : Slots ι} {i : ℕ} {x : ι} (hi : i < N) (h : t i = some x) :
    (occupied N (Function.update t i none)).card + 1 = (occupied N t).card := by
  have hmem : i ∈ occupied N t := by simp [mem_occupied, hi, h]
  have : occupied N (Function.update t i none) = (occupied N t).erase i := by
    ext j
    by_cases hj : j = i
    · simp [mem_occupied, hj]
    · simp [mem_occupied, hj]
  rw [this, Finset.card_erase_add_one hmem]

theorem exists_free {t : Slots ι} (h : (occupied N t).card < N) : ∃ i < N, t i = none := by
  by_contra hall
  push Not at hall
  have : occupied N t = Finset.range N := by
    ext i
    simp only [mem_occupied, Finset.mem_range, and_iff_left_iff_imp]
    exact fun hi => Option.isSome_iff_ne_none.mpr (hall i hi)
  rw [this, Finset.card_range] at h
  exact lt_irrefl N h

/-- Unless the table is full, there is a first free slot. -/
theorem exists_first_free {t : Slots ι} (h : (occupied N t).card < N) {i : ℕ} (hi : i < N) :
    ∃ o < N, search N Option.isNone t N i = some o ∧ t o = none ∧
      ∀ j < N, dist N i j < dist N i o → t j ≠ none := by
  obtain ⟨f, hf, hfree⟩ := exists_free h
  have hp : (t f).isNone = true := by rw [hfree]; rfl
  obtain ⟨o, ho⟩ := Option.isSome_iff_exists.mp (search_isSome hi hf hp)
  obtain ⟨hoN, hnone, hpath⟩ := search_eq_some hi le_rfl ho
  refine ⟨o, hoN, ho, Option.isNone_iff_eq_none.mp hnone, fun j hj hlt hn => ?_⟩
  have := hpath j hj hlt
  rw [hn] at this
  cases this

theorem holds_put {t : Slots ι} {i : ℕ} {x : ι} (hi : i < N) (h : t i = none) (y : ι) :
    Holds N (Function.update t i (some x)) y ↔ y = x ∨ Holds N t y := by
  constructor
  · rintro ⟨j, hj, hy⟩
    by_cases hji : j = i
    · subst hji
      rw [Function.update_self] at hy
      exact .inl (Option.some.inj hy).symm
    · rw [Function.update_of_ne hji] at hy
      exact .inr ⟨j, hj, hy⟩
  · rintro (rfl | ⟨j, hj, hy⟩)
    · exact ⟨i, hi, Function.update_self ..⟩
    · refine ⟨j, hj, ?_⟩
      rw [Function.update_of_ne, hy]
      rintro rfl
      rw [h] at hy
      cases hy

theorem holds_clear {t : Slots ι} {i : ℕ} (y : ι) :
    Holds N (Function.update t i none) y ↔ ∃ j < N, j ≠ i ∧ t j = some y := by
  constructor
  · rintro ⟨j, hj, hy⟩
    by_cases hji : j = i
    · rw [hji, Function.update_self] at hy
      cases hy
    · rw [Function.update_of_ne hji] at hy
      exact ⟨j, hj, hji, hy⟩
  · rintro ⟨j, hj, hji, hy⟩
    exact ⟨j, hj, by rw [Function.update_of_ne hji, hy]⟩

/-- Moving an entry to a free slot: the same entries are there, in as many slots. -/
theorem occupied_move {t : Slots ι} {i o : ℕ} {x : ι} (hi : i < N) (ho : o < N) (hfree : t i = none)
    (hx : t o = some x) :
    (occupied N (Function.update (Function.update t i (some x)) o none)).card = (occupied N t).card := by
  have hoi : o ≠ i := by
    rintro rfl
    rw [hfree] at hx
    cases hx
  have := occupied_put (x := x) hi hfree
  have := occupied_clear ho (show Function.update t i (some x) o = some x by
    rw [Function.update_of_ne hoi, hx])
  omega

theorem holds_move {t : Slots ι} {i o : ℕ} {x : ι} (hi : i < N) (ho : o < N) (hfree : t i = none)
    (hx : t o = some x) (y : ι) :
    Holds N (Function.update (Function.update t i (some x)) o none) y ↔ Holds N t y := by
  have hoi : o ≠ i := by
    rintro rfl
    rw [hfree] at hx
    cases hx
  rw [holds_clear]
  constructor
  · rintro ⟨j, hj, hjo, hy⟩
    by_cases hji : j = i
    · rw [hji, Function.update_self] at hy
      exact ⟨o, ho, hx.trans hy⟩
    · rw [Function.update_of_ne hji] at hy
      exact ⟨j, hj, hy⟩
  · rintro ⟨j, hj, hy⟩
    by_cases hjo : j = o
    · refine ⟨i, hi, hoi.symm, ?_⟩
      rw [Function.update_self, ← hx, ← hjo, hy]
    · refine ⟨j, hj, hjo, ?_⟩
      rw [Function.update_of_ne, hy]
      rintro rfl
      rw [hfree] at hy
      cases hy

/-! ## The invariant -/

section Invariant

variable {home : ι → ℕ} {key : ι → κ} {t : Slots ι}

/-- Every slot from the home slot of an entry up to the entry is taken, and no two slots
    hold entries of one key. -/
structure Hashed (N : ℕ) (home : ι → ℕ) (key : ι → κ) (t : Slots ι) : Prop where
  reach : ∀ s < N, ∀ x, t s = some x → ∀ j < N, dist N (home x) j < dist N (home x) s → t j ≠ none
  keyed : ∀ i < N, ∀ j < N, ∀ x y, t i = some x → t j = some y → key x = key y → i = j

/-- The same with a hole at `i` that the entries may have on their way which are at least
    `d` slots after it. -/
structure Shifting (N : ℕ) (home : ι → ℕ) (key : ι → κ) (t : Slots ι) (i d : ℕ) : Prop where
  hole : t i = none
  reach : ∀ s < N, ∀ x, t s = some x → ∀ j < N, dist N (home x) j < dist N (home x) s →
    t j ≠ none ∨ (j = i ∧ d ≤ dist N i s)
  keyed : ∀ i < N, ∀ j < N, ∀ x y, t i = some x → t j = some y → key x = key y → i = j

theorem Hashed.empty : Hashed N home key fun _ => none where
  reach := by simp
  keyed := by simp

/-- Only the entries that are in the table matter. -/
theorem Hashed.congr {home' : ι → ℕ} {key' : ι → κ} (h : Hashed N home key t)
    (hh : ∀ x, Holds N t x → home' x = home x ∧ key' x = key x) : Hashed N home' key' t where
  reach := by
    intro s hs x hx
    rw [(hh x ⟨s, hs, hx⟩).1]
    exact h.reach s hs x hx
  keyed := by
    intro i hi j hj x y hx hy
    rw [(hh x ⟨i, hi, hx⟩).2, (hh y ⟨j, hj, hy⟩).2]
    exact h.keyed i hi j hj x y hx hy

theorem Hashed.insert (h : Hashed N home key t) {x : ι} {i : ℕ} (hfree : t i = none)
    (hpath : ∀ j < N, dist N (home x) j < dist N (home x) i → t j ≠ none)
    (hnew : ∀ y, Holds N t y → key y ≠ key x) :
    Hashed N home key (Function.update t i (some x)) where
  reach := by
    intro s hs y hy j hj hlt
    by_cases hji : j = i
    · rw [hji, Function.update_self]
      exact Option.some_ne_none x
    rw [Function.update_of_ne hji]
    by_cases hsi : s = i
    · subst hsi
      rw [Function.update_self, Option.some.injEq] at hy
      subst hy
      exact hpath j hj hlt
    · rw [Function.update_of_ne hsi] at hy
      exact h.reach s hs y hy j hj hlt
  keyed := by
    intro a ha b hb y z hy hz hk
    by_cases hai : a = i <;> by_cases hbi : b = i
    · rw [hai, hbi]
    · rw [hai, Function.update_self, Option.some.injEq] at hy
      rw [Function.update_of_ne hbi] at hz
      exact absurd (hy ▸ hk.symm) (hnew z ⟨b, hb, hz⟩)
    · rw [hbi, Function.update_self, Option.some.injEq] at hz
      rw [Function.update_of_ne hai] at hy
      exact absurd (hz ▸ hk) (hnew y ⟨a, ha, hy⟩)
    · rw [Function.update_of_ne hai] at hy
      rw [Function.update_of_ne hbi] at hz
      exact h.keyed a ha b hb y z hy hz hk

/-- Taking an entry out leaves a hole. -/
theorem Hashed.erase (h : Hashed N home key t) {i : ℕ} (hi : i < N) :
    Shifting N home key (Function.update t i none) i 1 where
  hole := Function.update_self ..
  reach := by
    intro s hs x hx j hj hlt
    have hsi : s ≠ i := by
      rintro rfl
      rw [Function.update_self] at hx
      cases hx
    rw [Function.update_of_ne hsi] at hx
    by_cases hji : j = i
    · refine .inr ⟨hji, ?_⟩
      rw [dist_eq hi hs]
      split_ifs <;> omega
    · rw [Function.update_of_ne hji]
      exact .inl (h.reach s hs x hx j hj hlt)
  keyed := by
    intro a ha b hb x y hx hy hk
    have hai : a ≠ i := by
      rintro rfl
      rw [Function.update_self] at hx
      cases hx
    have hbi : b ≠ i := by
      rintro rfl
      rw [Function.update_self] at hy
      cases hy
    rw [Function.update_of_ne hai] at hx
    rw [Function.update_of_ne hbi] at hy
    exact h.keyed a ha b hb x y hx hy hk

variable (hhome : ∀ x, home x < N) {i d : ℕ} {x : ι}

include hhome

/-- At a free slot, no entry has the hole on its way any more. -/
theorem Shifting.done (h : Shifting N home key t i d) (hi : i < N) (hd : 1 ≤ d) (hdN : d ≤ N)
    (hfree : t ((i + d) % N) = none) : Hashed N home key t where
  keyed := h.keyed
  reach := by
    intro s hs y hy j hj hlt
    rcases h.reach s hs y hy j hj hlt with hne | ⟨rfl, hds⟩
    · exact hne
    -- the way from the hole to `s` goes through the free slot
    exfalso
    have hh := hhome y
    have hltN := dist_lt hj (j := s)
    have ho : (j + d) % N < N := Nat.mod_lt _ (by omega)
    have hos : (j + d) % N ≠ s := by
      intro he
      rw [he, hy] at hfree
      cases hfree
    have hoj : (j + d) % N ≠ j := by
      rw [wrap_eq hj hdN]
      split_ifs <;> omega
    have hpath : dist N (home y) ((j + d) % N) < dist N (home y) s := by
      rw [dist_eq hh hs, dist_eq hh hj] at hlt
      rw [dist_eq hj hs] at hds hltN
      rw [dist_eq hh ho, dist_eq hh hs]
      rw [wrap_eq hj hdN] at hos ⊢
      split_ifs at * <;> omega
    rcases h.reach s hs y hy _ ho hpath with hne | ⟨he, -⟩
    · exact hne hfree
    · exact hoj he

/-- An entry that has the hole on its way is moved into it. -/
theorem Shifting.move (h : Shifting N home key t i d) (hi : i < N) (hd : 1 ≤ d) (hdN : d < N)
    {o : ℕ} (ho : o = (i + d) % N) (hx : t o = some x)
    (hp : dist N i (home x) = 0 ∨ d < dist N i (home x)) :
    Shifting N home key (Function.update (Function.update t i (some x)) o none) o 1 := by
  have hoN : o < N := ho ▸ Nat.mod_lt _ (by omega)
  have hio : i ≠ o := by
    rw [ho, wrap_eq hi hdN.le]
    split_ifs <;> omega
  have hold : ∀ j, j ≠ i → j ≠ o →
      Function.update (Function.update t i (some x)) o none j = t j := fun j hji hjo => by
    rw [Function.update_of_ne hjo, Function.update_of_ne hji]
  have hnew : Function.update (Function.update t i (some x)) o none i = some x := by
    rw [Function.update_of_ne hio, Function.update_self]
  have hclear : Function.update (Function.update t i (some x)) o none o = none :=
    Function.update_self ..
  -- an entry has stayed where it was, or it is `x` and has come from `o`
  have hfrom : ∀ a, ∀ y, Function.update (Function.update t i (some x)) o none a = some y →
      a ≠ i ∧ a ≠ o ∧ t a = some y ∨ a = i ∧ y = x := by
    intro a y hy
    by_cases hao : a = o
    · rw [hao, hclear] at hy
      cases hy
    by_cases hai : a = i
    · rw [hai, hnew, Option.some.injEq] at hy
      exact .inr ⟨hai, hy.symm⟩
    · rw [hold a hai hao] at hy
      exact .inl ⟨hai, hao, hy⟩
  refine ⟨hclear, fun s hs y hy j hj hlt => ?_, fun a ha b hb y z hy hz hk => ?_⟩
  · rcases hfrom s y hy with ⟨hsi, hso, hy⟩ | ⟨rfl, rfl⟩
    · by_cases hjo : j = o
      · refine .inr ⟨hjo, ?_⟩
        rw [dist_eq hoN hs]
        split_ifs <;> omega
      · left
        by_cases hji : j = i
        · rw [hji, hnew]
          exact Option.some_ne_none x
        · rw [hold j hji hjo]
          exact (h.reach s hs y hy j hj hlt).resolve_right fun he => hji he.1
    · -- the way to the hole is the beginning of the way to `o`
      have hh := hhome y
      have hways : j ≠ s ∧ j ≠ o ∧ dist N (home y) j < dist N (home y) o := by
        rw [dist_eq hi hh] at hp
        rw [dist_eq hh hj, dist_eq hh hi] at hlt
        rw [dist_eq hh hj, dist_eq hh hoN]
        rw [wrap_eq hi hdN.le] at ho
        split_ifs at * <;> omega
      left
      rw [hold j hways.1 hways.2.1]
      exact (h.reach o hoN y hx j hj hways.2.2).resolve_right fun he => hways.1 he.1
  · rcases hfrom a y hy with ⟨hai, hao, hy₀⟩ | ⟨rfl, rfl⟩ <;>
      rcases hfrom b z hz with ⟨hbi, hbo, hz₀⟩ | ⟨rfl, rfl⟩
    · exact h.keyed a ha b hb y z hy₀ hz₀ hk
    · exact absurd (h.keyed a ha o hoN y z hy₀ hx hk) hao
    · exact absurd (h.keyed b hb o hoN z y hz₀ hx hk.symm) hbo
    · rfl

/-- An entry that does not have the hole on its way stays. -/
theorem Shifting.skip (h : Shifting N home key t i d) (hi : i < N)
    (hx : t ((i + d) % N) = some x) (hp : dist N i (home x) ≠ 0) (hp' : dist N i (home x) ≤ d) :
    Shifting N home key t i (d + 1) where
  hole := h.hole
  keyed := h.keyed
  reach := by
    intro s hs y hy j hj hlt
    rcases h.reach s hs y hy j hj hlt with hne | ⟨rfl, hds⟩
    · exact .inl hne
    refine .inr ⟨rfl, ?_⟩
    by_contra hnot
    have hso : s = (j + d) % N := by
      rw [← wrap_dist hi hs, show dist N j s = d by omega]
    rw [hso, hx, Option.some.injEq] at hy
    subst hy
    have hh := hhome x
    rw [dist_eq hi hh] at hp hp'
    rw [dist_eq hi hs] at hds hnot
    rw [dist_eq hh hi, dist_eq hh hs] at hlt
    split_ifs at * <;> omega

end Invariant

end Ashd.Probe
