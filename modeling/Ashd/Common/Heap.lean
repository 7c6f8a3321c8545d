import Mathlib.Data.Finset.Range
import Mathlib.Logic.Function.Basic

/-!
# Binary heaps

The keys of a binary heap with `d` entries, the children of entry `n` being `2 * n + 1` and
`2 * n + 2`. An entry that changes is moved with a hole: `t` is the heap as it is, with
whatever there is in the hole at `n`, and `x` is the key that is to be put there, unless the
hole has to go further up or down.

Main results:
* `Raising.done`, `Raising.move`: the hole goes up.
* `Lowering.done`, `Lowering.move`: the hole goes down.
* `Ordered.head_le`: the first entry is the least.
-/

namespace Ashd.Heap

variable {κ : Type*} [LinearOrder κ]

def parent (n : ℕ) : ℕ := (n - 1) / 2

/-- Every entry is at most its children. -/
def Ordered (t : ℕ → κ) (d : ℕ) : Prop := ∀ n, 0 < n → n < d → t (parent n) ≤ t n

variable {t : ℕ → κ} {d n : ℕ} {x : κ}

theorem parent_lt (h : 0 < n) : parent n < n := by
  unfold parent
  omega

theorem parent_ne (h : 0 < n) : parent n ≠ n := (parent_lt h).ne

theorem Ordered.mono {d' : ℕ} (h : Ordered t d) (hd : d' ≤ d) : Ordered t d' :=
  fun n h0 hn => h n h0 (hn.trans_le hd)

/-- Only the entries of the heap matter. -/
theorem Ordered.congr {t' : ℕ → κ} (h : Ordered t d) (ht : ∀ n < d, t' n = t n) : Ordered t' d := by
  intro n h0 hn
  rw [ht n hn, ht _ ((parent_lt h0).trans hn)]
  exact h n h0 hn

theorem Ordered.head_le (h : Ordered t d) (hn : n < d) : t 0 ≤ t n := by
  induction n using Nat.strong_induction_on with
  | _ n ih =>
    rcases Nat.eq_zero_or_pos n with rfl | h0
    · exact le_rfl
    · exact (ih (parent n) (parent_lt h0) ((parent_lt h0).trans hn)).trans (h n h0 hn)

/-! ## The hole -/

/-- With `x` in the hole, all is in order but for the hole and its parent. -/
structure Raising (t : ℕ → κ) (d n : ℕ) (x : κ) : Prop where
  rest : ∀ i, 0 < i → i < d → i ≠ n → parent i ≠ n → t (parent i) ≤ t i
  below : ∀ c < d, 0 < c → parent c = n → x ≤ t c
  across : ∀ c < d, 0 < c → parent c = n → 0 < n → t (parent n) ≤ t c

/-- With `x` in the hole, all is in order but for the hole and its children. -/
structure Lowering (t : ℕ → κ) (d n : ℕ) (x : κ) : Prop where
  rest : ∀ i, 0 < i → i < d → i ≠ n → parent i ≠ n → t (parent i) ≤ t i
  above : 0 < n → t (parent n) ≤ x
  across : ∀ c < d, 0 < c → parent c = n → 0 < n → t (parent n) ≤ t c

/-- With `x` in the hole, all is in order. -/
theorem ordered_update (rest : ∀ i, 0 < i → i < d → i ≠ n → parent i ≠ n → t (parent i) ≤ t i)
    (above : 0 < n → t (parent n) ≤ x) (below : ∀ c < d, 0 < c → parent c = n → x ≤ t c) :
    Ordered (Function.update t n x) d := by
  intro i h0 hi
  by_cases hin : i = n
  · subst hin
    rw [Function.update_self, Function.update_of_ne (parent_ne h0)]
    exact above h0
  · rw [Function.update_of_ne hin]
    by_cases hpn : parent i = n
    · rw [hpn, Function.update_self]
      exact below i hi h0 hpn
    · rw [Function.update_of_ne hpn]
      exact rest i h0 hi hin hpn

theorem Raising.done (h : Raising t d n x) (hx : 0 < n → t (parent n) ≤ x) :
    Ordered (Function.update t n x) d :=
  ordered_update h.rest hx h.below

theorem Lowering.done (h : Lowering t d n x) (hx : ∀ c < d, 0 < c → parent c = n → x ≤ t c) :
    Ordered (Function.update t n x) d :=
  ordered_update h.rest h.above hx

/-- The parent of the hole comes down into it. -/
theorem Raising.move (h : Raising t d n x) (h0 : 0 < n) (hn : n < d) (hx : x < t (parent n)) :
    Raising (Function.update t n (t (parent n))) d (parent n) x := by
  have hp := parent_lt h0
  -- the entry above the one that comes down
  have hgrand : 0 < parent n → t (parent (parent n)) ≤ t (parent n) := fun hp0 =>
    h.rest _ hp0 (hp.trans hn) hp.ne ((parent_lt hp0).trans hp).ne
  refine ⟨fun i hi0 hi hip hpi => ?_, fun c hc hc0 hcp => ?_, fun c hc hc0 hcp hp0 => ?_⟩
  · have hin : i ≠ n := by
      rintro rfl
      exact hpi rfl
    rw [Function.update_of_ne hin]
    by_cases hpn : parent i = n
    · rw [hpn, Function.update_self]
      exact h.across i hi hi0 hpn h0
    · rw [Function.update_of_ne hpn]
      exact h.rest i hi0 hi hin hpn
  · by_cases hcn : c = n
    · rw [hcn, Function.update_self]
      exact hx.le
    · rw [Function.update_of_ne hcn]
      refine hx.le.trans ?_
      rw [← hcp]
      exact h.rest c hc0 hc hcn (by rw [hcp]; exact hp.ne)
  · rw [Function.update_of_ne ((parent_lt hp0).trans hp).ne]
    by_cases hcn : c = n
    · rw [hcn, Function.update_self]
      exact hgrand hp0
    · rw [Function.update_of_ne hcn]
      refine (hgrand hp0).trans ?_
      rw [← hcp]
      exact h.rest c hc0 hc hcn (by rw [hcp]; exact hp.ne)

/-- The least child of the hole comes up into it. -/
theorem Lowering.move {c : ℕ} (h : Lowering t d n x) (hc : c < d) (hc0 : 0 < c) (hcn : parent c = n)
    (hleast : ∀ i < d, 0 < i → parent i = n → t c ≤ t i) (hx : t c ≤ x) :
    Lowering (Function.update t n (t c)) d c x := by
  have hlt : n < c := hcn ▸ parent_lt hc0
  refine ⟨fun i hi0 hi hic hpi => ?_, fun _ => ?_, fun i hi hi0 hip _ => ?_⟩
  · by_cases hin : i = n
    · subst hin
      rw [Function.update_self, Function.update_of_ne (parent_ne hi0)]
      exact h.across c hc hc0 hcn hi0
    · rw [Function.update_of_ne hin]
      by_cases hpn : parent i = n
      · rw [hpn, Function.update_self]
        exact hleast i hi hi0 hpn
      · rw [Function.update_of_ne hpn]
        exact h.rest i hi0 hi hin hpn
  · rw [hcn, Function.update_self]
    exact hx
  · have hci : c < i := hip ▸ parent_lt hi0
    rw [hcn, Function.update_self, Function.update_of_ne (hlt.trans hci).ne']
    have := h.rest i hi0 hi (hlt.trans hci).ne' (by rw [hip]; exact hlt.ne')
    rwa [hip] at this

/-! ## Changing an entry -/

theorem Ordered.across (h : Ordered t d) :
    ∀ c < d, 0 < c → parent c = n → 0 < n → t (parent n) ≤ t c := by
  rintro c hc hc0 rfl hn0
  exact (h _ hn0 ((parent_lt hc0).trans hc)).trans (h c hc0 hc)

/-- The key of an entry becomes less than that of its parent. -/
theorem Ordered.raising (h : Ordered t d) (h0 : 0 < n) (hx : x < t (parent n)) : Raising t d n x where
  rest := fun i hi0 hi _ _ => h i hi0 hi
  below := fun c hc hc0 hcn => hx.le.trans (h.across c hc hc0 hcn h0)
  across := h.across

/-- It stays at least that of the parent. -/
theorem Ordered.lowering (h : Ordered t d) (hx : 0 < n → t (parent n) ≤ x) : Lowering t d n x where
  rest := fun i hi0 hi _ _ => h i hi0 hi
  above := hx
  across := h.across

/-- There is a new entry at the end. -/
theorem Ordered.push (h : Ordered t d) (x : κ) : Raising t (d + 1) d x where
  rest := fun i hi0 hi hin _ => h i hi0 (by omega)
  below := fun c hc hc0 hcn => by
    have := parent_lt hc0
    omega
  across := fun c hc hc0 hcn => by
    have := parent_lt hc0
    omega

end Ashd.Heap
