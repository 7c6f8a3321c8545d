import Mathlib.Data.List.Basic
import Mathlib.Data.List.Infix
import Mathlib.Data.List.TakeWhile

/-!
# Regular expressions with groups

What an expression matches, and what its groups capture. Expressions are built from runs of
characters, sequences, alternatives and groups; where a string can be matched in one way only, the
rules of choice of an implementation do not matter.

Main results:
* `mem_run_iff`: `run` finds the matches at the beginning of a string.
* `regexec_eq_some`, `regexec_eq_none`: a whole string.
* `Matches.slice`: a group has captured what is at its offsets.
-/

namespace Ashd

/-- Regular expressions over `α`. `times p n` is `p{n}`, and `plus p` is `p+`. -/
inductive Regex (α : Type*)
  | lit (w : List α)
  | times (p : α → Bool) (n : ℕ)
  | plus (p : α → Bool)
  | seq (r t : Regex α)
  | alt (r t : Regex α)
  | group (n : ℕ) (r : Regex α)

namespace Regex

variable {α : Type*}

/-- One expression after the other. -/
def seqs : List (Regex α) → Regex α
  | [] => .lit []
  | [r] => r
  | r :: rs => .seq r (seqs rs)

/-- What a group has captured, and from where on. -/
structure Capture (α : Type*) where
  group : ℕ
  so : ℕ
  text : List α
  deriving DecidableEq

/-- The offset of the end. -/
def Capture.eo (c : Capture α) : ℕ := c.so + c.text.length

/-- An expression matches `w`, which begins at `pos`, and its groups capture `caps`. -/
def Matches : Regex α → ℕ → List α → List (Capture α) → Prop
  | .lit w', _, w, caps => w = w' ∧ caps = []
  | .times p n, _, w, caps => (w.length = n ∧ ∀ c ∈ w, p c = true) ∧ caps = []
  | .plus p, _, w, caps => (w ≠ [] ∧ ∀ c ∈ w, p c = true) ∧ caps = []
  | .seq r t, pos, w, caps =>
    ∃ u cu v cv, Matches r pos u cu ∧ Matches t (pos + u.length) v cv ∧ w = u ++ v ∧ caps = cu ++ cv
  | .alt r t, pos, w, caps => Matches r pos w caps ∨ Matches t pos w caps
  | .group n r, pos, w, caps => ∃ cs, Matches r pos w cs ∧ caps = ⟨n, pos, w⟩ :: cs

theorem matches_lit (w : List α) (pos : ℕ) : Matches (.lit w) pos w [] := ⟨rfl, rfl⟩

theorem matches_times {p : α → Bool} {n : ℕ} {w : List α}
    (h : w.length = n ∧ ∀ c ∈ w, p c = true) (pos : ℕ) : Matches (.times p n) pos w [] := ⟨h, rfl⟩

theorem matches_plus {p : α → Bool} {w : List α} (h : w ≠ [] ∧ ∀ c ∈ w, p c = true) (pos : ℕ) :
    Matches (.plus p) pos w [] := ⟨h, rfl⟩

theorem Matches.group {r : Regex α} {pos : ℕ} {w : List α} {caps : List (Capture α)}
    (h : Matches r pos w caps) (n : ℕ) : Matches (.group n r) pos w (⟨n, pos, w⟩ :: caps) :=
  ⟨caps, h, rfl⟩

theorem Matches.seqs {r t : Regex α} {rs : List (Regex α)} {pos : ℕ} {u v : List α}
    {cu cv : List (Capture α)} (hr : Matches r pos u cu)
    (hrs : Matches (seqs (t :: rs)) (pos + u.length) v cv) :
    Matches (seqs (r :: t :: rs)) pos (u ++ v) (cu ++ cv) := ⟨u, cu, v, cv, hr, hrs, rfl, rfl⟩

/-- A group has captured what is at its offsets. -/
theorem Matches.slice {r : Regex α} {pos : ℕ} {w : List α} {caps : List (Capture α)}
    (h : Matches r pos w caps) :
    ∀ c ∈ caps, ∃ pre post, w = pre ++ c.text ++ post ∧ c.so = pos + pre.length := by
  induction r generalizing pos w caps with
  | lit => simp [h.2]
  | times => simp [h.2]
  | plus => simp [h.2]
  | seq r t ihr iht =>
    obtain ⟨u, cu, v, cv, hr, ht, rfl, rfl⟩ := h
    intro c hc
    rcases List.mem_append.mp hc with hc | hc
    · obtain ⟨pre, post, rfl, hso⟩ := ihr hr c hc
      exact ⟨pre, post ++ v, by simp, hso⟩
    · obtain ⟨pre, post, rfl, hso⟩ := iht ht c hc
      exact ⟨u ++ pre, post, by simp, by rw [hso, List.length_append, Nat.add_assoc]⟩
  | alt r t ihr iht =>
    rcases h with h | h
    · exact ihr h
    · exact iht h
  | group n r ih =>
    obtain ⟨cs, hr, rfl⟩ := h
    intro c hc
    rcases List.mem_cons.mp hc with rfl | hc
    · exact ⟨[], [], by simp, rfl⟩
    · exact ih hr c hc

/-! ## Matching in one way only -/

/-- What follows a run does not go on with it. -/
def Ends (p : α → Bool) (v : List α) : Prop := ∀ c, v.head? = some c → p c = false

theorem ends_append {p q : α → Bool} {u : List α} (hu : u ≠ [] ∧ ∀ c ∈ u, q c = true)
    (hq : ∀ c, q c = true → p c = false) (v : List α) : Ends p (u ++ v) := by
  obtain ⟨c, u, rfl⟩ := List.exists_cons_of_ne_nil hu.1
  rintro _ ⟨⟩
  exact hq c (hu.2 c List.mem_cons_self)

/-- A run is taken apart from what follows it in one way. -/
theorem run_append_inj {p : α → Bool} {u u' v v' : List α} (hu : ∀ c ∈ u, p c = true)
    (hu' : ∀ c ∈ u', p c = true) (hv : Ends p v) (hv' : Ends p v') (h : u ++ v = u' ++ v') :
    u = u' ∧ v = v' := by
  have htake : ∀ {u v : List α}, (∀ c ∈ u, p c = true) → Ends p v →
      (u ++ v).takeWhile p = u := by
    intro u v hu hv
    rw [List.takeWhile_append_of_pos hu]
    cases v with
    | nil => rw [List.takeWhile_nil, List.append_nil]
    | cons c v =>
      have hc := hv c rfl
      rw [List.takeWhile_cons_of_neg (by simp [hc]), List.append_nil]
  have huu : u = u' := by rw [← htake hu hv, h, htake hu' hv']
  subst huu
  exact ⟨rfl, List.append_cancel_left h⟩

/-! ## Finding matches -/

variable [DecidableEq α]

/-- All matches at the beginning of `s`, which is at `pos`. -/
def run : Regex α → ℕ → List α → List (List α × List (Capture α))
  | .lit w, _, s => if List.IsPrefix w s then [(w, [])] else []
  | .times p n, _, s =>
    if (s.take n).length = n ∧ (s.take n).all p then [(s.take n, [])] else []
  | .plus p, _, s => (List.range (s.takeWhile p).length).map fun k => (s.take (k + 1), [])
  | .seq r t, pos, s =>
    (run r pos s).flatMap fun x =>
      (run t (pos + x.1.length) (s.drop x.1.length)).map fun y => (x.1 ++ y.1, x.2 ++ y.2)
  | .alt r t, pos, s => run r pos s ++ run t pos s
  | .group n r, pos, s => (run r pos s).map fun x => (x.1, ⟨n, pos, x.1⟩ :: x.2)

omit [DecidableEq α] in
/-- The beginnings of the run of characters that `plus` can take. -/
theorem take_takeWhile_iff (p : α → Bool) (w s : List α) :
    (∃ k < (s.takeWhile p).length, s.take (k + 1) = w) ↔
      w <+: s ∧ w ≠ [] ∧ ∀ c ∈ w, p c = true := by
  have htake : ∀ k ≤ (s.takeWhile p).length, s.take k = (s.takeWhile p).take k := by
    intro k hk
    conv_lhs => rw [← List.takeWhile_append_dropWhile (p := p) (l := s)]
    exact List.take_append_of_le_length hk
  constructor
  · rintro ⟨k, hk, rfl⟩
    refine ⟨List.take_prefix _ _, ?_, ?_⟩
    · rw [htake _ hk, Ne, List.take_eq_nil_iff, ← List.length_eq_zero_iff]
      omega
    · intro c hc
      rw [htake _ hk] at hc
      exact List.mem_takeWhile_imp (List.mem_of_mem_take hc)
  · rintro ⟨⟨t, rfl⟩, hne, hw⟩
    have hpos := List.length_pos_of_ne_nil hne
    refine ⟨w.length - 1, ?_, ?_⟩
    · rw [List.takeWhile_append_of_pos hw, List.length_append]
      omega
    · rw [Nat.sub_add_cancel hpos, List.take_left]

theorem mem_run_iff {r : Regex α} {pos : ℕ} {s w : List α} {caps : List (Capture α)} :
    (w, caps) ∈ run r pos s ↔ w <+: s ∧ Matches r pos w caps := by
  induction r generalizing pos s w caps with
  | lit w' =>
    unfold run Matches
    split_ifs with hw
    · rw [List.mem_singleton, Prod.mk.injEq]
      exact ⟨fun ⟨h1, h2⟩ => ⟨h1 ▸ hw, h1, h2⟩, fun ⟨_, h1, h2⟩ => ⟨h1, h2⟩⟩
    · exact ⟨fun h => absurd h List.not_mem_nil, fun ⟨h, h1, _⟩ => absurd (h1 ▸ h) hw⟩
  | times p n =>
    unfold run Matches
    split_ifs with hw
    · rw [List.mem_singleton, Prod.mk.injEq]
      constructor
      · rintro ⟨rfl, rfl⟩
        exact ⟨List.take_prefix _ _, ⟨hw.1, List.all_eq_true.mp hw.2⟩, rfl⟩
      · rintro ⟨h, ⟨hlen, -⟩, rfl⟩
        exact ⟨hlen ▸ List.prefix_iff_eq_take.mp h, rfl⟩
    · refine ⟨fun h => absurd h List.not_mem_nil, fun ⟨h, ⟨hlen, hp⟩, _⟩ => absurd ?_ hw⟩
      rw [← hlen, ← List.prefix_iff_eq_take.mp h]
      exact ⟨rfl, List.all_eq_true.mpr hp⟩
  | plus p =>
    unfold run Matches
    rw [List.mem_map, ← and_assoc, ← take_takeWhile_iff]
    constructor
    · rintro ⟨k, hk, heq⟩
      obtain ⟨hw, hc⟩ := Prod.mk.inj heq
      exact ⟨⟨k, List.mem_range.mp hk, hw⟩, hc.symm⟩
    · rintro ⟨⟨k, hk, rfl⟩, rfl⟩
      exact ⟨k, List.mem_range.mpr hk, rfl⟩
  | seq r t ihr iht =>
    unfold run Matches
    rw [List.mem_flatMap]
    constructor
    · rintro ⟨⟨u, cu⟩, hu, hv⟩
      obtain ⟨⟨v, cv⟩, hv, heq⟩ := List.mem_map.mp hv
      obtain ⟨⟨s', rfl⟩, hr⟩ := ihr.mp hu
      obtain ⟨hpre, ht⟩ := iht.mp hv
      obtain ⟨rfl, rfl⟩ := Prod.mk.inj heq
      rw [List.drop_left] at hpre
      exact ⟨(List.prefix_append_right_inj u).mpr hpre, u, cu, v, cv, hr, ht, rfl, rfl⟩
    · rintro ⟨hw, u, cu, v, cv, hr, ht, rfl, rfl⟩
      obtain ⟨s', rfl⟩ := hw
      refine ⟨(u, cu), ihr.mpr ⟨⟨v ++ s', by simp⟩, hr⟩, List.mem_map.mpr ⟨(v, cv), ?_, rfl⟩⟩
      refine iht.mpr ⟨⟨s', ?_⟩, ht⟩
      rw [List.append_assoc, List.drop_left]
  | alt r t ihr iht =>
    unfold run Matches
    rw [List.mem_append, ihr, iht, and_or_left]
  | group n r ih =>
    unfold run Matches
    rw [List.mem_map]
    constructor
    · rintro ⟨⟨u, cu⟩, hu, heq⟩
      obtain ⟨rfl, rfl⟩ := Prod.mk.inj heq
      obtain ⟨hw, hr⟩ := ih.mp hu
      exact ⟨hw, cu, hr, rfl⟩
    · rintro ⟨hw, cs, hr, rfl⟩
      exact ⟨(w, cs), ih.mpr ⟨hw, hr⟩, rfl⟩

/-- A match of the whole of a string, as with `^` and `$` around the expression. -/
def regexec (r : Regex α) (s : List α) : Option (List (Capture α)) :=
  ((run r 0 s).find? fun x => x.1 = s).map Prod.snd

theorem regexec_matches {r : Regex α} {s : List α} {caps : List (Capture α)}
    (h : regexec r s = some caps) : Matches r 0 s caps := by
  obtain ⟨⟨w, cs⟩, hfind, rfl⟩ := Option.map_eq_some_iff.mp h
  have hw := List.find?_some hfind
  simp only [decide_eq_true_eq] at hw
  subst hw
  exact (mem_run_iff.mp (List.mem_of_find?_eq_some hfind)).2

theorem regexec_eq_none {r : Regex α} {s : List α} :
    regexec r s = none ↔ ∀ caps, ¬ Matches r 0 s caps := by
  rw [regexec, Option.map_eq_none_iff, List.find?_eq_none]
  constructor
  · intro h caps hm
    have := h (s, caps) (mem_run_iff.mpr ⟨List.prefix_rfl, hm⟩)
    simp at this
  · rintro h ⟨w, caps⟩ hx
    simp only [decide_eq_true_eq]
    rintro rfl
    exact h caps (mem_run_iff.mp hx).2

/-- Where a string can be matched in one way only, that is what is found. -/
theorem regexec_eq_some {r : Regex α} {s : List α} {caps : List (Capture α)}
    (h : Matches r 0 s caps) (hone : ∀ caps', Matches r 0 s caps' → caps' = caps) :
    regexec r s = some caps := by
  cases hr : regexec r s with
  | none => exact absurd h (regexec_eq_none.mp hr caps)
  | some caps' => rw [hone caps' (regexec_matches hr)]

end Regex

end Ashd
