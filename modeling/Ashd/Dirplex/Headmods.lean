import Ashd.Common.Keyed
import Ashd.Patplex.Model
import Ashd.Dirplex.Model

/-!
# `set` and `xset`

The header modifications of a stanza, in `patplex` and in `dirplex`. Both remove a header, and
append it with its value, for each of the lines.

Main results:
* `execmatch_headers`, `handle_request`: what is passed on has had its headers put in.
* `set_effective_iff`: when that has the effect of the lines.
-/

namespace Ashd.Dirplex

/-- The name of a header, for comparisons. -/
def headerKey (h : Bytes × Bytes) : Bytes := fold h.1

/-- The lines `mods` of a stanza have made `req'` of `req`, and have had their effect: looking up
    a header that they name gives a value that they give it, no header with such a name is left of
    those of the request, and the others are as they were. -/
structure SetEffective (mods : List (Bytes × Bytes)) (req req' : Hthead) : Prop where
  value : ∀ mod ∈ mods, ∃ mod' ∈ mods, strcaseeq mod'.1 mod.1 = true ∧ getheader req' mod.1 = some mod'.2
  origin : ∃ kept added, req'.headers = kept ++ added ∧ kept.Sublist req.headers ∧ added.Sublist mods ∧
    ∀ h ∈ kept, ∀ mod ∈ mods, strcaseeq h.1 mod.1 = false
  others : (req'.headers.filter fun h => mods.all fun mod => !strcaseeq h.1 mod.1) =
    req.headers.filter fun h => mods.all fun mod => !strcaseeq h.1 mod.1

/-- The request has no header more often than the lines name it. -/
def NotRepeated (mods : List (Bytes × Bytes)) (req : Hthead) : Prop :=
  ∀ mod ∈ mods, (req.headers.countP fun h => strcaseeq h.1 mod.1) ≤ mods.countP fun h => strcaseeq h.1 mod.1

/-- The request that is passed on. -/
def Event.request : Event → Option Hthead
  | .forked _ req => some req
  | .passed _ _ _ req => some req
  | _ => none

/-! ## The modifications -/

theorem strcaseeq_eq_key (h mod : Bytes × Bytes) : strcaseeq h.1 mod.1 = (headerKey h == headerKey mod) := by
  rw [Bool.eq_iff_iff, strcaseeq_iff, beq_iff_eq]
  rfl

theorem headmods_eq (mods : List (Bytes × Bytes)) (req : Hthead) :
    mods.foldl (fun req head => headappheader (headrmheader req head.1) head.1 head.2) req =
      { req with headers := Keyed.puts headerKey req.headers mods } := by
  induction mods generalizing req with
  | nil => rfl
  | cons mod mods ih =>
    have hput : headappheader (headrmheader req mod.1) mod.1 mod.2 =
        { req with headers := Keyed.put headerKey req.headers mod } := by
      unfold headappheader headrmheader Keyed.put
      simp only [strcaseeq_eq_key]
    rw [List.foldl_cons, ih, hput]
    rfl

theorem getheader_eq_lookup (req : Hthead) (mod : Bytes × Bytes) :
    getheader req mod.1 = (Keyed.lookup headerKey req.headers (headerKey mod)).map Prod.snd := by
  unfold getheader Keyed.lookup
  simp only [strcaseeq_eq_key]

theorem setEffective_iff_keyed (mods : List (Bytes × Bytes)) (req req' : Hthead) :
    SetEffective mods req req' ↔ Keyed.Effective headerKey req.headers mods req'.headers := by
  constructor
  · rintro ⟨hvalue, ⟨kept, added, heq, hkept, hadded, hnot⟩, hothers⟩
    have hnot' : ∀ h ∈ kept, ∀ mod ∈ mods, headerKey h ≠ headerKey mod := by
      intro h hh mod hmod
      have hno := hnot h hh mod hmod
      rw [strcaseeq_eq_key] at hno
      exact ne_of_beq_false hno
    refine ⟨⟨kept, added, heq, hkept, hadded, hnot'⟩, fun mod hmod => ?_, ?_⟩
    · obtain ⟨mod', -, -, hget⟩ := hvalue mod hmod
      rw [getheader_eq_lookup] at hget
      obtain ⟨h, hh, -⟩ := Option.map_eq_some_iff.mp hget
      have hkey : headerKey h = headerKey mod := by
        simpa using List.find?_some (p := fun y => headerKey y == headerKey mod) hh
      obtain hk | ha := List.mem_append.mp (heq ▸ List.mem_of_find?_eq_some hh)
      · exact absurd hkey (hnot' h hk mod hmod)
      · exact ⟨h, hadded.subset ha, hkey, hh⟩
    · simp only [strcaseeq_eq_key] at hothers
      exact hothers
  · rintro ⟨⟨kept, added, heq, hkept, hadded, hnot⟩, hfound, hothers⟩
    refine ⟨fun mod hmod => ?_, ⟨kept, added, heq, hkept, hadded, fun h hh mod hmod => ?_⟩, ?_⟩
    · obtain ⟨mod', hmod', hkey, hl⟩ := hfound mod hmod
      exact ⟨mod', hmod', strcaseeq_iff.mpr hkey, by rw [getheader_eq_lookup, hl]; rfl⟩
    · rw [strcaseeq_eq_key]
      exact beq_false_of_ne (hnot h hh mod hmod)
    · simp only [strcaseeq_eq_key]
      exact hothers

/-! ## The programs -/

theorem execmatch_headers {ρ : Type*} (mem : Patplex.Mem) (req : Hthead) (m : Patplex.Match ρ) :
    (Patplex.execmatch mem req m).headers = Keyed.puts headerKey req.headers m.pat.headers := by
  unfold Patplex.execmatch
  rw [headmods_eq]
  simp only
  congr 1
  cases m.pat.restpat with
  | some restpat => rfl
  | none => cases m.rmo <;> rfl

theorem dispatch_request {childhandle : Child → Hthead → ChildResult} {ch : Child} {req r : Hthead}
    {twd : Option Bytes} {e : Event} (he : e ∈ dispatch childhandle ch req twd) (hr : e.request = some r) : r = req := by
  cases ch with
  | notfound =>
    rw [dispatch, List.mem_singleton] at he
    subst he
    cases hr
  | declared path name =>
    rw [dispatch] at he
    cases hc : childhandle (.declared path name) req <;> rw [hc] at he <;>
      rw [show e = _ from List.mem_singleton.mp he] at hr <;> cases hr
    rfl

/-- What `handle` passes on: the request with its headers put in, and the file. -/
theorem handle_request {childhandle : Child → Hthead → ChildResult} {site : Site} {req r : Hthead}
    {path : Bytes} {pat : Pattern} {e : Event} (he : e ∈ site.handle childhandle req path pat)
    (hr : e.request = some r) :
    ∃ file, r = headappheader { req with headers := Keyed.puts headerKey req.headers pat.headers }
      (bytes "X-Ash-File") file := by
  unfold Site.handle at he
  rw [headmods_eq] at he
  extract_lets req' path' at he
  split at he
  · rw [List.mem_singleton.mp he] at hr
    cases hr
    exact ⟨path', rfl⟩
  · split at he
    · rw [undeclared, List.mem_singleton] at he
      rw [he] at hr
      cases hr
    · split at he
      · rw [List.mem_singleton.mp he] at hr
        cases hr
      · exact ⟨_, dispatch_request he hr⟩

/-- **The effect of `set` and `xset`.** In either program, the lines of a stanza have their effect
    on a request if and only if the request has no header more often than they name it. -/
theorem set_effective_iff {ρ : Type*} (mem : Patplex.Mem) (m : Patplex.Match ρ)
    (childhandle : Child → Hthead → ChildResult) (site : Site) (path : Bytes) (pat : Pattern) (req : Hthead) :
    (SetEffective m.pat.headers req (Patplex.execmatch mem req m) ↔ NotRepeated m.pat.headers req) ∧
      ∀ e ∈ site.handle childhandle req path pat, ∀ r, e.request = some r →
        ∃ (req' : Hthead) (file : Bytes), r = headappheader req' (bytes "X-Ash-File") file ∧
          (SetEffective pat.headers req req' ↔ NotRepeated pat.headers req) := by
  have hiff : ∀ (mods : List (Bytes × Bytes)) (req' : Hthead),
      req'.headers = Keyed.puts headerKey req.headers mods → (SetEffective mods req req' ↔ NotRepeated mods req) := by
    intro mods req' h
    unfold NotRepeated
    rw [setEffective_iff_keyed, h, Keyed.puts_effective_iff]
    simp only [strcaseeq_eq_key]
  refine ⟨hiff _ _ (execmatch_headers mem req m), fun e he r hr => ?_⟩
  obtain ⟨file, rfl⟩ := handle_request he hr
  exact ⟨_, file, rfl, hiff _ _ rfl⟩

/-- A header that the client has sent twice, and a line that sets it. -/
theorem set_ineffective :
    ∃ (mem : Patplex.Mem) (req : Hthead) (m : Patplex.Match Unit),
      m.pat.headers = [(bytes "X-Ash-User", bytes "-")] ∧
        getheader (Patplex.execmatch mem req m) (bytes "X-Ash-User") = some (bytes "root") ∧
          ¬ SetEffective m.pat.headers req (Patplex.execmatch mem req m) := by
  refine ⟨{}, { headers := [(bytes "X-Ash-User", bytes "me"), (bytes "x-ash-user", bytes "root")] },
    ⟨⟨true, 0⟩, { headers := [(bytes "X-Ash-User", bytes "-")], rules := [], handler := .reparse }, none, none⟩, rfl,
    by decide, fun h => ?_⟩
  obtain ⟨mod', hmod', -, hget⟩ := h.value _ (List.mem_singleton_self _)
  rw [List.mem_singleton.mp hmod'] at hget
  exact absurd hget (by decide)

end Ashd.Dirplex
