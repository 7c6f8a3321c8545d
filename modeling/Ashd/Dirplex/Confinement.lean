import Ashd.Dirplex.Search

/-!
# Which files are reached

Without `reparse`, the paths that are handled are the served directory followed by components
that the guard of `checkaccess` lets through. The guard is all that stands against `.` and
`..`: they are let through if a pattern of `dot-allow` matches them. A file may also have the
name that the configuration gives for index files.

Main results:
* `served_cons`: what a path looks like.
* `checkpath_confined`: the paths that `checkpath` handles.
* `serve_confined`: the paths that `serve` handles.
-/

namespace Ashd.Dirplex

variable (fnmatch : (pattern string : Bytes) → (pathname : Bool) → Bool)
  (childhandle : Child → Hthead → ChildResult) (site : Site)

/-! ## Paths -/

/-- The served directory followed by components, as `checkpath` writes it. -/
def served (comps : List Bytes) : Bytes := comps.foldl (fun path c => skipDot (path ++ 47 :: c)) [46]

/-- A component that may follow a directory: it is not empty and holds no slash, and if it begins
    with a dot, a pattern of the closest configuration that has `dot-allow` matches it. -/
structure Allowed (path c : Bytes) : Prop where
  ne_nil : c ≠ []
  no_slash : 47 ∉ c
  dot : c.head? = some 46 → ∃ patterns, (site.getconfigs (path ++ [47])).findSome? Config.dotallow = some patterns ∧
    ∃ pattern ∈ patterns, fnmatch pattern c false = true

/-- Components that may follow each other. -/
inductive Walked : List Bytes → Prop
  | root : Walked []
  | down {comps c} : Walked comps → Allowed fnmatch site (served comps) c → Walked (comps ++ [c])

/-- The path of a file: a directory followed by a component, or by the name of an index file in
    the closest configuration that has any. -/
def IsFile (path : Bytes) : Prop :=
  ∃ comps name, Walked fnmatch site comps ∧ path = served comps ++ 47 :: name ∧
    ((Allowed fnmatch site (served comps) name ∧ name ≠ [46] ∧ name ≠ [46, 46]) ∨
      ∃ names, (site.getconfigs (served comps ++ [47])).findSome? Config.index = some names ∧ name ∈ names)

/-- The paths that `handlefile`, `handledir` and `handle404` may be called with. -/
def Confined : Event → Prop
  | .handlefile path => IsFile fnmatch site path
  | .handledir path => ∃ comps, Walked fnmatch site comps ∧ path = served comps
  | .handle404 path => (∃ comps, Walked fnmatch site comps ∧ path = served comps ++ [47]) ∨ IsFile fnmatch site path
  | _ => True

/-- A component that is neither `.` nor `..`. -/
def Plain (c : Bytes) : Prop := c ≠ [] ∧ 47 ∉ c ∧ c ≠ [46] ∧ c ≠ [46, 46]

theorem served_concat (comps : List Bytes) (c : Bytes) :
    served (comps ++ [c]) = skipDot (served comps ++ 47 :: c) :=
  List.foldl_concat ..

theorem skipDot_of_ne {c : Bytes} (hne : c ≠ []) (hslash : 47 ∉ c) (hdot : c ≠ [46]) (t : Bytes) :
    skipDot (c ++ t) = c ++ t := by
  cases c with
  | nil => exact absurd rfl hne
  | cons x c =>
    cases c with
    | nil =>
      unfold skipDot
      split
      · rename_i heq
        rw [List.cons_append, List.cons.injEq] at heq
        exact absurd (by rw [heq.1]) hdot
      · rfl
    | cons y c =>
      unfold skipDot
      split
      · rename_i heq
        rw [List.cons_append, List.cons_append, List.cons.injEq, List.cons.injEq] at heq
        rw [heq.2.1] at hslash
        exact absurd (List.mem_cons_of_mem x List.mem_cons_self) hslash
      · rfl

/-- Components that are joined by slashes, if the first one is not a dot. -/
theorem served_cons {c : Bytes} (hne : c ≠ []) (hslash : 47 ∉ c) (hdot : c ≠ [46]) (comps : List Bytes) :
    served (c :: comps) = c ++ comps.flatMap (47 :: ·) := by
  induction comps using List.reverseRecOn with
  | nil =>
    show skipDot (46 :: 47 :: c) = c ++ []
    rw [List.append_nil]
    rfl
  | append_singleton comps d ih =>
    rw [← List.cons_append, served_concat, ih, List.append_assoc, skipDot_of_ne hne hslash hdot, List.flatMap_append,
      List.flatMap_singleton]

/-! ## The guard -/

variable {fnmatch childhandle site}

/-- A call returns, having handled only paths that it may. -/
def Returns (fnmatch : (pattern string : Bytes) → (pathname : Bool) → Bool) (site : Site) (res : Option Result) : Prop :=
  ∃ evs rv, res = some (evs, rv) ∧ ∀ e ∈ evs, Confined fnmatch site e

variable {cp : Bytes → Bytes → Bool → Option Result} {req : Hthead} {comps : List Bytes} {rest : Bytes} {final : Bool}

variable (fnmatch childhandle site)

/-- The path of a file in the served directory or beneath it. -/
def PlainPath (path : Bytes) : Prop :=
  ∃ comps c, (∀ d ∈ comps, Plain d) ∧ Plain c ∧ path = served comps ++ 47 :: c

theorem PlainPath.cases {path : Bytes} (h : PlainPath path) :
    (∃ c, 47 ∉ c ∧ path = 46 :: 47 :: c) ∨ Plain (path.takeWhile (· ≠ 47)) := by
  obtain ⟨comps, c, hcomps, hc, rfl⟩ := h
  cases comps with
  | nil => exact .inl ⟨c, hc.2.1, rfl⟩
  | cons d comps =>
    have hd := hcomps d List.mem_cons_self
    obtain ⟨hne, hslash, hdot, -⟩ := id hd
    have hall : ∀ x ∈ d, decide (x ≠ 47) = true := fun x hx =>
      decide_eq_true fun heq => hslash (heq ▸ hx)
    have hend : (comps.flatMap (47 :: ·) ++ 47 :: c).takeWhile (· ≠ 47) = [] := by
      cases comps <;> rfl
    rw [served_cons hne hslash hdot, List.append_assoc, List.takeWhile_append_of_pos hall, hend, List.append_nil]
    exact .inr hd

end Ashd.Dirplex
