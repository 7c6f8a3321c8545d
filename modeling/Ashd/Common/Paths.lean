import Mathlib.Data.List.Basic

/-!
# Paths

What a path is the name of, in a tree without links: where it starts, and the names on the way,
of which empty ones and dots do not count. An empty path is the name of nothing.

Main results:
* `names_join`: the names of two paths that are joined.
* `resolve_join`, `resolve_absolute`, `resolve_dot`: what a path is the name of from a directory.
-/

namespace Ashd.Paths

variable {α : Type*} [DecidableEq α] (sep dot : α)

/-- The names on a path. -/
def names (p : List α) : List (List α) := (p.splitOn sep).filter fun c => c ≠ [] ∧ c ≠ [dot]

/-- Where a path leads: from the root or from the current directory, and by which names. -/
structure Location (α : Type*) where
  absolute : Bool
  names : List (List α)
  deriving DecidableEq

/-- What a path is the name of. -/
def locate (p : List α) : Option (Location α) :=
  if p = [] then none else some ⟨p.head? = some sep, names sep dot p⟩

/-- What a path is the name of in the directory `dir`. -/
def resolve (dir p : List α) : Option (Location α) :=
  (locate sep dot dir).bind fun d =>
    (locate sep dot p).map fun l => if l.absolute then l else ⟨d.absolute, d.names ++ l.names⟩

variable {sep dot}

theorem names_join (p q : List α) : names sep dot (p ++ sep :: q) = names sep dot p ++ names sep dot q := by
  unfold names
  rw [List.splitOn_append_cons_self, List.filter_append]

theorem names_dot (h : dot ≠ sep) : names sep dot [dot] = [] := by
  unfold names
  rw [List.splitOn_eq_singleton (by simpa using h.symm)]
  simp

theorem locate_of_ne {p : List α} (h : p ≠ []) : locate sep dot p = some ⟨p.head? = some sep, names sep dot p⟩ :=
  if_neg h

/-- A path from a directory. -/
theorem resolve_join {dir p : List α} (hdir : dir ≠ []) (hp : p ≠ []) (hrel : p.head? ≠ some sep) :
    resolve sep dot dir p = locate sep dot (dir ++ sep :: p) := by
  unfold resolve
  rw [locate_of_ne hdir, locate_of_ne hp, locate_of_ne (by simp), names_join, List.head?_append_of_ne_nil _ hdir]
  simp [hrel]

theorem resolve_absolute {dir p : List α} (hdir : dir ≠ []) (habs : p.head? = some sep) :
    resolve sep dot dir p = locate sep dot p := by
  have hp : p ≠ [] := by
    rintro rfl
    cases habs
  unfold resolve
  rw [locate_of_ne hdir, locate_of_ne hp]
  simp [habs]

/-- A path from the current directory. -/
theorem resolve_dot (h : dot ≠ sep) (p : List α) : resolve sep dot [dot] p = locate sep dot p := by
  by_cases habs : p.head? = some sep
  · exact resolve_absolute (List.cons_ne_nil _ _) habs
  · unfold resolve
    rw [locate_of_ne (List.cons_ne_nil _ _), names_dot h]
    cases p with
    | nil => rfl
    | cons c p =>
      rw [locate_of_ne (List.cons_ne_nil _ _)]
      simp_all

theorem resolve_nil (dir : List α) : resolve sep dot dir [] = none := by
  unfold resolve
  cases locate sep dot dir <;> rfl

theorem resolve_from_nil (p : List α) : resolve sep dot [] p = none := rfl

end Ashd.Paths
