import Mathlib.Data.List.Basic

/-!
# Runs of operations

`runOps step s ops` performs the operations `ops` one after the other and
collects their outputs. `runOps_rel` lifts what one operation does to whole runs:
a relation between the state before, the output and the state after that composes,
for states that satisfy an invariant. Where an operation may be impossible, a run is a `foldlM`, and
`foldlM_inv` lifts an invariant to it.
-/

namespace Ashd

variable {S O β : Type*}

/-- The outputs of a run, in order, and the state it ends in. -/
def runOps (step : S → O → List β × S) : S → List O → List β × S
  | s, [] => ([], s)
  | s, o :: os =>
    ((step s o).1 ++ (runOps step (step s o).2 os).1, (runOps step (step s o).2 os).2)

theorem runOps_concat (step : S → O → List β × S) (s : S) (os : List O) (o : O) :
    runOps step s (os ++ [o]) =
      ((runOps step s os).1 ++ (step (runOps step s os).2 o).1, (step (runOps step s os).2 o).2) := by
  induction os generalizing s with
  | nil =>
    rw [List.nil_append, runOps, runOps, runOps]
    rw [List.append_nil, List.nil_append]
  | cons o' os ih =>
    rw [List.cons_append, runOps, ih, runOps]
    rw [List.append_assoc]

/-- If `R s out s'` says what one operation does from any state in `I`, and `R` composes,
    then it says what a run does. -/
theorem runOps_rel {step : S → O → List β × S} (I : S → Prop) (R : S → List β → S → Prop)
    (hrefl : ∀ s, I s → R s [] s)
    (htrans : ∀ a b c t t', R a t b → R b t' c → R a (t ++ t') c)
    (hI : ∀ s o, I s → I (step s o).2)
    (hstep : ∀ s o, I s → R s (step s o).1 (step s o).2) {s : S} (hs : I s) (ops : List O) :
    R s (runOps step s ops).1 (runOps step s ops).2 := by
  induction ops generalizing s with
  | nil => exact hrefl s hs
  | cons o ops ih => exact htrans _ _ _ _ _ (hstep s o hs) (ih (hI s o hs))

/-- What every step that is possible keeps holds after a run. -/
theorem foldlM_inv {step : S → O → Option S} (I : S → Prop)
    (hstep : ∀ s o s', I s → step s o = some s' → I s') {s s' : S} (hs : I s) {ops : List O}
    (h : ops.foldlM step s = some s') : I s' := by
  induction ops generalizing s with
  | nil =>
    cases h
    exact hs
  | cons o ops ih =>
    rw [List.foldlM_cons] at h
    obtain ⟨t, ht, h⟩ := Option.bind_eq_some_iff.mp h
    exact ih (hstep s o t hs ht) h

end Ashd
