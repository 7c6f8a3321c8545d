import Mathlib.Data.Finset.Erase
import Mathlib.Data.Finset.Insert
import Mathlib.Data.List.Nodup
import Mathlib.Logic.Function.Basic
import Mathlib.Logic.Relation

/-!
# Coroutines

Routines are started and resumed by the one that runs, or by the main program, and give control
back to it when they yield or come to their end. So those that are active are nested.

Main definitions:
* `Coroutines`: the active routines, and those that have yielded.
* `Coroutines.step`: what the one that runs can do.

Main results:
* `Coroutines.mem_active_iff`: the active routines are those that the one that runs has been
  entered through.
-/

namespace Ashd

/-- The routines that are active, the one that runs first; those that have yielded; by which
    routine, if not by the main program, each was entered last; and whether it was resumed then, and
    not started. -/
structure Coroutines (α : Type*) where
  active : List α
  yielded : Finset α
  entered : α → Option α
  resumed : α → Bool
  nodup : active.Nodup
  disjoint : ∀ a ∈ active, a ∉ yielded
  links : ∀ xs a ys, active = xs ++ a :: ys → entered a = ys.head?

namespace Coroutines

variable {α : Type*}

/-- Only the main program runs. -/
def main : Coroutines α where
  active := []
  yielded := ∅
  entered := fun _ => none
  resumed := fun _ => false
  nodup := List.nodup_nil
  disjoint := fun a ha => by cases ha
  links := fun xs a ys h => by simp at h

/-- What the routine that runs can do. -/
inductive Event (α : Type*)
  | start (a : α)
  | resume (a : α)
  | yield
  | finish

variable [DecidableEq α] {c : Coroutines α} {a b : α} {l : List α}

theorem links_cons {entered : α → Option α} (hnodup : (a :: l).Nodup)
    (hlinks : ∀ xs b ys, l = xs ++ b :: ys → entered b = ys.head?) (xs : List α) (b : α)
    (ys : List α) (h : a :: l = xs ++ b :: ys) :
    Function.update entered a l.head? b = ys.head? := by
  cases xs with
  | nil =>
    cases h
    exact Function.update_self ..
  | cons x xs =>
    obtain ⟨rfl, hl⟩ := List.cons.inj h
    have hmem : b ∈ l := by
      rw [hl]
      exact List.mem_append_right xs List.mem_cons_self
    have hne : b ≠ a := fun heq => (List.nodup_cons.mp hnodup).1 (heq ▸ hmem)
    rw [Function.update_of_ne hne]
    exact hlinks xs b ys hl

/-- A routine that is not active is entered. -/
def enter (c : Coroutines α) (a : α) (h : a ∉ c.active) (again : Bool) : Coroutines α where
  active := a :: c.active
  yielded := c.yielded.erase a
  entered := Function.update c.entered a c.active.head?
  resumed := Function.update c.resumed a again
  nodup := List.nodup_cons.mpr ⟨h, c.nodup⟩
  disjoint := by
    intro b hb hmem
    obtain ⟨hne, hmem⟩ := Finset.mem_erase.mp hmem
    exact c.disjoint b ((List.mem_cons.mp hb).resolve_left hne) hmem
  links := links_cons (List.nodup_cons.mpr ⟨h, c.nodup⟩) c.links

/-- The routine that runs is left, and has yielded or come to its end. -/
def leave (c : Coroutines α) (l : List α) (h : c.active = a :: l) (yields : Bool) :
    Coroutines α where
  active := l
  yielded := if yields then insert a c.yielded else c.yielded
  entered := c.entered
  resumed := c.resumed
  nodup := (List.nodup_cons.mp (h ▸ c.nodup)).2
  disjoint := by
    intro b hb
    have hne : b ≠ a := fun heq => (List.nodup_cons.mp (h ▸ c.nodup)).1 (heq ▸ hb)
    have hno := c.disjoint b (by rw [h]; exact List.mem_cons_of_mem a hb)
    split_ifs
    · exact fun hmem => hno ((Finset.mem_insert.mp hmem).resolve_left hne)
    · exact hno
  links := by
    intro xs b ys hl
    exact c.links (a :: xs) b ys (by rw [h, hl, List.cons_append])

@[simp] theorem mem_enter_yielded (h : a ∉ c.active) (again : Bool) :
    b ∈ (c.enter a h again).yielded ↔ b ≠ a ∧ b ∈ c.yielded := Finset.mem_erase

@[simp] theorem mem_leave_yielded (h : c.active = a :: l) (yields : Bool) :
    b ∈ (c.leave l h yields).yielded ↔ yields = true ∧ b = a ∨ b ∈ c.yielded := by
  cases yields with
  | false => simp [leave]
  | true => simp [leave]

/-- The routine that runs, if there is one, is left. -/
def left (c : Coroutines α) (yields : Bool) : Option (Coroutines α) :=
  match h : c.active with
  | [] => none
  | _ :: l => some (c.leave l h yields)

/-- What follows, if it can happen: a routine that is started is a new one, and one that is resumed
    has yielded. -/
def step (c : Coroutines α) : Event α → Option (Coroutines α)
  | .start a => if h : a ∉ c.active ∧ a ∉ c.yielded then some (c.enter a h.1 false) else none
  | .resume a =>
    if h : a ∈ c.yielded then some (c.enter a (fun hact => c.disjoint a hact h) true) else none
  | .yield => c.left true
  | .finish => c.left false

/-- What follows from some events, one after the other. -/
def run : Coroutines α → List (Event α) → Option (Coroutines α)
  | c, [] => some c
  | c, e :: es => (c.step e).bind fun c => c.run es

theorem step_start (ha : a ∉ c.active) (hy : a ∉ c.yielded) :
    c.step (.start a) = some (c.enter a ha false) := dif_pos ⟨ha, hy⟩

theorem step_resume (hy : a ∈ c.yielded) :
    c.step (.resume a) = some (c.enter a (fun hact => c.disjoint a hact hy) true) := dif_pos hy

theorem left_eq (h : c.active = a :: l) (yields : Bool) :
    c.left yields = some (c.leave l h yields) := by
  unfold left
  split
  · rename_i hnil
    rw [h] at hnil
    cases hnil
  · rename_i hcons
    obtain ⟨rfl, rfl⟩ := List.cons.inj (h.symm.trans hcons)
    rfl

theorem step_yield (h : c.active = a :: l) : c.step .yield = some (c.leave l h true) :=
  left_eq h true

theorem step_finish (h : c.active = a :: l) : c.step .finish = some (c.leave l h false) :=
  left_eq h false

omit [DecidableEq α] in
theorem entered_head (h : c.active = a :: l) : c.entered a = l.head? := c.links [] a l h

omit [DecidableEq α] in
/-- The active routines are the one that runs, and those that have directly or transitively entered
    it. -/
theorem mem_active_iff (h : c.active = a :: l) :
    b ∈ c.active ↔ Relation.ReflTransGen (fun x y => c.entered x = some y) a b := by
  constructor
  · intro hb
    have hpath : ∀ xs x ys, c.active = xs ++ x :: ys → ∀ y ∈ x :: ys,
        Relation.ReflTransGen (fun x y => c.entered x = some y) x y := by
      intro xs x ys
      induction ys generalizing xs x with
      | nil =>
        intro hact y hy
        rw [List.mem_singleton.mp hy]
      | cons z ys ih =>
        intro hact y hy
        rcases List.mem_cons.mp hy with rfl | hy
        · exact .refl
        · exact .head (c.links xs x (z :: ys) hact) (ih (xs ++ [x]) z (by simp [hact]) y hy)
    exact hpath [] a l h b (h ▸ hb)
  · intro hpath
    induction hpath with
    | refl =>
      rw [h]
      exact List.mem_cons_self
    | tail _ hstep ih =>
      obtain ⟨xs, ys, hact⟩ := List.append_of_mem ih
      rw [c.links xs _ ys hact] at hstep
      rw [hact]
      exact List.mem_append_right xs (List.mem_cons_of_mem _ (List.mem_of_head? hstep))

end Coroutines

end Ashd
