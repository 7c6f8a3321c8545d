import Mathlib.Data.List.Nodup
import Mathlib.Data.List.Perm.Basic
import Mathlib.Data.List.Perm.Lattice

/-!
# The children of a process

The children that a process has forked and has not waited for. One that ends is a zombie until it is
waited for, and until then no other process is given its number. A program keeps a table of them to
count them, or to send them signals; `Tracks` says that nothing is missing from it and that nothing
else is in it.

Main results:
* `Tracks.fork`, `Tracks.ends`, `Tracks.reap`: a table that is kept up to date.
* `swapErase_perm`: removal of an element by putting the last one in its place.
-/

namespace Ashd

/-- Children that run, and zombies. -/
structure Kids where
  live : List ℕ := []
  zombies : List ℕ := []
  nodup : (live ++ zombies).Nodup := by exact List.nodup_nil

namespace Kids

/-- Those that have not been waited for. -/
def all (k : Kids) : List ℕ := k.live ++ k.zombies

/-- `fork`, where the kernel gives the child the number `p`. -/
def fork (k : Kids) (p : ℕ) : Option Kids :=
  if h : p ≠ 0 ∧ p ∉ k.all then
    some { k with live := p :: k.live, nodup := List.nodup_cons.mpr ⟨h.2, k.nodup⟩ }
  else none

/-- The child `p` ends. -/
def ends (k : Kids) (p : ℕ) : Option Kids :=
  if h : p ∈ k.live then
    some
      { live := k.live.erase p
        zombies := p :: k.zombies
        nodup := (((List.perm_cons_erase h).append_right k.zombies).nodup_iff.mp k.nodup |>
          List.perm_middle.nodup_iff.mpr) }
  else none

/-- `waitpid`, which has returned the zombie `p`. -/
def reap (k : Kids) (p : ℕ) : Option Kids :=
  if p ∈ k.zombies then
    some
      { k with
        zombies := k.zombies.erase p
        nodup := k.nodup.sublist (List.Sublist.append_left List.erase_sublist k.live) }
  else none

theorem fork_eq_some {k k' : Kids} {p : ℕ} (h : k.fork p = some k') :
    p ≠ 0 ∧ p ∉ k.all ∧ k'.all = p :: k.all ∧ k'.zombies = k.zombies := by
  unfold fork at h
  split_ifs at h with hp
  cases h
  exact ⟨hp.1, hp.2, rfl, rfl⟩

theorem ends_eq_some {k k' : Kids} {p : ℕ} (h : k.ends p = some k') : k'.all.Perm k.all := by
  unfold ends at h
  split_ifs at h with hp
  cases h
  exact List.perm_middle.trans ((List.perm_cons_erase hp).append_right k.zombies).symm

theorem reap_eq_some {k k' : Kids} {p : ℕ} (h : k.reap p = some k') :
    (p :: k'.all).Perm k.all ∧ k'.zombies = k.zombies.erase p ∧ p ∈ k.zombies := by
  unfold reap at h
  split_ifs at h with hp
  cases h
  exact ⟨List.perm_middle.symm.trans ((List.perm_cons_erase hp).symm.append_left k.live), rfl, hp⟩

/-! ## Tables -/

/-- The table holds the children that have not been waited for, each of them once. -/
def Tracks (table : List ℕ) (k : Kids) : Prop := table.Perm k.all

theorem tracks_nil : Tracks [] {} := List.Perm.nil

variable {table : List ℕ} {k k' : Kids} {p : ℕ}

theorem Tracks.fork (h : Tracks table k) (hf : k.fork p = some k') : Tracks (p :: table) k' := by
  rw [Tracks, (fork_eq_some hf).2.2.1]
  exact h.cons p

theorem Tracks.ends (h : Tracks table k) (he : k.ends p = some k') : Tracks table k' :=
  h.trans (ends_eq_some he).symm

theorem Tracks.reap (h : Tracks table k) (hr : k.reap p = some k') : Tracks (table.erase p) k' := by
  have hp := (reap_eq_some hr).1
  have herase := (h.trans hp.symm).erase p
  rwa [List.erase_cons_head] at herase

theorem Tracks.perm {table' : List ℕ} (h : Tracks table k) (hp : table'.Perm table) :
    Tracks table' k := hp.trans h

theorem Tracks.mem_iff (h : Tracks table k) : p ∈ table ↔ p ∈ k.all := List.Perm.mem_iff h

theorem Tracks.length (h : Tracks table k) : table.length = k.all.length := List.Perm.length_eq h

end Kids

/-! ## Removal from an array -/

/-- The first `a` is replaced by the last element, which is dropped. -/
def swapErase {α : Type*} [DecidableEq α] (l : List α) (a : α) : List α :=
  if a ∈ l then (l.set (l.idxOf a) (l.getLastD a)).dropLast else l

theorem swapErase_perm {α : Type*} [DecidableEq α] (l : List α) (a : α) :
    (swapErase l a).Perm (l.erase a) := by
  unfold swapErase
  split_ifs with ha
  · obtain ⟨x, y, rfl, hx⟩ := List.eq_append_cons_of_mem ha
    rw [List.idxOf_append_of_notMem hx, List.idxOf_cons_self, Nat.add_zero,
      List.set_append_right _ _ (Nat.le_refl _), Nat.sub_self, List.set_cons_zero,
      List.erase_append_right _ hx, List.erase_cons_head]
    rcases List.eq_nil_or_concat y with rfl | ⟨y, b, rfl⟩
    · rw [List.dropLast_concat, List.append_nil]
    · have hlast : (x ++ a :: y.concat b).getLastD a = b := by
        rw [List.concat_eq_append, ← List.cons_append, ← List.append_assoc, List.getLastD_concat]
      rw [hlast, List.concat_eq_append, ← List.cons_append, ← List.append_assoc,
        List.dropLast_concat]
      exact (List.perm_append_singleton b y).symm.append_left x
  · rw [List.erase_of_not_mem ha]

end Ashd
