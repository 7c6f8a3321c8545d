import Ashd.Common.Kids
import Ashd.Common.Run
import Mathlib.Algebra.Order.Ring.Int

/-!
# The processes of `httrcall`

`httrcall` starts a process for each request. With a limit, it waits for one to end when there are
as many, and it has to know how many there are: `running` is to hold those that it has not waited
for. A `SIGCHLD` may come at any time, also right before `recvreq` waits, and is not waited for then.

The steps are the system calls of src/httrcall.c, with what is done up to the next one; in between
them, children end and signals are delivered.

Main results:
* `run_inv`: `running` is what is to be waited for, at every system call.
* `httrcall_limit`: there are never more children than the limit, and a wait that may block is for a
  child that there is.
-/

namespace Ashd.Forking.Httrcall

/-! ## Model -/

/-- What the program does next. `wait` is the `waitpid` of `checkexit`, with `block` and `any`. -/
inductive Phase
  | main
  | recvreq
  | serve
  | wait (block any : Bool)
  | fork
  | done
  deriving DecidableEq

/-- `sigchld` is a signal that has not been delivered. -/
structure State where
  kids : Kids := {}
  sigchld : Bool := false
  running : List ℕ := []
  exited : Bool := false
  phase : Phase := .main

/-- What a system call has returned: the number of a process, or 0 if it is not one. -/
inductive Act
  /-- A child ends. -/
  | ends (p : ℕ)
  /-- `chldhandler` (src/httrcall.c:74–77). -/
  | chldhandler
  /-- A test of `main` or `serve` that is no system call. -/
  | go
  /-- `recvreq` has returned a request, has been interrupted, or there are no more. -/
  | recvreq (req : Option Bool)
  /-- `waitpid` has returned a process. -/
  | waited (p : ℕ)
  /-- `waitpid` has returned 0, or -1 as there is no child or as a signal has come. -/
  | notWaited
  /-- `stdforkserve` has returned a process. -/
  | forked (p : ℕ)
  /-- `stdforkserve` has failed. -/
  | notForked
  deriving DecidableEq

/-- A call of `checkexit`, up to the `waitpid` (src/httrcall.c:41–48). -/
def checkexit (s : State) (block : Bool) : State :=
  { s with exited := false, phase := .wait block false }

/-- The steps of `checkexit` (src/httrcall.c:41–59), `serve` (src/httrcall.c:61–72) and the loop of
    `main` (src/httrcall.c:111–124), where they are possible. -/
def step (limit : ℤ) (s : State) : Act → Option State
  | .ends p => (s.kids.ends p).map fun kids => { s with kids := kids, sigchld := true }
  | .chldhandler => if s.sigchld then some { s with sigchld := false, exited := true } else none
  | .go =>
    match s.phase with
    | .main => some (if s.exited then checkexit s false else { s with phase := .recvreq })
    | .serve =>
      some (if limit > 0 ∧ s.running.length ≥ limit then checkexit s true
        else { s with phase := .fork })
    | _ => none
  | .recvreq req =>
    if s.phase = .recvreq then
      match req with
      | some true => some { s with phase := .serve }
      | some false => some { s with phase := .main }
      | none => some { s with phase := .done }
    else none
  | .waited p =>
    match s.phase with
    | .wait block _ =>
      (s.kids.reap p).map fun kids =>
        { s with kids := kids, running := swapErase s.running p, phase := .wait block true }
    | _ => none
  | .notWaited =>
    match s.phase with
    | .wait block _ =>
      if s.kids.zombies = [] then
        some { s with phase := if block then .serve else .recvreq }
      else none
    | _ => none
  | .forked p =>
    if s.phase = .fork then
      (s.kids.fork p).map fun kids =>
        { s with kids := kids, running := s.running ++ [p], phase := .main }
    else none
  | .notForked => if s.phase = .fork then some { s with phase := .main } else none

/-- A run from the start. -/
def run (limit : ℤ) (acts : List Act) : Option State := acts.foldlM (step limit) {}

/-! ## The invariant -/

/-- There is a place for what is forked, and something to wait for where `waitpid` may block. -/
structure Inv (limit : ℤ) (s : State) : Prop where
  tracks : Kids.Tracks s.running s.kids
  bound : limit > 0 → (s.running.length : ℤ) ≤ limit
  room : s.phase = .fork → limit > 0 → (s.running.length : ℤ) < limit
  full : s.phase = .wait true false → limit > 0 ∧ (s.running.length : ℤ) = limit

theorem inv_init (limit : ℤ) : Inv limit {} :=
  ⟨Kids.tracks_nil, fun h => by simp; omega, nofun, nofun⟩

theorem inv_step {limit : ℤ} (s : State) (a : Act) (s' : State) (hs : Inv limit s)
    (h : step limit s a = some s') : Inv limit s' := by
  cases a with
  | ends p =>
    obtain ⟨kids, hk, rfl⟩ := Option.map_eq_some_iff.mp h
    exact ⟨hs.tracks.ends hk, hs.bound, hs.room, hs.full⟩
  | chldhandler =>
    rw [step] at h
    split_ifs at h
    cases h
    exact ⟨hs.tracks, hs.bound, hs.room, hs.full⟩
  | go =>
    rw [step] at h
    split at h
    · cases h
      split_ifs
      · exact ⟨hs.tracks, hs.bound, nofun, nofun⟩
      · exact ⟨hs.tracks, hs.bound, nofun, nofun⟩
    · cases h
      split_ifs with hfull
      · exact ⟨hs.tracks, hs.bound, nofun, fun _ =>
          ⟨hfull.1, le_antisymm (hs.bound hfull.1) hfull.2⟩⟩
      · refine ⟨hs.tracks, hs.bound, fun _ hl => ?_, nofun⟩
        exact not_le.mp fun hge => hfull ⟨hl, hge⟩
    · cases h
  | recvreq req =>
    simp only [step] at h
    split_ifs at h
    split at h <;> cases h <;> exact ⟨hs.tracks, hs.bound, nofun, nofun⟩
  | waited p =>
    rw [step] at h
    split at h
    · obtain ⟨kids, hk, rfl⟩ := Option.map_eq_some_iff.mp h
      have hperm := swapErase_perm s.running p
      have hlen : (swapErase s.running p).length ≤ s.running.length := by
        rw [hperm.length_eq]
        exact List.length_erase_le
      refine ⟨(hs.tracks.reap hk).perm hperm, fun hl => ?_, nofun, nofun⟩
      have hbound := hs.bound hl
      simp only
      omega
    · cases h
  | notWaited =>
    rw [step] at h
    split at h
    · split_ifs at h with hz hb
      · cases h
        exact ⟨hs.tracks, hs.bound, nofun, nofun⟩
      · cases h
        exact ⟨hs.tracks, hs.bound, nofun, nofun⟩
    · cases h
  | forked p =>
    rw [step] at h
    split_ifs at h with hph
    obtain ⟨kids, hk, rfl⟩ := Option.map_eq_some_iff.mp h
    refine ⟨(hs.tracks.fork hk).perm (List.perm_append_singleton p s.running), fun hl => ?_, nofun,
      nofun⟩
    have hroom := hs.room hph hl
    rw [List.length_append, List.length_singleton]
    omega
  | notForked =>
    rw [step] at h
    split_ifs at h
    cases h
    exact ⟨hs.tracks, hs.bound, nofun, nofun⟩

theorem run_inv {limit : ℤ} {acts : List Act} {s : State} (h : run limit acts = some s) :
    Inv limit s :=
  foldlM_inv (Inv limit) inv_step (inv_init limit) h

/-- Whenever children end and signals come: the processes in `running` are the children that have not
    been waited for. If there is a limit, there are never more of them, and if `waitpid` may block,
    there is a child to wait for. -/
theorem httrcall_limit {limit : ℤ} {acts : List Act} {s : State} (h : run limit acts = some s) :
    s.running.Perm s.kids.all ∧ (limit > 0 → (s.kids.all.length : ℤ) ≤ limit) ∧
      (s.phase = .wait true false → s.kids.all ≠ []) := by
  have hs := run_inv h
  refine ⟨hs.tracks, fun hl => ?_, fun hph hnil => ?_⟩
  · rw [← hs.tracks.length]
    exact hs.bound hl
  · obtain ⟨hl, hfull⟩ := hs.full hph
    rw [hs.tracks.length, hnil] at hfull
    simp only [List.length_nil, Nat.cast_zero] at hfull
    omega

/-- Two requests where one process may run: the second is waited with. -/
theorem httrcall_limit_one :
    ∃ s : State, s.running.Perm s.kids.all ∧ ((1 : ℤ) > 0 → (s.kids.all.length : ℤ) ≤ 1) ∧
      (s.phase = .wait true false → s.kids.all ≠ []) ∧ s.phase = .wait true false := by
  have h : run 1 [.go, .recvreq (some true), .go, .forked 7, .go, .recvreq (some true), .go] =
    some _ := rfl
  obtain ⟨hperm, hlimit, hwait⟩ := httrcall_limit h
  exact ⟨_, hperm, hlimit, hwait, rfl⟩

end Ashd.Forking.Httrcall
