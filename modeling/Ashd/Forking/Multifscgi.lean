import Ashd.Common.Kids
import Ashd.Common.Run

/-!
# The processes of `multifscgi`

`multifscgi` keeps a number of processes running. It starts a new one for each that ends, until it is
told to stop, and then makes all of them end. `SIGCHLD`, and before the end the two signals that tell
it to stop, are only delivered in `pselect`, so that none is missed between looking and waiting.

The steps are the system calls of src/multifscgi.c, with what is done up to the next one; in between
them, children end and signals come. A child starts with the signals blocked that are blocked when it
is forked.

Main results:
* `run_inv`: what is known at every system call.
* `multifscgi_children`: the table holds the children that have not been waited for, signals are sent
  to these only, and `pselect` does not wait while there is a zombie.
* `multifscgi_ends`: all children have been waited for, or killed, at the end.
* `multifscgi_blocked`: a child starts with `SIGTERM` blocked.
-/

namespace Ashd.Forking.Multifscgi

/-! ## Model -/

/-- What the program does next. A number `i` is the one of a loop over the children, and `try'` is
    `try`; `failed` says whether a `fork` has failed since the last `pselect`. -/
inductive Phase
  /-- `manage`: the loop with `fork`. -/
  | fork (i : ℕ)
  | pselect (failed : Bool)
  | waitpid
  /-- Between `manage` and `killall`. -/
  | restored
  /-- `killall`: the loop with `kill`. -/
  | kill (try' i : ℕ)
  /-- `killall`: the test of the time, and whether all are gone. -/
  | look (try' : ℕ)
  | killselect (try' : ℕ)
  | killwait (try' : ℕ)
  /-- `killall`: the last loop. -/
  | sigkill (i : ℕ)
  | returned
  /-- `SIGINT` and `SIGTERM` have their default actions again, and one of them has come. -/
  | dead
  deriving DecidableEq

/-- Signals that are sent. -/
inductive Sig
  | term
  | kill
  deriving DecidableEq

/-- `children` has a 0 where no child is known. `chld` and `term` are signals that have come and have
    not been delivered, `sent` the signals that have been sent, and `started` the children that have
    been started, with whether `SIGTERM` was blocked. -/
structure State where
  kids : Kids := {}
  chld : Bool := false
  term : Bool := false
  done : Bool := false
  chdone : Bool := false
  children : List ℕ
  phase : Phase := .fork 0
  sent : List (ℕ × Sig) := []
  started : List (ℕ × Bool) := []

/-- Whether `SIGTERM` and `SIGINT` are blocked (src/multifscgi.c:51–55, 79, 92–94). -/
def Phase.blocksTerm : Phase → Bool
  | fork _ | pselect _ | waitpid => true
  | _ => false

/-- Whether `SIGINT` and `SIGTERM` have their default actions (src/multifscgi.c:90–91). -/
def Phase.killall : Phase → Bool
  | kill _ _ | look _ | killselect _ | killwait _ | sigkill _ => true
  | _ => false

/-- What the kernel does, or says to a system call. -/
inductive Act
  /-- A child ends, which is told by a `SIGCHLD`. -/
  | ends (p : ℕ)
  /-- A `SIGTERM` or `SIGINT` comes. -/
  | term
  /-- `fork` has returned a process. -/
  | forked (p : ℕ)
  /-- `fork` has failed. -/
  | notForked
  /-- `waitpid` has returned a process. -/
  | waited (p : ℕ)
  /-- `pselect` has been interrupted, or has come to its end. -/
  | selected
  /-- The time of the loop of `killall` is up, or it is not. -/
  | time (up : Bool)
  /-- What needs no answer. -/
  | go
  deriving DecidableEq

/-- What `chld` and `term` do, where the signals are delivered (src/multifscgi.c:130–138). -/
def deliver (s : State) : State :=
  { s with
    chdone := s.chdone || s.chld
    done := s.done || s.term
    chld := false
    term := false }

/-- The test of the `while` of `manage`. -/
def manage (s : State) : State := { s with phase := if s.done then .restored else .fork 0 }

/-- The start of `manage`, where the table is all zero and a signal may have been delivered. -/
def init (nchildren : ℕ) (done : Bool) : State :=
  manage { children := List.replicate nchildren 0, done := done }

/-- The loop after `waitpid` (src/multifscgi.c:71–74). -/
def forget (p : ℕ) (children : List ℕ) : List ℕ := children.map fun ch => if ch = p then 0 else ch

/-- The steps of `manage` (src/multifscgi.c:45–80) and `killall` (src/multifscgi.c:82–128), where they
    are possible. -/
def step (s : State) : Act → Option State
  | .ends p => (s.kids.ends p).map fun kids => { s with kids := kids, chld := true }
  | .term =>
    some (if s.phase.killall then { s with phase := .dead } else { s with term := true })
  | .forked p =>
    match s.phase with
    | .fork i =>
      if s.children[i]? = some 0 then
        (s.kids.fork p).map fun kids =>
          { s with
            kids := kids
            children := s.children.set i p
            started := s.started ++ [(p, s.phase.blocksTerm)]
            phase := .fork (i + 1) }
      else none
    | _ => none
  | .notForked =>
    match s.phase with
    | .fork i => if s.children[i]? = some 0 then some { s with phase := .pselect true } else none
    | _ => none
  | .waited p =>
    match s.phase with
    | .waitpid =>
      (s.kids.reap p).map fun kids => { s with kids := kids, children := forget p s.children }
    | .killwait _ =>
      (s.kids.reap p).map fun kids => { s with kids := kids, children := forget p s.children }
    | _ => none
  | .selected =>
    match s.phase with
    | .pselect _ =>
      if s.chld ∨ s.term then
        let s := deliver s
        some (if s.chdone then { s with phase := .waitpid } else manage s)
      else none
    | .killselect try' =>
      let s := deliver s
      some { s with phase := if s.chdone then .killwait try' else .look try' }
    | _ => none
  | .time up =>
    match s.phase with
    | .look try' =>
      some
        { s with
          phase :=
            if up then if try' = 0 then .kill 1 0 else .sigkill 0
            else if s.children.all (· = 0) then .returned else .killselect try' }
    | _ => none
  | .go =>
    match s.phase with
    | .fork i =>
      match s.children[i]? with
      | none => some { s with phase := .pselect false }
      | some ch => if ch = 0 then none else some { s with phase := .fork (i + 1) }
    | .waitpid =>
      -- `waitpid` returns 0 or -1
      if s.kids.zombies = [] then some (manage { s with chdone := false }) else none
    | .restored => some { deliver s with phase := .kill 0 0 }
    | .kill try' i =>
      match s.children[i]? with
      | none => some { s with phase := .look try' }
      | some ch =>
        some { s with
          sent := if ch = 0 then s.sent else s.sent ++ [(ch, .term)]
          phase := .kill try' (i + 1) }
    | .killwait try' =>
      if s.kids.zombies = [] then some { s with chdone := false, phase := .look try' } else none
    | .sigkill i =>
      match s.children[i]? with
      | none => some { s with phase := .returned }
      | some ch =>
        some { s with
          sent := if ch = 0 then s.sent else s.sent ++ [(ch, .kill)]
          phase := .sigkill (i + 1) }
    | _ => none

/-- A run from the start of `manage`. -/
def run (nchildren : ℕ) (done : Bool) (acts : List Act) : Option State :=
  acts.foldlM step (init nchildren done)

/-- The process that the next system call sends a signal to. -/
def State.target (s : State) : Option ℕ :=
  match s.phase with
  | .kill _ i | .sigkill i => s.children[i]?.bind fun ch => if ch = 0 then none else some ch
  | _ => none

/-! ## The table -/

/-- The children that are known. -/
def known (children : List ℕ) : List ℕ := children.filter (· ≠ 0)

theorem known_set {children : List ℕ} {i p : ℕ} (hi : children[i]? = some 0) (hp : p ≠ 0) :
    (known (children.set i p)).Perm (p :: known children) := by
  obtain ⟨x, y, rfl, rfl⟩ := List.getElem?_eq_some_iff.mp hi |>.elim fun hlt h0 =>
    (⟨children.take i, children.drop (i + 1), by
      rw [← h0, List.getElem_cons_drop, List.take_append_drop], by
      rw [List.length_take]; omega⟩ : ∃ x y, children = x ++ 0 :: y ∧ i = x.length)
  rw [List.set_append_right _ _ (Nat.le_refl _), Nat.sub_self, List.set_cons_zero, known, known,
    List.filter_append, List.filter_append, List.filter_cons_of_pos (by simpa using hp),
    List.filter_cons_of_neg (by simp)]
  exact List.perm_middle

theorem known_forget_eq_filter (p : ℕ) (children : List ℕ) :
    known (forget p children) = (known children).filter (· ≠ p) := by
  induction children with
  | nil => rfl
  | cons ch children ih =>
    unfold known forget at ih ⊢
    rw [List.map_cons]
    by_cases h0 : ch = 0
    · simpa [h0] using ih
    · by_cases hp : ch = p
      · simpa [hp] using ih
      · simpa [h0, hp] using ih

theorem known_forget {children : List ℕ} (h : (known children).Nodup) (p : ℕ) :
    known (forget p children) = (known children).erase p := by
  rw [known_forget_eq_filter, h.erase_eq_filter]
  refine List.filter_congr fun ch _ => ?_
  by_cases hp : ch = p <;> simp [hp]

theorem length_forget (p : ℕ) (children : List ℕ) : (forget p children).length = children.length :=
  List.length_map ..

/-- If every place is taken, then all are known. -/
theorem known_of_all {children : List ℕ} (h : ∀ j : ℕ, children[j]? ≠ some 0) :
    known children = children := by
  refine List.filter_eq_self.mpr fun ch hch => ?_
  obtain ⟨j, hj⟩ := List.mem_iff_getElem?.mp hch
  have h0 : ch ≠ 0 := fun h0 => h j (by rw [hj, h0])
  exact decide_eq_true h0

theorem mem_known_of_getElem? {children : List ℕ} {i ch : ℕ} (h : children[i]? = some ch)
    (hch : ch ≠ 0) : ch ∈ known children :=
  List.mem_filter.mpr ⟨List.mem_of_getElem? h, decide_eq_true hch⟩

/-! ## The invariant -/

/-- What is known at a system call: what the table holds, that the places before the one that the loop
    has come to are taken, or that what is in them has been killed, and that a zombie has not been
    missed. -/
structure Inv (nchildren : ℕ) (s : State) : Prop where
  tracks : Kids.Tracks (known s.children) s.kids
  length : s.children.length = nchildren
  filled : ∀ i, s.phase = .fork i → ∀ j : ℕ, j < i → s.children[j]? ≠ some 0
  full : s.phase = .pselect false → ∀ j : ℕ, s.children[j]? ≠ some 0
  waits : (∃ i, s.phase = .fork i) ∨ (∃ failed, s.phase = .pselect failed) → s.chdone = false
  noticed : s.kids.zombies ≠ [] → s.chld = true ∨ s.chdone = true
  killed : ∀ i, s.phase = .sigkill i →
    ∀ j : ℕ, j < i → ∀ ch, s.children[j]? = some ch → ch ≠ 0 → (ch, .kill) ∈ s.sent
  returned : s.phase = .returned → ∀ p ∈ s.kids.all, (p, .kill) ∈ s.sent
  blocked : ∀ x ∈ s.started, x.2 = true

section
variable {n : ℕ} {s s' : State}

/-- A phase about which nothing is said. -/
def Phase.plain : Phase → Bool
  | fork _ | pselect _ | sigkill _ | returned => false
  | _ => true

/-- Going on to a phase about which nothing is said. -/
theorem Inv.plain (hs : Inv n s) {ph : Phase} (hph : ph.plain = true) {sent : List (ℕ × Sig)} :
    Inv n { s with phase := ph, sent := sent } where
  tracks := hs.tracks
  length := hs.length
  filled := by rintro i rfl; cases hph
  full := by rintro rfl; cases hph
  waits := by
    rintro (⟨i, rfl⟩ | ⟨failed, rfl⟩) <;> cases hph
  noticed := hs.noticed
  killed := by rintro i rfl; cases hph
  returned := by rintro rfl; cases hph
  blocked := hs.blocked

theorem Inv.deliver (hs : Inv n s) {ph : Phase} (hph : ph.plain = true) :
    Inv n { deliver s with phase := ph } where
  tracks := hs.tracks
  length := hs.length
  filled := by rintro i rfl; cases hph
  full := by rintro rfl; cases hph
  waits := by
    rintro (⟨i, rfl⟩ | ⟨failed, rfl⟩) <;> cases hph
  noticed hz := by
    rcases hs.noticed hz with h | h <;> simp [Multifscgi.deliver, h]
  killed := by rintro i rfl; cases hph
  returned := by rintro rfl; cases hph
  blocked := hs.blocked

/-- The next round of `manage` starts when no zombie has been missed. -/
theorem Inv.manage (hs : Inv n s) (hch : s.chdone = false) : Inv n (manage s) where
  tracks := hs.tracks
  length := hs.length
  filled := by
    unfold Multifscgi.manage
    split_ifs
    · nofun
    · rintro i ⟨⟩ j hj
      omega
  full := by
    unfold Multifscgi.manage
    split_ifs <;> nofun
  waits _ := hch
  noticed := hs.noticed
  killed := by
    unfold Multifscgi.manage
    split_ifs <;> nofun
  returned := by
    unfold Multifscgi.manage
    split_ifs <;> nofun
  blocked := hs.blocked

/-- A zombie is waited for. -/
theorem Inv.reap (hs : Inv n s) {p : ℕ} {kids : Kids} (hk : s.kids.reap p = some kids)
    (hph : s.phase.plain = true) : Inv n { s with kids := kids, children := forget p s.children } where
  tracks := by
    have hnodup : (known s.children).Nodup := hs.tracks.nodup_iff.mpr s.kids.nodup
    simp only
    rw [known_forget hnodup]
    exact hs.tracks.reap hk
  length := (length_forget p s.children).trans hs.length
  filled i h := by rw [h] at hph; cases hph
  full h := by rw [h] at hph; cases hph
  waits := by
    rintro (⟨i, h⟩ | ⟨failed, h⟩) <;> rw [h] at hph <;> cases hph
  noticed _ := hs.noticed (List.ne_nil_of_mem (Kids.reap_eq_some hk).2.2)
  killed i h := by rw [h] at hph; cases hph
  returned h := by rw [h] at hph; cases hph
  blocked := hs.blocked

/-- When there are no zombies any more, `chdone` is reset. -/
theorem Inv.reset (hs : Inv n s) (hz : s.kids.zombies = []) :
    Inv n { s with chdone := false } where
  tracks := hs.tracks
  length := hs.length
  filled := hs.filled
  full := hs.full
  waits _ := rfl
  noticed h := absurd hz h
  killed := hs.killed
  returned := hs.returned
  blocked := hs.blocked

end

theorem inv_init (n : ℕ) (done : Bool) : Inv n (init n done) := by
  refine Inv.manage ⟨?_, List.length_replicate, nofun, nofun, fun _ => rfl, fun h => absurd rfl h,
    nofun, nofun, nofun⟩ rfl
  have hnone : known (List.replicate n 0) = [] := by simp [known]
  simp only
  rw [hnone]
  exact Kids.tracks_nil

/-! ## The steps -/

section
variable {n : ℕ} {s s' : State}

theorem inv_ends {p : ℕ} (hs : Inv n s) (h : step s (.ends p) = some s') : Inv n s' := by
  obtain ⟨kids, hk, rfl⟩ := Option.map_eq_some_iff.mp h
  exact ⟨hs.tracks.ends hk, hs.length, hs.filled, hs.full, hs.waits, fun _ => .inl rfl, hs.killed,
    fun hph q hq => hs.returned hph q ((Kids.ends_eq_some hk).mem_iff.mp hq), hs.blocked⟩

theorem inv_forked {p : ℕ} (hs : Inv n s) (h : step s (.forked p) = some s') : Inv n s' := by
  rw [step] at h
  split at h
  · rename_i i hph
    split_ifs at h with hi
    obtain ⟨kids, hk, rfl⟩ := Option.map_eq_some_iff.mp h
    obtain ⟨hp, -, -, hz⟩ := Kids.fork_eq_some hk
    refine ⟨(hs.tracks.fork hk).perm (known_set hi hp), (List.length_set ..).trans hs.length, ?_,
      nofun, fun _ => hs.waits (.inl ⟨i, hph⟩), fun h => hs.noticed (hz ▸ h), nofun, nofun, ?_⟩
    · rintro _ ⟨⟩ j hj
      simp only
      by_cases hji : j = i
      · subst hji
        have hlt := (List.getElem?_eq_some_iff.mp hi).1
        rw [List.getElem?_set_self hlt]
        exact fun h0 => hp (Option.some.inj h0)
      · rw [List.getElem?_set_ne (Ne.symm hji)]
        exact hs.filled i hph j (by omega)
    · refine List.forall_mem_append.mpr ⟨hs.blocked, fun x hx => ?_⟩
      rw [List.mem_singleton.mp hx, hph]
      rfl
  · cases h

theorem inv_notForked (hs : Inv n s) (h : step s .notForked = some s') : Inv n s' := by
  rw [step] at h
  split at h
  · rename_i i hph
    split_ifs at h
    cases h
    exact ⟨hs.tracks, hs.length, nofun, nofun, fun _ => hs.waits (.inl ⟨i, hph⟩), hs.noticed, nofun,
      nofun, hs.blocked⟩
  · cases h

theorem inv_waited {p : ℕ} (hs : Inv n s) (h : step s (.waited p) = some s') : Inv n s' := by
  rw [step] at h
  split at h
  · rename_i hph
    obtain ⟨kids, hk, rfl⟩ := Option.map_eq_some_iff.mp h
    exact hs.reap hk (by rw [hph]; rfl)
  · rename_i hph
    obtain ⟨kids, hk, rfl⟩ := Option.map_eq_some_iff.mp h
    exact hs.reap hk (by rw [hph]; rfl)
  · cases h

theorem inv_selected (hs : Inv n s) (h : step s .selected = some s') : Inv n s' := by
  rw [step] at h
  split at h
  · rename_i hph
    split_ifs at h with hsig
    cases h
    split_ifs with hch
    · exact hs.deliver rfl
    · have hmanage : Inv n { deliver s with phase := .waitpid } := hs.deliver rfl
      exact hmanage.manage (by simpa using hch)
  · cases h
    split_ifs
    · exact hs.deliver rfl
    · exact hs.deliver rfl
  · cases h

theorem inv_time {up : Bool} (hs : Inv n s) (h : step s (.time up) = some s') : Inv n s' := by
  rw [step] at h
  split at h
  · rename_i try' hph
    cases h
    split_ifs with hover htry hall
    · exact hs.plain rfl
    · exact ⟨hs.tracks, hs.length, nofun, nofun, by rintro (⟨_, ⟨⟩⟩ | ⟨_, ⟨⟩⟩), hs.noticed,
        fun i hi j hj => by cases hi; omega, nofun, hs.blocked⟩
    · -- no child is left
      refine ⟨hs.tracks, hs.length, nofun, nofun, by rintro (⟨_, ⟨⟩⟩ | ⟨_, ⟨⟩⟩), hs.noticed, nofun,
        fun _ p hp => ?_, hs.blocked⟩
      obtain ⟨hch, hp0⟩ := List.mem_filter.mp (hs.tracks.mem_iff.mpr hp)
      have hzero := List.all_eq_true.mp hall p hch
      simp_all
    · exact hs.plain rfl
  · cases h

theorem inv_go (hs : Inv n s) (h : step s .go = some s') : Inv n s' := by
  rw [step] at h
  split at h
  case h_1 i hph =>
    split at h
    · rename_i hnone
      cases h
      have hlen := List.getElem?_eq_none_iff.mp hnone
      refine ⟨hs.tracks, hs.length, nofun, fun _ j => ?_, fun _ => hs.waits (.inl ⟨i, hph⟩),
        hs.noticed, nofun, nofun, hs.blocked⟩
      by_cases hj : j < i
      · exact hs.filled i hph j hj
      · simp only
        rw [List.getElem?_eq_none (by omega)]
        nofun
    · rename_i ch hch
      split_ifs at h with h0
      cases h
      refine ⟨hs.tracks, hs.length, ?_, nofun, fun _ => hs.waits (.inl ⟨i, hph⟩), hs.noticed, nofun,
        nofun, hs.blocked⟩
      rintro _ ⟨⟩ j hj
      by_cases hji : j = i
      · subst hji
        simp only
        rw [hch]
        exact fun h => h0 (Option.some.inj h)
      · exact hs.filled i hph j (by omega)
  case h_2 hph =>
    split_ifs at h with hz
    cases h
    exact (hs.reset hz).manage rfl
  case h_3 =>
    cases h
    exact hs.deliver rfl
  case h_4 try' i hph =>
    split at h
    · cases h
      exact hs.plain rfl
    · cases h
      exact hs.plain rfl
  case h_5 try' hph =>
    split_ifs at h with hz
    cases h
    exact (hs.reset hz).plain rfl
  case h_6 i hph =>
    split at h
    · -- the last loop is over
      rename_i hnone
      cases h
      have hlen := List.getElem?_eq_none_iff.mp hnone
      refine ⟨hs.tracks, hs.length, nofun, nofun, by rintro (⟨_, ⟨⟩⟩ | ⟨_, ⟨⟩⟩), hs.noticed, nofun,
        fun _ p hp => ?_, hs.blocked⟩
      obtain ⟨hch, hp0⟩ := List.mem_filter.mp (hs.tracks.mem_iff.mpr hp)
      obtain ⟨j, hj⟩ := List.mem_iff_getElem?.mp hch
      have hlt := (List.getElem?_eq_some_iff.mp hj).1
      exact hs.killed i hph j (by omega) p hj (by simpa using hp0)
    · rename_i ch hch
      cases h
      refine ⟨hs.tracks, hs.length, nofun, nofun, by rintro (⟨_, ⟨⟩⟩ | ⟨_, ⟨⟩⟩), hs.noticed, ?_,
        nofun, hs.blocked⟩
      rintro _ ⟨⟩ j hj ch' hj' hch'
      simp only at hj' ⊢
      by_cases hji : j = i
      · subst hji
        rw [hch] at hj'
        cases hj'
        rw [if_neg hch']
        exact List.mem_append_right _ (List.mem_singleton_self _)
      · have hsent := hs.killed i hph j (by omega) ch' hj' hch'
        split_ifs
        · exact hsent
        · exact List.mem_append_left _ hsent
  case h_7 => cases h

theorem inv_term (hs : Inv n s) (h : step s .term = some s') : Inv n s' := by
  cases h
  split_ifs
  · exact hs.plain rfl
  · exact ⟨hs.tracks, hs.length, hs.filled, hs.full, hs.waits, hs.noticed, hs.killed, hs.returned,
      hs.blocked⟩

end

theorem inv_step {n : ℕ} (s : State) (a : Act) (s' : State) (hs : Inv n s)
    (h : step s a = some s') : Inv n s' := by
  cases a with
  | ends p => exact inv_ends hs h
  | term => exact inv_term hs h
  | forked p => exact inv_forked hs h
  | notForked => exact inv_notForked hs h
  | waited p => exact inv_waited hs h
  | selected => exact inv_selected hs h
  | time up => exact inv_time hs h
  | go => exact inv_go hs h

theorem run_inv {n : ℕ} {done : Bool} {acts : List Act} {s : State}
    (h : run n done acts = some s) : Inv n s :=
  foldlM_inv (Inv n) inv_step (inv_init n done) h

/-! ## Results -/

/-- Whenever children end and signals come: what the table holds is the children that have not been
    waited for, and a signal is sent to one of them only. When `manage` comes to `pselect`, all of
    them run unless a `fork` has failed, and `pselect` does not wait if there is a zombie. -/
theorem multifscgi_children {n : ℕ} {done : Bool} {acts : List Act} {s : State}
    (h : run n done acts = some s) :
    (known s.children).Perm s.kids.all ∧ s.kids.all.length ≤ n ∧
      (∀ p, s.target = some p → p ∈ s.kids.all) ∧
      (s.phase = .pselect false → s.kids.all.length = n) ∧
      ∀ failed, s.phase = .pselect failed → s.kids.zombies ≠ [] → s.chld = true := by
  have hs := run_inv h
  refine ⟨hs.tracks, ?_, fun p hp => ?_, fun hph => ?_, fun failed hph hz => ?_⟩
  · rw [← hs.tracks.length, ← hs.length]
    exact List.length_filter_le ..
  · rw [← hs.tracks.mem_iff]
    unfold State.target at hp
    split at hp
    · obtain ⟨ch, hch, hp⟩ := Option.bind_eq_some_iff.mp hp
      split_ifs at hp with h0
      cases hp
      exact mem_known_of_getElem? hch h0
    · obtain ⟨ch, hch, hp⟩ := Option.bind_eq_some_iff.mp hp
      split_ifs at hp with h0
      cases hp
      exact mem_known_of_getElem? hch h0
    · cases hp
  · rw [← hs.tracks.length, known_of_all (hs.full hph), hs.length]
  · rcases hs.noticed hz with hch | hch
    · exact hch
    · rw [hs.waits (.inr ⟨failed, hph⟩)] at hch
      cases hch

/-- Two children are started, and one of them ends before `pselect`. -/
theorem multifscgi_children_two :
    ∃ s : State, s.phase = .pselect false ∧ (known s.children).Perm s.kids.all ∧
      s.kids.all.length = 2 ∧ s.kids.zombies ≠ [] ∧ s.chld = true := by
  have h : run 2 false [.forked 7, .forked 8, .ends 7, .go] = some _ := rfl
  obtain ⟨hperm, -, -, hfull, hwaits⟩ := multifscgi_children h
  have hz : [7] ≠ ([] : List ℕ) := List.cons_ne_nil 7 []
  exact ⟨_, rfl, hperm, hfull rfl, hz, hwaits false rfl hz⟩

/-- When `killall` has returned, every child has been waited for or has been sent a `SIGKILL`. Every
    child has been started with `SIGTERM` blocked, so that the one that it is sent before has to wait
    for the child to unblock it. -/
theorem multifscgi_ends {n : ℕ} {done : Bool} {acts : List Act} {s : State}
    (h : run n done acts = some s) :
    (s.phase = .returned → ∀ p ∈ s.kids.all, (p, .kill) ∈ s.sent) ∧ ∀ x ∈ s.started, x.2 = true :=
  ⟨(run_inv h).returned, (run_inv h).blocked⟩

/-- A child that does not end. -/
theorem multifscgi_ends_one :
    ∃ s : State, s.phase = .returned ∧ s.kids.all = [7] ∧ (7, .kill) ∈ s.sent := by
  have h : run 1 false [.forked 7, .go, .term, .selected, .go, .go, .go, .time true, .go, .go,
    .time true, .go, .go] = some _ := rfl
  exact ⟨_, rfl, rfl, (multifscgi_ends h).1 rfl 7 (List.mem_singleton_self 7)⟩

end Ashd.Forking.Multifscgi
