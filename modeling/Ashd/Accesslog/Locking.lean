import Ashd.Accesslog.Log
import Ashd.Common.Advisory

/-!
# The lock on the log file of `src/accesslog.c`

An `accesslog` holds a lock on the file that it writes to, so that no other one writes to the same
file, and so that `accesslog -P` can tell which process to send a `SIGHUP` when the file has been
renamed. On the signal, `reopenlog` opens the file that now has the name, and locks it, before it
closes the old one.

The model is any number of processes at their system calls, which are interleaved with each other
and with whatever else is done to the names of the files. A system call fails, or a file is
created, as the step says. Only the descriptors of the log file, and of the file for the process
ID, are modelled.

Main results:
* `reachable_inv`: what every process has open and locked, at each of its system calls.
* `exclusive`: no two processes have the same file locked for logging, and `-P` names the one that
  has.
-/

namespace Ashd.Accesslog.Locking

open Advisory

/-! ## Files and processes -/

abbrev Pid := ℕ

/-- A file, as `st_dev` and `st_ino` tell it. -/
structure Stat where
  dev : ℕ
  ino : ℕ
  deriving DecidableEq

/-- Which files there are by which names. -/
abbrev Names := Bytes → Option Stat

/-- What the kernel says to a system call: whether it fails, for a reason that the model does not
    know of, and which file is created where there is none. -/
structure Answer where
  fails : Bool := false
  created : Stat := ⟨0, 0⟩

/-- `fopen` for appending, or for writing. -/
def fopen (dir : Names) (name : Bytes) (ans : Answer) : Option (Names × Stat) :=
  if ans.fails then none
  else
    match dir name with
    | some f => some (dir, f)
    | none => some (Function.update dir name (some ans.created), ans.created)

/-- The system call that a process makes next; `out` is the file that it logs to. -/
inductive Phase
  /-- `main`: `lockfile(out)`. -/
  | lock (out : Stat)
  /-- `main`: `fopen(pidfile, "w")`. -/
  | pidopen (out : Stat)
  /-- `main`: `fclose(pidout)`. -/
  | pidclose (out pidout : Stat)
  /-- `sloop` and `floop`. -/
  | loop (out : Stat)
  /-- `reopenlog`: `fstat(fileno(out), &olds)`. -/
  | fstat (out : Stat)
  /-- `reopenlog`: `stat(outname, &news)`. -/
  | stat (out : Stat)
  /-- `reopenlog`: `fopen(outname, "a")`. -/
  | reopen (out : Stat)
  /-- `reopenlog`: `lockfile(new)`. -/
  | relock (out new : Stat)
  /-- `reopenlog`: `fclose(new)`. -/
  | revert (out new : Stat)
  /-- `reopenlog`: `fclose(out)`; `locked` says whether `new` could be locked. -/
  | replace (out new : Stat) (locked : Bool)

/-- The file that is logged to. -/
def Phase.out : Phase → Stat
  | lock out | pidopen out | pidclose out _ | loop out | fstat out | stat out | reopen out
  | relock out _ | revert out _ | replace out _ _ => out

/-- The other file that is open. -/
def Phase.other : Phase → Option Stat
  | pidclose _ f | relock _ f | revert _ f | replace _ f _ => some f
  | lock _ | pidopen _ | loop _ | fstat _ | stat _ | reopen _ => none

def Phase.files (ph : Phase) : List Stat := ph.out :: ph.other.toList

/-- What `main` has found on the command line. -/
structure Opts where
  outname : Option Bytes
  locklog : Bool := true
  pidfile : Option Bytes := none

/-- A process that runs `accesslog`. `locked` is no variable of the program: it says whether the
    lock on `out` has been granted. -/
structure Proc extends Opts where
  phase : Phase
  locked : Bool := false

structure Sys where
  dir : Names
  locks : Table Pid Stat
  procs : Pid → Option Proc

/-- No `accesslog` runs. -/
def Sys.init (dir : Names) : Sys := ⟨dir, .empty, fun _ => none⟩

/-! ## The program -/

/-- The name of the file for the process ID (src/accesslog.c:563–570). -/
def Opts.pidname (c : Opts) : Option Bytes :=
  c.pidfile.bind fun pidfile => if pidfile = [45] then c.outname.map (· ++ bytes ".pid") else pidfile

/-- `main` up to the lock (src/accesslog.c:534–547). Standard output is a file that is open
    already. -/
def main (dir : Names) (t : Table Pid Stat) (p : Pid) (c : Opts) (stdout : Stat) (ans : Answer) :
    Names × Table Pid Stat × Option Proc :=
  match c.outname with
  | none => (dir, t.opened p stdout, some { c with locklog := false, phase := .lock stdout })
  | some outname =>
    match fopen dir outname ans with
    | none => (dir, t.exited p, none)
    | some (dir', out) => (dir', t.opened p out, some { c with phase := .lock out })

/-- What is opened next, if anything is. -/
def Proc.opens (pr : Proc) (dir : Names) (ans : Answer) : Option (Names × Stat) :=
  match pr.phase with
  | .pidopen _ => pr.pidname.bind (fopen dir · ans)
  | .reopen _ => pr.outname.bind (fopen dir · ans)
  | _ => none

/-- The next system call of `main` (src/accesslog.c:548–577) or of `reopenlog`
    (src/accesslog.c:360–403), and what follows up to the one after it. A process that exits is
    `none`. -/
def syscall (dir : Names) (t : Table Pid Stat) (p : Pid) (pr : Proc) (ans : Answer) :
    Option (Names × Table Pid Stat × Option Proc) :=
  match pr.phase with
  | .lock out =>
    if pr.locklog then
      -- "accesslog: could not lock logfile"
      if ans.fails then some (dir, t, some { pr with phase := .pidopen out })
      else
        match t.setlk p out with
        | some t' => some (dir, t', some { pr with phase := .pidopen out, locked := true })
        -- "accesslog: logfile is already locked"
        | none => some (dir, t.exited p, none)
    else some (dir, t, some { pr with phase := .pidopen out })
  | .pidopen out =>
    if pr.pidfile = none then some (dir, t, some { pr with phase := .loop out })
    else
      match pr.opens dir ans with
      | none => some (dir, t.exited p, none)
      | some (dir', pidout) =>
        some (dir', t.opened p pidout, some { pr with phase := .pidclose out pidout })
  | .pidclose out pidout => some (dir, t.closed p pidout, some { pr with phase := .loop out })
  | .loop _ => none
  | .fstat out =>
    some (dir, t, some { pr with phase := if ans.fails then .loop out else .stat out })
  | .stat out =>
    if ans.fails then some (dir, t, some { pr with phase := .reopen out })
    else
      match pr.outname.bind dir with
      | some news =>
        some (dir, t, some { pr with
          phase := if out.dev = news.dev ∧ out.ino = news.ino then .loop out else .reopen out })
      | none => some (dir, t, some { pr with phase := .reopen out })
  | .reopen out =>
    match pr.opens dir ans with
    | none => some (dir, t, some { pr with phase := .loop out })
    | some (dir', new) => some (dir', t.opened p new, some { pr with phase := .relock out new })
  | .relock out new =>
    if pr.locklog then
      -- "accesslog: could not lock logfile, so no lock will be held"
      if ans.fails then some (dir, t, some { pr with phase := .replace out new false })
      else
        match t.setlk p new with
        | some t' => some (dir, t', some { pr with phase := .replace out new true })
        -- "accesslog: logfile is already locked; reverting to current log"
        | none => some (dir, t, some { pr with phase := .revert out new })
    else some (dir, t, some { pr with phase := .replace out new false })
  | .revert out new => some (dir, t.closed p new, some { pr with phase := .loop out })
  | .replace out new locked =>
    some (dir, t.closed p out, some { pr with phase := .loop new, locked := locked })

/-- `reopenlog` up to its first system call (src/accesslog.c:356–360). -/
def sighup (pr : Proc) : Option Proc :=
  match pr.phase with
  | .loop out =>
    if pr.outname = none then some pr
    else some { pr with phase := if pr.locklog then .fstat out else .reopen out }
  | _ => none

/-- `fetchpid` (src/accesslog.c:324–349), which is a process that has nothing locked. -/
def fetchpid (s : Sys) (filename : Bytes) : Option Pid := (s.dir filename).bind s.locks.owner

/-! ## Runs -/

inductive Act
  /-- Somebody starts an `accesslog`. -/
  | start (p : Pid) (c : Opts) (stdout : Stat) (ans : Answer)
  /-- `p` makes its next system call. -/
  | syscall (p : Pid) (ans : Answer)
  /-- `p` comes to handle a `SIGHUP`. -/
  | sighup (p : Pid)
  /-- `p` ends, or is killed, which may be at any time. -/
  | exit (p : Pid)
  /-- Files are renamed, removed or created by somebody else. -/
  | names (dir : Names)

def Sys.set (s : Sys) (p : Pid) (r : Names × Table Pid Stat × Option Proc) : Sys :=
  ⟨r.1, r.2.1, Function.update s.procs p r.2.2⟩

/-- What happens next, unless it cannot happen. -/
def Sys.step (s : Sys) : Act → Option Sys
  | .start p c stdout ans =>
    match s.procs p with
    | some _ => none
    | none => some (s.set p (main s.dir s.locks p c stdout ans))
  | .syscall p ans =>
    (s.procs p).bind fun pr => (syscall s.dir s.locks p pr ans).map (s.set p)
  | .sighup p =>
    (s.procs p).bind fun pr => (sighup pr).map fun pr' => s.set p (s.dir, s.locks, some pr')
  | .exit p => (s.procs p).map fun _ => s.set p (s.dir, s.locks.exited p, none)
  | .names dir => some { s with dir := dir }

/-- A process opens its log file a second time: the file has had another name when `reopenlog`
    looked, and has its old one back, or is the one for the process ID. -/
def OpensAgain (s : Sys) : Act → Prop
  | .syscall p ans =>
    ∃ pr, s.procs p = some pr ∧ pr.locklog = true ∧
      ∃ dir, pr.opens s.dir ans = some (dir, pr.phase.out)
  | _ => False

/-- The states of the runs in which no process opens its log file a second time. -/
inductive Reachable : Sys → Prop
  | init (dir : Names) : Reachable (.init dir)
  | step {s s' : Sys} {a : Act} (hs : Reachable s) (ha : ¬OpensAgain s a) (h : s.step a = some s') :
      Reachable s'

/-! ## The invariant -/

/-- A process has what it is to close open and nothing else, holds the lock on the file that it
    logs to if it has been granted, and on the one that is to replace it, and has not opened the
    former twice. -/
structure Proc.Ok (t : Table Pid Stat) (p : Pid) (pr : Proc) : Prop where
  fds : t.fds p = pr.phase.files
  lock : pr.locked = true → pr.locklog = true ∧ t.owner pr.phase.out = some p
  newlock : ∀ out new, pr.phase = .replace out new true →
    pr.locklog = true ∧ t.owner new = some p
  once : pr.locklog = true → pr.phase.other ≠ some pr.phase.out

/-- Every process is as it is to be, and one that is gone has left nothing. -/
structure Inv (s : Sys) : Prop where
  gone : ∀ p, s.procs p = none → s.locks.fds p = []
  ok : ∀ p pr, s.procs p = some pr → pr.Ok s.locks p

/-- What the others do is of no consequence to a process. -/
theorem Proc.Ok.of_only {t t' : Table Pid Stat} {p q : Pid} {pr : Proc} (h : pr.Ok t q)
    (ht : Table.Only p t t') (hq : q ≠ p) : pr.Ok t' q where
  fds := (ht q hq).1.trans h.fds
  lock hl := ⟨(h.lock hl).1, ((ht q hq).2 _).mpr (h.lock hl).2⟩
  newlock out new hph := ⟨(h.newlock out new hph).1, ((ht q hq).2 _).mpr (h.newlock out new hph).2⟩
  once := h.once

/-- What `p` has done leaves the invariant, if `p` is as it is to be. -/
theorem Inv.set {s : Sys} (hs : Inv s) {p : Pid} {dir : Names} {t : Table Pid Stat}
    {r : Option Proc} (ht : Table.Only p s.locks t) (hgone : r = none → t.fds p = [])
    (hok : ∀ pr, r = some pr → pr.Ok t p) : Inv (s.set p (dir, t, r)) where
  gone q hq := by
    by_cases hqp : q = p
    · subst hqp
      exact hgone (by simpa [Sys.set] using hq)
    · have hq' : s.procs q = none := by simpa [Sys.set, hqp] using hq
      exact (ht q hqp).1.trans (hs.gone q hq')
  ok q pr hq := by
    by_cases hqp : q = p
    · subst hqp
      exact hok pr (by simpa [Sys.set] using hq)
    · have hq' : s.procs q = some pr := by simpa [Sys.set, hqp] using hq
      exact (hs.ok q pr hq').of_only ht hqp

/-! ## What a system call does -/

theorem main_only {dir : Names} (t : Table Pid Stat) (p : Pid) (c : Opts) (stdout : Stat)
    (ans : Answer) : Table.Only p t (main dir t p c stdout ans).2.1 := by
  unfold main
  split
  · exact Table.only_opened t p _
  · split
    · exact Table.only_exited t p
    · exact Table.only_opened t p _

theorem syscall_only {dir dir' : Names} {t t' : Table Pid Stat} {p : Pid} {pr : Proc} {ans : Answer}
    {r : Option Proc} (h : syscall dir t p pr ans = some (dir', t', r)) : Table.Only p t t' := by
  unfold syscall at h
  split at h
  all_goals (try split at h) <;> (try split at h) <;> (try split at h) <;> cases h
  all_goals first
    | exact Table.only_refl p t
    | exact Table.only_exited t p
    | exact Table.only_opened t p _
    | exact Table.only_closed t p _
    | exact Table.only_setlk ‹_›

section
variable {t t' : Table Pid Stat} {p : Pid} {pr : Proc} {ph : Phase}

/-- The system call has opened, locked and closed nothing. -/
theorem Proc.Ok.stay (h : pr.Ok t p) (hpr : pr.phase = ph) (ph' : Phase) (hout : ph'.out = ph.out)
    (hother : ph'.other = ph.other) (hph : ∀ out new, ph' ≠ .replace out new true) :
    ({ pr with phase := ph' } : Proc).Ok t p where
  fds := by rw [h.fds, Phase.files, Phase.files, hout, hother, hpr]
  lock hl := by
    rw [hout, ← hpr]
    exact h.lock hl
  newlock out new hr := absurd hr (hph out new)
  once hl := by
    rw [hout, hother, ← hpr]
    exact h.once hl

/-- A second file has been opened, which is not the log file. -/
theorem Proc.Ok.opened (h : pr.Ok t p) (hpr : pr.phase = ph) (hnone : ph.other = none) {f : Stat}
    (ph' : Phase) (hout : ph'.out = ph.out) (hother : ph'.other = some f)
    (hph : ∀ out new, ph' ≠ .replace out new true) (hf : pr.locklog = true → f ≠ pr.phase.out) :
    ({ pr with phase := ph' } : Proc).Ok (t.opened p f) p where
  fds := by
    rw [Table.fds_opened, if_pos rfl, h.fds, Phase.files, Phase.files, hout, hother, hpr, hnone]
    rfl
  lock hl := by
    rw [hout, ← hpr]
    exact h.lock hl
  newlock out new hr := absurd hr (hph out new)
  once hl := by
    rw [hout, hother, ← hpr]
    exact fun hfo => hf hl (Option.some.inj hfo)

/-- The second file has been closed again. -/
theorem Proc.Ok.closed (h : pr.Ok t p) (hpr : pr.phase = ph) {f : Stat} (hsome : ph.other = some f)
    (ph' : Phase) (hout : ph'.out = ph.out) (hother : ph'.other = none)
    (hph : ∀ out new, ph' ≠ .replace out new true) :
    ({ pr with phase := ph' } : Proc).Ok (t.closed p f) p where
  fds := by
    rw [Table.fds_closed, if_pos rfl, h.fds, Phase.files, Phase.files, hout, hother, hpr, hsome]
    by_cases hf : ph.out = f
    · simp [hf]
    · simp [hf]
  lock hl := by
    have hne : ph.out ≠ f := fun hf => h.once (h.lock hl).1 (by rw [hpr, hsome, hf])
    rw [hout, Table.owner_closed, if_neg fun hf => hne hf.1, ← hpr]
    exact h.lock hl
  newlock out new hr := absurd hr (hph out new)
  once hl := by
    rw [hother]
    nofun

/-- The log file has been locked. -/
theorem Proc.Ok.granted (h : pr.Ok t p) (hlog : pr.locklog = true) {out : Stat}
    (hpr : pr.phase = .lock out) (ht : t.setlk p out = some t') :
    ({ pr with phase := .pidopen out, locked := true } : Proc).Ok t' p := by
  obtain ⟨-, hfds, howner⟩ := Table.setlk_eq_some ht
  refine ⟨?_, fun _ => ⟨hlog, ?_⟩, nofun, nofun⟩
  · rw [hfds, h.fds, hpr]
    rfl
  · rw [howner, Phase.out, if_pos rfl]

/-- The new log file has been locked. -/
theorem Proc.Ok.relocked (h : pr.Ok t p) (hlog : pr.locklog = true) {out new : Stat}
    (hpr : pr.phase = .relock out new) (ht : t.setlk p new = some t') :
    ({ pr with phase := .replace out new true } : Proc).Ok t' p := by
  obtain ⟨-, hfds, howner⟩ := Table.setlk_eq_some ht
  have hone := h.once hlog
  have hlock := h.lock
  rw [hpr, Phase.other, Phase.out] at hone
  rw [hpr] at hlock
  refine ⟨?_, fun hl => ⟨hlog, ?_⟩, ?_, fun _ => hone⟩
  · rw [hfds, h.fds, hpr]
    rfl
  · rw [howner]
    split_ifs
    · rfl
    · exact (hlock hl).2
  · rintro _ _ ⟨⟩
    exact ⟨hlog, by rw [howner, if_pos rfl]⟩

/-- The old log file has been closed. -/
theorem Proc.Ok.replaced (h : pr.Ok t p) {out new : Stat} {locked : Bool}
    (hpr : pr.phase = .replace out new locked) :
    ({ pr with phase := .loop new, locked := locked } : Proc).Ok (t.closed p out) p where
  fds := by
    rw [Table.fds_closed, if_pos rfl, h.fds, hpr]
    simp [Phase.files, Phase.out, Phase.other]
  lock hl := by
    change locked = true at hl
    subst hl
    obtain ⟨hlog, howner⟩ := h.newlock out new hpr
    have hone := h.once hlog
    rw [hpr] at hone
    have hne : new ≠ out := fun hno => hone (congrArg some hno)
    refine ⟨hlog, ?_⟩
    rw [Phase.out, Table.owner_closed, if_neg fun hno => hne hno.1]
    exact howner
  newlock := nofun
  once := nofun

end

/-- A process that goes on is as it is to be, and one that exits leaves nothing. -/
def Left (t : Table Pid Stat) (p : Pid) (r : Option Proc) : Prop :=
  (r = none → t.fds p = []) ∧ ∀ pr, r = some pr → pr.Ok t p

theorem Proc.Ok.left {t : Table Pid Stat} {p : Pid} {pr : Proc} (h : pr.Ok t p) :
    Left t p (some pr) := ⟨nofun, fun _ hpr => Option.some.inj hpr ▸ h⟩

theorem left_exited (t : Table Pid Stat) (p : Pid) : Left (t.exited p) p none :=
  ⟨fun _ => by rw [Table.fds_exited, if_pos rfl], nofun⟩

/-- A process is as it is to be after each of its system calls, unless it opens its log file a
    second time. -/
theorem syscall_left {dir dir' : Names} {t t' : Table Pid Stat} {p : Pid} {pr : Proc} {ans : Answer}
    {r : Option Proc} (h : syscall dir t p pr ans = some (dir', t', r)) (hok : pr.Ok t p)
    (hopens : pr.locklog = true → ∀ d f, pr.opens dir ans = some (d, f) → f ≠ pr.phase.out) :
    Left t' p r := by
  unfold syscall at h
  split at h
  case h_1 out hph =>
    split_ifs at h with hlog
    · cases h
      exact (hok.stay hph (.pidopen out) rfl rfl nofun).left
    · split at h
      · rename_i ht
        cases h
        exact (hok.granted hlog hph ht).left
      · cases h
        exact left_exited t p
    · cases h
      exact (hok.stay hph (.pidopen out) rfl rfl nofun).left
  case h_2 out hph =>
    split_ifs at h
    · cases h
      exact (hok.stay hph (.loop out) rfl rfl nofun).left
    · split at h
      · cases h
        exact left_exited t p
      · rename_i ho
        cases h
        exact (hok.opened hph rfl (.pidclose out _) rfl rfl nofun fun hlog => hopens hlog _ _ ho).left
  case h_3 out pidout hph =>
    cases h
    exact (hok.closed hph rfl (.loop out) rfl rfl nofun).left
  case h_4 => cases h
  case h_5 out hph =>
    cases h
    split_ifs
    · exact (hok.stay hph (.loop out) rfl rfl nofun).left
    · exact (hok.stay hph (.stat out) rfl rfl nofun).left
  case h_6 out hph =>
    split_ifs at h
    · cases h
      exact (hok.stay hph (.reopen out) rfl rfl nofun).left
    · split at h
      · cases h
        split_ifs
        · exact (hok.stay hph (.loop out) rfl rfl nofun).left
        · exact (hok.stay hph (.reopen out) rfl rfl nofun).left
      · cases h
        exact (hok.stay hph (.reopen out) rfl rfl nofun).left
  case h_7 out hph =>
    split at h
    · cases h
      exact (hok.stay hph (.loop out) rfl rfl nofun).left
    · rename_i ho
      cases h
      exact (hok.opened hph rfl (.relock out _) rfl rfl nofun fun hlog => hopens hlog _ _ ho).left
  case h_8 out new hph =>
    split_ifs at h with hlog
    · cases h
      exact (hok.stay hph (.replace out new false) rfl rfl nofun).left
    · split at h
      · rename_i ht
        cases h
        exact (hok.relocked hlog hph ht).left
      · cases h
        exact (hok.stay hph (.revert out new) rfl rfl nofun).left
    · cases h
      exact (hok.stay hph (.replace out new false) rfl rfl nofun).left
  case h_9 out new hph =>
    cases h
    exact (hok.closed hph rfl (.loop out) rfl rfl nofun).left
  case h_10 out new locked hph =>
    cases h
    exact (hok.replaced hph).left

theorem main_left (dir : Names) {t : Table Pid Stat} {p : Pid} (hp : t.fds p = []) (c : Opts)
    (stdout : Stat) (ans : Answer) :
    Left (main dir t p c stdout ans).2.1 p (main dir t p c stdout ans).2.2 := by
  have hfds : ∀ f, (t.opened p f).fds p = [f] := fun f => by
    rw [Table.fds_opened, if_pos rfl, hp, List.nil_append]
  unfold main
  split
  · exact Proc.Ok.left ⟨hfds _, nofun, nofun, nofun⟩
  · split
    · exact left_exited t p
    · exact Proc.Ok.left ⟨hfds _, nofun, nofun, nofun⟩

theorem sighup_ok {t : Table Pid Stat} {p : Pid} {pr pr' : Proc} (h : sighup pr = some pr')
    (hok : pr.Ok t p) : pr'.Ok t p := by
  unfold sighup at h
  split at h
  · rename_i hph
    split_ifs at h
    · cases h
      exact hok
    · cases h
      exact hok.stay hph (.fstat _) rfl rfl nofun
    · cases h
      exact hok.stay hph (.reopen _) rfl rfl nofun
  · cases h

/-! ## Every run -/

theorem inv_init (dir : Names) : Inv (.init dir) := ⟨fun _ _ => rfl, nofun⟩

theorem inv_step {s s' : Sys} {a : Act} (hs : Inv s) (ha : ¬OpensAgain s a)
    (h : s.step a = some s') : Inv s' := by
  cases a with
  | start p c stdout ans =>
    rw [Sys.step] at h
    split at h
    · cases h
    · rename_i hp
      cases h
      have hleft := main_left s.dir (hs.gone p hp) c stdout ans
      exact hs.set (main_only s.locks p c stdout ans) hleft.1 hleft.2
  | syscall p ans =>
    rw [Sys.step, Option.bind_eq_some_iff] at h
    obtain ⟨pr, hp, h⟩ := h
    obtain ⟨⟨dir', t', r⟩, hr, rfl⟩ := Option.map_eq_some_iff.mp h
    have hopens : pr.locklog = true →
        ∀ d f, pr.opens s.dir ans = some (d, f) → f ≠ pr.phase.out := by
      rintro hlog d _ ho rfl
      exact ha ⟨pr, hp, hlog, d, ho⟩
    have hleft := syscall_left hr (hs.ok p pr hp) hopens
    exact hs.set (syscall_only hr) hleft.1 hleft.2
  | sighup p =>
    rw [Sys.step, Option.bind_eq_some_iff] at h
    obtain ⟨pr, hp, h⟩ := h
    obtain ⟨pr', hr, rfl⟩ := Option.map_eq_some_iff.mp h
    have hleft := (sighup_ok hr (hs.ok p pr hp)).left
    exact hs.set (Table.only_refl p s.locks) hleft.1 hleft.2
  | exit p =>
    obtain ⟨pr, hp, rfl⟩ := Option.map_eq_some_iff.mp h
    have hleft := left_exited s.locks p
    exact hs.set (Table.only_exited s.locks p) hleft.1 hleft.2
  | names dir =>
    cases h
    exact ⟨hs.gone, hs.ok⟩

theorem reachable_inv {s : Sys} (hs : Reachable s) : Inv s := by
  induction hs with
  | init dir => exact inv_init dir
  | step _ ha h ih => exact inv_step ih ha h

/-- Whoever has a file locked is a process that logs to it, or is about to. -/
theorem Inv.owner {s : Sys} (hs : Inv s) {f : Stat} {p : Pid} (h : s.locks.owner f = some p) :
    ∃ pr, s.procs p = some pr ∧ f ∈ pr.phase.files := by
  have hf := s.locks.owned f p h
  cases hp : s.procs p with
  | none =>
    rw [hs.gone p hp] at hf
    cases hf
  | some pr =>
    rw [(hs.ok p pr hp).fds] at hf
    exact ⟨pr, rfl, hf⟩

/-- Of the processes that have been granted the lock on what they log to, no two log to the same
    file, however they, the signals and the renaming of files are interleaved; `accesslog -P` names
    the one that logs to the file of that name, and no process but one that has the file open. -/
theorem exclusive {s : Sys} (hs : Reachable s) :
    (∀ p q pr qr, s.procs p = some pr → s.procs q = some qr → pr.locked = true →
      qr.locked = true → pr.phase.out = qr.phase.out → p = q) ∧
    (∀ p pr filename, s.procs p = some pr → pr.locked = true →
      s.dir filename = some pr.phase.out → fetchpid s filename = some p) ∧
    ∀ p filename, fetchpid s filename = some p →
      ∃ pr f, s.procs p = some pr ∧ s.dir filename = some f ∧ f ∈ pr.phase.files := by
  have hinv := reachable_inv hs
  refine ⟨fun p q pr qr hp hq hpl hql hpq => ?_, fun p pr filename hp hpl hdir => ?_,
    fun p filename h => ?_⟩
  · have hpo := ((hinv.ok p pr hp).lock hpl).2
    have hqo := ((hinv.ok q qr hq).lock hql).2
    rw [hpq, hqo] at hpo
    exact (Option.some.inj hpo).symm
  · rw [fetchpid, hdir, Option.bind_some]
    exact ((hinv.ok p pr hp).lock hpl).2
  · obtain ⟨f, hdir, ho⟩ := Option.bind_eq_some_iff.mp h
    obtain ⟨pr, hp, hf⟩ := hinv.owner ho
    exact ⟨pr, f, hp, hdir, hf⟩

/-- The log is renamed, and the first of the two takes up the new one; the second is started on the
    old one then. -/
theorem exclusive_rotation :
    ∃ s, Reachable s ∧ fetchpid s (bytes "log") = some 1 ∧ fetchpid s (bytes "log.1") = some 2 := by
  have hidle : ∀ {s : Sys} {p : Pid} {ans : Answer} {pr : Proc}, s.procs p = some pr →
      pr.opens s.dir ans = none → ¬OpensAgain s (.syscall p ans) := by
    rintro s p ans pr hp ho ⟨pr', hp', -, dir, ho'⟩
    rw [hp] at hp'
    cases hp'
    rw [ho] at ho'
    cases ho'
  have hnew : ∀ {s : Sys} {p : Pid} {ans : Answer} {pr : Proc} {r : Names × Stat},
      s.procs p = some pr → pr.opens s.dir ans = some r → r.2 ≠ pr.phase.out →
      ¬OpensAgain s (.syscall p ans) := by
    rintro s p ans pr r hp ho hr ⟨pr', hp', -, dir, ho'⟩
    rw [hp] at hp'
    cases hp'
    rw [ho] at ho'
    cases ho'
    exact hr rfl
  -- the first one starts and locks
  have h := Reachable.init fun n => if n = bytes "log" then some ⟨0, 7⟩ else none
  have h := h.step (a := .start 1 { outname := bytes "log" } ⟨0, 1⟩ {}) id rfl
  have h := h.step (a := .syscall 1 {}) (hidle rfl rfl) rfl
  have h := h.step (a := .syscall 1 {}) (hidle rfl rfl) rfl
  -- `mv log log.1`
  have h := h.step (a := .names fun n => if n = bytes "log.1" then some ⟨0, 7⟩ else none) id rfl
  have h := h.step (a := .sighup 1) id rfl
  have h := h.step (a := .syscall 1 {}) (hidle rfl rfl) rfl
  have h := h.step (a := .syscall 1 {}) (hidle rfl rfl) rfl
  have h := h.step (a := .syscall 1 { created := ⟨0, 8⟩ }) (hnew rfl rfl (by decide)) rfl
  have h := h.step (a := .syscall 1 {}) (hidle rfl rfl) rfl
  have h := h.step (a := .syscall 1 {}) (hidle rfl rfl) rfl
  -- the second one starts and locks
  have h := h.step (a := .start 2 { outname := bytes "log.1" } ⟨0, 1⟩ {}) id rfl
  have h := h.step (a := .syscall 2 {}) (hidle rfl rfl) rfl
  exact ⟨_, h, (exclusive h).2.1 1 _ _ rfl rfl rfl, (exclusive h).2.1 2 _ _ rfl rfl rfl⟩

/-- The race of the comment in `reopenlog`: the log has its name back between `stat` and `fopen`. The
    lock is lost, and a second process logs to the same file. -/
example :
    ((([.start 1 { outname := bytes "log" } ⟨0, 1⟩ {}, .syscall 1 {}, .syscall 1 {},
        .names fun _ => none, .sighup 1, .syscall 1 {}, .syscall 1 {},
        .names fun n => if n = bytes "log" then some ⟨0, 7⟩ else none,
        .syscall 1 {}, .syscall 1 {}, .syscall 1 {},
        .start 2 { outname := bytes "log" } ⟨0, 1⟩ {}, .syscall 2 {}] : List Act).foldlM Sys.step
      (.init fun n => if n = bytes "log" then some ⟨0, 7⟩ else none)).bind fun s =>
        (s.procs 1).bind fun pr => (s.procs 2).map fun qr => (pr.phase.out, qr.phase.out)) =
      some (⟨0, 7⟩, ⟨0, 7⟩) := rfl

end Ashd.Accesslog.Locking
