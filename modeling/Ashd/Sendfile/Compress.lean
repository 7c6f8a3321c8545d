import Ashd.Common.Bytes
import Ashd.Common.Run
import Mathlib.Logic.Function.Basic

/-!
# The compressed files that `compress.c` keeps

`openbytype` looks for a compressed file that is not older than the file itself, and makes one if
there is none. Many processes may do so at the same time, while the files are changed and old
compressed files are removed. A process writes to a file of its own, named after its number, which
`rename` puts in the place of the one that others look for.

A file is known by its inode. All that it has ever been is listed. What `zlib` makes of its content
is a parameter. Between the first `read` of a file and the last `write` of what is made of it, it
may be changed, and then anything may have been read.

Main results:
* `openbytype_version`: what a process gets has been made of something that the file has been since
  the process opened it, if no file is changed while it is compressed, or in the same second.
-/

namespace Ashd.Sendfile.Compress

/-! ## Model -/

/-- What a file is at a time. -/
structure Version where
  content : Bytes
  mtime : ℤ

/-- A compressed file. -/
structure Ccfile where
  data : Bytes
  mtime : ℤ

/-- How far `openbytype` is: it has been called, it is in `type->compress`, and the file that it
    reads has been changed or has not, it is going to call `rename`, or it has returned. -/
inductive Phase
  | called
  | compress (changed : Bool)
  | rename (f : Ccfile)
  | returned (data : Option Bytes)

/-- A process in `ccopen`, with `info->st_mtime`. `since` tells which version of the file it was
    taken from. -/
structure Proc where
  ino : ℕ
  mtime : ℤ
  since : ℕ
  phase : Phase := .called

/-- The versions of the files, from the first one on, the compressed files in `cachedir`, by the
    inode in their name, and the processes. -/
structure Sys where
  versions : ℕ → List Version
  cachedir : ℕ → Option Ccfile := fun _ => none
  procs : ℕ → Option Proc := fun _ => none

/-- What happens. -/
inductive Act
  /-- A file is written, or another file gets its inode. -/
  | write (ino : ℕ) (v : Version)
  /-- `checkclean` removes a compressed file. -/
  | clean (ino : ℕ)
  /-- `ccopen` has opened a file and called `fstat`. -/
  | fstat (p ino : ℕ)
  /-- The compressed file is looked for (compress.c:189–197). -/
  | lookup (p : ℕ)
  /-- `type->compress` has written `f`. -/
  | compress (p : ℕ) (f : Ccfile)
  /-- `rename`, and the rest of `openbytype`. -/
  | rename (p : ℕ)
  /-- A system call has failed, so that `openbytype` returns -1. -/
  | error (p : ℕ)
  /-- The process is through with the request. -/
  | exit (p : ℕ)

/-- The file that a process compresses is changed. -/
def Phase.change : Phase → Phase
  | .compress _ => .compress true
  | ph => ph

/-- A process goes on. -/
def Sys.goto (s : Sys) (p : ℕ) (pr : Proc) (ph : Phase) : Sys :=
  { s with procs := Function.update s.procs p (some { pr with phase := ph }) }

/-- A step, if it is possible. -/
def step (deflate : Bytes → Bytes) (s : Sys) : Act → Option Sys
  | .write ino v =>
    some { s with
      versions := Function.update s.versions ino (s.versions ino ++ [v])
      procs := fun p => (s.procs p).map fun pr =>
        if pr.ino = ino then { pr with phase := pr.phase.change } else pr }
  | .clean ino => some { s with cachedir := Function.update s.cachedir ino none }
  | .fstat p ino =>
    match s.procs p, (s.versions ino).getLast? with
    | none, some v =>
      let pr : Proc := { ino := ino, mtime := v.mtime, since := (s.versions ino).length - 1 }
      some { s with procs := Function.update s.procs p (some pr) }
    | _, _ => none
  | .lookup p =>
    match s.procs p with
    | some pr =>
      match pr.phase with
      | .called =>
        match s.cachedir pr.ino with
        | some f =>
          if f.mtime ≥ pr.mtime then some (s.goto p pr (.returned (some f.data)))
          else some (s.goto p pr (.compress false))
        | none => some (s.goto p pr (.compress false))
      | _ => none
    | none => none
  | .compress p f =>
    match s.procs p with
    | some pr =>
      match pr.phase with
      | .compress changed =>
        if changed = true ∨ ∃ v ∈ (s.versions pr.ino).getLast?, f.data = deflate v.content then
          some (s.goto p pr (.rename f))
        else none
      | _ => none
    | none => none
  | .rename p =>
    match s.procs p with
    | some pr =>
      match pr.phase with
      | .rename f =>
        some { s.goto p pr (.returned (some f.data)) with
          cachedir := Function.update s.cachedir pr.ino (some f) }
      | _ => none
    | none => none
  | .error p =>
    match s.procs p with
    | some pr =>
      match pr.phase with
      | .returned _ => none
      | _ => some (s.goto p pr (.returned none))
    | none => none
  | .exit p => some { s with procs := Function.update s.procs p none }

/-- A run, if it is possible. -/
def run (deflate : Bytes → Bytes) (s : Sys) (acts : List Act) : Option Sys :=
  acts.foldlM (step deflate) s

/-! ## Specification -/

/-- A compressed file of `ino` that is looked for, or is going to be. -/
def Kept (s : Sys) (ino : ℕ) (f : Ccfile) : Prop :=
  s.cachedir ino = some f ∨ ∃ p pr, s.procs p = some pr ∧ pr.ino = ino ∧ pr.phase = .rename f

/-- A file is only changed while it is not compressed, and is newer then than what has been made of
    it before. -/
def QuietAct (s : Sys) : Act → Prop
  | .write ino v =>
    (∀ p pr, s.procs p = some pr → pr.ino = ino → ∀ changed, pr.phase ≠ .compress changed) ∧
      ∀ f, Kept s ino f → f.mtime < v.mtime
  | _ => True

/-- A run in which files are only changed so. -/
def Quiet (deflate : Bytes → Bytes) : Sys → List Act → Prop
  | _, [] => True
  | s, a :: acts =>
    QuietAct s a ∧ ∀ s', step deflate s a = some s' → Quiet deflate s' acts

variable {deflate : Bytes → Bytes} {s s' : Sys}

/-- What is made of a version of a file, not before `since`. -/
def Made (deflate : Bytes → Bytes) (s : Sys) (ino since : ℕ) (data : Bytes) : Prop :=
  ∃ k v, since ≤ k ∧ (s.versions ino)[k]? = some v ∧ data = deflate v.content

/-- A compressed file is of the last version of a file, or older than that, and so for every process
    that has opened the file. -/
def Fresh (deflate : Bytes → Bytes) (s : Sys) (ino : ℕ) (f : Ccfile) : Prop :=
  ∃ k v, (s.versions ino)[k]? = some v ∧ f.data = deflate v.content ∧
    (∀ w ∈ (s.versions ino).getLast?, k + 1 = (s.versions ino).length ∨ f.mtime < w.mtime) ∧
      ∀ p pr, s.procs p = some pr → pr.ino = ino → pr.since ≤ k ∨ f.mtime < pr.mtime

/-- What holds in every state of a quiet run. -/
structure Inv (deflate : Bytes → Bytes) (s : Sys) : Prop where
  since : ∀ p pr, s.procs p = some pr →
    ∃ v, (s.versions pr.ino)[pr.since]? = some v ∧ v.mtime = pr.mtime
  unchanged : ∀ p pr, s.procs p = some pr → pr.phase ≠ .compress true
  kept : ∀ ino f, Kept s ino f → Fresh deflate s ino f
  renamed : ∀ p pr f, s.procs p = some pr → pr.phase = .rename f →
    Made deflate s pr.ino pr.since f.data
  returned : ∀ p pr data, s.procs p = some pr → pr.phase = .returned (some data) →
    Made deflate s pr.ino pr.since data

/-! ## A process goes on -/

theorem update_eq_some {α : Type*} {f : ℕ → Option α} {a b : ℕ} {o : Option α} {x : α}
    (h : Function.update f a o b = some x) : b = a ∧ o = some x ∨ b ≠ a ∧ f b = some x := by
  by_cases hb : b = a
  · subst hb
    rw [Function.update_self] at h
    exact .inl ⟨rfl, h⟩
  · rw [Function.update_of_ne hb] at h
    exact .inr ⟨hb, h⟩

/-- A process that has gone on is one that was there. -/
theorem goto_procs {p q : ℕ} {pr pr' : Proc} {ph : Phase} (hp : s.procs p = some pr)
    (h : (s.goto p pr ph).procs q = some pr') :
    ∃ pr₀, s.procs q = some pr₀ ∧ pr'.ino = pr₀.ino ∧ pr'.since = pr₀.since ∧
      pr'.mtime = pr₀.mtime ∧ (pr'.phase = ph ∧ pr₀ = pr ∨ pr' = pr₀) := by
  rcases update_eq_some h with ⟨rfl, heq⟩ | ⟨-, hq⟩
  · cases heq
    exact ⟨pr, hp, rfl, rfl, rfl, .inl ⟨rfl, rfl⟩⟩
  · exact ⟨pr', hq, rfl, rfl, rfl, .inr rfl⟩

theorem Fresh.goto {ino p : ℕ} {pr : Proc} {f : Ccfile} (h : Fresh deflate s ino f)
    (hp : s.procs p = some pr) (ph : Phase) : Fresh deflate (s.goto p pr ph) ino f := by
  obtain ⟨k, v, hv, hdata, hlast, hprocs⟩ := h
  refine ⟨k, v, hv, hdata, hlast, fun q pr' hq hino => ?_⟩
  obtain ⟨pr₀, hq₀, heq, hsince, hmtime, -⟩ := goto_procs hp hq
  rw [hsince, hmtime]
  exact hprocs q pr₀ hq₀ (heq.symm.trans hino)

theorem Inv.goto (hs : Inv deflate s) {p : ℕ} {pr : Proc} {ph : Phase} (hp : s.procs p = some pr)
    (hcompress : ph ≠ .compress true)
    (hrename : ∀ f, ph = .rename f →
      Fresh deflate s pr.ino f ∧ Made deflate s pr.ino pr.since f.data)
    (hreturned : ∀ data, ph = .returned (some data) → Made deflate s pr.ino pr.since data) :
    Inv deflate (s.goto p pr ph) where
  since q pr' hq := by
    obtain ⟨pr₀, hq₀, hino, hsince, hmtime, -⟩ := goto_procs hp hq
    rw [hino, hsince, hmtime]
    exact hs.since q pr₀ hq₀
  unchanged q pr' hq := by
    obtain ⟨pr₀, hq₀, -, -, -, ⟨hph, -⟩ | rfl⟩ := goto_procs hp hq
    · rw [hph]
      exact hcompress
    · exact hs.unchanged q pr' hq₀
  kept ino f hf := by
    rcases hf with hf | ⟨q, pr', hq, hino, hph⟩
    · exact (hs.kept ino f (.inl hf)).goto hp ph
    · obtain ⟨pr₀, hq₀, hino₀, -, -, ⟨hph', rfl⟩ | rfl⟩ := goto_procs hp hq
      · rw [hph'] at hph
        rw [← hino, hino₀]
        exact (hrename f hph).1.goto hp ph
      · exact (hs.kept ino f (.inr ⟨q, pr', hq₀, hino, hph⟩)).goto hp ph
  renamed q pr' f hq hph := by
    obtain ⟨pr₀, hq₀, hino, hsince, -, ⟨hph', rfl⟩ | rfl⟩ := goto_procs hp hq
    · rw [hph'] at hph
      rw [hino, hsince]
      exact (hrename f hph).2
    · exact hs.renamed q pr' f hq₀ hph
  returned q pr' data hq hph := by
    obtain ⟨pr₀, hq₀, hino, hsince, -, ⟨hph', rfl⟩ | rfl⟩ := goto_procs hp hq
    · rw [hph'] at hph
      rw [hino, hsince]
      exact hreturned data hph
    · exact hs.returned q pr' data hq₀ hph

/-- The compressed files that others find are some of those that there were. -/
theorem Inv.cachedir (hs : Inv deflate s) {cachedir : ℕ → Option Ccfile}
    (h : ∀ ino f, cachedir ino = some f → Kept s ino f) :
    Inv deflate { s with cachedir := cachedir } where
  since := hs.since
  unchanged := hs.unchanged
  kept ino f hf := hs.kept ino f <| hf.elim (h ino f) .inr
  renamed := hs.renamed
  returned := hs.returned

/-! ## The steps -/

theorem inv_start (versions : ℕ → List Version) : Inv deflate { versions := versions } where
  since p pr h := by cases h
  unchanged p pr h := by cases h
  kept ino f h := by
    rcases h with h | ⟨p, pr, h, -⟩ <;> cases h
  renamed p pr f h := by cases h
  returned p pr data h := by cases h

theorem getLast?_index {l : List Version} {v : Version} (h : l.getLast? = some v) :
    l[l.length - 1]? = some v := by
  rw [← h, List.getLast?_eq_getElem?]

theorem inv_fstat (hs : Inv deflate s) {p ino : ℕ}
    (h : step deflate s (.fstat p ino) = some s') : Inv deflate s' := by
  simp only [step] at h
  split at h
  · rename_i v hp hv
    cases h
    have hlast := getLast?_index hv
    have hprocs := fun q pr' => @update_eq_some Proc s.procs p q (some
      { ino := ino, mtime := v.mtime, since := (s.versions ino).length - 1 }) pr'
    refine ⟨fun q pr' hq => ?_, fun q pr' hq => ?_, fun i f hf => ?_, fun q pr' f hq hph => ?_,
      fun q pr' data hq hph => ?_⟩
    · rcases hprocs q pr' hq with ⟨-, heq⟩ | ⟨-, hq⟩
      · cases heq
        exact ⟨v, hlast, rfl⟩
      · exact hs.since q pr' hq
    · rcases hprocs q pr' hq with ⟨-, heq⟩ | ⟨-, hq⟩
      · cases heq
        exact nofun
      · exact hs.unchanged q pr' hq
    · have hold : Kept s i f := by
        rcases hf with hf | ⟨q, pr', hq, hino, hph⟩
        · exact .inl hf
        · rcases hprocs q pr' hq with ⟨-, heq⟩ | ⟨-, hq⟩
          · cases heq
            cases hph
          · exact .inr ⟨q, pr', hq, hino, hph⟩
      obtain ⟨k, w, hw, hdata, hlater, hold⟩ := hs.kept i f hold
      refine ⟨k, w, hw, hdata, hlater, fun q pr' hq hino => ?_⟩
      rcases hprocs q pr' hq with ⟨-, heq⟩ | ⟨-, hq⟩
      · -- The process takes the time of the last version.
        cases heq
        cases hino
        rcases hlater v hv with hk | hlt
        · have hk : k + 1 = (s.versions ino).length := hk
          exact .inl (show (s.versions ino).length - 1 ≤ k by omega)
        · exact .inr hlt
      · exact hold q pr' hq hino
    · rcases hprocs q pr' hq with ⟨-, heq⟩ | ⟨-, hq⟩
      · cases heq
        cases hph
      · exact hs.renamed q pr' f hq hph
    · rcases hprocs q pr' hq with ⟨-, heq⟩ | ⟨-, hq⟩
      · cases heq
        cases hph
      · exact hs.returned q pr' data hq hph
  · cases h

theorem inv_lookup (hs : Inv deflate s) {p : ℕ} (h : step deflate s (.lookup p) = some s') :
    Inv deflate s' := by
  simp only [step] at h
  split at h
  · rename_i pr hp
    have hgo : Inv deflate (s.goto p pr (.compress false)) := hs.goto hp nofun nofun nofun
    split at h
    · split at h
      · rename_i f hf
        split_ifs at h with hnewer
        · cases h
          refine hs.goto hp nofun nofun fun data heq => ?_
          cases heq
          obtain ⟨k, v, hv, hdata, -, hprocs⟩ := hs.kept pr.ino f (.inl hf)
          rcases hprocs p pr hp rfl with hk | hlt
          · exact ⟨k, v, hk, hv, hdata⟩
          · omega
        · cases h
          exact hgo
      · cases h
        exact hgo
    · cases h
  · cases h

theorem inv_compress (hs : Inv deflate s) {p : ℕ} {f : Ccfile}
    (h : step deflate s (.compress p f) = some s') : Inv deflate s' := by
  simp only [step] at h
  split at h
  · rename_i pr hp
    split at h
    · rename_i changed hph
      split_ifs at h with hdata
      cases h
      rcases hdata with rfl | ⟨v, hv, hdata⟩
      · exact absurd hph (hs.unchanged p pr hp)
      · have hlast := getLast?_index hv
        have hlen : ∀ q pr', s.procs q = some pr' → pr'.ino = pr.ino →
            pr'.since ≤ (s.versions pr.ino).length - 1 := by
          intro q pr' hq hino
          obtain ⟨w, hw, -⟩ := hs.since q pr' hq
          have := (List.getElem?_eq_some_iff.mp hw).1
          rw [hino] at this
          omega
        have hpos : 0 < (s.versions pr.ino).length :=
          List.length_pos_iff.mpr fun hnil => by rw [hnil] at hv; cases hv
        refine hs.goto hp nofun (fun f' heq => ?_) nofun
        cases heq
        exact ⟨⟨_, v, hlast, hdata, fun w _ => .inl (by omega),
            fun q pr' hq hino => .inl (hlen q pr' hq hino)⟩,
          _, v, hlen p pr hp rfl, hlast, hdata⟩
    · cases h
  · cases h

theorem inv_rename (hs : Inv deflate s) {p : ℕ} (h : step deflate s (.rename p) = some s') :
    Inv deflate s' := by
  simp only [step] at h
  split at h
  · rename_i pr hp
    split at h
    · rename_i f hph
      cases h
      have hput : Inv deflate
          { s with cachedir := Function.update s.cachedir pr.ino (some f) } := by
        refine hs.cachedir fun ino g hg => ?_
        rcases update_eq_some hg with ⟨rfl, heq⟩ | ⟨-, hg⟩
        · cases heq
          exact .inr ⟨p, pr, hp, rfl, hph⟩
        · exact .inl hg
      refine hput.goto hp nofun nofun fun data heq => ?_
      cases heq
      exact hs.renamed p pr f hp hph
    · cases h
  · cases h

theorem inv_error (hs : Inv deflate s) {p : ℕ} (h : step deflate s (.error p) = some s') :
    Inv deflate s' := by
  simp only [step] at h
  split at h
  · rename_i pr hp
    split at h
    · cases h
    · cases h
      exact hs.goto hp nofun nofun nofun
  · cases h

theorem inv_clean (hs : Inv deflate s) (ino : ℕ) :
    Inv deflate { s with cachedir := Function.update s.cachedir ino none } := by
  refine hs.cachedir fun i f hf => ?_
  rcases update_eq_some hf with ⟨-, hf⟩ | ⟨-, hf⟩
  · cases hf
  · exact .inl hf

theorem inv_exit (hs : Inv deflate s) (p : ℕ) :
    Inv deflate { s with procs := Function.update s.procs p none } := by
  have hprocs : ∀ q pr, Function.update s.procs p none q = some pr → s.procs q = some pr := by
    intro q pr hq
    rcases update_eq_some hq with ⟨-, hq⟩ | ⟨-, hq⟩
    · cases hq
    · exact hq
  refine ⟨fun q pr hq => hs.since q pr (hprocs q pr hq),
    fun q pr hq => hs.unchanged q pr (hprocs q pr hq), fun ino f hf => ?_,
    fun q pr f hq => hs.renamed q pr f (hprocs q pr hq),
    fun q pr data hq => hs.returned q pr data (hprocs q pr hq)⟩
  have hold : Kept s ino f := by
    rcases hf with hf | ⟨q, pr, hq, hrest⟩
    · exact .inl hf
    · exact .inr ⟨q, pr, hprocs q pr hq, hrest⟩
  obtain ⟨k, v, hv, hdata, hlast, hold⟩ := hs.kept ino f hold
  exact ⟨k, v, hv, hdata, hlast, fun q pr hq => hold q pr (hprocs q pr hq)⟩

/-! ## A file is changed -/

theorem Made.write {ino since i : ℕ} {v : Version} {data : Bytes} {s' : Sys}
    (h : Made deflate s ino since data)
    (hv : s'.versions = Function.update s.versions i (s.versions i ++ [v])) :
    Made deflate s' ino since data := by
  obtain ⟨k, w, hk, hw, hdata⟩ := h
  refine ⟨k, w, hk, ?_, hdata⟩
  rw [hv]
  by_cases hi : ino = i
  · subst hi
    rw [Function.update_self, List.getElem?_append_left (List.getElem?_eq_some_iff.mp hw).1]
    exact hw
  · rw [Function.update_of_ne hi]
    exact hw

theorem inv_write (hs : Inv deflate s) {ino : ℕ} {v : Version} (hq : QuietAct s (.write ino v))
    (h : step deflate s (.write ino v) = some s') : Inv deflate s' := by
  obtain ⟨hidle, holder⟩ := hq
  cases h
  -- No process is compressing the file, so that none changes.
  have hsame : (fun p => (s.procs p).map fun pr =>
      if pr.ino = ino then { pr with phase := pr.phase.change } else pr) = s.procs := by
    funext p
    cases hp : s.procs p with
    | none => rfl
    | some pr =>
      rw [Option.map_some]
      split_ifs with hino
      · have hph := hidle p pr hp hino
        obtain ⟨i, m, n, ph⟩ := pr
        cases ph with
        | compress changed => exact absurd rfl (hph changed)
        | _ => rfl
      · rfl
  rw [hsame]
  refine ⟨fun p pr hp => ?_, hs.unchanged, fun i f hf => ?_, fun p pr f hp hph => ?_,
    fun p pr data hp hph => ?_⟩
  · obtain ⟨w, hw, hm⟩ := hs.since p pr hp
    refine ⟨w, ?_, hm⟩
    dsimp only
    by_cases hi : pr.ino = ino
    · rw [hi] at hw ⊢
      rw [Function.update_self, List.getElem?_append_left (List.getElem?_eq_some_iff.mp hw).1]
      exact hw
    · rw [Function.update_of_ne hi]
      exact hw
  · have hf : Kept s i f := hf
    obtain ⟨k, w, hw, hdata, hlast, hprocs⟩ := hs.kept i f hf
    by_cases hi : i = ino
    · subst hi
      refine ⟨k, w, ?_, hdata, fun w' hw' => .inr ?_, hprocs⟩
      · dsimp only
        rw [Function.update_self, List.getElem?_append_left (List.getElem?_eq_some_iff.mp hw).1]
        exact hw
      · dsimp only at hw'
        rw [Function.update_self, List.getLast?_concat] at hw'
        cases hw'
        exact holder f hf
    · refine ⟨k, w, ?_, hdata, ?_, hprocs⟩
      · dsimp only
        rw [Function.update_of_ne hi]
        exact hw
      · dsimp only
        rw [Function.update_of_ne hi]
        exact hlast
  · exact (hs.renamed p pr f hp hph).write rfl
  · exact (hs.returned p pr data hp hph).write rfl

/-! ## Runs -/

theorem inv_step (hs : Inv deflate s) {a : Act} (hq : QuietAct s a)
    (h : step deflate s a = some s') : Inv deflate s' := by
  cases a with
  | write ino v => exact inv_write hs hq h
  | clean ino =>
    cases h
    exact inv_clean hs ino
  | fstat p ino => exact inv_fstat hs h
  | lookup p => exact inv_lookup hs h
  | compress p f => exact inv_compress hs h
  | rename p => exact inv_rename hs h
  | error p => exact inv_error hs h
  | exit p =>
    cases h
    exact inv_exit hs p

theorem run_inv (hs : Inv deflate s) {acts : List Act} (hq : Quiet deflate s acts)
    (h : run deflate s acts = some s') : Inv deflate s' := by
  induction acts generalizing s with
  | nil =>
    cases h
    exact hs
  | cons a acts ih =>
    rw [run, List.foldlM_cons] at h
    obtain ⟨t, ht, h⟩ := Option.bind_eq_some_iff.mp h
    exact ih (inv_step hs hq.1 ht) (hq.2 t ht) h

/-- **What `openbytype` returns is not out of date.** In every run of any number of processes in
    which no file is changed while it is compressed, and one that is changed is newer then than what
    has been made of it, a process that gets a compressed file gets what has been made of a version
    that the file has had since the process opened it. -/
theorem openbytype_version (versions : ℕ → List Version) {acts : List Act}
    (hq : Quiet deflate { versions := versions } acts)
    (h : run deflate { versions := versions } acts = some s) {p : ℕ} {pr : Proc} {data : Bytes}
    (hp : s.procs p = some pr) (hret : pr.phase = .returned (some data)) :
    ∃ k v, pr.since ≤ k ∧ (s.versions pr.ino)[k]? = some v ∧ data = deflate v.content :=
  (run_inv (inv_start versions) hq h).returned p pr data hp hret

/-- What every file is at first. -/
def first : ℕ → List Version := fun _ => [⟨[1, 2], 10⟩]

/-- A file is changed, and then two processes ask for it. -/
def changed : List Act :=
  [.write 0 ⟨[3, 4], 12⟩, .fstat 1 0, .lookup 1, .compress 1 ⟨[4, 3], 13⟩, .rename 1, .fstat 2 0,
    .lookup 2]

theorem quiet_changed : Quiet List.reverse { versions := first } changed := by
  refine ⟨⟨fun p pr hp => ?_, fun f hf => ?_⟩, fun _ _ => ⟨trivial, fun _ _ => ⟨trivial, fun _ _ =>
    ⟨trivial, fun _ _ => ⟨trivial, fun _ _ => ⟨trivial, fun _ _ =>
      ⟨trivial, fun _ _ => trivial⟩⟩⟩⟩⟩⟩⟩
  · cases hp
  · rcases hf with hf | ⟨p, pr, hp, -⟩
    · cases hf
    · cases hp

theorem openbytype_version_changed :
    ∃ s pr, run List.reverse { versions := first } changed = some s ∧ s.procs 2 = some pr ∧
      ∃ k v, pr.since ≤ k ∧ (s.versions pr.ino)[k]? = some v ∧ [4, 3] = v.content.reverse := by
  have h : run List.reverse { versions := first } changed = some _ := rfl
  have hp : (run List.reverse { versions := first } changed).bind (fun s => s.procs 2) =
      some { ino := 0, mtime := 12, since := 1, phase := .returned (some [4, 3]) } := rfl
  rw [h, Option.bind_some] at hp
  exact ⟨_, _, h, hp, openbytype_version first quiet_changed h hp rfl⟩

end Ashd.Sendfile.Compress
