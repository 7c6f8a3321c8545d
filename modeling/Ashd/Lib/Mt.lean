import Ashd.Common.Coroutine
import Mathlib.Data.List.Chain
import Mathlib.Data.Int.Notation

/-!
# The switching of threads (lib/mt.c)

Threads are given by their addresses, and memory is never short. What the code
of threads and of the main context does between its calls is not said, so that
a run is any sequence of calls by whichever code runs.

`swapcontext` saves where the caller goes on, with the variables that it uses
from there, and goes on with the other context. That may be one that has
entered a thread, and what is left of its `mustart` or `resume` is done then:
in between, any number of calls can have been made.

Main definitions:
* `Refines`: what holds whenever a call is made.

Main results:
* `switching_nested`: in every run, threads are entered and left as coroutines.
* `step_refines`: what a call that goes on does.
* `Refines.error_iff`: when a call does not go on.
-/

namespace Ashd.Mt

/-! ## Model -/

/-- What a `ucontext_t *` points to: `mainctxt`, or the `ctxt` of a thread. -/
inductive Ctxp
  | mainctxt
  | muth (a : ℕ)
  deriving DecidableEq

/-- Where a context goes on, with the variables that are used from there. `ended` is the end of
    `muboot`. -/
inductive Point
  | muboot
  | mustart (muth : ℕ) (last : Option ℕ)
  | resume (muth : ℕ) (last : Option ℕ)
  | yield
  | ended
  deriving DecidableEq

/-- `ucontext_t`. The stack is that of a thread, or that of the process. -/
structure Ucontext where
  stack : Option ℕ
  point : Point
  deriving DecidableEq

/-- `struct muth`. -/
structure Muth where
  ctxt : Ucontext
  last : Option Ctxp
  running : Bool
  yr : ℤ

/-- What becomes of threads: `running` is set, it is cleared, and the thread is freed. -/
inductive Event
  | begun (t : ℕ)
  | ended (t : ℕ)
  | freed (t : ℕ)
  deriving DecidableEq

/-- The memory; which context's code runs, by its stack; the variable `muth` of the `muboot` on the
    stack of each thread; and what has become of threads. -/
structure State where
  mem : ℕ → Option Muth := fun _ => none
  mainctxt : Option Ucontext := none
  current : Option ℕ := none
  stack : Option ℕ := none
  boot : ℕ → Option ℕ := fun _ => none
  log : List Event := []

/-- A call does not come back because of `abort`, or because what it does is undefined. -/
inductive Stop
  | abort
  | undefined
  deriving DecidableEq

/-- What the code that runs after a call goes on with: the entry of a new thread, or the return from
    one of these. -/
inductive Going
  | entry (muth : ℕ)
  | mustart (muth : ℕ)
  | resume (muth : ℕ)
  | yield (yr : ℤ)
  deriving DecidableEq

/-- `current == NULL ? &mainctxt : &current->ctxt`. -/
def ctxtp : Option ℕ → Ctxp
  | none => .mainctxt
  | some a => .muth a

/-- `*muth`. -/
def State.deref (s : State) (a : ℕ) : Except Stop Muth :=
  match s.mem a with
  | none => .error .undefined
  | some m => .ok m

/-- `*muth = m`. -/
def State.put (s : State) (a : ℕ) (m : Muth) : State :=
  { s with mem := Function.update s.mem a (some m) }

/-- The context that is saved at `p`. -/
def State.ctxt (s : State) : Ctxp → Option Ucontext
  | .mainctxt => s.mainctxt
  | .muth a => (s.mem a).map Muth.ctxt

/-- `*oucp = k`. -/
def State.save (s : State) (oucp : Ctxp) (k : Ucontext) : Except Stop State :=
  match oucp with
  | .mainctxt => .ok { s with mainctxt := some k }
  | .muth a => do
    let m ← s.deref a
    return s.put a { m with ctxt := k }

/-- `freemt` (lib/mt.c:36–45). -/
def freemt (s : State) (muth : ℕ) : Except Stop State := do
  let m ← s.deref muth
  if m.running then throw .abort
  return { s with mem := Function.update s.mem muth none, log := s.log ++ [.freed muth] }

/-- What is done after the `swapcontext` of `mustart` and `resume` (lib/mt.c:82–85, 115–117). -/
def back (s : State) (muth : ℕ) (last : Option ℕ) : Except Stop State := do
  let s := { s with current := last }
  let m ← s.deref muth
  if !m.running then freemt s muth else return s

/-- `muboot` up to the call of `entry` (lib/mt.c:47–53). -/
def muboot (s : State) : Except Stop (Going × State) :=
  match s.current, s.stack with
  | some muth, some stack => do
    let m ← s.deref muth
    let s := s.put muth { m with running := true }
    return (.entry muth, { s with
      boot := Function.update s.boot stack (some muth), log := s.log ++ [.begun muth] })
  | _, _ => .error .undefined

/-- The context `k` goes on until a thread is entered or a call returns. -/
def goon (s : State) (k : Ucontext) : Except Stop (Going × State) :=
  let s := { s with stack := k.stack }
  match k.point with
  | .muboot => muboot s
  | .mustart muth last => do
    let s ← back s muth last
    return (.mustart muth, s)
  | .resume muth last => do
    let s ← back s muth last
    return (.resume muth, s)
  | .yield =>
    match s.current with
    | none => .error .undefined
    | some current => do
      let m ← s.deref current
      return (.yield m.yr, s)
  -- `uc_link` would be gone on with, but no thread is entered again after its end.
  | .ended => .error .undefined

/-- `swapcontext(oucp, ucp)` where the caller goes on at `point`. -/
def swapcontext (s : State) (oucp ucp : Ctxp) (point : Point) : Except Stop (Going × State) := do
  let s ← s.save oucp ⟨s.stack, point⟩
  match s.ctxt ucp with
  | none => throw .undefined
  | some k => goon s k

/-- `mustart` (lib/mt.c:58–87), where `a` is what `omalloc` returns. -/
def mustart (s : State) (a : ℕ) : Except Stop (Going × State) :=
  match s.mem a with
  | some _ => .error .undefined
  | none =>
    let s := s.put a ⟨⟨some a, .muboot⟩, some (ctxtp s.current), false, 0⟩
    let last := s.current
    swapcontext { s with current := some a } (ctxtp last) (.muth a) (.mustart a last)

/-- `yield` (lib/mt.c:89–99). -/
def yield (s : State) : Except Stop (Going × State) :=
  match s.current with
  | none => .error .abort
  | some current => do
    let m ← s.deref current
    match m.last with
    | none => throw .abort
    | some ret => swapcontext (s.put current { m with last := none }) (.muth current) ret .yield

/-- `resume` (lib/mt.c:101–118). -/
def resume (s : State) (muth : ℕ) (ret : ℤ) : Except Stop (Going × State) := do
  let m ← s.deref muth
  if m.last ≠ none then throw .abort
  let s := s.put muth { m with last := some (ctxtp s.current), yr := ret }
  let last := s.current
  swapcontext { s with current := some muth } (ctxtp last) (.muth muth) (.resume muth last)

/-- `muboot` from the return of `entry` on (lib/mt.c:53–56). -/
def finish (s : State) : Except Stop (Going × State) :=
  match s.stack.bind s.boot with
  | none => .error .undefined
  | some muth => do
    let m ← s.deref muth
    let s := s.put muth { m with running := false }
    match m.last with
    | none => throw .undefined
    | some last =>
      swapcontext { s with log := s.log ++ [.ended muth] } (.muth muth) last .ended

/-- What the code that runs can do: one of the calls, or to return from the `entry` of its
    thread. -/
inductive Call
  | mustart (a : ℕ)
  | resume (muth : ℕ) (ret : ℤ)
  | yield
  | finish
  deriving DecidableEq

def step (s : State) : Call → Except Stop (Going × State)
  | .mustart a => mustart s a
  | .resume muth ret => resume s muth ret
  | .yield => yield s
  | .finish => finish s

/-- The state after some calls, if each of them goes on. -/
def run : State → List Call → Option State
  | s, [] => some s
  | s, call :: calls =>
    match step s call with
    | .error _ => none
    | .ok (_, s) => run s calls

/-- What a call is as an event of coroutines. -/
def Call.event : Call → Coroutines.Event ℕ
  | .mustart a => .start a
  | .resume muth _ => .resume muth
  | .yield => .yield
  | .finish => .finish

/-! ## What becomes of a thread -/

/-- A thread is not there, it runs, or it has come to its end and is to be freed. -/
inductive Stage
  | absent
  | running
  | ended
  deriving DecidableEq

/-- The stage of `t` after an event, if it can happen. -/
def Stage.next (t : ℕ) (st : Stage) (e : Event) : Option Stage :=
  if e = .begun t then if st = .absent then some .running else none
  else if e = .ended t then if st = .running then some .ended else none
  else if e = .freed t then if st = .ended then some .absent else none
  else some st

/-- The stage of `t` after some events, if nothing happens to it out of order. -/
def stage (t : ℕ) (log : List Event) : Option Stage := log.foldlM (Stage.next t) .absent

/-- The stage that a thread is in whenever a call is made. -/
def State.stage (s : State) (t : ℕ) : Stage := if (s.mem t).isSome then .running else .absent

variable {s s' : State} {c : Coroutines ℕ} {a t : ℕ} {l : List ℕ} {m : Muth}

theorem stage_append (t : ℕ) (log es : List Event) :
    stage t (log ++ es) = (stage t log).bind fun st => es.foldlM (Stage.next t) st :=
  List.foldlM_append

theorem stage_begun (h : stage t s.log = some (s.stage t)) (ha : s.mem a = none)
    (ha' : (s'.mem a).isSome) (hother : t ≠ a → (s'.mem t).isSome = (s.mem t).isSome)
    (hlog : s'.log = s.log ++ [.begun a]) : stage t s'.log = some (s'.stage t) := by
  rw [hlog, stage_append, h]
  by_cases hta : t = a
  · subst hta
    simp [State.stage, Stage.next, ha, ha']
  · simp [State.stage, Stage.next, hother hta, Ne.symm hta]

theorem stage_freed (h : stage t s.log = some (s.stage t)) (ha : (s.mem a).isSome)
    (ha' : s'.mem a = none) (hother : t ≠ a → s'.mem t = s.mem t)
    (hlog : s'.log = s.log ++ [.ended a] ++ [.freed a]) :
    stage t s'.log = some (s'.stage t) := by
  rw [hlog, List.append_assoc, stage_append, h]
  by_cases hta : t = a
  · subst hta
    simp [State.stage, Stage.next, ha, ha']
  · simp [State.stage, Stage.next, hother hta, Ne.symm hta]

/-! ## The threads that have entered each other -/

/-- Where the context goes on that has entered `t`. -/
def entering (resumed : Bool) (t : ℕ) (last : Option ℕ) : Point :=
  if resumed then .resume t last else .mustart t last

/-- What it goes on with. -/
def returning (resumed : Bool) (t : ℕ) : Going := if resumed then .resume t else .mustart t

/-- The first of these threads runs, and each was entered by the next one, which goes on after its
    `swapcontext`. -/
def Chain (s : State) (resumed : ℕ → Bool) : List ℕ → Prop
  | [] => True
  | t :: l =>
    (∃ m, s.mem t = some m ∧ m.running = true ∧ m.last = some (ctxtp l.head?)) ∧
      s.ctxt (ctxtp l.head?) = some ⟨l.head?, entering (resumed t) t l.head?⟩ ∧
      Chain s resumed l

/-- The contexts that go on after a `swapcontext`. -/
def waiting : List ℕ → List Ctxp
  | [] => []
  | _ :: l => ctxtp l.head? :: waiting l

theorem mem_tail_of_waiting (h : .muth a ∈ waiting l) : a ∈ l.tail := by
  induction l with
  | nil => cases h
  | cons t l ih =>
    cases l with
    | nil =>
      rcases List.mem_cons.mp h with h | h
      · cases h
      · cases h
    | cons u l =>
      rcases List.mem_cons.mp h with h | h
      · cases h
        exact List.mem_cons_self
      · exact List.mem_of_mem_tail (ih h)

theorem ctxtp_eq_muth {o : Option ℕ} : ctxtp o = .muth a ↔ o = some a := by
  cases o with
  | none => simp [ctxtp]
  | some b => simp [ctxtp]

theorem ctxtp_head_ne (h : a ∉ l) : ctxtp l.head? ≠ .muth a :=
  fun heq => h (List.mem_of_head? (ctxtp_eq_muth.mp heq))

theorem ctxtp_head_not_mem (h : l.Nodup) : ctxtp l.head? ∉ waiting l := by
  cases l with
  | nil => exact List.not_mem_nil
  | cons t l => exact fun hmem => (List.nodup_cons.mp h).1 (mem_tail_of_waiting hmem)

theorem Chain.congr {resumed resumed' : ℕ → Bool} (h : Chain s resumed l)
    (hresumed : ∀ t ∈ l, resumed' t = resumed t)
    (hmem : ∀ t ∈ l, ∀ m, s.mem t = some m →
      ∃ m', s'.mem t = some m' ∧ m'.running = m.running ∧ m'.last = m.last)
    (hctxt : ∀ p ∈ waiting l, s'.ctxt p = s.ctxt p) : Chain s' resumed' l := by
  induction l with
  | nil => trivial
  | cons t l ih =>
    obtain ⟨⟨m, ht, hrunning, hlast⟩, hpoint, hchain⟩ := h
    obtain ⟨m', ht', hrunning', hlast'⟩ := hmem t List.mem_cons_self m ht
    refine ⟨⟨m', ht', hrunning'.trans hrunning, hlast'.trans hlast⟩, ?_, ?_⟩
    · rw [hctxt _ List.mem_cons_self, hresumed t List.mem_cons_self]
      exact hpoint
    · exact ih hchain (fun u hu => hresumed u (List.mem_cons_of_mem t hu))
        (fun u hu => hmem u (List.mem_cons_of_mem t hu))
        (fun p hp => hctxt p (List.mem_cons_of_mem _ hp))

theorem Chain.mem {resumed : ℕ → Bool} (h : Chain s resumed l) (ht : t ∈ l) :
    ∃ m, s.mem t = some m ∧ m.running = true ∧ m.last.isSome := by
  induction l with
  | nil => cases ht
  | cons u l ih =>
    obtain ⟨⟨m, hm, hrunning, hlast⟩, -, hchain⟩ := h
    rcases List.mem_cons.mp ht with rfl | ht
    · exact ⟨m, hm, hrunning, by rw [hlast]; rfl⟩
    · exact ih hchain ht

/-- A thread that has yielded goes on there when it is entered. -/
def Yielded (s : State) (t : ℕ) : Prop :=
  ∃ m, s.mem t = some m ∧ m.running = true ∧ m.last = none ∧ m.ctxt = ⟨some t, .yield⟩

/-- The threads are as those of `c` when the one that runs makes a call. -/
structure Refines (s : State) (c : Coroutines ℕ) : Prop where
  current : s.current = c.active.head?
  stack : s.stack = c.active.head?
  chain : Chain s c.resumed c.active
  yielded : ∀ t ∈ c.yielded, Yielded s t
  absent : ∀ t, t ∉ c.active → t ∉ c.yielded → s.mem t = none
  boot : ∀ t m, s.mem t = some m → s.boot t = some t
  stage : ∀ t, stage t s.log = some (s.stage t)

theorem Refines.init : Refines {} Coroutines.main where
  current := rfl
  stack := rfl
  chain := trivial
  yielded := fun t ht => by simp [Coroutines.main] at ht
  absent := fun _ _ _ => rfl
  boot := fun t m hm => by cases hm
  stage := fun _ => rfl

theorem Refines.mem_of_last (h : Refines s c) (hm : s.mem t = some m) (hlast : m.last ≠ none) :
    t ∈ c.active := by
  by_contra hact
  by_cases hy : t ∈ c.yielded
  · obtain ⟨m', hm', -, hnone, -⟩ := h.yielded t hy
    rw [hm] at hm'
    cases hm'
    exact hlast hnone
  · rw [h.absent t hact hy] at hm
    cases hm

theorem Refines.mem_of_not_last (h : Refines s c) (hm : s.mem t = some m) (hlast : m.last = none) :
    t ∈ c.yielded := by
  by_contra hy
  by_cases hact : t ∈ c.active
  · obtain ⟨m', hm', -, hsome⟩ := h.chain.mem hact
    rw [hm] at hm'
    cases hm'
    rw [hlast] at hsome
    cases hsome
  · rw [h.absent t hact hy] at hm
    cases hm

/-! ## `swapcontext` -/

theorem deref_of_mem (hm : s.mem a = some m) : s.deref a = .ok m := by
  rw [State.deref, hm]

/-- Where a context is saved, nothing else is changed. -/
structure Saved (s : State) (p : Ctxp) (k : Ucontext) (s' : State) : Prop where
  ctxt : s'.ctxt p = some k
  ctxt_of_ne : ∀ q, q ≠ p → s'.ctxt q = s.ctxt q
  mem : ∀ t m, s.mem t = some m →
    ∃ m', s'.mem t = some m' ∧ m'.running = m.running ∧ m'.last = m.last
  mem_of_ne : ∀ t, .muth t ≠ p → s'.mem t = s.mem t
  isSome : ∀ t, (s'.mem t).isSome = (s.mem t).isSome
  current : s'.current = s.current
  stack : s'.stack = s.stack
  boot : s'.boot = s.boot
  log : s'.log = s.log

theorem save_spec (s : State) (p : Ctxp) (k : Ucontext)
    (h : ∀ a, p = .muth a → ∃ m, s.mem a = some m) :
    ∃ s', s.save p k = .ok s' ∧ Saved s p k s' := by
  cases p with
  | mainctxt =>
    refine ⟨{ s with mainctxt := some k }, rfl, rfl, ?_, ?_, fun _ _ => rfl, fun _ => rfl, rfl, rfl,
      rfl, rfl⟩
    · intro q hq
      cases q with
      | mainctxt => exact absurd rfl hq
      | muth a => rfl
    · exact fun t m hm => ⟨m, hm, rfl, rfl⟩
  | muth a =>
    obtain ⟨m, hm⟩ := h a rfl
    have hsave : s.save (.muth a) k = .ok (s.put a { m with ctxt := k }) := by
      rw [State.save, deref_of_mem hm]
      rfl
    refine ⟨_, hsave, ?_, ?_, ?_, ?_, ?_, rfl, rfl, rfl, rfl⟩
    · simp [State.ctxt, State.put]
    · intro q hq
      cases q with
      | mainctxt => rfl
      | muth b =>
        have hne : b ≠ a := fun heq => hq (heq ▸ rfl)
        simp [State.ctxt, State.put, hne]
    · intro t m' hm'
      by_cases hta : t = a
      · subst hta
        rw [hm] at hm'
        cases hm'
        exact ⟨{ m with ctxt := k }, Function.update_self .., rfl, rfl⟩
      · exact ⟨m', (Function.update_of_ne hta ..).trans hm', rfl, rfl⟩
    · exact fun t ht => Function.update_of_ne (fun heq => ht (congrArg Ctxp.muth heq)) ..
    · intro t
      by_cases hta : t = a
      · subst hta
        simp [State.put, hm]
      · simp [State.put, hta]

theorem swapcontext_eq {oucp ucp : Ctxp} {point : Point} {k : Ucontext}
    (hsave : s.save oucp ⟨s.stack, point⟩ = .ok s') (hk : s'.ctxt ucp = some k) :
    swapcontext s oucp ucp point = goon s' k := by
  rw [swapcontext, hsave]
  simp only [bind, Except.bind]
  rw [hk]

/-! ## Threads are entered -/

/-- What there is once the thread `a` goes on, as `m` says. -/
structure Entered (s : State) (a : ℕ) (m : Muth) (point : Point) (s' : State) : Prop where
  mem : s'.mem a = some m
  mem_of_ne : ∀ t, t ≠ a → .muth t ≠ ctxtp s.current → s'.mem t = s.mem t
  allocated : ∀ t, t ≠ a → ∀ m', s.mem t = some m' →
    ∃ m'', s'.mem t = some m'' ∧ m''.running = m'.running ∧ m''.last = m'.last
  isSome : ∀ t, t ≠ a → (s'.mem t).isSome = (s.mem t).isSome
  ctxt : s'.ctxt (ctxtp s.current) = some ⟨s.stack, point⟩
  ctxt_of_ne : ∀ p, p ≠ .muth a → p ≠ ctxtp s.current → s'.ctxt p = s.ctxt p
  current : s'.current = some a
  boot : s'.boot = s.boot
  log : s'.log = s.log

/-- `mustart` and `resume` go on with the thread that they enter. -/
theorem swapcontext_enter (h : Refines s c) (ha : a ∉ c.active) (m : Muth) (point : Point) :
    ∃ s', Entered s a m point s' ∧
      swapcontext { s.put a m with current := some a } (ctxtp s.current) (.muth a) point =
        goon s' m.ctxt := by
  have hne : ctxtp s.current ≠ .muth a := h.current ▸ ctxtp_head_ne ha
  obtain ⟨s', hsave, hsaved⟩ := save_spec { s.put a m with current := some a } (ctxtp s.current)
    ⟨s.stack, point⟩ (by
      intro b hb
      have hmem : b ∈ c.active := List.mem_of_head? (h.current ▸ ctxtp_eq_muth.mp hb)
      obtain ⟨m', hm', -⟩ := h.chain.mem hmem
      have hba : b ≠ a := fun heq => ha (heq ▸ hmem)
      exact ⟨m', (Function.update_of_ne hba ..).trans hm'⟩)
  have hmem : s'.mem a = some m :=
    (hsaved.mem_of_ne a hne.symm).trans (Function.update_self ..)
  refine ⟨s', ⟨hmem, ?_, ?_, ?_, hsaved.ctxt, ?_, hsaved.current, hsaved.boot, hsaved.log⟩, ?_⟩
  · exact fun t hta ht => (hsaved.mem_of_ne t ht).trans (Function.update_of_ne hta ..)
  · exact fun t hta m' hm' => hsaved.mem t m' ((Function.update_of_ne hta ..).trans hm')
  · intro t hta
    rw [hsaved.isSome t]
    simp [State.put, hta]
  · intro p hpa hp
    rw [hsaved.ctxt_of_ne p hp]
    cases p with
    | mainctxt => rfl
    | muth b =>
      have hba : b ≠ a := fun heq => hpa (heq ▸ rfl)
      simp [State.ctxt, State.put, hba]
  · exact swapcontext_eq hsave (by simp [State.ctxt, hmem])

theorem Entered.mem_of_not_mem {s₁ : State} {point : Point} (h : Refines s c)
    (he : Entered s a m point s₁) (hta : t ≠ a) (ht : t ∉ c.active) : s₁.mem t = s.mem t := by
  have hne : ctxtp s.current ≠ .muth t := h.current ▸ ctxtp_head_ne ht
  exact he.mem_of_ne t hta hne.symm

/-- The threads that wait already are not affected: where the caller goes on is saved in the first
    of them, which ran until now. -/
theorem Entered.chain {s₁ : State} {point : Point} (h : Refines s c) (ha : a ∉ c.active)
    (he : Entered s a m point s₁) : Chain s₁ c.resumed c.active := by
  refine h.chain.congr (fun _ _ => rfl) ?_ ?_
  · exact fun t ht => he.allocated t fun heq => ha (heq ▸ ht)
  · intro p hp
    refine he.ctxt_of_ne p ?_ ?_
    · rintro rfl
      exact ha (List.mem_of_mem_tail (mem_tail_of_waiting hp))
    · rintro rfl
      rw [h.current] at hp
      exact ctxtp_head_not_mem c.nodup hp

/-- The invariant holds once a thread has been entered. What the thread itself does first changes
    nothing but its `running` and the variable of its `muboot`. -/
theorem Refines.enter {s₁ : State} {again : Bool} (h : Refines s c) (ha : a ∉ c.active)
    (hlast : m.last = some (ctxtp s.current))
    (he : Entered s a m (entering again a s.current) s₁)
    (hmem : s'.mem = Function.update s₁.mem a (some { m with running := true }))
    (hmain : s'.mainctxt = s₁.mainctxt) (hcurrent : s'.current = some a)
    (hstack : s'.stack = some a) (hboot : s'.boot = Function.update s.boot a (some a))
    (hstage : ∀ t, Mt.stage t s'.log = some (s'.stage t)) :
    Refines s' (c.enter a ha again) := by
  have hself : s'.mem a = some { m with running := true } := by
    rw [hmem]
    exact Function.update_self ..
  have hother : ∀ t, t ≠ a → s'.mem t = s₁.mem t := by
    intro t hta
    rw [hmem]
    exact Function.update_of_ne hta ..
  have hctxt : ∀ p, p ≠ .muth a → s'.ctxt p = s₁.ctxt p := by
    intro p hp
    cases p with
    | mainctxt => exact hmain
    | muth b =>
      have hba : b ≠ a := fun heq => hp (congrArg Ctxp.muth heq)
      rw [State.ctxt, State.ctxt, hother b hba]
  have hne : ctxtp s.current ≠ .muth a := h.current ▸ ctxtp_head_ne ha
  have hnot : ∀ t, t ≠ a → t ∉ c.active → s'.mem t = s.mem t :=
    fun t hta ht => (hother t hta).trans (he.mem_of_not_mem h hta ht)
  have hchain : Chain s' (c.enter a ha again).resumed c.active := by
    refine (he.chain h ha).congr ?_ ?_ ?_
    · exact fun t ht => Function.update_of_ne (ne_of_mem_of_not_mem ht ha) ..
    · intro t ht m' hm'
      exact ⟨m', (hother t fun heq => ha (heq ▸ ht)).trans hm', rfl, rfl⟩
    · intro p hp
      refine hctxt p ?_
      rintro rfl
      exact ha (List.mem_of_mem_tail (mem_tail_of_waiting hp))
  refine ⟨hcurrent, hstack, ⟨?_, ?_, hchain⟩, ?_, ?_, ?_, hstage⟩
  · exact ⟨_, hself, rfl, by rw [← h.current]; exact hlast⟩
  · have hagain : (c.enter a ha again).resumed a = again := Function.update_self ..
    rw [hagain, ← h.current, hctxt _ hne, he.ctxt, h.stack, h.current]
  · intro t ht
    obtain ⟨hta, ht⟩ := (Coroutines.mem_enter_yielded ha again).mp ht
    obtain ⟨m', hm', hrest⟩ := h.yielded t ht
    have hact : t ∉ c.active := fun hact => c.disjoint t hact ht
    exact ⟨m', (hnot t hta hact).trans hm', hrest⟩
  · intro t ht hy
    obtain ⟨hta, ht⟩ := not_or.mp (mt List.mem_cons.mpr ht)
    rw [hnot t hta ht]
    exact h.absent t ht fun hty => hy ((Coroutines.mem_enter_yielded ha again).mpr ⟨hta, hty⟩)
  · intro t m' hm'
    rw [hboot]
    by_cases hta : t = a
    · subst hta
      exact Function.update_self ..
    · rw [Function.update_of_ne hta]
      by_cases ht : t ∈ c.active
      · obtain ⟨m'', hm'', -⟩ := h.chain.mem ht
        exact h.boot t m'' hm''
      · rw [hnot t hta ht] at hm'
        exact h.boot t m' hm'

/-- An unallocated address is that of a new thread, which begins. -/
theorem mustart_spec (h : Refines s c) (ha : s.mem a = none) :
    ∃ hact : a ∉ c.active, a ∉ c.yielded ∧
      ∃ s', mustart s a = .ok (.entry a, s') ∧ Refines s' (c.enter a hact false) := by
  have hact : a ∉ c.active := by
    intro hact
    obtain ⟨m, hm, -⟩ := h.chain.mem hact
    rw [ha] at hm
    cases hm
  have hy : a ∉ c.yielded := by
    intro hy
    obtain ⟨m, hm, -⟩ := h.yielded a hy
    rw [ha] at hm
    cases hm
  obtain ⟨s₁, he, hswap⟩ := swapcontext_enter h hact
    ⟨⟨some a, .muboot⟩, some (ctxtp s.current), false, 0⟩ (entering false a s.current)
  refine ⟨hact, hy, { s₁.put a ⟨⟨some a, .muboot⟩, some (ctxtp s.current), true, 0⟩ with
    current := some a, stack := some a, boot := Function.update s₁.boot a (some a),
    log := s₁.log ++ [.begun a] }, ?_, ?_⟩
  · rw [mustart, ha]
    refine hswap.trans ?_
    simp only [goon, muboot]
    rw [he.current]
    simp only [State.deref]
    rw [he.mem]
    rfl
  · refine h.enter hact rfl he rfl rfl rfl rfl (by rw [he.boot]) ?_
    intro t
    refine stage_begun (h.stage t) ha ?_ ?_ (by rw [he.log])
    · simp [State.put]
    · intro hta
      rw [← he.isSome t hta]
      simp [State.put, hta]

/-- A thread that has yielded goes on with what `yield` returns. -/
theorem resume_spec (h : Refines s c) (hm : s.mem a = some m) (hlast : m.last = none) (ret : ℤ) :
    ∃ hy : a ∈ c.yielded, ∃ s', resume s a ret = .ok (.yield ret, s') ∧
      Refines s' (c.enter a (fun hact => c.disjoint a hact hy) true) := by
  have hy := h.mem_of_not_last hm hlast
  obtain ⟨m', hm', hrunning, -, hctxt⟩ := h.yielded a hy
  rw [hm] at hm'
  cases hm'
  have hact : a ∉ c.active := fun hact => c.disjoint a hact hy
  obtain ⟨s₁, he, hswap⟩ := swapcontext_enter h hact
    { m with last := some (ctxtp s.current), yr := ret } (entering true a s.current)
  refine ⟨hy, { s₁ with stack := some a }, ?_, ?_⟩
  · rw [resume, deref_of_mem hm]
    simp only [bind, Except.bind, hlast, ne_eq, not_true_eq_false, if_false]
    refine hswap.trans ?_
    simp only [hctxt, goon]
    rw [he.current]
    simp only [State.deref]
    rw [he.mem]
    rfl
  · refine h.enter hact rfl he ?_ rfl he.current rfl ?_ ?_
    · rw [Function.eq_update_self_iff, he.mem, hrunning]
    · rw [he.boot, ← h.boot a m hm, Function.update_eq_self]
    · intro t
      rw [he.log, h.stage t, State.stage, State.stage]
      by_cases hta : t = a
      · subst hta
        rw [he.mem, hm]
        rfl
      · rw [he.isSome t hta]

/-! ## Threads are left -/

theorem back_running {last : Option ℕ} (hm : s.mem t = some m) (hrunning : m.running = true) :
    back s t last = .ok { s with current := last } := by
  simp [back, State.deref, hm, hrunning, bind, Except.bind, pure, Except.pure]

theorem back_ended {last : Option ℕ} (hm : s.mem t = some m) (hrunning : m.running = false) :
    back s t last = .ok { s with
      current := last, mem := Function.update s.mem t none, log := s.log ++ [.freed t] } := by
  simp [back, freemt, State.deref, hm, hrunning, bind, Except.bind, pure, Except.pure]

theorem bind_going (x : Except Stop State) (r : Going) :
    (do let s ← x; return (r, s)) = x.map fun s => (r, s) := by
  cases x with
  | error e => rfl
  | ok s => rfl

/-- A thread that is left gives control to the context that entered it, which does what is left of
    its `mustart` or `resume`. -/
theorem swapcontext_leave (h : Refines s c) (hact : c.active = t :: l) (m : Muth) (point : Point)
    (log : List Event) :
    swapcontext { s.put t m with log := log } (.muth t) (ctxtp l.head?) point =
      (back { s.put t { m with ctxt := ⟨some t, point⟩ } with stack := l.head?, log := log } t
        l.head?).map fun s => (returning (c.resumed t) t, s) := by
  have hnodup := c.nodup
  have hchain := h.chain
  rw [hact] at hnodup hchain
  have hne : ctxtp l.head? ≠ .muth t := ctxtp_head_ne (List.nodup_cons.mp hnodup).1
  obtain ⟨-, hpoint, -⟩ := hchain
  have hstack : s.stack = some t := by
    rw [h.stack, hact]
    rfl
  have hsave : State.save { s.put t m with log := log } (.muth t) ⟨s.stack, point⟩ =
      .ok { s.put t { m with ctxt := ⟨some t, point⟩ } with log := log } := by
    simp [State.save, State.deref, State.put, hstack, bind, Except.bind, pure, Except.pure]
  have hctxt : State.ctxt { s.put t { m with ctxt := ⟨some t, point⟩ } with log := log }
      (ctxtp l.head?) = s.ctxt (ctxtp l.head?) := by
    cases hl : ctxtp l.head? with
    | mainctxt => rfl
    | muth u =>
      have hut : u ≠ t := fun heq => hne (hl.trans (congrArg Ctxp.muth heq))
      simp [State.ctxt, State.put, hut]
  refine (swapcontext_eq hsave (hctxt.trans hpoint)).trans ?_
  cases c.resumed t with
  | false => exact bind_going ..
  | true => exact bind_going ..

/-- The invariant holds once a thread has been left, and it has either yielded or been freed. -/
theorem Refines.leave (h : Refines s c) (hact : c.active = t :: l) (yields : Bool)
    (hmem : ∀ u, u ≠ t → s'.mem u = s.mem u) (hmain : s'.mainctxt = s.mainctxt)
    (hcurrent : s'.current = l.head?) (hstack : s'.stack = l.head?) (hboot : s'.boot = s.boot)
    (hyields : yields = true → Yielded s' t) (hfreed : yields = false → s'.mem t = none)
    (hstage : ∀ u, Mt.stage u s'.log = some (s'.stage u)) :
    Refines s' (c.leave l hact yields) := by
  have hnodup := c.nodup
  have hchain := h.chain
  rw [hact] at hnodup hchain
  have ht : t ∉ l := (List.nodup_cons.mp hnodup).1
  refine ⟨hcurrent, hstack, hchain.2.2.congr (fun _ _ => rfl) ?_ ?_, ?_, ?_, ?_, hstage⟩
  · intro u hu m hm
    exact ⟨m, (hmem u fun heq => ht (heq ▸ hu)).trans hm, rfl, rfl⟩
  · intro p hp
    cases p with
    | mainctxt => exact hmain
    | muth u =>
      have hut : u ≠ t := fun heq => ht (heq ▸ List.mem_of_mem_tail (mem_tail_of_waiting hp))
      rw [State.ctxt, State.ctxt, hmem u hut]
  · intro u hu
    by_cases hut : u = t
    · subst hut
      cases yields with
      | true => exact hyields rfl
      | false =>
        rcases (Coroutines.mem_leave_yielded hact false).mp hu with ⟨hfalse, -⟩ | hu
        · cases hfalse
        · exact absurd hu (c.disjoint u (hact ▸ List.mem_cons_self))
    · rcases (Coroutines.mem_leave_yielded hact yields).mp hu with ⟨-, hu⟩ | hu
      · exact absurd hu hut
      · obtain ⟨m, hm, hrest⟩ := h.yielded u hu
        exact ⟨m, (hmem u hut).trans hm, hrest⟩
  · intro u hul hu
    have hu' := mt (Coroutines.mem_leave_yielded hact yields).mpr hu
    obtain ⟨hy, hu'⟩ := not_or.mp hu'
    by_cases hut : u = t
    · subst hut
      cases yields with
      | true => exact absurd ⟨rfl, rfl⟩ hy
      | false => exact hfreed rfl
    · rw [hmem u hut]
      refine h.absent u ?_ hu'
      rw [hact]
      exact fun hmem => (List.mem_cons.mp hmem).elim hut hul
  · intro u m hm
    rw [hboot]
    by_cases hut : u = t
    · subst hut
      obtain ⟨m', hm', -⟩ := hchain.1
      exact h.boot u m' hm'
    · rw [hmem u hut] at hm
      exact h.boot u m hm

theorem yield_spec (h : Refines s c) (hact : c.active = t :: l) :
    ∃ s', yield s = .ok (returning (c.resumed t) t, s') ∧ Refines s' (c.leave l hact true) := by
  have hchain := h.chain
  rw [hact] at hchain
  obtain ⟨⟨m, hm, hrunning, hlast⟩, -, -⟩ := hchain
  have hcurrent : s.current = some t := by
    rw [h.current, hact]
    rfl
  have hswap := swapcontext_leave h hact { m with last := none } .yield s.log
  have hself := Function.update_self t
    (some { m with last := none, ctxt := ⟨some t, Point.yield⟩ }) s.mem
  refine ⟨{ s.put t { m with last := none, ctxt := ⟨some t, .yield⟩ } with
    stack := l.head?, current := l.head? }, ?_, h.leave hact true ?_ rfl rfl rfl rfl ?_ ?_ ?_⟩
  · rw [yield, hcurrent]
    simp only [deref_of_mem hm, bind, Except.bind, hlast]
    refine hswap.trans ?_
    rw [back_running hself (by exact hrunning)]
    rfl
  · exact fun u hut => Function.update_of_ne hut ..
  · exact fun _ => ⟨_, hself, hrunning, rfl, rfl⟩
  · intro hfalse
    cases hfalse
  · intro u
    refine (h.stage u).trans ?_
    by_cases hut : u = t
    · subst hut
      simp [State.stage, State.put, hm]
    · simp [State.stage, State.put, hut]

theorem finish_spec (h : Refines s c) (hact : c.active = t :: l) :
    ∃ s', finish s = .ok (returning (c.resumed t) t, s') ∧ Refines s' (c.leave l hact false) := by
  have hchain := h.chain
  rw [hact] at hchain
  obtain ⟨⟨m, hm, hrunning, hlast⟩, -, -⟩ := hchain
  have hstack : s.stack = some t := by
    rw [h.stack, hact]
    rfl
  have hswap := swapcontext_leave h hact
    { m with running := false, last := some (ctxtp l.head?) } .ended (s.log ++ [.ended t])
  refine ⟨{ s with
    mem := Function.update s.mem t none
    stack := l.head?
    current := l.head?
    log := s.log ++ [.ended t] ++ [.freed t] }, ?_, ?_⟩
  · rw [finish, hstack, Option.bind_some, h.boot t m hm]
    simp only [deref_of_mem hm, bind, Except.bind, hlast]
    refine hswap.trans ?_
    rw [back_ended (Function.update_self ..) rfl]
    simp [Except.map, State.put]
  · refine h.leave hact false ?_ rfl rfl rfl rfl ?_ ?_ ?_
    · exact fun u hut => Function.update_of_ne hut ..
    · intro hfalse
      cases hfalse
    · exact fun _ => Function.update_self ..
    · intro u
      refine stage_freed (h.stage u) (by rw [hm]; rfl) (Function.update_self ..) ?_ rfl
      exact fun hut => Function.update_of_ne hut ..

/-! ## Calls that do not go on -/

theorem resume_abort (hm : s.mem a = some m) (hlast : m.last ≠ none) (ret : ℤ) :
    resume s a ret = .error .abort := by
  simp [resume, deref_of_mem hm, hlast, bind, Except.bind, throw, throwThe, MonadExceptOf.throw]

theorem yield_main (h : Refines s c) (hact : c.active = []) : yield s = .error .abort := by
  rw [yield, h.current, hact]
  rfl

theorem finish_main (h : Refines s c) (hact : c.active = []) : finish s = .error .undefined := by
  rw [finish, h.stack, hact]
  rfl

/-! ## Runs -/

/-- A call goes on as what it is among coroutines. -/
theorem step_refines {r : Going} (h : Refines s c) {call : Call}
    (hstep : step s call = .ok (r, s')) : ∃ c', c.step call.event = some c' ∧ Refines s' c' := by
  cases call with
  | mustart a =>
    cases ha : s.mem a with
    | some m =>
      rw [step, mustart, ha] at hstep
      cases hstep
    | none =>
      obtain ⟨hact, hy, s'', hok, hrefines⟩ := mustart_spec h ha
      cases hok.symm.trans hstep
      exact ⟨_, Coroutines.step_start hact hy, hrefines⟩
  | resume a ret =>
    cases ha : s.mem a with
    | none =>
      simp [step, resume, State.deref, ha, bind, Except.bind] at hstep
    | some m =>
      by_cases hlast : m.last = none
      · obtain ⟨hy, s'', hok, hrefines⟩ := resume_spec h ha hlast ret
        cases hok.symm.trans hstep
        exact ⟨_, Coroutines.step_resume hy, hrefines⟩
      · rw [step, resume_abort ha hlast] at hstep
        cases hstep
  | yield =>
    cases hact : c.active with
    | nil =>
      rw [step, yield_main h hact] at hstep
      cases hstep
    | cons t l =>
      obtain ⟨s'', hok, hrefines⟩ := yield_spec h hact
      cases hok.symm.trans hstep
      exact ⟨_, Coroutines.step_yield hact, hrefines⟩
  | finish =>
    cases hact : c.active with
    | nil =>
      rw [step, finish_main h hact] at hstep
      cases hstep
    | cons t l =>
      obtain ⟨s'', hok, hrefines⟩ := finish_spec h hact
      cases hok.symm.trans hstep
      exact ⟨_, Coroutines.step_finish hact, hrefines⟩

theorem run_refines (h : Refines s c) (calls : List Call) (hrun : run s calls = some s') :
    ∃ c', c.run (calls.map Call.event) = some c' ∧ Refines s' c' := by
  induction calls generalizing s c with
  | nil =>
    cases hrun
    exact ⟨c, rfl, h⟩
  | cons call calls ih =>
    rw [run] at hrun
    cases hstep : step s call with
    | error e =>
      rw [hstep] at hrun
      cases hrun
    | ok res =>
      rw [hstep] at hrun
      obtain ⟨c', hc', h'⟩ := step_refines h hstep
      obtain ⟨c'', hc'', h''⟩ := ih h' hrun
      refine ⟨c'', ?_, h''⟩
      rw [List.map_cons, Coroutines.run, hc']
      exact hc''

/-- `p` is the context of a thread whose `last` is `q`. -/
def State.Last (s : State) (p q : Ctxp) : Prop :=
  ∃ t m, p = .muth t ∧ s.mem t = some m ∧ m.last = some q

theorem Chain.isChain {resumed : ℕ → Bool} (h : Chain s resumed l) :
    List.IsChain s.Last (l.map .muth ++ [.mainctxt]) := by
  induction l with
  | nil => exact List.isChain_singleton _
  | cons t l ih =>
    obtain ⟨⟨m, hm, -, hlast⟩, -, hchain⟩ := h
    refine List.isChain_cons.mpr ⟨?_, ih hchain⟩
    intro q hq
    refine ⟨t, m, rfl, hm, hlast.trans ?_⟩
    cases l with
    | nil => exact hq
    | cons u l => exact hq

/-- What holds whenever a call is made, `c` saying which thread, if any, has entered each thread
    last, and how. -/
structure Nested (s : State) (c : Coroutines ℕ) : Prop where
  /-- `last` is set in the current thread and in those that have directly or transitively started
      or resumed it, -/
  last_iff : ∀ t, (∃ m, s.mem t = some m ∧ m.last ≠ none) ↔
    ∃ cur, s.current = some cur ∧ Relation.ReflTransGen (fun x y => c.entered x = some y) cur t
  /-- and leads from the one that runs through all of them to the main context. -/
  chain : ∃ l : List ℕ, l.Nodup ∧ s.current = l.head? ∧ s.stack = l.head? ∧
    (∀ t, t ∈ l ↔ ∃ m, s.mem t = some m ∧ m.last ≠ none) ∧
    List.IsChain s.Last (l.map .muth ++ [.mainctxt])
  /-- When a thread yields or ends, the call returns that has entered it last. -/
  leaves : ∀ t, s.current = some t → ∀ call, call = .yield ∨ call = .finish →
    ∃ s', step s call = .ok (returning (c.resumed t) t, s') ∧
      s'.stack = c.entered t ∧ s'.current = c.entered t
  starts : ∀ a, s.mem a = none → ∃ s', step s (.mustart a) = .ok (.entry a, s') ∧
    s'.stack = some a ∧ s'.current = some a
  resumes : ∀ t m ret, s.mem t = some m → m.last = none →
    ∃ s', step s (.resume t ret) = .ok (.yield ret, s') ∧ s'.stack = some t ∧ s'.current = some t
  /-- A thread on the chain is not entered, and nothing else aborts but to yield from the main
      context. -/
  aborts_iff : ∀ call, step s call = .error .abort ↔
    (∃ t ret m, call = .resume t ret ∧ s.mem t = some m ∧ m.last ≠ none) ∨
      call = .yield ∧ s.current = none
  /-- Only what makes no sense is undefined. -/
  undefined_iff : ∀ call, step s call = .error .undefined ↔
    (∃ a, call = .mustart a ∧ s.mem a ≠ none) ∨ (∃ t ret, call = .resume t ret ∧ s.mem t = none) ∨
      call = .finish ∧ s.current = none
  /-- A thread has always been freed after its end, once and not before, and runs otherwise. -/
  freed : ∀ t, stage t s.log = some (s.stage t)

theorem Refines.mem_active (h : Refines s c) :
    t ∈ c.active ↔ ∃ m, s.mem t = some m ∧ m.last ≠ none := by
  constructor
  · intro ht
    obtain ⟨m, hm, -, hlast⟩ := h.chain.mem ht
    exact ⟨m, hm, Option.isSome_iff_ne_none.mp hlast⟩
  · rintro ⟨m, hm, hlast⟩
    exact h.mem_of_last hm hlast

theorem Refines.last_iff (h : Refines s c) :
    (∃ m, s.mem t = some m ∧ m.last ≠ none) ↔
      ∃ cur, s.current = some cur ∧
        Relation.ReflTransGen (fun x y => c.entered x = some y) cur t := by
  rw [← h.mem_active, h.current]
  cases hact : c.active with
  | nil => simp
  | cons cur l =>
    rw [← hact, Coroutines.mem_active_iff hact]
    simp [hact]

theorem Refines.leaves (h : Refines s c) (ht : s.current = some t) {call : Call}
    (hcall : call = .yield ∨ call = .finish) :
    ∃ s', step s call = .ok (returning (c.resumed t) t, s') ∧
      s'.stack = c.entered t ∧ s'.current = c.entered t := by
  cases hact : c.active with
  | nil =>
    rw [h.current, hact] at ht
    cases ht
  | cons u l =>
    rw [h.current, hact] at ht
    cases ht
    rw [Coroutines.entered_head hact]
    rcases hcall with rfl | rfl
    · obtain ⟨s', hok, h'⟩ := yield_spec h hact
      exact ⟨s', hok, h'.stack, h'.current⟩
    · obtain ⟨s', hok, h'⟩ := finish_spec h hact
      exact ⟨s', hok, h'.stack, h'.current⟩

/-- When a call stops, and how. -/
theorem Refines.error_iff (h : Refines s c) (call : Call) (e : Stop) :
    step s call = .error e ↔
      e = .abort ∧ ((∃ t ret m, call = .resume t ret ∧ s.mem t = some m ∧ m.last ≠ none) ∨
        call = .yield ∧ s.current = none) ∨
      e = .undefined ∧ ((∃ a, call = .mustart a ∧ s.mem a ≠ none) ∨
        (∃ t ret, call = .resume t ret ∧ s.mem t = none) ∨ call = .finish ∧ s.current = none) := by
  cases call with
  | mustart a =>
    cases ha : s.mem a with
    | none =>
      obtain ⟨-, -, s', hok, -⟩ := mustart_spec h ha
      simp [step, hok, ha]
    | some m => simp [step, mustart, ha, eq_comm]
  | resume t ret =>
    cases ht : s.mem t with
    | none => simp [step, resume, State.deref, ht, bind, Except.bind, eq_comm]
    | some m =>
      by_cases hlast : m.last = none
      · obtain ⟨-, s', hok, -⟩ := resume_spec h ht hlast ret
        simp [step, hok, ht, hlast]
      · simp [step, resume_abort ht hlast, ht, hlast, eq_comm]
  | yield =>
    cases hact : c.active with
    | nil => simp [step, yield_main h hact, h.current, hact, eq_comm]
    | cons t l =>
      obtain ⟨s', hok, -⟩ := yield_spec h hact
      simp [step, hok, h.current, hact]
  | finish =>
    cases hact : c.active with
    | nil => simp [step, finish_main h hact, h.current, hact, eq_comm]
    | cons t l =>
      obtain ⟨s', hok, -⟩ := finish_spec h hact
      simp [step, hok, h.current, hact]

theorem Refines.nested (h : Refines s c) : Nested s c where
  last_iff := fun _ => h.last_iff
  chain := ⟨c.active, c.nodup, h.current, h.stack, fun _ => h.mem_active, h.chain.isChain⟩
  leaves := fun _ ht _ hcall => h.leaves ht hcall
  starts := by
    intro a ha
    obtain ⟨hact, -, s', hok, h'⟩ := mustart_spec h ha
    exact ⟨s', hok, h'.stack, h'.current⟩
  resumes := by
    intro t m ret hm hlast
    obtain ⟨hy, s', hok, h'⟩ := resume_spec h hm hlast ret
    exact ⟨s', hok, h'.stack, h'.current⟩
  aborts_iff := fun call => (h.error_iff call .abort).trans (by simp)
  undefined_iff := fun call => (h.error_iff call .undefined).trans (by simp)
  freed := h.stage

/-- Whatever calls are made, from the main context and from threads, they are entered and left as
    coroutines. -/
theorem switching_nested (calls : List Call) (s : State) (hrun : run {} calls = some s) :
    ∃ c, Coroutines.main.run (calls.map Call.event) = some c ∧ Nested s c := by
  obtain ⟨c, hc, h⟩ := run_refines .init calls hrun
  exact ⟨c, hc, h.nested⟩

theorem switching_nested_calls :
    let calls : List Call := [.mustart 1, .mustart 2, .yield, .mustart 3, .resume 2 7, .finish,
      .yield, .yield, .resume 3 0, .resume 1 5, .finish, .finish, .mustart 2]
    ∃ s c, run {} calls = some s ∧ Coroutines.main.run (calls.map Call.event) = some c ∧
      Nested s c := by
  intro calls
  have hsome : (run {} calls).isSome = true := by decide +kernel
  obtain ⟨s, hs⟩ := Option.isSome_iff_exists.mp hsome
  obtain ⟨c, hc, hnested⟩ := switching_nested calls s hs
  exact ⟨s, c, hs, hc, hnested⟩

end Ashd.Mt
