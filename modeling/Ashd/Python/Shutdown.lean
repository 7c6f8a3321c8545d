import Ashd.Python.Resplex

/-!
# Whether the handler is done when it is closed

A request that `handle` has returned for is with its thread, in the queue, in the table of the
response thread, or has been closed. When `close` returns it has been closed, and in order, just
if the response thread had it off the table when it read the end of the pipe, and its own thread
did not leave `current` to close it later.

Main definitions:
* `Closing.Orderly`: the response was iterated and written out, or the client was gone.
* `Careful`: the steps that leave no request behind.
* `Good`: where a request is, by where its thread is.

Main results:
* `turn_of_step`: what a step of the response thread does to the requests.
* `Inv.step`: the invariant of careful steps.
* `closed_in_order`: runs of such steps.
* `left_open`: a run that leaves a request behind.
-/

namespace Ashd.Resplex

/-! ## Where a request is -/

/-- The response was iterated to its end and written out, unless the client was gone. -/
def Closing.Orderly (c : Closing) : Prop := c.gone = true ∨ c.iterated = true ∧ c.buffer = 0

/-- The response thread comes to look into the queue without another byte in the pipe. -/
def Responder.drains : Responder → Prop
  | .loop (.drain _) | .check _ (.drain _) => True
  | _ => False

/-- The response thread comes to look into the queue. -/
def Awake (s : Mux) : Prop := 0 < s.pipe ∨ s.responder.drains

/-- The request has been closed in order. -/
def Settled (s : Mux) (r : ℕ) : Prop := ∃ c, s.closed r = some c ∧ c.Orderly

/-- The request has not been handed over. -/
def Out (s : Mux) (r : ℕ) : Prop := r ∉ s.cqueue ∧ s.table r = none

/-- The request is off its thread's hands, and not forgotten. -/
def Placed (s : Mux) (r : ℕ) : Prop :=
  r ∈ s.cqueue ∧ Awake s ∨ s.table r ≠ none ∨ Settled s r

/-- Where the request is, by where its thread is. -/
def Good (s : Mux) (r : ℕ) : Prop :=
  match s.thread r with
  | .absent | .started | .running => Out s r
  | .queued => r ∈ s.cqueue ∨ s.table r ≠ none ∨ Settled s r
  | .leaving | .ended => Placed s r
  | .failed c | .closing c => c.Orderly ∧ Out s r

/-- The steps that leave no request behind: the response thread reads the end of the pipe when it
    has none of those that there were before `close`, and `close` finds `current` empty when none
    of their threads is yet to close one; no error but that the client is gone comes from writing a
    response, none comes from handling its data, and a handler does not fail when it has called
    `write`, nor comes to its end before it has called `start_request`. -/
def Careful (s : Mux) : Event → Prop
  | .read => s.pipe = 0 → ∀ r ∈ s.before, s.table r = none
  | .leave => ∀ r ∈ s.before, ∀ c, s.thread r ≠ .closing c
  | .flush f => f ≠ .raised
  | .ckiter next => ∀ n, next ≠ .unhandled n
  | .raised _ n => n = 0
  | .unstarted _ _ => False
  | _ => True

/-! ## The response thread -/

section Responder

variable {max : Option ℕ} {s s' : Mux} {r q : ℕ} {e : Event}

/-- The response thread has done something about a request. -/
structure Served (s s' : Mux) (r : ℕ) : Prop where
  frame : s' = { s with table := s'.table, buffer := s'.buffer, closed := s'.closed }
  table : ∀ q, q ≠ r → s'.table q = s.table q
  closed : ∀ q, q ≠ r → s'.closed q = s.closed q
  settled : s'.table r = none → Settled s' r
  mono : Settled s r → Settled s' r
  spent : s'.table r ≠ some (.spent false)

theorem Served.trans {s₁ : Mux} (h₁ : Served s s₁ r) (h₂ : Served s₁ s' r) : Served s s' r where
  frame := by
    rw [h₂.frame, h₁.frame]
  table q hq := (h₂.table q hq).trans (h₁.table q hq)
  closed q hq := (h₂.closed q hq).trans (h₁.closed q hq)
  settled := h₂.settled
  mono h := h₂.mono (h₁.mono h)
  spent := h₂.spent

theorem closereq_spec {gone : Bool} (h : closereq s r gone = some s')
    (hc : ∀ it, s.table r = some it → Closing.Orderly ⟨it.iterated, s.buffer r, gone⟩) :
    Served s s' r := by
  unfold closereq at h
  cases ht : s.table r with
  | none => simp [ht] at h
  | some it =>
    simp only [ht, Option.some.injEq] at h
    subst h
    have hsettled : Settled ((s.setClosed r ⟨it.iterated, s.buffer r, gone⟩).setTable r none) r :=
      ⟨_, Function.update_self _ _ _, hc it ht⟩
    refine ⟨rfl, fun q hq => Function.update_of_ne hq _ _, fun q hq => Function.update_of_ne hq _ _,
      fun _ => hsettled, fun _ => hsettled, ?_⟩
    simp [Mux.setTable, Mux.setClosed]

/-- The table and the buffer of a request that stays there. -/
theorem served_set (n : ℕ) {it : Respiter} (hit : it ≠ .spent false) :
    Served s ((s.setBuffer r n).setTable r (some it)) r where
  frame := rfl
  table q hq := Function.update_of_ne hq _ _
  closed q hq := rfl
  settled h := by simp [Mux.setTable] at h
  mono h := h
  spent := by simpa [Mux.setTable] using hit

theorem served_refl {it : Respiter} (ht : s.table r = some it) (hit : it ≠ .spent false) :
    Served s s r :=
  ⟨rfl, fun _ _ => rfl, fun _ _ => rfl, fun h => by simp [ht] at h, id, by simpa [ht] using hit⟩

theorem settle_spec (h : settle s r (.spent true) = some s') (ht : s.table r = some (.spent true)) :
    Served s s' r := by
  unfold settle at h
  simp only at h
  split_ifs at h with hbuf
  · refine closereq_spec h fun it hit => .inr ⟨?_, hbuf⟩
    obtain rfl := Option.some.inj (ht.symm.trans hit)
    rfl
  · obtain rfl := Option.some.inj h
    exact served_refl ht (by simp)

theorem ckiter_spec {next : Next} (h : ckiter s r next = some s')
    (hnext : ∀ n, next ≠ .unhandled n) (hover : s.table r ≠ some (.spent false)) :
    Served s s' r := by
  unfold ckiter at h
  cases ht : s.table r with
  | none => simp [ht] at h
  | some it =>
    cases it with
    | spent b =>
      obtain rfl : b = true := by
        by_contra hb
        exact hover (by rw [ht, (Bool.not_eq_true b).mp hb])
      simp only [ht] at h
      exact settle_spec h ht
    | iter =>
      have hself (s : Mux) : (s.setTable r (some (.spent true))).table r = some (.spent true) :=
        Function.update_self _ _ _
      simp only [ht] at h
      cases next with
      | stop head => exact (served_set _ (by simp)).trans (settle_spec h (hself _))
      | raised =>
        have hset : s.setTable r (some (.spent true)) =
            (s.setBuffer r (s.buffer r)).setTable r (some (.spent true)) := by
          simp [Mux.setTable, Mux.setBuffer]
        rw [hset] at h
        exact (served_set _ (by simp)).trans (settle_spec h (hself _))
      | data n =>
        obtain rfl := Option.some.inj h
        have hset : s.setBuffer r (s.buffer r + n) =
            (s.setBuffer r (s.buffer r + n)).setTable r (some .iter) := by
          simp [Mux.setTable, Mux.setBuffer, ← ht]
        rw [hset]
        exact served_set _ (by simp)
      | unhandled n => exact absurd rfl (hnext n)

/-! ## A step of the response thread -/

/-- The steps of the response thread. -/
def Event.responds : Event → Prop
  | .select .. | .read | .get | .empty | .ckiter _ | .flush _ | .again => True
  | _ => False

/-- What such a step does to the requests. -/
structure Turn (s s' : Mux) : Prop where
  frame : s' = { s with cqueue := s'.cqueue, pipe := s'.pipe, table := s'.table, buffer := s'.buffer,
                        closed := s'.closed, responder := s'.responder }
  cqueue : ∀ q ∈ s'.cqueue, q ∈ s.cqueue
  taken : ∀ q ∈ s.cqueue, q ∈ s'.cqueue ∨ s'.table q ≠ none
  table : ∀ q, s'.table q ≠ none → s.table q ≠ none ∨ q ∈ s.cqueue
  tabled : ∀ q, s.table q ≠ none → s'.table q ≠ none ∨ Settled s' q
  settled : ∀ q, Settled s q → Settled s' q
  spent : ∀ q, s'.table q ≠ some (.spent false)
  awake : s'.cqueue ≠ [] → Awake s → Awake s'
  done : s'.responder = .done → s'.pipe = 0 ∧ s'.wopen = false ∧ ∀ q ∈ s'.before, s'.table q = none

/-- A request has been served, and the thread goes on in the same loop or, from the queue, in the
    same. -/
theorem Served.turn {x : Responder} (h : Served s s' r) (hover : ∀ q, s.table q ≠ some (.spent false))
    (ht : s.table r ≠ none) (hx : s.responder.drains → x.drains) (hdone : x ≠ .done) :
    Turn s { s' with responder := x } := by
  have hframe := h.frame
  have hsame (q : ℕ) (hq : q ≠ r) : Settled s q → Settled s' q := by
    rintro ⟨c, hc, ho⟩
    exact ⟨c, (h.closed q hq).trans hc, ho⟩
  refine ⟨?_, ?_, ?_, ?_, ?_, ?_, ?_, ?_, fun h => absurd h hdone⟩
  · rw [hframe]
  · intro q hq
    rw [hframe] at hq
    exact hq
  · intro q hq
    left
    rw [hframe]
    exact hq
  · intro q hq
    left
    by_cases hqr : q = r
    · rw [hqr]
      exact ht
    · rwa [← h.table q hqr]
  · intro q hq
    by_cases hqr : q = r
    · subst hqr
      by_cases hn : s'.table q = none
      · exact .inr (h.settled hn)
      · exact .inl hn
    · left
      show s'.table q ≠ none
      rwa [h.table q hqr]
  · intro q hq
    by_cases hqr : q = r
    · subst hqr
      exact h.mono hq
    · exact hsame q hqr hq
  · intro q
    by_cases hqr : q = r
    · rw [hqr]
      exact h.spent
    · show s'.table q ≠ _
      rw [h.table q hqr]
      exact hover q
  · rintro - (hp | hd)
    · left
      show 0 < s'.pipe
      rw [hframe]
      exact hp
    · exact .inr (hx hd)

/-- Nothing has been done about any request. -/
theorem turn_of_same (hframe : s' = { s with pipe := s'.pipe, buffer := s'.buffer,
                                             responder := s'.responder })
    (hover : ∀ q, s.table q ≠ some (.spent false)) (hawake : s.cqueue ≠ [] → Awake s → Awake s')
    (hdone : s'.responder = .done → s'.pipe = 0 ∧ s.wopen = false ∧ ∀ q ∈ s.before, s.table q = none) :
    Turn s s' := by
  refine ⟨?_, ?_, ?_, ?_, ?_, ?_, ?_, ?_, ?_⟩
  all_goals rw [hframe]
  · exact fun q hq => hq
  · exact fun q hq => .inl hq
  · exact fun q hq => .inl hq
  · exact fun q hq => .inl hq
  · exact fun q hq => hq
  · exact hover
  · intro hne ha
    have := hawake hne ha
    rwa [hframe] at this
  · exact hdone

theorem turn_of_flush {wls : List ℕ} {f : Flush} (h : flush s r wls f = some s')
    (hf : f ≠ .raised) (hover : ∀ q, s.table q ≠ some (.spent false))
    (hr : ¬ s.responder.drains) : Turn s s' := by
  have hawake (x : Mux) (hp : x.pipe = s.pipe) : s.cqueue ≠ [] → Awake s → Awake x := by
    rintro - (hpipe | hd)
    · exact .inl (by rw [hp]; exact hpipe)
    · exact absurd hd hr
  cases f with
  | sent n =>
    unfold flush at h
    simp only at h
    split_ifs at h <;> obtain rfl := Option.some.inj h
    all_goals exact turn_of_same rfl hover (hawake _ rfl) nofun
  | closed =>
    obtain ⟨s₁, hclose, rfl⟩ := Option.map_eq_some_iff.mp h
    have ht : s.table r ≠ none := by
      intro hn
      simp [closereq, hn] at hclose
    exact (closereq_spec hclose fun _ _ => .inl rfl).turn hover ht (fun hd => absurd hd hr) nofun
  | raised => exact absurd rfl hf

/-- A response is taken from the queue. -/
theorem turn_of_get {cqueue wls : List ℕ} (hq : s.cqueue = r :: cqueue)
    (hover : ∀ q, s.table q ≠ some (.spent false)) :
    Turn s ({ s with cqueue, responder := .check r (.drain wls) }.setTable r (some .iter)) := by
  have htable (q : ℕ) (hqr : q ≠ r) : (s.setTable r (some .iter)).table q = s.table q :=
    Function.update_of_ne hqr _ _
  have hself : (s.setTable r (some .iter)).table r = some .iter := Function.update_self _ _ _
  refine ⟨rfl, ?_, ?_, ?_, ?_, fun q hq => hq, ?_, fun _ _ => .inr trivial, nofun⟩
  · intro q hmem
    rw [hq]
    exact List.mem_cons_of_mem r hmem
  · intro q hmem
    rw [hq] at hmem
    rcases List.mem_cons.mp hmem with rfl | hmem
    · exact .inr (by show (s.setTable q (some .iter)).table q ≠ none; simp [hself])
    · exact .inl hmem
  · intro q hne
    by_cases hqr : q = r
    · right
      rw [hqr, hq]
      exact List.mem_cons_self
    · left
      rwa [← htable q hqr]
  · intro q hne
    left
    show (s.setTable r (some .iter)).table q ≠ none
    by_cases hqr : q = r
    · rw [hqr, hself]
      simp
    · rwa [htable q hqr]
  · intro q
    show (s.setTable r (some .iter)).table q ≠ _
    by_cases hqr : q = r
    · rw [hqr, hself]
      simp
    · rw [htable q hqr]
      exact hover q

theorem turn_of_step (h : step max s e = some s') (he : e.responds) (hc : Careful s e)
    (hover : ∀ q, s.table q ≠ some (.spent false)) : Turn s s' := by
  cases e with
  | select rd wls =>
    cases hr : s.responder <;> simp only [step, hr, reduceCtorEq] at h
    unfold selected at h
    split_ifs at h <;> obtain rfl := Option.some.inj h
    all_goals
      refine turn_of_same rfl hover ?_ nofun
      rintro - (hp | hd)
      · exact .inl hp
      · simp [hr, Responder.drains] at hd
  | read =>
    cases hr : s.responder <;> simp only [step, hr, reduceCtorEq] at h
    unfold readpipe at h
    split_ifs at h with hp hopen
    · obtain rfl := Option.some.inj h
      exact turn_of_same rfl hover (fun _ _ => .inr trivial) nofun
    · obtain rfl := Option.some.inj h
      have hpipe : s.pipe = 0 := by omega
      refine turn_of_same rfl hover ?_ fun _ => ⟨hpipe, hopen, hc hpipe⟩
      rintro - (hp' | hd)
      · exact absurd hp' hp
      · simp [hr, Responder.drains] at hd
  | get =>
    cases hr : s.responder with
    | loop l =>
      cases l <;> cases hq : s.cqueue <;>
        simp only [step, hr, hq, Option.some.injEq, reduceCtorEq] at h
      subst h
      exact turn_of_get hq hover
    | _ => simp only [step, hr, reduceCtorEq] at h
  | empty =>
    cases hr : s.responder with
    | loop l =>
      cases l <;> cases hq : s.cqueue <;>
        simp only [step, hr, hq, Option.some.injEq, reduceCtorEq] at h
      subst h
      exact turn_of_same (by rw [hq]) hover (fun hne => absurd hq hne) nofun
    | _ => simp only [step, hr, reduceCtorEq] at h
  | ckiter next =>
    cases hr : s.responder with
    | check r l =>
      simp only [step, hr] at h
      obtain ⟨s₁, hiter, rfl⟩ := Option.map_eq_some_iff.mp h
      have ht : s.table r ≠ none := by
        intro hn
        simp [ckiter, hn] at hiter
      refine (ckiter_spec hiter hc (hover r)).turn hover ht (fun hd => ?_) nofun
      rw [hr] at hd
      cases l <;> exact hd
    | _ => simp only [step, hr, reduceCtorEq] at h
  | flush f =>
    cases hr : s.responder with
    | loop l =>
      cases l with
      | drain wls => simp only [step, hr, reduceCtorEq] at h
      | flush wls =>
        cases wls <;> simp only [step, hr, reduceCtorEq] at h
        exact turn_of_flush h hc hover (by simp [hr, Responder.drains])
    | _ => simp only [step, hr, reduceCtorEq] at h
  | again =>
    cases hr : s.responder with
    | loop l =>
      cases l with
      | drain wls => simp only [step, hr, reduceCtorEq] at h
      | flush wls =>
        cases wls <;> simp only [step, hr, Option.some.injEq, reduceCtorEq] at h
        subst h
        refine turn_of_same rfl hover ?_ nofun
        rintro - (hp | hd)
        · exact .inl hp
        · simp [hr, Responder.drains] at hd
    | _ => simp only [step, hr, reduceCtorEq] at h
  | _ => exact he.elim

theorem responding (h : step max s e = some s') (he : e.responds) : s.responder ≠ .done := by
  intro hr
  cases e <;> first | exact he.elim | simp [step, hr] at h

theorem Turn.out (h : Turn s s') (ho : Out s q) : Out s' q := by
  obtain ⟨hq, ht⟩ := ho
  refine ⟨fun hq' => hq (h.cqueue q hq'), ?_⟩
  by_contra hne
  rcases h.table q hne with hne | hmem
  · exact hne ht
  · exact hq hmem

theorem Turn.placed (h : Turn s s') (hp : Placed s q) : Placed s' q := by
  obtain ⟨hq, ha⟩ | ht | hs := hp
  · rcases h.taken q hq with hq | ht
    · exact .inl ⟨hq, h.awake (List.ne_nil_of_mem hq) ha⟩
    · exact .inr (.inl ht)
  · exact .inr (h.tabled q ht)
  · exact .inr (.inr (h.settled q hs))

theorem Turn.good (h : Turn s s') (hg : Good s q) : Good s' q := by
  have hthread : s'.thread q = s.thread q := by rw [h.frame]
  unfold Good at hg ⊢
  rw [hthread]
  cases hx : s.thread q <;> simp only [hx] at hg ⊢
  case absent => exact h.out hg
  case started => exact h.out hg
  case running => exact h.out hg
  case queued =>
    obtain hq | ht | hs := hg
    · exact (h.taken q hq).imp_right .inl
    · exact .inr (h.tabled q ht)
    · exact .inr (.inr (h.settled q hs))
  case leaving => exact h.placed hg
  case ended => exact h.placed hg
  case failed => exact ⟨hg.1, h.out hg.2⟩
  case closing => exact ⟨hg.1, h.out hg.2⟩

end Responder

/-! ## The invariant -/

/-- The thread is in `current`. -/
def Thread.enrolled : Thread → Prop
  | .running | .queued | .leaving | .failed _ => True
  | _ => False

/-- `close` has found `current` empty. -/
def Closer.left : Closer → Prop
  | .leaving | .closed | .returned => True
  | _ => False

/-- It has closed the pipe. -/
def Closer.shut : Closer → Prop
  | .closed | .returned => True
  | _ => False

/-- What holds after careful steps. When `close` has left its loop, only the requests that there
    were before it still matter. -/
structure Inv (s : Mux) : Prop where
  enrolled : ∀ r, r ∈ s.current ↔ (s.thread r).enrolled
  registering : ∀ c r, s.caller c = .registering r → s.thread r ≠ .absent
  handed : ∀ r ∈ s.handed, s.thread r ≠ .absent ∧ s.thread r ≠ .started
  before : s.before ⊆ s.handed
  spent : ∀ q, s.table q ≠ some (.spent false)
  wopen : ¬ s.closer.shut → s.wopen = true
  good : ¬ s.closer.left → ∀ r, Good s r
  last : s.closer.left → ∀ r ∈ s.before, s.thread r = .ended ∧ Placed s r
  done : s.responder = .done → s.pipe = 0 ∧ s.wopen = false ∧ ∀ q ∈ s.before, s.table q = none
  returned : s.closer = .returned → s.responder = .done

section Invariant

variable {max : Option ℕ} {s s' : Mux} {r q : ℕ} {e : Event}

theorem inv_init : Inv {} where
  enrolled r := iff_of_false (Finset.notMem_empty r) id
  registering _ _ h := by cases h
  handed r hr := absurd hr (Finset.notMem_empty r)
  before := Finset.Subset.refl _
  spent q := by simp
  wopen _ := rfl
  good _ r := ⟨List.not_mem_nil, rfl⟩
  last h := h.elim
  done h := by cases h
  returned h := by cases h

theorem Turn.inv (h : Turn s s') (hi : Inv s) (hr : s.responder ≠ .done) : Inv s' := by
  have hframe := h.frame
  have hcloser : s'.closer = s.closer := by rw [hframe]
  have hthread : s'.thread = s.thread := by rw [hframe]
  have hbefore : s'.before = s.before := by rw [hframe]
  refine ⟨?_, ?_, ?_, ?_, h.spent, ?_, ?_, ?_, h.done, ?_⟩
  · rw [hframe]
    exact hi.enrolled
  · rw [hframe]
    exact hi.registering
  · rw [hframe]
    exact hi.handed
  · rw [hframe]
    exact hi.before
  · rw [hframe]
    exact hi.wopen
  · rw [hcloser]
    exact fun hl r => h.good (hi.good hl r)
  · rw [hcloser, hbefore, hthread]
    exact fun hl r hmem => ⟨(hi.last hl r hmem).1, h.placed (hi.last hl r hmem).2⟩
  · rw [hcloser]
    exact fun hret => absurd (hi.returned hret) hr

/-! ## A step of another thread -/

/-- The thread of a request, or the call that starts it, has made a step. -/
structure Moved (s s' : Mux) (r : ℕ) : Prop where
  frame : s' = { s with current := s'.current, cqueue := s'.cqueue, pipe := s'.pipe, buffer := s'.buffer,
                        closed := s'.closed, thread := s'.thread, caller := s'.caller }
  thread : ∀ q, q ≠ r → s'.thread q = s.thread q
  cqueue : ∀ q, q ≠ r → (q ∈ s'.cqueue ↔ q ∈ s.cqueue)
  closed : ∀ q, q ≠ r → s'.closed q = s.closed q
  current : ∀ q, q ≠ r → (q ∈ s'.current ↔ q ∈ s.current)
  caller : ∀ c q, q ≠ r → s'.caller c = .registering q → s.caller c = .registering q
  pipe : s.pipe ≤ s'.pipe
  dry : s.wopen = false → s'.pipe = s.pipe

theorem Moved.placed (h : Moved s s' r) (hq : q ≠ r) (hp : Placed s q) : Placed s' q := by
  obtain ⟨hmem, ha⟩ | ht | ⟨c, hc, ho⟩ := hp
  · refine .inl ⟨(h.cqueue q hq).mpr hmem, ?_⟩
    rcases ha with ha | ha
    · exact .inl (Nat.lt_of_lt_of_le ha h.pipe)
    · right
      rw [h.frame]
      exact ha
  · right; left
    rw [h.frame]
    exact ht
  · exact .inr (.inr ⟨c, (h.closed q hq).trans hc, ho⟩)

theorem Moved.out (h : Moved s s' r) (hq : q ≠ r) (ho : Out s q) : Out s' q := by
  refine ⟨fun hmem => ho.1 ((h.cqueue q hq).mp hmem), ?_⟩
  rw [h.frame]
  exact ho.2

theorem Moved.good (h : Moved s s' r) (hq : q ≠ r) (hg : Good s q) : Good s' q := by
  unfold Good at hg ⊢
  rw [h.thread q hq]
  cases hx : s.thread q <;> simp only [hx] at hg ⊢
  case absent => exact h.out hq hg
  case started => exact h.out hq hg
  case running => exact h.out hq hg
  case queued =>
    obtain hmem | ht | ⟨c, hc, ho⟩ := hg
    · exact .inl ((h.cqueue q hq).mpr hmem)
    · right; left
      rw [h.frame]
      exact ht
    · exact .inr (.inr ⟨c, (h.closed q hq).trans hc, ho⟩)
  case leaving => exact h.placed hq hg
  case ended => exact h.placed hq hg
  case failed => exact ⟨hg.1, h.out hq hg.2⟩
  case closing => exact ⟨hg.1, h.out hq hg.2⟩

theorem Moved.inv (h : Moved s s' r) (hi : Inv s) (hfrom : s.thread r ≠ .ended)
    (hto : s'.thread r ≠ .absent) (hstarted : s'.thread r = .started → s.thread r = .absent)
    (henrolled : r ∈ s'.current ↔ (s'.thread r).enrolled)
    (hgood : ¬ s.closer.left → Good s r → Good s' r) : Inv s' := by
  have hframe := h.frame
  have hcloser : s'.closer = s.closer := by rw [hframe]
  have hbefore : s'.before = s.before := by rw [hframe]
  have hhanded : s'.handed = s.handed := by rw [hframe]
  have hwopen : s'.wopen = s.wopen := by rw [hframe]
  have hresponder : s'.responder = s.responder := by rw [hframe]
  have htable : s'.table = s.table := by rw [hframe]
  refine ⟨?_, ?_, ?_, ?_, ?_, ?_, ?_, ?_, ?_, ?_⟩
  · intro q
    by_cases hq : q = r
    · rw [hq]
      exact henrolled
    · rw [h.current q hq, h.thread q hq]
      exact hi.enrolled q
  · intro c q hc
    by_cases hq : q = r
    · rw [hq]
      exact hto
    · rw [h.thread q hq]
      exact hi.registering c q (h.caller c q hq hc)
  · intro q hmem
    rw [hhanded] at hmem
    by_cases hq : q = r
    · subst hq
      exact ⟨hto, fun hs => (hi.handed q hmem).1 (hstarted hs)⟩
    · rw [h.thread q hq]
      exact hi.handed q hmem
  · rw [hbefore, hhanded]
    exact hi.before
  · rw [htable]
    exact hi.spent
  · rw [hcloser, hwopen]
    exact hi.wopen
  · intro hl q
    rw [hcloser] at hl
    by_cases hq : q = r
    · rw [hq]
      exact hgood hl (hi.good hl r)
    · exact h.good hq (hi.good hl q)
  · intro hl q hmem
    rw [hcloser] at hl
    rw [hbefore] at hmem
    obtain ⟨hend, hp⟩ := hi.last hl q hmem
    have hq : q ≠ r := by
      rintro rfl
      exact hfrom hend
    rw [h.thread q hq]
    exact ⟨hend, h.placed hq hp⟩
  · intro hd
    rw [hresponder] at hd
    obtain ⟨hp, hw, ht⟩ := hi.done hd
    rw [hwopen, hbefore, htable, h.dry hw]
    exact ⟨hp, hw, ht⟩
  · rw [hcloser, hresponder]
    exact hi.returned

theorem setThread_self (s : Mux) (r : ℕ) (x : Thread) : (s.setThread r x).thread r = x :=
  Function.update_self _ _ _

theorem setThread_of_ne (s : Mux) {q r : ℕ} (h : q ≠ r) (x : Thread) :
    (s.setThread r x).thread q = s.thread q := Function.update_of_ne h _ _

/-- Where a request is, by the state of its thread. -/
theorem good_iff {x : Thread} : s.thread r = x → (Good s r ↔
    match x with
    | .absent | .started | .running => Out s r
    | .queued => r ∈ s.cqueue ∨ s.table r ≠ none ∨ Settled s r
    | .leaving | .ended => Placed s r
    | .failed c | .closing c => c.Orderly ∧ Out s r) := by
  rintro rfl
  rfl

/-- Where a request is when its thread comes to `x`. -/
theorem good_setThread {x : Thread} : Good (s.setThread r x) r ↔
    match x with
    | .absent | .started | .running => Out s r
    | .queued => r ∈ s.cqueue ∨ s.table r ≠ none ∨ Settled s r
    | .leaving | .ended => Placed s r
    | .failed c | .closing c => c.Orderly ∧ Out s r :=
  good_iff (setThread_self s r x)

/-- The thread goes on, and nothing else is changed but what is said. -/
theorem moved_setThread {current : Finset ℕ} {cqueue : List ℕ} {pipe : ℕ} {buffer : ℕ → ℕ}
    {closed : ℕ → Option Closing} (x : Thread)
    (hcurrent : ∀ q, q ≠ r → (q ∈ current ↔ q ∈ s.current))
    (hcqueue : ∀ q, q ≠ r → (q ∈ cqueue ↔ q ∈ s.cqueue))
    (hclosed : ∀ q, q ≠ r → closed q = s.closed q)
    (hpipe : s.pipe ≤ pipe) (hdry : s.wopen = false → pipe = s.pipe) :
    Moved s ({ s with current, cqueue, pipe, buffer, closed }.setThread r x) r :=
  ⟨rfl, fun _ hq => Function.update_of_ne hq _ _, hcqueue, hclosed, hcurrent, fun _ _ _ h => h,
    hpipe, hdry⟩

/-- A request that is in `current` before and after. -/
theorem Moved.inv_of_enrolled (h : Moved s s' r) (hi : Inv s) (hr : (s.thread r).enrolled)
    (hr' : (s'.thread r).enrolled) (hcurrent : s'.current = s.current)
    (hgood : ¬ s.closer.left → Good s r → Good s' r) : Inv s' := by
  refine h.inv hi ?_ ?_ ?_ ?_ hgood
  · intro hended
    rw [hended] at hr
    exact hr
  · intro habsent
    rw [habsent] at hr'
    exact hr'
  · intro hstarted
    rw [hstarted] at hr'
    exact hr'.elim
  · rw [hcurrent]
    exact iff_of_true ((hi.enrolled r).mpr hr) hr'

/-- The thread is still in `current`, and out of the queue. -/
theorem failed_inv {c : Closing} {buffer : ℕ → ℕ} (hi : Inv s) (hr : (s.thread r).enrolled)
    (hc : ¬ s.closer.left → Good s r → c.Orderly ∧ Out s r) :
    Inv ({ s with buffer }.setThread r (.failed c)) := by
  have hm : Moved s ({ s with buffer }.setThread r (.failed c)) r :=
    moved_setThread _ (fun _ _ => Iff.rfl) (fun _ _ => Iff.rfl) (fun _ _ => rfl) le_rfl fun _ => rfl
  refine hm.inv_of_enrolled hi hr ?_ rfl ?_
  · rw [setThread_self]
    trivial
  · intro hl hg
    rw [good_setThread]
    exact hc hl hg

theorem register_inv (hi : Inv s) (hr : s.thread r = .started) :
    Inv ({ s with current := insert r s.current }.setThread r .running) := by
  have hm : Moved s ({ s with current := insert r s.current }.setThread r .running) r :=
    moved_setThread _ (fun q hq => by simp [hq]) (fun _ _ => Iff.rfl) (fun _ _ => rfl) le_rfl
      fun _ => rfl
  refine hm.inv hi (by simp [hr]) ?_ ?_ ?_ ?_
  · simp [setThread_self]
  · simp [setThread_self]
  · rw [setThread_self]
    exact iff_of_true (Finset.mem_insert_self r s.current) trivial
  · intro _ hg
    rw [good_setThread]
    exact (good_iff hr).mp hg

theorem put_inv {n : ℕ} (hi : Inv s) (hr : s.thread r = .running) :
    Inv (({ s with cqueue := s.cqueue ++ [r] }.setBuffer r n).setThread r .queued) := by
  have hm : Moved s (({ s with cqueue := s.cqueue ++ [r] }.setBuffer r n).setThread r .queued) r :=
    moved_setThread _ (fun _ _ => Iff.rfl) (fun q hq => by simp [hq]) (fun _ _ => rfl) le_rfl
      fun _ => rfl
  refine hm.inv_of_enrolled hi ?_ ?_ rfl ?_
  · rw [hr]
    trivial
  · rw [setThread_self]
    trivial
  · intro _ _
    rw [good_setThread]
    exact .inl (List.mem_append_right s.cqueue List.mem_cons_self)

/-- With the byte in the pipe, the response thread comes to find what is in the queue. -/
theorem write_inv (hi : Inv s) (hr : s.thread r = .queued) (hopen : s.wopen = true) :
    Inv ({ s with pipe := s.pipe + 1 }.setThread r .leaving) := by
  have hm : Moved s ({ s with pipe := s.pipe + 1 }.setThread r .leaving) r :=
    moved_setThread _ (fun _ _ => Iff.rfl) (fun _ _ => Iff.rfl) (fun _ _ => rfl) (Nat.le_succ _)
      fun h => by simp [hopen] at h
  refine hm.inv_of_enrolled hi ?_ ?_ rfl ?_
  · rw [hr]
    trivial
  · rw [setThread_self]
    trivial
  · intro _ hg
    rw [good_setThread]
    exact ((good_iff hr).mp hg).imp_left fun hmem => ⟨hmem, .inl (Nat.succ_pos s.pipe)⟩

/-- The thread leaves `current`. -/
theorem remove_inv {x : Thread} (hi : Inv s) (hr : (s.thread r).enrolled) (hx : ¬ x.enrolled)
    (hto : x ≠ .absent ∧ x ≠ .started) (hgood : Good s r → Good (s.setThread r x) r) :
    Inv ({ s with current := s.current.erase r }.setThread r x) := by
  have hm : Moved s ({ s with current := s.current.erase r }.setThread r x) r :=
    moved_setThread _ (fun q hq => by simp [hq]) (fun _ _ => Iff.rfl) (fun _ _ => rfl) le_rfl
      fun _ => rfl
  refine hm.inv hi ?_ ?_ ?_ ?_ fun _ hg => hgood hg
  · intro h
    rw [h] at hr
    exact hr
  · rw [setThread_self]
    exact hto.1
  · rw [setThread_self]
    exact fun h => absurd h hto.2
  · rw [setThread_self]
    exact iff_of_false (Finset.notMem_erase r s.current) hx

theorem closed_inv {c : Closing} (hi : Inv s) (hr : s.thread r = .closing c) :
    Inv ((s.setClosed r c).setThread r .ended) := by
  have hm : Moved s ((s.setClosed r c).setThread r .ended) r :=
    moved_setThread _ (fun _ _ => Iff.rfl) (fun _ _ => Iff.rfl)
      (fun q hq => Function.update_of_ne hq _ _) le_rfl fun _ => rfl
  refine hm.inv hi (by simp [hr]) ?_ ?_ ?_ ?_
  · simp [setThread_self]
  · simp [setThread_self]
  · rw [setThread_self]
    refine iff_of_false (fun hmem => ?_) id
    have := (hi.enrolled r).mp hmem
    rw [hr] at this
    exact this
  · intro _ hg
    rw [good_setThread]
    exact .inr (.inr ⟨c, Function.update_self _ _ _, ((good_iff hr).mp hg).1⟩)

theorem start_inv {c : ℕ} (hi : Inv s) (hr : s.thread r = .absent) :
    Inv ((s.setThread r .started).setCaller c (.registering r)) := by
  have hm : Moved s ((s.setThread r .started).setCaller c (.registering r)) r := by
    refine ⟨rfl, fun _ hq => setThread_of_ne s hq _, fun _ _ => Iff.rfl, fun _ _ => rfl,
      fun _ _ => Iff.rfl, ?_, le_rfl, fun _ => rfl⟩
    intro d q hq hd
    by_cases hdc : d = c
    · subst hdc
      simp only [Mux.setCaller, Function.update_self, Caller.registering.injEq] at hd
      exact absurd hd.symm hq
    · simpa [Mux.setCaller, Mux.setThread, hdc] using hd
  have hself : ((s.setThread r .started).setCaller c (.registering r)).thread r = .started :=
    setThread_self s r .started
  refine hm.inv hi (by simp [hr]) ?_ ?_ ?_ ?_
  · simp [hself]
  · exact fun _ => hr
  · rw [hself]
    refine iff_of_false (fun hmem => ?_) id
    have := (hi.enrolled r).mp hmem
    rw [hr] at this
    exact this
  · intro _ hg
    unfold Good at hg ⊢
    rw [hr] at hg
    rw [hself]
    exact hg

/-! ## `close` -/

/-- When `close` is called, the requests are told that there were before it. -/
theorem close_inv (hi : Inv s) (hc : s.closer = .idle) :
    Inv { s with closer := .looping, before := s.handed } := by
  have hopen : s.wopen = true := hi.wopen (by rw [hc]; exact id)
  refine { hi with before := Finset.Subset.refl s.handed, wopen := fun _ => hopen, good := ?_,
                   last := fun h => h.elim, done := ?_, returned := nofun }
  · exact fun _ => hi.good (by rw [hc]; exact id)
  · intro hd
    have := (hi.done hd).2.1
    rw [hopen] at this
    cases this

/-- Within the loop. -/
theorem loop_inv {x : Closer} (hi : Inv s) (hl : ¬ s.closer.left) (hs : ¬ s.closer.shut)
    (hx : ¬ x.left) : Inv { s with closer := x } :=
  { hi with wopen := fun _ => hi.wopen hs, good := fun _ => hi.good hl,
            last := fun h => absurd h hx, returned := fun h => absurd (by rw [show x = _ from h]; trivial) hx }

/-- All threads that there were before have come to their end. -/
theorem leave_inv (hi : Inv s) (hl : s.closer = .looping) (hcurrent : s.current = ∅)
    (hc : ∀ r ∈ s.before, ∀ c, s.thread r ≠ .closing c) : Inv { s with closer := .leaving } := by
  have hgood := hi.good (by rw [hl]; exact id)
  refine { hi with wopen := fun _ => hi.wopen (by rw [hl]; exact id),
                   good := fun h => absurd trivial h, last := ?_, returned := nofun }
  intro _ r hr
  obtain ⟨habsent, hstarted⟩ := hi.handed r (hi.before hr)
  have hnot : ¬ (s.thread r).enrolled := by
    rw [← hi.enrolled r, hcurrent]
    exact Finset.notMem_empty r
  have hend : s.thread r = .ended := by
    cases hx : s.thread r with
    | ended => rfl
    | absent => exact absurd hx habsent
    | started => exact absurd hx hstarted
    | closing c => exact absurd hx (hc r hr c)
    | _ => exact absurd (by rw [hx]; trivial) hnot
  refine ⟨hend, ?_⟩
  have hg := hgood r
  exact (good_iff hend).mp hg

theorem closepipe_inv (hi : Inv s) (hl : s.closer = .leaving) :
    Inv { s with closer := .closed, wopen := false } := by
  have hleft : s.closer.left := by rw [hl]; trivial
  refine { hi with wopen := fun h => absurd trivial h, good := fun h => absurd trivial h,
                   last := fun _ => hi.last hleft, done := ?_, returned := nofun }
  exact fun hd => ⟨(hi.done hd).1, rfl, (hi.done hd).2.2⟩

theorem rjoin_inv (hi : Inv s) (hl : s.closer = .closed) (hr : s.responder = .done) :
    Inv { s with closer := .returned } := by
  have hleft : s.closer.left := by rw [hl]; trivial
  exact { hi with wopen := fun h => absurd trivial h, good := fun h => absurd trivial h,
                  last := fun _ => hi.last hleft, returned := fun _ => hr }

/-- A caller that has been given another state does not wait for a thread to register. -/
theorem caller_of_setCaller {c d : ℕ} {x : Caller} (hx : ∀ r, x ≠ .registering r)
    (hd : (s.setCaller c x).caller d = .registering r) : s.caller d = .registering r := by
  by_cases hdc : d = c
  · subst hdc
    exact absurd (by simpa [Mux.setCaller] using hd) (hx r)
  · simpa [Mux.setCaller, hdc] using hd

theorem registered_inv {c : ℕ} (hi : Inv s) (hx : s.caller c = .registering r)
    (hstarted : s.thread r ≠ .started) :
    Inv ({ s with handed := insert r s.handed }.setCaller c .idle) := by
  refine { hi with registering := ?_, handed := ?_, before := ?_ }
  · intro d q hd
    exact hi.registering d q (caller_of_setCaller (by simp) hd)
  · intro q hq
    rcases Finset.mem_insert.mp hq with rfl | hq
    · exact ⟨hi.registering c q hx, hstarted⟩
    · exact hi.handed q hq
  · exact hi.before.trans (Finset.subset_insert r s.handed)

/-- **A careful step** keeps the invariant. -/
theorem Inv.step (hi : Inv s) (h : step max s e = some s') (hc : Careful s e) : Inv s' := by
  cases e with
  | call c =>
    cases hx : s.caller c <;> simp only [Resplex.step, hx, Option.some.injEq, reduceCtorEq] at h
    subst h
    exact { hi with registering := fun d r hd => hi.registering d r (caller_of_setCaller (by simp) hd) }
  | start c r =>
    cases hx : s.caller c <;> cases hr : s.thread r <;>
      simp only [Resplex.step, hx, hr, reduceCtorEq] at h
    split_ifs at h
    obtain rfl := Option.some.inj h
    exact start_inv hi hr
  | registered c =>
    cases hx : s.caller c with
    | registering r =>
      simp only [Resplex.step, hx] at h
      split_ifs at h with hstarted
      obtain rfl := Option.some.inj h
      exact registered_inv hi hx hstarted
    | _ => simp only [Resplex.step, hx, reduceCtorEq] at h
  | register r =>
    cases hr : s.thread r <;> simp only [Resplex.step, hr, Option.some.injEq, reduceCtorEq] at h
    subst h
    exact register_inv hi hr
  | put r n =>
    cases hr : s.thread r <;> simp only [Resplex.step, hr, reduceCtorEq] at h
    split_ifs at h
    obtain rfl := Option.some.inj h
    exact put_inv hi hr
  | raised r n =>
    cases hr : s.thread r <;> simp only [Resplex.step, hr, Option.some.injEq, reduceCtorEq] at h
    subst h
    refine failed_inv hi (by rw [hr]; trivial) fun _ hg => ⟨.inr ⟨rfl, hc⟩, ?_⟩
    exact (good_iff hr).mp hg
  | unstarted r n => exact hc.elim
  | write r =>
    cases hr : s.thread r <;> simp only [Resplex.step, hr, reduceCtorEq] at h
    split_ifs at h with hopen
    · obtain rfl := Option.some.inj h
      exact write_inv hi hr hopen
    · obtain rfl := Option.some.inj h
      refine failed_inv hi (by rw [hr]; trivial) fun hl _ => absurd (hi.wopen fun hs => hl ?_) hopen
      -- the pipe is only closed after the loop
      cases hx : s.closer <;> rw [hx] at hs <;> trivial
  | remove r =>
    cases hr : s.thread r with
    | leaving =>
      simp only [Resplex.step, hr, Option.some.injEq] at h
      subst h
      refine remove_inv hi (by rw [hr]; trivial) id (by simp) fun hg => ?_
      rw [good_setThread]
      exact (good_iff hr).mp hg
    | failed c =>
      simp only [Resplex.step, hr, Option.some.injEq] at h
      subst h
      refine remove_inv hi (by rw [hr]; trivial) id (by simp) fun hg => ?_
      rw [good_setThread]
      exact (good_iff hr).mp hg
    | _ => simp only [Resplex.step, hr, reduceCtorEq] at h
  | closereq r =>
    cases hr : s.thread r <;> simp only [Resplex.step, hr, Option.some.injEq, reduceCtorEq] at h
    subst h
    exact closed_inv hi hr
  | close =>
    cases hx : s.closer <;> simp only [Resplex.step, hx, Option.some.injEq, reduceCtorEq] at h
    subst h
    exact close_inv hi hx
  | pick r =>
    cases hx : s.closer <;> simp only [Resplex.step, hx, reduceCtorEq] at h
    split_ifs at h
    obtain rfl := Option.some.inj h
    exact loop_inv hi (by rw [hx]; exact id) (by rw [hx]; exact id) id
  | join =>
    cases hx : s.closer <;> simp only [Resplex.step, hx, reduceCtorEq] at h
    split_ifs at h
    obtain rfl := Option.some.inj h
    exact loop_inv hi (by rw [hx]; exact id) (by rw [hx]; exact id) id
  | leave =>
    cases hx : s.closer <;> simp only [Resplex.step, hx, reduceCtorEq] at h
    split_ifs at h with hcurrent
    obtain rfl := Option.some.inj h
    exact leave_inv hi hx hcurrent hc
  | closepipe =>
    cases hx : s.closer <;> simp only [Resplex.step, hx, Option.some.injEq, reduceCtorEq] at h
    subst h
    exact closepipe_inv hi hx
  | rjoin =>
    cases hx : s.closer <;> cases hr : s.responder <;>
      simp only [Resplex.step, hx, hr, Option.some.injEq, reduceCtorEq] at h
    subst h
    have := rjoin_inv hi hx hr
    rwa [hr] at this
  | _ => exact (turn_of_step h trivial hc hi.spent).inv hi (responding h trivial)

end Invariant

/-! ## Runs -/

/-- What a run leads to whose steps all meet a condition. -/
inductive Run (max : Option ℕ) (ok : Mux → Event → Prop) : Mux → Prop
  | init : Run max ok {}
  | step {s s' : Mux} (e : Event) : Run max ok s → ok s e → step max s e = some s' → Run max ok s'

theorem Run.inv {max : Option ℕ} {s : Mux} (h : Run max Careful s) : Inv s := by
  induction h with
  | init => exact inv_init
  | step e _ hc hstep ih => exact ih.step hstep hc

/-- **All is done when `close` returns**, however the threads interleave, if all steps are careful:
    each request that `handle` had returned for has been closed in order. -/
theorem closed_in_order {max : Option ℕ} {s : Mux} (h : Run max Careful s)
    (hret : s.closer = .returned) : ∀ r ∈ s.before, ∃ c, s.closed r = some c ∧ c.Orderly := by
  intro r hr
  have hi := h.inv
  obtain ⟨hpipe, -, htable⟩ := hi.done (hi.returned hret)
  obtain ⟨-, hplaced⟩ := hi.last (by rw [hret]; trivial) r hr
  obtain ⟨-, ha | ha⟩ | ht | hs := hplaced
  · omega
  · rw [hi.returned hret] at ha
    exact ha.elim
  · exact absurd (htable r hr) ht
  · exact hs

/-- A request with a response of five bytes, that is written out before `close` is called. -/
theorem closed_in_order_written : ∃ s, Run none Careful s ∧ s.closer = .returned ∧ 0 ∈ s.before ∧
    ∃ c, s.closed 0 = some c ∧ c.Orderly := by
  have h₁ : Run none Careful _ := .step (.call 0) .init trivial rfl
  have h₂ : Run none Careful _ := .step (.start 0 0) h₁ trivial rfl
  have h₃ : Run none Careful _ := .step (.register 0) h₂ trivial rfl
  have h₄ : Run none Careful _ := .step (.registered 0) h₃ trivial rfl
  have h₅ : Run none Careful _ := .step (.put 0 0) h₄ trivial rfl
  have h₆ : Run none Careful _ := .step (.write 0) h₅ trivial rfl
  have h₇ : Run none Careful _ := .step (.remove 0) h₆ trivial rfl
  have h₈ : Run none Careful _ := .step (.select true []) h₇ trivial rfl
  have h₉ : Run none Careful _ := .step .read h₈ (fun h => absurd h (by decide)) rfl
  have h₁₀ : Run none Careful _ := .step .get h₉ trivial rfl
  have h₁₁ : Run none Careful _ := .step (.ckiter (.data 5)) h₁₀ nofun rfl
  have h₁₂ : Run none Careful _ := .step .empty h₁₁ trivial rfl
  have h₁₃ : Run none Careful _ := .step .again h₁₂ trivial rfl
  have h₁₄ : Run none Careful _ := .step (.select false [0]) h₁₃ trivial rfl
  have h₁₅ : Run none Careful _ := .step (.flush (.sent 5)) h₁₄ nofun rfl
  have h₁₆ : Run none Careful _ := .step (.ckiter (.stop 0)) h₁₅ nofun rfl
  have h₁₇ : Run none Careful _ := .step .again h₁₆ trivial rfl
  have h₁₈ : Run none Careful _ := .step .close h₁₇ trivial rfl
  have h₁₉ : Run none Careful _ := .step .leave h₁₈ (fun r hr c hc => by
    obtain rfl | hr := Finset.mem_insert.mp hr
    · cases hc
    · exact absurd hr (Finset.notMem_empty r)) rfl
  have h₂₀ : Run none Careful _ := .step .closepipe h₁₉ trivial rfl
  have h₂₁ : Run none Careful _ := .step (.select true []) h₂₀ trivial rfl
  have h₂₂ : Run none Careful _ := .step .read h₂₁ (fun _ => by decide) rfl
  have h₂₃ : Run none Careful _ := .step .rjoin h₂₂ trivial rfl
  exact ⟨_, h₂₃, rfl, by decide, closed_in_order h₂₃ rfl 0 (by decide)⟩

/-- Two runs that leave a request open. In the first the response thread has five bytes of the
    response to write when it reads the end of the pipe; in the second the thread of the request,
    whose handler failed, has left `current` but not yet closed the request. -/
theorem left_open : (∃ s, Run none (fun _ _ => True) s ∧ s.closer = .returned ∧ 0 ∈ s.before ∧
      s.table 0 = some .iter ∧ s.buffer 0 = 5 ∧ s.closed 0 = none) ∧
    ∃ s, Run none (fun _ _ => True) s ∧ s.closer = .returned ∧ 0 ∈ s.before ∧
      s.thread 0 = .closing ⟨true, 0, false⟩ ∧ s.closed 0 = none := by
  have h₁ : Run none (fun _ _ => True) _ := .step (.call 0) .init trivial rfl
  have h₂ : Run none (fun _ _ => True) _ := .step (.start 0 0) h₁ trivial rfl
  have h₃ : Run none (fun _ _ => True) _ := .step (.register 0) h₂ trivial rfl
  have h₄ : Run none (fun _ _ => True) _ := .step (.registered 0) h₃ trivial rfl
  constructor
  · have h₅ : Run none (fun _ _ => True) _ := .step (.put 0 0) h₄ trivial rfl
    have h₆ : Run none (fun _ _ => True) _ := .step (.write 0) h₅ trivial rfl
    have h₇ : Run none (fun _ _ => True) _ := .step (.remove 0) h₆ trivial rfl
    have h₈ : Run none (fun _ _ => True) _ := .step (.select true []) h₇ trivial rfl
    have h₉ : Run none (fun _ _ => True) _ := .step .read h₈ trivial rfl
    have h₁₀ : Run none (fun _ _ => True) _ := .step .get h₉ trivial rfl
    have h₁₁ : Run none (fun _ _ => True) _ := .step (.ckiter (.data 5)) h₁₀ trivial rfl
    have h₁₂ : Run none (fun _ _ => True) _ := .step .empty h₁₁ trivial rfl
    have h₁₃ : Run none (fun _ _ => True) _ := .step .again h₁₂ trivial rfl
    have h₁₄ : Run none (fun _ _ => True) _ := .step .close h₁₃ trivial rfl
    have h₁₅ : Run none (fun _ _ => True) _ := .step .leave h₁₄ trivial rfl
    have h₁₆ : Run none (fun _ _ => True) _ := .step .closepipe h₁₅ trivial rfl
    have h₁₇ : Run none (fun _ _ => True) _ := .step (.select true [0]) h₁₆ trivial rfl
    have h₁₈ : Run none (fun _ _ => True) _ := .step .read h₁₇ trivial rfl
    have h₁₉ : Run none (fun _ _ => True) _ := .step .rjoin h₁₈ trivial rfl
    exact ⟨_, h₁₉, rfl, by decide, rfl, rfl, rfl⟩
  · have h₅ : Run none (fun _ _ => True) _ := .step (.raised 0 0) h₄ trivial rfl
    have h₆ : Run none (fun _ _ => True) _ := .step (.remove 0) h₅ trivial rfl
    have h₇ : Run none (fun _ _ => True) _ := .step .close h₆ trivial rfl
    have h₈ : Run none (fun _ _ => True) _ := .step .leave h₇ trivial rfl
    have h₉ : Run none (fun _ _ => True) _ := .step .closepipe h₈ trivial rfl
    have h₁₀ : Run none (fun _ _ => True) _ := .step (.select true []) h₉ trivial rfl
    have h₁₁ : Run none (fun _ _ => True) _ := .step .read h₁₀ trivial rfl
    have h₁₂ : Run none (fun _ _ => True) _ := .step .rjoin h₁₁ trivial rfl
    exact ⟨_, h₁₂, rfl, by decide, rfl, rfl⟩

end Ashd.Resplex
