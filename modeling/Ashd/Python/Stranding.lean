import Ashd.Python.Threadpool

/-!
# No request is stranded in the pool, unless a worker leaves late

What is in the queue when no call is in progress is up to the workers. A step leaves it alone
just if a worker that was notified wakes after its time and leaves, or a call finds that workers
wait, whose time is out, or that there are as many as there may be, none of them in the loop.

Main definitions:
* `Worker.attends`: the places from which a worker comes to test the queue.
* `Careful`: the steps that leave no request alone.

Main results:
* `attended_step_iff`: these are just the careful ones.
* `attends_step`: a worker that comes to test the queue does so, or wakes late.
* `not_stranded`: runs of such steps.
* `stranded`: a run that strands a request.
-/

namespace Ashd.Threadpool

/-! ## Who comes to test the queue -/

/-- From here a worker tests the queue before it leaves, unless it wakes late. -/
def Worker.attends : Worker → Prop
  | .started | .top | .ready _ | .busy _ | .notified _ => True
  | _ => False

/-- The call is yet to look whether there are workers. -/
def Caller.looks : Caller → Prop
  | .entering _ | .blocked .. | .unblocked .. | .spawning => True
  | _ => False

/-- There is a worker that comes to test the queue, or a call that looks for one. -/
def Attended (s : Pool) : Prop := (∃ w, (s.worker w).attends) ∨ ∃ c, (s.caller c).looks

/-- No request is left alone by the step: not if a worker that has been notified wakes too late
    and leaves, nor if a call finds that workers wait, whose time is out, nor if it finds all
    workers there may be, but not one in the loop; unless another worker comes to test the queue,
    or another call looks. -/
def Careful (p : Limits) (s : Pool) : Event → Prop
  | .wake w now _ => ∀ start, s.worker w = .notified start → now - start > patience → s.queue ≠ [] →
      (∃ v, v ≠ w ∧ (s.worker v).attends) ∨ ∃ c, (s.caller c).looks
  | .enter c _ _ | .retry c _ _ => s.queue.length < p.qsz → s.waiting ≠ ∅ → s.qfcond = ∅ →
      (∃ w, (s.worker w).attends) ∨ ∃ d, d ≠ c ∧ (s.caller d).looks
  | .spawn c _ => s.current.card ≥ p.max → s.queue ≠ [] →
      (∃ w, (s.worker w).attends) ∨ ∃ d, d ≠ c ∧ (s.caller d).looks
  | _ => True

section Attended

variable {p : Limits} {s s' : Pool} {c w : ℕ} {x : Worker} {y : Caller}

theorem attended_setWorker_of (hx : x.attends) : Attended (s.setWorker w x) := by
  refine .inl ⟨w, ?_⟩
  simpa [Pool.setWorker] using hx

theorem attended_setCaller_of (hy : y.looks) : Attended (s.setCaller c y) := by
  refine .inr ⟨c, ?_⟩
  simpa [Pool.setCaller] using hy

/-- A worker comes to a place that it does not test the queue from. -/
theorem attended_setWorker (hx : ¬ x.attends) : Attended (s.setWorker w x) ↔
    (∃ v, v ≠ w ∧ (s.worker v).attends) ∨ ∃ c, (s.caller c).looks := by
  refine or_congr (exists_congr fun v => ?_) Iff.rfl
  by_cases hv : v = w
  · subst hv
    simp [Pool.setWorker, hx]
  · simp [Pool.setWorker, hv]

theorem attended_setCaller (hy : ¬ y.looks) : Attended (s.setCaller c y) ↔
    (∃ w, (s.worker w).attends) ∨ ∃ d, d ≠ c ∧ (s.caller d).looks := by
  refine or_congr Iff.rfl (exists_congr fun d => ?_)
  by_cases hd : d = c
  · subst hd
    simp [Pool.setCaller, hy]
  · simp [Pool.setCaller, hd]

/-- It did not test the queue from where it was either. -/
theorem Attended.setWorker (h : Attended s) (hw : ¬ (s.worker w).attends) (x : Worker) :
    Attended (s.setWorker w x) := by
  by_cases hx : x.attends
  · exact attended_setWorker_of hx
  · refine (attended_setWorker hx).mpr (h.imp_left fun ⟨v, hv⟩ => ⟨v, ?_, hv⟩)
    rintro rfl
    exact hw hv

theorem Attended.setCaller (h : Attended s) (hc : ¬ (s.caller c).looks) (y : Caller) :
    Attended (s.setCaller c y) := by
  by_cases hy : y.looks
  · exact attended_setCaller_of hy
  · refine (attended_setCaller hy).mpr (h.imp_right fun ⟨d, hd⟩ => ⟨d, ?_, hd⟩)
    rintro rfl
    exact hc hd

end Attended

/-! ## What the sections do -/

/-- Who waits on `qfcond` is in the wait. -/
def Sound (s : Pool) : Prop := ∀ w ∈ s.qfcond, ∃ start, s.worker w = .parked start

section Sections

variable {p : Limits} {s s' : Pool} {c w req : ℕ} {woken : Option ℕ} {start now : ℚ}

/-- A worker that is not in the wait goes elsewhere. -/
theorem Sound.setWorker (h : Sound s) (hw : ∀ start, s.worker w ≠ .parked start) (x : Worker) :
    Sound (s.setWorker w x) := by
  intro v hv
  obtain ⟨start, hstart⟩ := h v hv
  have hne : v ≠ w := by
    rintro rfl
    exact hw start hstart
  exact ⟨start, by simpa [Pool.setWorker, hne] using hstart⟩

/-- Those that are left of the wait. -/
theorem Sound.erase (h : Sound s) (w : ℕ) (x : Worker) :
    Sound ({ s with qfcond := s.qfcond.erase w }.setWorker w x) := by
  intro v hv
  obtain ⟨hne, hv⟩ := Finset.mem_erase.mp hv
  obtain ⟨start, hstart⟩ := h v hv
  exact ⟨start, by simpa [Pool.setWorker, hne] using hstart⟩

theorem qfnotify_spec (hs : Sound s) (h : qfnotify s woken = some s') :
    s'.queue = s.queue ∧ s'.waiting = s.waiting ∧ s'.caller = s.caller ∧ Sound s' ∧
      if s.qfcond = ∅ then s'.worker = s.worker else ∃ w, (s'.worker w).attends := by
  unfold qfnotify notify at h
  cases woken with
  | none =>
    split_ifs at h with hempty
    · obtain rfl := Option.some.inj h
      refine ⟨rfl, rfl, rfl, nofun, ?_⟩
      rw [if_pos hempty]
    · cases h
  | some w =>
    simp only at h
    split_ifs at h with hmem
    · obtain rfl := Option.some.inj h
      obtain ⟨start, hstart⟩ := hs w hmem
      refine ⟨rfl, rfl, rfl, hs.erase w _, ?_⟩
      rw [if_neg (Finset.ne_empty_of_mem hmem)]
      refine ⟨w, ?_⟩
      simp [Pool.setWorker, hstart, Worker.wake, Worker.attends]
    · cases h

theorem qenotify_spec (h : qenotify s woken = some s') :
    s'.queue = s.queue ∧ s'.worker = s.worker ∧ s'.qfcond = s.qfcond := by
  unfold qenotify at h
  obtain ⟨qecond, -, rfl⟩ := Option.map_eq_some_iff.mp h
  cases woken <;> exact ⟨rfl, rfl, rfl⟩

/-- When the request is in the queue, the call has notified a worker, or is to look for one; or
    those that wait are beyond notice. -/
theorem enqueue_spec (hs : Sound s) (h : enqueue p s c req start woken = some s') :
    Sound s' ∧ ((s'.queue ≠ [] → Attended s') ↔
      (s.queue.length < p.qsz → s.waiting ≠ ∅ → s.qfcond = ∅ →
        (∃ w, (s.worker w).attends) ∨ ∃ d, d ≠ c ∧ (s.caller d).looks)) := by
  unfold enqueue at h
  split_ifs at h with hfull
  · obtain rfl := Option.some.inj h
    exact ⟨hs, iff_of_true (fun _ => attended_setCaller_of trivial) fun hlt => absurd hlt (by omega)⟩
  · obtain ⟨s₁, hnotify, rfl⟩ := Option.map_eq_some_iff.mp h
    obtain ⟨hqueue, hwaiting, hcaller, hs₁, hworker⟩ := qfnotify_spec (by exact hs) hnotify
    have hne : s₁.queue ≠ [] := by
      rw [hqueue]
      simp
    refine ⟨hs₁, ?_⟩
    rw [hwaiting]
    by_cases hw : s.waiting = ∅
    · have hcard : s.waiting.card < 1 := by rw [hw, Finset.card_empty]; exact Nat.one_pos
      rw [if_pos hcard]
      exact iff_of_true (fun _ => attended_setCaller_of trivial) fun _ hne => absurd hw hne
    · have hcard : ¬ s.waiting.card < 1 := by
        have := Finset.card_pos.mpr (Finset.nonempty_iff_ne_empty.mpr hw)
        omega
      rw [if_neg hcard, attended_setCaller (by simp [Caller.looks]), hcaller]
      by_cases hq : s.qfcond = ∅
      · rw [if_pos hq] at hworker
        rw [hworker]
        exact ⟨fun h _ _ _ => h hne, fun h _ => h (by omega) hw hq⟩
      · rw [if_neg hq] at hworker
        exact iff_of_true (fun _ => .inl hworker) fun _ _ heq => absurd heq hq

/-- A worker that finds a request is busy with it. -/
theorem dequeue_spec (hs : Sound s) (hw : ∀ start, s.worker w ≠ .parked start)
    (h : dequeue s w start now woken = some s') : Sound s' ∧ (s'.queue ≠ [] → Attended s') := by
  unfold dequeue at h
  split at h
  next req queue hqueue =>
    obtain ⟨s₁, hnotify, rfl⟩ := Option.map_eq_some_iff.mp h
    obtain ⟨-, hworker, hqfcond⟩ := qenotify_spec hnotify
    refine ⟨Sound.setWorker ?_ ?_ _, fun _ => attended_setWorker_of trivial⟩
    · intro v hv
      rw [hqfcond] at hv
      rw [hworker]
      exact hs v hv
    · rw [hworker]
      exact hw
  next hqueue =>
    split_ifs at h
    · obtain rfl := Option.some.inj h
      exact ⟨hs.setWorker hw _, fun hne => absurd hqueue hne⟩
    · obtain rfl := Option.some.inj h
      refine ⟨fun v hv => ?_, fun hne => absurd hqueue hne⟩
      by_cases heq : v = w
      · exact ⟨start, by simp [Pool.setWorker, heq]⟩
      · obtain ⟨start', hstart⟩ := hs v (Finset.mem_of_mem_insert_of_ne hv heq)
        exact ⟨start', by simpa [Pool.setWorker, heq] using hstart⟩

/-- A worker that wakes late leaves, and that may have been the one that was notified. -/
theorem wakeup_spec (hs : Sound s) (ha : s.queue ≠ [] → Attended s)
    (hw : s.worker w = .notified start ∨ s.worker w = .timedout start) (h : wakeup s w start now woken = some s') :
    Sound s' ∧ ((s'.queue ≠ [] → Attended s') ↔
      ∀ start, s.worker w = .notified start → now - start > patience → s.queue ≠ [] →
        (∃ v, v ≠ w ∧ (s.worker v).attends) ∨ ∃ c, (s.caller c).looks) := by
  have hparked : ∀ start, s.worker w ≠ .parked start := by
    intro start' heq
    rcases hw with hw | hw <;> simp [hw] at heq
  unfold wakeup at h
  simp only at h
  split_ifs at h with hlate
  · obtain rfl := Option.some.inj h
    refine ⟨Sound.setWorker (by exact hs) hparked _, ?_⟩
    rcases hw with hw | hw
    · rw [attended_setWorker (by simp [Worker.attends])]
      refine ⟨fun h _ _ _ => h, fun h => h start hw hlate⟩
    · have hnot : ¬ (s.worker w).attends := by simp [hw, Worker.attends]
      exact iff_of_true (fun hne => Attended.setWorker (by exact ha hne) hnot _) fun start' heq => by simp [hw] at heq
  · have hs₁ : Sound { s with waiting := s.waiting.erase w } := hs
    obtain ⟨hs', ha'⟩ := dequeue_spec hs₁ hparked h
    refine ⟨hs', iff_of_true ha' fun start' heq hlate' => ?_⟩
    rcases hw with hw | hw <;> rw [hw] at heq
    · obtain rfl := Worker.notified.inj heq
      exact absurd hlate' hlate
    · cases heq

/-- **What leaves no request alone.** If a worker or a call attends to what is in the queue, then
    the step is careful exactly if one does afterwards. -/
theorem attended_step_iff {e : Event} (hs : Sound s) (ha : s.queue ≠ [] → Attended s) (h : step p s e = some s') :
    Sound s' ∧ ((s'.queue ≠ [] → Attended s') ↔ Careful p s e) := by
  cases e with
  | call c req =>
    cases hc : s.caller c <;> simp only [step, hc, Option.some.injEq, reduceCtorEq] at h
    subst h
    exact ⟨hs, iff_of_true (fun _ => attended_setCaller_of trivial) trivial⟩
  | enter c now woken =>
    cases hc : s.caller c <;> simp only [step, hc, reduceCtorEq] at h
    exact enqueue_spec hs h
  | expire c =>
    cases hc : s.caller c <;> cases ht : p.timeout <;> simp only [step, hc, ht, Option.some.injEq, reduceCtorEq] at h
    subst h
    exact ⟨hs, iff_of_true (fun _ => attended_setCaller_of trivial) trivial⟩
  | retry c now woken =>
    cases hc : s.caller c <;> cases ht : p.timeout <;> simp only [step, hc, ht, reduceCtorEq] at h
    · exact enqueue_spec hs h
    · split_ifs at h
      exact enqueue_spec hs h
  | spawn c th =>
    cases hc : s.caller c <;> cases hth : s.worker th <;> simp only [step, hc, hth, reduceCtorEq] at h
    split_ifs at h with hmax
    · obtain rfl := Option.some.inj h
      have ha' : Attended (({ s with caller := Function.update s.caller c (.registering th) } : Pool).setWorker th .started) :=
        attended_setWorker_of trivial
      exact ⟨hs.setWorker (by simp [hth]) _, iff_of_true (fun _ => ha') fun hge => absurd hge (by omega)⟩
    · obtain rfl := Option.some.inj h
      refine ⟨hs, ?_⟩
      rw [attended_setCaller (by simp [Caller.looks])]
      exact ⟨fun h _ => h, fun h => h (by omega)⟩
  | joined c =>
    cases hc : s.caller c with
    | registering th =>
      have hnot : ¬ (s.caller c).looks := by simp [hc, Caller.looks]
      cases hth : s.worker th <;> simp only [step, hc, hth, Option.some.injEq, reduceCtorEq] at h
      all_goals
        subst h
        exact ⟨hs, iff_of_true (fun hne => (ha hne).setCaller hnot _) trivial⟩
    | _ => simp only [step, hc, reduceCtorEq] at h
  | register w =>
    cases hw : s.worker w <;> simp only [step, hw, Option.some.injEq, reduceCtorEq] at h
    subst h
    exact ⟨Sound.setWorker (by exact hs) (by simp [hw]) _, iff_of_true (fun _ => attended_setWorker_of trivial) trivial⟩
  | start w now =>
    cases hw : s.worker w <;> simp only [step, hw, Option.some.injEq, reduceCtorEq] at h
    subst h
    exact ⟨hs.setWorker (by simp [hw]) _, iff_of_true (fun _ => attended_setWorker_of trivial) trivial⟩
  | test w woken =>
    cases hw : s.worker w <;> simp only [step, hw, reduceCtorEq] at h
    obtain ⟨hs', ha'⟩ := dequeue_spec hs (by simp [hw]) h
    exact ⟨hs', iff_of_true ha' trivial⟩
  | timeout w =>
    cases hw : s.worker w <;> simp only [step, hw, Option.some.injEq, reduceCtorEq] at h
    subst h
    refine ⟨hs.erase w _, iff_of_true (fun hne => ?_) trivial⟩
    exact Attended.setWorker (by exact ha hne) (by simp [hw, Worker.attends]) _
  | wake w now woken =>
    cases hw : s.worker w <;> simp only [step, hw, reduceCtorEq] at h
    · exact wakeup_spec hs ha (.inl hw) h
    · exact wakeup_spec hs ha (.inr hw) h
  | finish w =>
    cases hw : s.worker w <;> simp only [step, hw, Option.some.injEq, reduceCtorEq] at h
    subst h
    exact ⟨hs.setWorker (by simp [hw]) _, iff_of_true (fun _ => attended_setWorker_of trivial) trivial⟩
  | leave w =>
    cases hw : s.worker w <;> simp only [step, hw, Option.some.injEq, reduceCtorEq] at h
    subst h
    refine ⟨Sound.setWorker (by exact hs) (by simp [hw]) _, iff_of_true (fun hne => ?_) trivial⟩
    exact Attended.setWorker (by exact ha hne) (by simp [hw, Worker.attends]) _

end Sections

/-! ## What a worker does that attends to the queue -/

/-- It tests the queue. -/
def Tests (s : Pool) (w : ℕ) : Event → Prop
  | .test v _ => v = w
  | .wake v now _ => v = w ∧ ∃ start, s.worker w = .notified start ∧ ¬ now - start > patience
  | _ => False

/-- It wakes too late to do so. -/
def Late (s : Pool) (w : ℕ) : Event → Prop
  | .wake v now _ => v = w ∧ ∃ start, s.worker w = .notified start ∧ now - start > patience
  | _ => False

section Attends

variable {p : Limits} {s s' : Pool} {w v : ℕ} {woken : Option ℕ}

theorem attends_setWorker {x : Worker} (hw : (s.worker w).attends) (hx : x.attends) :
    ((s.setWorker v x).worker w).attends := by
  by_cases hne : w = v
  · subst hne
    rwa [setWorker_self]
  · rwa [setWorker_of_ne _ hne]

theorem attends_setWorker_other {x : Worker} (hw : (s.worker w).attends)
    (hv : ¬ (s.worker v).attends) : ((s.setWorker v x).worker w).attends := by
  have hne : w ≠ v := fun heq => hv (heq ▸ hw)
  rwa [setWorker_of_ne _ hne]

/-- Another worker's part. -/
theorem dequeue_other {start now : ℚ} (hne : w ≠ v) (h : dequeue s v start now woken = some s') :
    s'.worker w = s.worker w := by
  unfold dequeue at h
  split at h
  · obtain ⟨s₁, hnotify, rfl⟩ := Option.map_eq_some_iff.mp h
    rw [setWorker_of_ne _ hne, (qenotify_spec hnotify).2.1]
  · split_ifs at h
    · obtain rfl := Option.some.inj h
      exact setWorker_of_ne _ hne _
    · obtain rfl := Option.some.inj h
      exact setWorker_of_ne _ hne _

theorem wakeup_other {start now : ℚ} (hne : w ≠ v) (h : wakeup s v start now woken = some s') :
    s'.worker w = s.worker w := by
  unfold wakeup at h
  simp only at h
  split_ifs at h
  · obtain rfl := Option.some.inj h
    exact setWorker_of_ne _ hne _
  · exact (dequeue_other hne h).trans rfl

theorem enqueue_attends {c req : ℕ} {start : ℚ} (hw : (s.worker w).attends)
    (h : enqueue p s c req start woken = some s') : (s'.worker w).attends := by
  unfold enqueue at h
  split_ifs at h
  · obtain rfl := Option.some.inj h
    exact hw
  · obtain ⟨s₁, hnotify, rfl⟩ := Option.map_eq_some_iff.mp h
    obtain ⟨qfcond, -, rfl⟩ := Option.map_eq_some_iff.mp hnotify
    cases woken with
    | none => exact hw
    | some v =>
      by_cases hne : w = v
      · subst hne
        have hwake : (s.worker w).wake = s.worker w := by
          cases hx : s.worker w <;> simp_all [Worker.wake, Worker.attends]
        show ((Pool.setWorker _ w (s.worker w).wake).worker w).attends
        rwa [setWorker_self, hwake]
      · show ((Pool.setWorker _ v _).worker w).attends
        rwa [setWorker_of_ne _ hne]

/-- It stays in such a place until it tests the queue, or wakes late. -/
theorem attends_step {e : Event} (h : step p s e = some s') (hw : (s.worker w).attends) :
    (s'.worker w).attends ∨ Tests s w e ∨ Late s w e := by
  cases e with
  | call c req =>
    cases hc : s.caller c <;> simp only [step, hc, Option.some.injEq, reduceCtorEq] at h
    subst h
    exact .inl hw
  | enter c now woken =>
    cases hc : s.caller c <;> simp only [step, hc, reduceCtorEq] at h
    exact .inl (enqueue_attends hw h)
  | expire c =>
    cases hc : s.caller c <;> cases ht : p.timeout <;> simp only [step, hc, ht, Option.some.injEq, reduceCtorEq] at h
    subst h
    exact .inl hw
  | retry c now woken =>
    cases hc : s.caller c <;> cases ht : p.timeout <;> simp only [step, hc, ht, reduceCtorEq] at h
    · exact .inl (enqueue_attends hw h)
    · split_ifs at h
      exact .inl (enqueue_attends hw h)
  | spawn c th =>
    cases hc : s.caller c <;> cases hth : s.worker th <;> simp only [step, hc, hth, reduceCtorEq] at h
    split_ifs at h <;> obtain rfl := Option.some.inj h
    · by_cases hne : w = th
      · subst hne
        exact .inl (by rw [hth] at hw; exact hw.elim)
      · exact .inl (by show ((s.setWorker th .started).worker w).attends; rwa [setWorker_of_ne _ hne])
    · exact .inl hw
  | joined c =>
    cases hc : s.caller c with
    | registering th =>
      cases hth : s.worker th <;> simp only [step, hc, hth, Option.some.injEq, reduceCtorEq] at h
      all_goals
        subst h
        exact .inl hw
    | _ => simp only [step, hc, reduceCtorEq] at h
  | register v =>
    cases hv : s.worker v <;> simp only [step, hv, Option.some.injEq, reduceCtorEq] at h
    subst h
    exact .inl (attends_setWorker hw trivial)
  | start v now =>
    cases hv : s.worker v <;> simp only [step, hv, Option.some.injEq, reduceCtorEq] at h
    subst h
    exact .inl (attends_setWorker hw trivial)
  | test v woken =>
    by_cases hne : w = v
    · exact .inr (.inl hne.symm)
    · cases hv : s.worker v <;> simp only [step, hv, reduceCtorEq] at h
      exact .inl (by rwa [dequeue_other hne h])
  | timeout v =>
    cases hv : s.worker v <;> simp only [step, hv, Option.some.injEq, reduceCtorEq] at h
    subst h
    exact .inl (attends_setWorker_other hw (by simp [hv, Worker.attends]))
  | wake v now woken =>
    by_cases hne : w = v
    · subst hne
      cases hv : s.worker w with
      | notified start =>
        by_cases hlate : now - start > patience
        · exact .inr (.inr ⟨rfl, start, hv, hlate⟩)
        · exact .inr (.inl ⟨rfl, start, hv, hlate⟩)
      | timedout start => simp [hv, Worker.attends] at hw
      | _ => simp only [step, hv, reduceCtorEq] at h
    · cases hv : s.worker v <;> simp only [step, hv, reduceCtorEq] at h
      all_goals exact .inl (by rwa [wakeup_other hne h])
  | finish v =>
    cases hv : s.worker v <;> simp only [step, hv, Option.some.injEq, reduceCtorEq] at h
    subst h
    exact .inl (attends_setWorker hw trivial)
  | leave v =>
    cases hv : s.worker v <;> simp only [step, hv, Option.some.injEq, reduceCtorEq] at h
    subst h
    exact .inl (attends_setWorker_other hw (by simp [hv, Worker.attends]))

end Attends

/-! ## Runs -/

/-- What a run leads to whose steps are all careful. -/
inductive CarefulRun (p : Limits) : Pool → Prop
  | init : CarefulRun p {}
  | step {s s' : Pool} (e : Event) : CarefulRun p s → Careful p s e → step p s e = some s' → CarefulRun p s'

theorem CarefulRun.attended {p : Limits} {s : Pool} (h : CarefulRun p s) : Sound s ∧ (s.queue ≠ [] → Attended s) := by
  induction h with
  | init => exact ⟨nofun, fun hne => absurd rfl hne⟩
  | step e _ hc hstep ih =>
    obtain ⟨hs, hiff⟩ := attended_step_iff ih.1 ih.2 hstep
    exact ⟨hs, hiff.mpr hc⟩

/-- And a step that is not careful does strand one. -/
theorem stranded_of_careless {p : Limits} {s s' : Pool} {e : Event} (hrun : CarefulRun p s) (hc : ¬ Careful p s e)
    (h : step p s e = some s') : s'.queue ≠ [] ∧ ∀ w, ¬ (s'.worker w).attends := by
  have hiff := (attended_step_iff hrun.attended.1 hrun.attended.2 h).2
  obtain ⟨hne, hnot⟩ := Classical.not_imp.mp (mt hiff.mp hc)
  exact ⟨hne, fun w hw => hnot (.inl ⟨w, hw⟩)⟩

end Ashd.Threadpool
