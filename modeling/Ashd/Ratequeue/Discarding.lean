import Ashd.Common.Run
import Ashd.Ratequeue.Admission

/-!
# Discarding buckets

A bucket is discarded when it has been empty for a while, and made anew when it is needed.
The reference is a system that has a bucket for every source from the start, which it never
discards, and that does to it what the program does, at the same times.

Main results:
* `Agree.serve`, `Agree.check`: a step of either system.
* `discarding_unobservable`: the two do the same with every request.
-/

namespace Ashd.Ratequeue

variable {α : Type*}

/-- A request at a time, or a check of the bucket of a source. -/
inductive Input (α : Type*)
  | request (now : α) (w : Waiting)
  | timer (now : α) (k : ℕ × Bytes)

/-! ## The reference -/

/-- A bucket for every source. -/
abbrev Ideal (α : Type*) := ℕ × Bytes → Bucket α

section Reference

variable [Field α] [LinearOrder α] (cf : Config α) (inet_pton : ℕ → Bytes → Option Bytes)

def Ideal.start (now : α) : Ideal α := fun k => newBucket { type := k.1, data := k.2 } now

/-- What the reference does, with the time: a request is served from the bucket of its
    source, and a check releases what waits. -/
def Ideal.step (i : Ideal α) : Input α → List (α × List Event) × Ideal α
  | .request now w =>
    let k := (reqsource inet_pton w.req).key
    match tickbucket cf now (i k) with
    | (b, sent) =>
      match serveBucket cf now w b with
      | (b, evs) => ([(now, sent.map Event.passed ++ evs)], Function.update i k b)
  | .timer now k =>
    match tickbucket cf now (i k) with
    | (b, sent) => ([(now, sent.map Event.passed)], Function.update i k b)

/-- The runs of the program at times that do not go back, from a start at `t₀`: the state,
    the requests and checks so far, and what each has led to. -/
inductive Driven (t₀ : α) : State α → List (Input α) → List (α × List Event) → Prop
  | start : Driven t₀ (start t₀) [] []
  | serve {s t ins out evs} (now : α) (w : Waiting) : Driven t₀ s ins out → s.now ≤ now →
      serve cf inet_pton now w s = .ok (t, evs) →
      Driven t₀ t (ins ++ [.request now w]) (out ++ [(now, evs)])
  | check {s t ins out evs} (now : α) (bt : Btime α) : Driven t₀ s ins out → s.now ≤ now →
      bt ∈ s.timeheap → checkbtime cf bt.bk { s with now := now } = .ok (t, evs) →
      Driven t₀ t (ins ++ [.timer now (s.mem bt.bk).id.key]) (out ++ [(now, evs)])

end Reference

/-! ## What decides -/

/-- What decides on requests is the same in two buckets. -/
structure Same (b b' : Bucket α) : Prop where
  level : b'.level = b.level
  last : b'.last = b.last
  brim : b'.brim = b.brim

section Simulation

variable [Field α] [LinearOrder α] {cf : Config α} {now : α} {w : Waiting} {b b' : Bucket α}

theorem Same.tick (h : Same b b') (cf : Config α) (now : α) :
    Same (tickbucket cf now b).1 (tickbucket cf now b').1 ∧
      (tickbucket cf now b').2 = (tickbucket cf now b).2 := by
  have hleak : Same (leak cf now b) (leak cf now b') := by
    obtain ⟨hl, ht, hb, -⟩ := leak_eq cf now b
    obtain ⟨hl', ht', hb', -⟩ := leak_eq cf now b'
    rw [h.level, h.last] at hl'
    exact ⟨hl'.trans hl.symm, ht'.trans ht.symm, (hb'.trans h.brim).trans hb.symm⟩
  unfold tickbucket
  simp only [hleak.level, hleak.brim, and_true]
  split_ifs <;> exact ⟨rfl, hleak.last, rfl⟩

theorem Same.serve (h : Same b b') (cf : Config α) (now : α) (w : Waiting) :
    Same (serveBucket cf now w b).1 (serveBucket cf now w b').1 ∧
      (serveBucket cf now w b').2 = (serveBucket cf now w b).2 := by
  have hblock : ∀ b : Bucket α, Same b (block now b) := by
    intro b
    unfold block
    split_ifs <;> exact ⟨rfl, rfl, rfl⟩
  unfold serveBucket
  rw [h.level, h.brim]
  split_ifs
  · exact ⟨⟨rfl, h.last, rfl⟩, rfl⟩
  · exact ⟨⟨rfl, h.last, rfl⟩, rfl⟩
  · have hb := hblock b
    have hb' := hblock b'
    exact ⟨⟨(hb'.level.trans h.level).trans hb.level.symm, (hb'.last.trans h.last).trans hb.last.symm,
      (hb'.brim.trans h.brim).trans hb.brim.symm⟩, rfl⟩

/-- A bucket that is as good as new. -/
structure Idle (now : α) (b : Bucket α) : Prop where
  level : b.level = 0
  last : b.last ≤ now
  brim : b.brim = []

/-- After a tick, only a full bucket holds requests. -/
theorem release_done (cf : Config α) (level : α) (brim : List Waiting) :
    (release cf level brim).2.2 = [] ∨ cf.size ≤ (release cf level brim).2.1 := by
  induction brim generalizing level with
  | nil => exact .inl rfl
  | cons w brim ih =>
    rw [release]
    split_ifs with hl
    · exact ih (level + 1)
    · exact .inr (not_lt.mp hl)

theorem tick_done (cf : Config α) (now : α) (b : Bucket α) :
    (tickbucket cf now b).1.last = now ∧
      ((tickbucket cf now b).1.brim = [] ∨ cf.size ≤ (tickbucket cf now b).1.level) := by
  obtain ⟨-, hlast, -⟩ := leak_eq cf now b
  have hdone := release_done cf (leak cf now b).level (leak cf now b).brim
  unfold tickbucket
  simp only
  split_ifs
  · exact ⟨hlast, hdone⟩
  · exact ⟨hlast, hdone⟩

/-! ## The two systems -/

/-- The buckets of the program and those of the reference: they are the same where the
    program has one, and as good as new where it has none. -/
def Agree (now : α) (v : Buckets α) (i : Ideal α) : Prop :=
  ∀ k, match v k with
    | some b => Same b (i k)
    | none => Idle now (i k)

variable {v : Buckets α} {i : Ideal α} {inet_pton : ℕ → Bytes → Option Bytes} {k : ℕ × Bytes}

theorem Agree.mono {now' : α} (h : Agree now v i) (hn : now ≤ now') : Agree now' v i := by
  intro k
  have hk := h k
  cases hv : v k with
  | some b =>
    rw [hv] at hk
    exact hk
  | none =>
    rw [hv] at hk
    exact { hk with last := hk.last.trans hn }

/-- The bucket of one source changes. -/
theorem Agree.update (h : Agree now v i) {ob : Option (Bucket α)} {b : Bucket α}
    (hb : match ob with | some b' => Same b' b | none => Idle now b) :
    Agree now (Function.update v k ob) (Function.update i k b) := by
  intro k'
  by_cases hk : k' = k
  · rw [hk, Function.update_self, Function.update_self]
    exact hb
  · rw [Function.update_of_ne hk, Function.update_of_ne hk]
    exact h k'

/-- A check of a bucket that the program has. -/
theorem Agree.check (h : Agree now v i) (inet_pton : ℕ → Bytes → Option Bytes) (hsize : 0 < cf.size) {b : Bucket α} (hb : v k = some b) :
    Agree now (Buckets.check cf now k v).1 (Ideal.step cf inet_pton i (.timer now k)).2 ∧
      (Ideal.step cf inet_pton i (.timer now k)).1 = [(now, (Buckets.check cf now k v).2)] := by
  have hk := h k
  rw [hb] at hk
  obtain ⟨htick, hsent⟩ := hk.tick cf now
  obtain ⟨hlast, hdone⟩ := tick_done cf now b
  unfold Buckets.check Ideal.step
  rw [hb]
  simp only [hsent]
  split_ifs with hfree
  · -- the bucket is discarded: it holds nothing, and is as good as new
    have hbrim := hdone.resolve_right (by rw [hfree.1]; exact not_le.mpr hsize)
    rw [hbrim, List.map_nil, List.append_nil]
    refine ⟨h.update ?_, rfl⟩
    exact ⟨htick.level.trans hfree.1, (htick.last.trans hlast).le, htick.brim.trans hbrim⟩
  · exact ⟨h.update htick, rfl⟩

/-- No request is closed without an answer. -/
def Answered (out : List (α × List Event)) : Prop := ∀ e ∈ out, ∀ w, .closed w ∉ e.2

theorem serveBucket_answered (cf : Config α) (now : α) (w : Waiting) (b : Bucket α) (w' : Waiting) :
    .closed w' ∉ (serveBucket cf now w b).2 := by
  unfold serveBucket
  split_ifs <;> simp

/-- The reference answers every request that it does not keep. -/
theorem ideal_answered (cf : Config α) (inet_pton : ℕ → Bytes → Option Bytes) (i : Ideal α) (o : Input α) :
    Answered (Ideal.step cf inet_pton i o).1 := by
  have hpassed : ∀ (sent : List Waiting) w, Event.closed w ∉ sent.map Event.passed := by
    intro sent w hw
    obtain ⟨_, -, he⟩ := List.mem_map.mp hw
    cases he
  intro e he w'
  cases o with
  | request now w =>
    unfold Ideal.step at he
    rw [List.mem_singleton.mp he, List.mem_append, not_or]
    exact ⟨hpassed _ w', serveBucket_answered cf now w _ w'⟩
  | timer now k =>
    unfold Ideal.step at he
    rw [List.mem_singleton.mp he]
    exact hpassed _ w'

/-- It does so in a whole run. -/
theorem ideal_run_answered (cf : Config α) (inet_pton : ℕ → Bytes → Option Bytes) (i : Ideal α)
    (ins : List (Input α)) : Answered (runOps (Ideal.step cf inet_pton) i ins).1 :=
  runOps_rel (fun _ => True) (fun _ out _ => Answered out) (fun _ _ _ he => nomatch he)
    (fun _ _ _ _ _ h h' e he => (List.mem_append.mp he).elim (h e) (h' e)) (fun _ _ _ => trivial)
    (fun i o _ => ideal_answered cf inet_pton i o) trivial ins

variable [IsStrictOrderedRing α]

/-- A tick makes no difference between a bucket that is as good as new and a new one. -/
theorem Idle.tick (h : Idle now b) (hr : 0 ≤ cf.rate) (src : Source) :
    Same (tickbucket cf now (newBucket src now).plain).1 (tickbucket cf now b).1 ∧
      (tickbucket cf now b).2 = (tickbucket cf now (newBucket src now).plain).2 := by
  have hleak : ∀ b : Bucket α, Idle now b → (leak cf now b).level = 0 ∧ (leak cf now b).last = now ∧
      (leak cf now b).brim = [] := by
    intro b h
    obtain ⟨hlevel, hlast, hbrim, -⟩ := leak_eq cf now b
    refine ⟨?_, hlast, hbrim.trans h.brim⟩
    rw [hlevel, h.level]
    refine max_eq_left ?_
    have := mul_nonneg (sub_nonneg.mpr h.last) hr
    linarith
  obtain ⟨hl, ht, hb⟩ := hleak b h
  obtain ⟨hl', ht', hb'⟩ := hleak (newBucket src now).plain ⟨rfl, le_rfl, rfl⟩
  unfold tickbucket
  simp only [hl, hb, hl', hb', and_true]
  split_ifs <;> exact ⟨rfl, ht.trans ht'.symm, rfl⟩

/-- A tick of the bucket of a source, or of a new one. -/
theorem Agree.tick (h : Agree now v i) (hr : 0 ≤ cf.rate) (k : ℕ × Bytes) (src : Source) :
    Same (tickbucket cf now ((v k).getD (newBucket src now).plain)).1 (tickbucket cf now (i k)).1 ∧
      (tickbucket cf now (i k)).2 = (tickbucket cf now ((v k).getD (newBucket src now).plain)).2 := by
  have hk := h k
  cases hv : v k with
  | some b =>
    rw [hv] at hk
    exact hk.tick cf now
  | none =>
    rw [hv] at hk
    exact hk.tick hr src

/-- A request. -/
theorem Agree.serve (h : Agree now v i) (inet_pton : ℕ → Bytes → Option Bytes) (hr : 0 ≤ cf.rate) (w : Waiting) :
    Agree now (Buckets.serve cf inet_pton now w v).1 (Ideal.step cf inet_pton i (.request now w)).2 ∧
      (Ideal.step cf inet_pton i (.request now w)).1 = [(now, (Buckets.serve cf inet_pton now w v).2)] := by
  obtain ⟨htick, hsent⟩ := h.tick hr (reqsource inet_pton w.req).key (reqsource inet_pton w.req)
  obtain ⟨hserve, hevs⟩ := htick.serve cf now w
  unfold Buckets.serve Ideal.step
  simp only [hsent, hevs, and_true]
  exact h.update hserve

/-- In all states of a run, the program and the reference have done the same. -/
theorem Driven.agree {t₀ : α} {s : State α} {ins : List (Input α)} {out : List (α × List Event)}
    (hsize : 0 < cf.size) (hr : 0 ≤ cf.rate) (h : Driven cf inet_pton t₀ s ins out) :
    ∃ m, TableOk s m ∧ Indexed s (Live m) ∧
      Agree s.now (view s m) (runOps (Ideal.step cf inet_pton) (Ideal.start t₀) ins).2 ∧
      (runOps (Ideal.step cf inet_pton) (Ideal.start t₀) ins).1 = out := by
  induction h with
  | start => exact ⟨fun _ => none, tableOk_start t₀, indexed_start t₀, fun k => ⟨rfl, le_rfl, rfl⟩, rfl⟩
  | serve now w _ hnow hs ih =>
    obtain ⟨m, htable, hheap, hagree, hout⟩ := ih
    rcases serve_refines cf inet_pton htable hheap now w with herr | ⟨s', evs, m', hok, hstep, hserve⟩
    · rw [herr] at hs
      cases hs
    rw [hok] at hs
    cases hs
    obtain ⟨hagree', hevs⟩ := (hagree.mono hnow).serve inet_pton hr w
    rw [hserve] at hagree' hevs
    rw [runOps_concat, hevs, hout]
    exact ⟨m', hstep.table, hstep.heap, by rw [hstep.now]; exact hagree', rfl⟩
  | check now bt _ hnow hbt hs ih =>
    obtain ⟨m, htable, hheap, hagree, hout⟩ := ih
    obtain ⟨n, hn⟩ := List.mem_iff_getElem?.mp hbt
    obtain ⟨-, k, hk⟩ := hheap.pos n bt hn
    obtain ⟨s', evs, m', hok, hstep, hcheck⟩ := checkbtime_refines cf htable hheap hk now
    rw [hok] at hs
    cases hs
    have hkey := ((htable.maps k bt.bk).mp hk).2
    obtain ⟨hagree', hevs⟩ := (hagree.mono hnow).check inet_pton hsize
      (view_some hk)
    rw [hcheck] at hagree' hevs
    rw [runOps_concat, hkey, hevs, hout]
    exact ⟨m', hstep.table, hstep.heap, by rw [hstep.now]; exact hagree', rfl⟩

/-- **Discarding buckets is not observed.** In every run, the program does with every request
    what a system does that never discards a bucket, and at the same time: the requests that
    each step passes on or refuses are the same, and so are those that wait. No request is
    closed because its bucket is discarded. -/
theorem discarding_unobservable (cf : Config α) (inet_pton : ℕ → Bytes → Option Bytes) {t₀ : α}
    {s : State α} {ins : List (Input α)} {out : List (α × List Event)} (hsize : 0 < cf.size)
    (hrate : 0 < cf.rate) (h : Driven cf inet_pton t₀ s ins out) :
    (runOps (Ideal.step cf inet_pton) (Ideal.start t₀) ins).1 = out ∧
      (∀ src, queued src s = ((runOps (Ideal.step cf inet_pton) (Ideal.start t₀) ins).2 src.key).brim) ∧
      Answered out := by
  obtain ⟨m, htable, -, hagree, hout⟩ := h.agree hsize hrate.le
  refine ⟨hout, fun src => ?_, ?_⟩
  · have hk := hagree src.key
    rw [queued_eq htable]
    cases hv : view s m src.key with
    | some b =>
      rw [hv] at hk
      rw [account_some hv, hk.brim]
    | none =>
      rw [hv] at hk
      rw [account_none hv, hk.brim]
  · rw [← hout]
    exact ideal_run_answered cf inet_pton _ ins

end Simulation

/-- A request, a check that discards its bucket, and another request. -/
def served : State ℚ × List Event := after (serve oneBySecond (fun _ _ => none) 0 ⟨{}, 3⟩ (start 0))

def discarded : State ℚ × List Event := after (checkbtime oneBySecond 0 { served.1 with now := 11 })

def renewed : State ℚ × List Event := after (serve oneBySecond (fun _ _ => none) 12 ⟨{}, 3⟩ discarded.1)

/-- The second request gets a new bucket, the second one in all. -/
theorem discarding_unobservable_renewed :
    renewed.1.fresh = 2 ∧ ∃ out : List (ℚ × List Event),
      (runOps (Ideal.step oneBySecond fun _ _ => none) (Ideal.start 0)
        [.request 0 ⟨{}, 3⟩, .timer 11 (0, []), .request 12 ⟨{}, 3⟩]).1 = out ∧
      Driven oneBySecond (fun _ _ => none) 0 renewed.1
        [.request 0 ⟨{}, 3⟩, .timer 11 (0, []), .request 12 ⟨{}, 3⟩] out := by
  refine ⟨by decide +kernel, ?_⟩
  have hserved : serve oneBySecond (fun _ _ => none) 0 ⟨{}, 3⟩ (start 0) = .ok (served.1, served.2) :=
    eq_after (by decide +kernel)
  have hdiscarded : checkbtime oneBySecond 0 { served.1 with now := 11 } = .ok (discarded.1, discarded.2) :=
    eq_after (by decide +kernel)
  have hrenewed : serve oneBySecond (fun _ _ => none) 12 ⟨{}, 3⟩ discarded.1 = .ok (renewed.1, renewed.2) :=
    eq_after (by decide +kernel)
  have hheap : served.1.timeheap.map Btime.bk = [0] := by decide +kernel
  obtain ⟨bt, hbt, hbk⟩ := List.mem_map.mp (hheap ▸ List.mem_singleton_self 0)
  have hkey : (served.1.mem bt.bk).id.key = (0, []) := by
    rw [hbk]
    decide +kernel
  have h := ((Driven.start.serve 0 ⟨{}, 3⟩ le_rfl hserved).check 11 bt (by decide +kernel) hbt
    (by rw [hbk]; exact hdiscarded)).serve 12 ⟨{}, 3⟩ (by decide +kernel) hrenewed
  rw [hkey] at h
  exact ⟨_, (discarding_unobservable _ _ (by decide +kernel) (by decide +kernel) h).1, h⟩

end Ashd.Ratequeue
