import Ashd.Common.LeakyBucket
import Ashd.Ratequeue.Buckets

/-!
# Which requests are let through

For every source, what `ratequeue` lets through is bounded by a leaky bucket, in the order of
arrival; what is not let through waits, or is refused when as many wait as may.

Main results:
* `Served.tick`, `Served.serveBucket`: what a tick and a request do to one bucket.
* `Run.invariant`: all sources, over all steps.
* `admission_law`: the law.
-/

namespace Ashd.Ratequeue

open LeakyBucket (Accounted Bounded)

variable {α : Type*}

/-! ## Deciding -/

/-- Each of the requests `arr` has been decided upon once, in the order of their arrival: it
    is one of `taken` or one of `refused`, which are in this order, too. -/
def Decided (arr taken refused : List Waiting) : Prop :=
  ∃ ds : List (Waiting × Bool), ds.map Prod.fst = arr ∧
    (ds.filter fun d => d.2).map Prod.fst = taken ∧ (ds.filter fun d => !d.2).map Prod.fst = refused

theorem Decided.nil : Decided [] [] [] := ⟨[], rfl, rfl, rfl⟩

theorem Decided.take {arr taken refused : List Waiting} (h : Decided arr taken refused) (w : Waiting) :
    Decided (arr ++ [w]) (taken ++ [w]) refused := by
  obtain ⟨ds, rfl, rfl, rfl⟩ := h
  exact ⟨ds ++ [(w, true)], by simp, by simp, by simp⟩

theorem Decided.refuse {arr taken refused : List Waiting} (h : Decided arr taken refused)
    (w : Waiting) : Decided (arr ++ [w]) taken (refused ++ [w]) := by
  obtain ⟨ds, rfl, rfl, rfl⟩ := h
  exact ⟨ds ++ [(w, false)], by simp, by simp, by simp⟩

theorem Decided.subset {arr taken refused : List Waiting} (h : Decided arr taken refused) :
    taken ⊆ arr := by
  obtain ⟨ds, rfl, rfl, rfl⟩ := h
  exact List.map_subset _ (List.filter_subset_self _)

theorem brimsize_mod {brimsize : Int32} (h : 0 ≤ brimsize.toInt) :
    brimsize.toInt % 2 ^ 64 = brimsize.toInt := by
  have := brimsize.toInt_lt
  exact Int.emod_eq_of_lt h (by omega)

/-! ## One source -/

section Source

variable [Field α] [LinearOrder α]

/-- The bucket of a source, or a new one for a source that has none: its level, the time of
    the level and what waits. The requests `arr` of the source have arrived; those in `ps`
    have been passed on, at the times given there, and `rs` have been refused. -/
structure Served (cf : Config α) (level last : α) (brim arr : List Waiting) (ps : List (α × Waiting))
    (rs : List Waiting) : Prop where
  accounted : Accounted cf.rate level last (ps.map Prod.fst)
  bounded : Bounded cf.rate (cf.size + 1) (ps.map Prod.fst)
  decided : Decided arr (ps.map Prod.snd ++ brim) rs
  brim_le : (brim.length : ℤ) ≤ cf.brimsize.toInt

variable {cf : Config α} {level last now : α} {brim arr : List Waiting} {ps : List (α × Waiting)}
  {rs : List Waiting}

theorem Served.queue (h : Served cf level last brim arr ps rs)
    (hl : (brim.length : ℤ) < cf.brimsize.toInt) (w : Waiting) :
    Served cf level last (brim ++ [w]) (arr ++ [w]) ps rs :=
  { h with
    decided := by
      rw [← List.append_assoc]
      exact h.decided.take w
    brim_le := by
      rw [List.length_append, List.length_singleton]
      omega }

theorem Served.refuse (h : Served cf level last brim arr ps rs) (w : Waiting) :
    Served cf level last brim (arr ++ [w]) ps (rs ++ [w]) :=
  { h with decided := h.decided.refuse w }

theorem Served.sent_subset {t : α} {sent : List Waiting}
    (h : Served cf level last brim arr (ps ++ sent.map (t, ·)) rs) :
    sent ⊆ arr := by
  intro w hw
  refine h.decided.subset (List.mem_append_left _ ?_)
  rw [List.map_append, List.map_map]
  exact List.mem_append_right _ (List.mem_map.mpr ⟨w, hw, rfl⟩)

theorem leak_eq (cf : Config α) (now : α) (b : Bucket α) :
    (leak cf now b).level = max 0 (b.level - (now - b.last) * cf.rate) ∧ (leak cf now b).last = now ∧
      (leak cf now b).brim = b.brim ∧ (leak cf now b).id = b.id ∧ (leak cf now b).thpos = b.thpos := by
  unfold Ratequeue.leak
  simp only
  by_cases h : b.level - (now - b.last) * cf.rate < 0
  · rw [if_pos h]
    exact ⟨(max_eq_left h.le).symm, rfl, rfl, rfl, rfl⟩
  · rw [if_neg h]
    exact ⟨(max_eq_right (not_lt.mp h)).symm, rfl, rfl, rfl, rfl⟩

variable [IsStrictOrderedRing α]

theorem Served.nil (hs : 0 < cf.size) (hr : 0 ≤ cf.rate) (hb : 0 ≤ cf.brimsize.toInt) (now : α) :
    Served cf 0 now [] [] [] [] where
  accounted := .nil cf.rate now hr
  bounded := .nil hr (by linarith)
  decided := .nil
  brim_le := hb

theorem Served.leak (h : Served cf level last brim arr ps rs) (hr : 0 ≤ cf.rate) (hn : last ≤ now) :
    Served cf (max 0 (level - (now - last) * cf.rate)) now brim arr ps rs :=
  { h with accounted := h.accounted.leak hr hn }

/-- A bucket that has been discarded and one that is new are the same. -/
theorem Served.renew (h : Served cf 0 last [] arr ps rs) (hr : 0 ≤ cf.rate) (hn : last ≤ now) :
    Served cf 0 now [] arr ps rs := by
  have hleak := h.leak hr hn
  have hmax : max 0 (0 - (now - last) * cf.rate) = 0 :=
    max_eq_left (by
      have := mul_nonneg (sub_nonneg.mpr hn) hr
      linarith)
  rwa [hmax] at hleak

theorem Served.passQueued {w : Waiting} (h : Served cf level last (w :: brim) arr ps rs)
    (hr : 0 ≤ cf.rate) (hl : level < cf.size) :
    Served cf (level + 1) last brim arr (ps ++ [(last, w)]) rs where
  accounted := by
    rw [List.map_append]
    exact h.accounted.pass
  bounded := by
    rw [List.map_append]
    exact h.bounded.pass h.accounted hr hl
  decided := by
    have := h.decided
    rwa [List.map_append, List.append_assoc]
  brim_le := by
    have := h.brim_le
    rw [List.length_cons] at this
    omega

theorem Served.passNew (h : Served cf level last [] arr ps rs) (hr : 0 ≤ cf.rate) (hl : level < cf.size)
    (w : Waiting) : Served cf (level + 1) last [] (arr ++ [w]) (ps ++ [(last, w)]) rs where
  accounted := by
    rw [List.map_append]
    exact h.accounted.pass
  bounded := by
    rw [List.map_append]
    exact h.bounded.pass h.accounted hr hl
  decided := by
    have := h.decided.take w
    rw [List.append_nil] at this
    rwa [List.map_append, List.append_nil]
  brim_le := h.brim_le

/-- The loop of `tickbucket` passes on what waits, as long as the level allows it. -/
theorem Served.release (h : Served cf level last brim arr ps rs) (hr : 0 ≤ cf.rate) :
    Served cf (release cf level brim).2.1 last (release cf level brim).2.2 arr
        (ps ++ (release cf level brim).1.map (last, ·)) rs ∧
      ((release cf level brim).2.2 = [] ∨ cf.size ≤ (release cf level brim).2.1) := by
  induction brim generalizing level ps with
  | nil => exact ⟨by simpa [Ratequeue.release] using h, .inl rfl⟩
  | cons w brim ih =>
    rw [Ratequeue.release]
    split_ifs with hl
    · obtain ⟨hs, hdone⟩ := ih (h.passQueued hr hl)
      refine ⟨?_, hdone⟩
      rw [List.append_assoc] at hs
      exact hs
    · exact ⟨by simpa using h, .inr (not_lt.mp hl)⟩

/-- What `tickbucket` leaves. -/
structure Ticked (cf : Config α) (now : α) (b b' : Bucket α) : Prop where
  last : b'.last = now
  done : b'.brim = [] ∨ cf.size ≤ b'.level
  id : b'.id = b.id
  thpos : b'.thpos = b.thpos

theorem Served.tick {b : Bucket α} (h : Served cf b.level b.last b.brim arr ps rs) (hr : 0 ≤ cf.rate)
    (hn : b.last ≤ now) :
    Ticked cf now b (tickbucket cf now b).1 ∧
      Served cf (tickbucket cf now b).1.level now (tickbucket cf now b).1.brim arr
        (ps ++ (tickbucket cf now b).2.map (now, ·)) rs := by
  obtain ⟨hlevel, hlast, hbrim, hid, hpos⟩ := leak_eq cf now b
  have hleak := h.leak hr hn
  rw [← hlevel, ← hbrim] at hleak
  obtain ⟨hs, hdone⟩ := hleak.release hr
  unfold tickbucket
  simp only
  split_ifs
  · exact ⟨⟨hlast, hdone, hid, hpos⟩, hs⟩
  · exact ⟨⟨hlast, hdone, hid, hpos⟩, hs⟩

/-- The requests that are passed on, and those that are refused. -/
def passedNow (evs : List Event) : List Waiting :=
  evs.filterMap fun e => match e with | .passed w => some w | _ => none

def refusedNow (evs : List Event) : List Waiting :=
  evs.filterMap fun e => match e with | .refused w => some w | _ => none

def Event.req : Event → Waiting
  | .passed w => w
  | .refused w => w
  | .closed w => w

/-- What `serveBucket` does with a request. -/
structure Admitted (cf : Config α) (w : Waiting) (b b' : Bucket α) (evs : List Event) : Prop where
  last : b'.last = b.last
  id : b'.id = b.id
  thpos : b'.thpos = b.thpos
  req : ∀ e ∈ evs, e.req = w ∧ ∀ w', e ≠ .closed w'
  full : ∀ w', .refused w' ∈ evs → (b'.brim.length : ℤ) = cf.brimsize.toInt

theorem Served.serveBucket {b : Bucket α} (h : Served cf b.level b.last b.brim arr ps rs) (hr : 0 ≤ cf.rate)
    (hb : 0 ≤ cf.brimsize.toInt) (hdone : b.brim = [] ∨ cf.size ≤ b.level) (w : Waiting) :
    Admitted cf w b (serveBucket cf b.last w b).1 (serveBucket cf b.last w b).2 ∧
      Served cf (serveBucket cf b.last w b).1.level b.last (serveBucket cf b.last w b).1.brim (arr ++ [w])
        (ps ++ (passedNow (serveBucket cf b.last w b).2).map (b.last, ·))
        (rs ++ refusedNow (serveBucket cf b.last w b).2) := by
  unfold Ratequeue.serveBucket
  rw [brimsize_mod hb]
  split_ifs with hlevel hlen
  · obtain hbrim | hfull := hdone
    · rw [hbrim] at h
      refine ⟨⟨rfl, rfl, rfl, by simp [Event.req], by simp⟩, ?_⟩
      simpa [passedNow, refusedNow, hbrim] using h.passNew hr hlevel w
    · exact absurd hlevel (not_lt.mpr hfull)
  · refine ⟨⟨rfl, rfl, rfl, by simp, by simp⟩, ?_⟩
    simpa [passedNow, refusedNow] using h.queue hlen w
  · have hblock : (block b.last b).last = b.last ∧ (block b.last b).id = b.id ∧
        (block b.last b).thpos = b.thpos ∧ (block b.last b).brim = b.brim ∧
        (block b.last b).level = b.level := by
      unfold block
      split_ifs <;> exact ⟨rfl, rfl, rfl, rfl, rfl⟩
    obtain ⟨hlast, hid, hpos, hbrim, hl⟩ := hblock
    refine ⟨⟨hlast, hid, hpos, by simp [Event.req], fun _ _ => ?_⟩, ?_⟩
    · have := h.brim_le
      rw [hbrim]
      omega
    · simpa [passedNow, refusedNow, hbrim, hl] using h.refuse w

end Source

/-! ## All sources -/

/-- The state of the bucket of a source, as in `Served`. -/
def account [Zero α] (s : State α) (m : ℕ × Bytes → Option ℕ) (k : ℕ × Bytes) : α × α × List Waiting :=
  match m k with
  | some bk => ((s.mem bk).level, (s.mem bk).last, (s.mem bk).brim)
  | none => (0, s.now, [])

section Run

variable [Field α] [LinearOrder α] (cf : Config α) (inet_pton : ℕ → Bytes → Option Bytes)

/-- What requests and checks of the timers in the heap lead to, at times that do not go back:
    the requests that have arrived and what has become of requests, with the times. -/
inductive Run : State α → List Waiting → List (α × Event) → Prop
  | start (now : α) : Run (start now) [] []
  | serve {s t arr out evs} (now : α) (w : Waiting) : Run s arr out → s.now ≤ now →
      serve cf inet_pton now w s = .ok (t, evs) → Run t (arr ++ [w]) (out ++ evs.map (now, ·))
  | check {s t arr out evs} (now : α) (bt : Btime α) : Run s arr out → s.now ≤ now →
      bt ∈ s.timeheap → checkbtime cf bt.bk { s with now := now } = .ok (t, evs) →
      Run t arr (out ++ evs.map (now, ·))

/-- Whether a request is from a source. -/
def ofSource (src : Source) (w : Waiting) : Bool := srccmp (reqsource inet_pton w.req) src

/-- The requests that have been passed on, and when. -/
def passed (out : List (α × Event)) : List (α × Waiting) :=
  out.filterMap fun e => match e.2 with | .passed w => some (e.1, w) | _ => none

/-- The requests that have been refused. -/
def refused (out : List (α × Event)) : List Waiting :=
  out.filterMap fun e => match e.2 with | .refused w => some w | _ => none

/-- The requests of a source that wait. -/
def queued (src : Source) (s : State α) : List Waiting :=
  match lookup src s with
  | some bk => (s.mem bk).brim
  | none => []

def arrivedOf (src : Source) (arr : List Waiting) : List Waiting := arr.filter (ofSource inet_pton src)

def passedOf (src : Source) (out : List (α × Event)) : List (α × Waiting) :=
  (passed out).filter fun p => ofSource inet_pton src p.2

def refusedOf (src : Source) (out : List (α × Event)) : List Waiting :=
  (refused out).filter (ofSource inet_pton src)

/-- What holds of all sources in all states of a run, with the map `m` from sources to
    buckets. -/
structure Accounts (s : State α) (arr : List Waiting) (out : List (α × Event))
    (m : ℕ × Bytes → Option ℕ) : Prop where
  table : TableOk s m
  served : ∀ src, Served cf (account s m src.key).1 (account s m src.key).2.1 (account s m src.key).2.2
    (arrivedOf inet_pton src arr) (passedOf inet_pton src out) (refusedOf inet_pton src out)
  last : ∀ k, (account s m k).2.1 ≤ s.now
  answered : ∀ e ∈ out, ∀ w, e.2 ≠ .closed w

/-- What holds in all states of a run. -/
structure Invariant (s : State α) (arr : List Waiting) (out : List (α × Event))
    (m : ℕ × Bytes → Option ℕ) : Prop extends Accounts cf inet_pton s arr out m where
  heap : Indexed s fun bk => ∃ k, m k = some bk

end Run

section Account

variable [Field α] {s : State α} {m : ℕ × Bytes → Option ℕ} {k : ℕ × Bytes}

theorem account_some {b : Bucket α} (h : view s m k = some b) :
    account s m k = (b.level, b.last, b.brim) := by
  obtain ⟨bk, hbk, rfl⟩ := Option.map_eq_some_iff.mp h
  unfold account
  rw [hbk]
  rfl

theorem account_none (h : view s m k = none) : account s m k = (0, s.now, []) := by
  unfold account
  rw [view_eq_none.mp h]

theorem queued_eq (h : TableOk s m) (src : Source) :
    queued src s = (account s m src.key).2.2 := by
  unfold queued account
  rw [lookup_eq h]
  cases m src.key <;> rfl

end Account

/-! ## What is recorded -/

section Record

variable {inet_pton : ℕ → Bytes → Option Bytes} {src : Source} {arr new : List Waiting}
  {out : List (α × Event)} {now : α} {evs : List Event}

theorem mem_passedNow {w : Waiting} : w ∈ passedNow evs ↔ Event.passed w ∈ evs := by
  unfold passedNow
  rw [List.mem_filterMap]
  constructor
  · rintro ⟨e, he, h⟩
    cases e <;> cases h
    exact he
  · exact fun h => ⟨_, h, rfl⟩

theorem mem_refusedNow {w : Waiting} : w ∈ refusedNow evs ↔ Event.refused w ∈ evs := by
  unfold refusedNow
  rw [List.mem_filterMap]
  constructor
  · rintro ⟨e, he, h⟩
    cases e <;> cases h
    exact he
  · exact fun h => ⟨_, h, rfl⟩

theorem passedNow_append (sent : List Waiting) :
    passedNow (sent.map Event.passed ++ evs) = sent ++ passedNow evs := by
  induction sent with
  | nil => rfl
  | cons w sent ih => exact congrArg (w :: ·) ih

theorem refusedNow_append (sent : List Waiting) :
    refusedNow (sent.map Event.passed ++ evs) = refusedNow evs := by
  induction sent with
  | nil => rfl
  | cons w sent ih => exact ih

theorem passed_append : passed (out ++ evs.map (now, ·)) = passed out ++ (passedNow evs).map (now, ·) := by
  unfold passed passedNow
  rw [List.filterMap_append, List.filterMap_map, List.map_filterMap]
  congr 2
  funext e
  cases e <;> rfl

theorem refused_append : refused (out ++ evs.map (now, ·)) = refused out ++ refusedNow evs := by
  unfold refused refusedNow
  rw [List.filterMap_append, List.filterMap_map]
  rfl

/-- What happens to requests of the source is recorded. -/
theorem record_same (out : List (α × Event)) (now : α)
    (hevs : ∀ e ∈ evs, ofSource inet_pton src e.req = true) :
    passedOf inet_pton src (out ++ evs.map (now, ·)) =
        passedOf inet_pton src out ++ (passedNow evs).map (now, ·) ∧
      refusedOf inet_pton src (out ++ evs.map (now, ·)) =
        refusedOf inet_pton src out ++ refusedNow evs := by
  have hp : ((passedNow evs).map (now, ·)).filter (fun p => ofSource inet_pton src p.2) =
      (passedNow evs).map (now, ·) := by
    refine List.filter_eq_self.mpr fun p hp => ?_
    obtain ⟨w, hw, rfl⟩ := List.mem_map.mp hp
    exact hevs _ (mem_passedNow.mp hw)
  have hq : (refusedNow evs).filter (ofSource inet_pton src) = refusedNow evs :=
    List.filter_eq_self.mpr fun w hw => hevs _ (mem_refusedNow.mp hw)
  unfold passedOf refusedOf
  rw [passed_append, refused_append, List.filter_append, List.filter_append, hp, hq]
  exact ⟨rfl, rfl⟩

/-- What happens to requests of other sources changes nothing for this one. -/
theorem record_other (out : List (α × Event)) (now : α)
    (hevs : ∀ e ∈ evs, ofSource inet_pton src e.req = false) :
    passedOf inet_pton src (out ++ evs.map (now, ·)) = passedOf inet_pton src out ∧
      refusedOf inet_pton src (out ++ evs.map (now, ·)) = refusedOf inet_pton src out := by
  have hp : ((passedNow evs).map (now, ·)).filter (fun p => ofSource inet_pton src p.2) = [] := by
    refine List.filter_eq_nil_iff.mpr fun p hp => ?_
    obtain ⟨w, hw, rfl⟩ := List.mem_map.mp hp
    exact Bool.eq_false_iff.mp (hevs _ (mem_passedNow.mp hw))
  have hq : (refusedNow evs).filter (ofSource inet_pton src) = [] :=
    List.filter_eq_nil_iff.mpr fun w hw => Bool.eq_false_iff.mp (hevs _ (mem_refusedNow.mp hw))
  unfold passedOf refusedOf
  rw [passed_append, refused_append, List.filter_append, List.filter_append, hp, hq, List.append_nil,
    List.append_nil]
  exact ⟨rfl, rfl⟩

theorem ofSource_iff {w : Waiting} :
    ofSource inet_pton src w = true ↔ (reqsource inet_pton w.req).key = src.key := srccmp_iff

theorem ofSource_eq_false {w : Waiting} {k : ℕ × Bytes} (hw : (reqsource inet_pton w.req).key = k)
    (hk : src.key ≠ k) : ofSource inet_pton src w = false := by
  rw [Bool.eq_false_iff]
  exact fun h => hk ((ofSource_iff.mp h).symm.trans hw)

end Record

/-! ## One step -/

section Step

variable [Field α] [LinearOrder α] [IsStrictOrderedRing α] {cf : Config α}
  {inet_pton : ℕ → Bytes → Option Bytes} {s s' : State α} {arr new : List Waiting}
  {out : List (α × Event)} {m m' : ℕ × Bytes → Option ℕ} {evs : List Event} {k : ℕ × Bytes}

/-- What a step that has to do with the source `k` leaves of the other sources. -/
theorem Accounts.others (h : Accounts cf inet_pton s arr out m) (hr : 0 ≤ cf.rate)
    (hnow : s.now ≤ s'.now) (hv : ∀ k' ≠ k, view s' m' k' = view s m k')
    (hnew : ∀ w ∈ new, (reqsource inet_pton w.req).key = k)
    (hevs : ∀ e ∈ evs, (reqsource inet_pton e.req.req).key = k) (src : Source) (hk : src.key ≠ k) :
    Served cf (account s' m' src.key).1 (account s' m' src.key).2.1 (account s' m' src.key).2.2
        (arrivedOf inet_pton src (arr ++ new)) (passedOf inet_pton src (out ++ evs.map (s'.now, ·)))
        (refusedOf inet_pton src (out ++ evs.map (s'.now, ·))) ∧
      (account s' m' src.key).2.1 ≤ s'.now := by
  obtain ⟨hp, hq⟩ := record_other out s'.now fun e he => ofSource_eq_false (hevs e he) hk
  have harr : arrivedOf inet_pton src (arr ++ new) = arrivedOf inet_pton src arr := by
    have hnil : new.filter (ofSource inet_pton src) = [] :=
      List.filter_eq_nil_iff.mpr fun w hw => Bool.eq_false_iff.mp (ofSource_eq_false (hnew w hw) hk)
    unfold arrivedOf
    rw [List.filter_append, hnil, List.append_nil]
  rw [hp, hq, harr]
  have hs := h.served src
  have hl := h.last src.key
  cases hb : view s m src.key with
  | some b =>
    rw [account_some ((hv _ hk).trans hb)]
    rw [account_some hb] at hs hl
    exact ⟨hs, hl.trans hnow⟩
  | none =>
    rw [account_none ((hv _ hk).trans hb)]
    rw [account_none hb] at hs
    exact ⟨hs.renew hr hnow, le_rfl⟩

/-- A step that has to do with the source `k`. -/
theorem Accounts.step (h : Accounts cf inet_pton s arr out m) (k : ℕ × Bytes) (hr : 0 ≤ cf.rate)
    {now : α} (hnow : s.now ≤ now) (hnow' : s'.now = now) (htable : TableOk s' m')
    (hv : ∀ k' ≠ k, view s' m' k' = view s m k')
    (hnew : ∀ w ∈ new, (reqsource inet_pton w.req).key = k)
    (hevs : ∀ e ∈ evs, (reqsource inet_pton e.req.req).key = k ∧ ∀ w, e ≠ .closed w)
    (hserved : ∀ src : Source, src.key = k →
      Served cf (account s' m' k).1 (account s' m' k).2.1 (account s' m' k).2.2
        (arrivedOf inet_pton src arr ++ new) (passedOf inet_pton src out ++ (passedNow evs).map (now, ·))
        (refusedOf inet_pton src out ++ refusedNow evs))
    (hlast : (account s' m' k).2.1 ≤ now) :
    Accounts cf inet_pton s' (arr ++ new) (out ++ evs.map (now, ·)) m' where
  table := htable
  served := by
    subst hnow'
    intro src
    by_cases hk : src.key = k
    · obtain ⟨hp, hq⟩ := record_same out s'.now fun e he =>
        ofSource_iff.mpr ((hevs e he).1.trans hk.symm)
      have harr : arrivedOf inet_pton src (arr ++ new) = arrivedOf inet_pton src arr ++ new := by
        have hself : new.filter (ofSource inet_pton src) = new :=
          List.filter_eq_self.mpr fun w hw => ofSource_iff.mpr ((hnew w hw).trans hk.symm)
        unfold arrivedOf
        rw [List.filter_append, hself]
      rw [hk, hp, hq, harr]
      exact hserved src hk
    · exact (h.others hr hnow hv hnew (fun e he => (hevs e he).1) src hk).1
  last := by
    subst hnow'
    intro k'
    by_cases hk : k' = k
    · rw [hk]
      exact hlast
    · exact (h.others hr hnow hv hnew (fun e he => (hevs e he).1)
        { type := k'.1, data := k'.2 } hk).2
  answered := by
    intro e he w
    rcases List.mem_append.mp he with he | he
    · exact h.answered e he w
    · obtain ⟨e', he', rfl⟩ := List.mem_map.mp he
      exact (hevs e' he').2 w

/-- The tick of the bucket of a source, or of a new one. -/
theorem Accounts.tick (h : Accounts cf inet_pton s arr out m) (hr : 0 ≤ cf.rate) {now : α}
    (hnow : s.now ≤ now) (src₀ : Source) {b b' : Bucket α} {sent : List Waiting}
    (hb : (view s m k).getD (newBucket src₀ now).plain = b) (ht : tickbucket cf now b = (b', sent)) :
    (b'.last = now ∧ (b'.brim = [] ∨ cf.size ≤ b'.level)) ∧
      (∀ w ∈ sent, (reqsource inet_pton w.req).key = k) ∧
      ∀ src : Source, src.key = k → Served cf b'.level now b'.brim (arrivedOf inet_pton src arr)
        (passedOf inet_pton src out ++ sent.map (now, ·)) (refusedOf inet_pton src out) := by
  have htick : ∀ src : Source, src.key = k → (b'.last = now ∧ (b'.brim = [] ∨ cf.size ≤ b'.level)) ∧
      Served cf b'.level now b'.brim (arrivedOf inet_pton src arr)
        (passedOf inet_pton src out ++ sent.map (now, ·)) (refusedOf inet_pton src out) := by
    intro src hsrc
    have hs := h.served src
    have hl := h.last k
    rw [hsrc] at hs
    have hserved : Served cf b.level b.last b.brim (arrivedOf inet_pton src arr)
        (passedOf inet_pton src out) (refusedOf inet_pton src out) ∧ b.last ≤ now := by
      cases hv : view s m k with
      | some b₀ =>
        rw [account_some hv] at hs hl
        rw [hv, Option.getD_some] at hb
        rw [← hb]
        exact ⟨hs, hl.trans hnow⟩
      | none =>
        rw [account_none hv] at hs
        rw [hv, Option.getD_none] at hb
        rw [← hb]
        exact ⟨hs.renew hr hnow, le_rfl⟩
    obtain ⟨hticked, hs'⟩ := hserved.1.tick hr hserved.2
    rw [ht] at hticked hs'
    exact ⟨⟨hticked.last, hticked.done⟩, hs'⟩
  refine ⟨(htick { type := k.1, data := k.2 } rfl).1, fun w hw => ?_, fun src hsrc => (htick src hsrc).2⟩
  have hsub := (htick { type := k.1, data := k.2 } rfl).2.sent_subset hw
  exact ofSource_iff.mp (List.mem_filter.mp hsub).2

/-- A check of a live bucket. -/
theorem Invariant.check (h : Invariant cf inet_pton s arr out m) (hsize : 0 < cf.size)
    (hr : 0 ≤ cf.rate) {now : α} (hnow : s.now ≤ now) {bk : ℕ} (hbk : m k = some bk) :
    ∃ s' evs m', checkbtime cf bk { s with now := now } = .ok (s', evs) ∧
      Invariant cf inet_pton s' arr (out ++ evs.map (now, ·)) m' := by
  obtain ⟨s', evs, m', hok, hstep, hcheck⟩ := checkbtime_refines cf h.table h.heap hbk now
  have hb : view s m k = some (s.mem bk).plain := view_some hbk
  obtain ⟨b, sent, ht⟩ : ∃ b sent, tickbucket cf now (s.mem bk).plain = (b, sent) := ⟨_, _, rfl⟩
  obtain ⟨⟨hlast, hdone⟩, hsent, hserved⟩ := h.tick hr hnow {} (congrArg (Option.getD · _) hb) ht
  unfold Buckets.check at hcheck
  rw [hb] at hcheck
  simp only [ht] at hcheck
  have hfree : b.level = 0 → b.brim = [] := fun h0 =>
    hdone.resolve_right (by rw [h0]; exact not_le.mpr hsize)
  have hevs : evs = sent.map Event.passed ++ [] ∧ ∃ ob, view s' m' = Function.update (view s m) k ob ∧
      (ob = some b ∨ ob = none ∧ b.level = 0) := by
    split_ifs at hcheck with hcond
    · rw [hfree hcond.1] at hcheck
      obtain ⟨hview, rfl⟩ := Prod.mk.inj hcheck
      exact ⟨rfl, none, hview.symm, .inr ⟨rfl, hcond.1⟩⟩
    · obtain ⟨hview, rfl⟩ := Prod.mk.inj hcheck
      exact ⟨(List.append_nil _).symm, some b, hview.symm, .inl rfl⟩
  obtain ⟨rfl, ob, hview, hob⟩ := hevs
  have hk : view s' m' k = ob := by rw [hview, Function.update_self]
  have hacc : account s' m' k = (b.level, now, b.brim) := by
    rcases hob with rfl | ⟨rfl, h0⟩
    · rw [account_some hk, hlast]
    · rw [account_none hk, h0, hfree h0, hstep.now]
  refine ⟨s', _, m', hok, ?_, hstep.heap⟩
  rw [← List.append_nil arr]
  refine h.step k hr hnow hstep.now hstep.table (fun k' hne => ?_)
    (fun _ hw => absurd hw List.not_mem_nil) (fun e he => ?_) (fun src hsrc => ?_) ?_
  · rw [hview, Function.update_of_ne hne]
  · rw [List.append_nil] at he
    obtain ⟨w, hw, rfl⟩ := List.mem_map.mp he
    exact ⟨hsent w hw, fun _ => Event.noConfusion⟩
  · rw [hacc, passedNow_append, refusedNow_append]
    simpa [passedNow, refusedNow] using hserved src hsrc
  · rw [hacc]

/-- A request. -/
theorem Invariant.serve (h : Invariant cf inet_pton s arr out m) (hr : 0 ≤ cf.rate)
    (hb : 0 ≤ cf.brimsize.toInt) {now : α} (hnow : s.now ≤ now) (w : Waiting) :
    serve cf inet_pton now w s = .error .nomem ∨
      ∃ s' evs m', serve cf inet_pton now w s = .ok (s', evs) ∧
        Invariant cf inet_pton s' (arr ++ [w]) (out ++ evs.map (now, ·)) m' ∧
        ∀ w', .refused w' ∈ evs →
          w' = w ∧ ((account s' m' (reqsource inet_pton w.req).key).2.2.length : ℤ) = cf.brimsize.toInt := by
  rcases serve_refines cf inet_pton h.table h.heap now w with herr | ⟨s', evs, m', hok, hstep, hserve⟩
  · exact .inl herr
  right
  obtain ⟨b, hb₀⟩ : ∃ b, (view s m (reqsource inet_pton w.req).key).getD
      (newBucket (reqsource inet_pton w.req) now).plain = b := ⟨_, rfl⟩
  obtain ⟨b₁, sent, ht⟩ : ∃ b₁ sent, tickbucket cf now b = (b₁, sent) := ⟨_, _, rfl⟩
  obtain ⟨⟨hlast, hdone⟩, hsent, hserved⟩ := h.tick hr hnow _ hb₀ ht
  obtain ⟨b₂, evs₁, ha⟩ : ∃ b₂ evs₁, serveBucket cf now w b₁ = (b₂, evs₁) := ⟨_, _, rfl⟩
  have hadmitted : ∀ src : Source, src.key = (reqsource inet_pton w.req).key →
      Admitted cf w b₁ b₂ evs₁ ∧ Served cf b₂.level now b₂.brim (arrivedOf inet_pton src arr ++ [w])
        (passedOf inet_pton src out ++ sent.map (now, ·) ++ (passedNow evs₁).map (now, ·))
        (refusedOf inet_pton src out ++ refusedNow evs₁) := by
    intro src hsrc
    have hs := hserved src hsrc
    rw [← hlast] at hs ha ⊢
    have := hs.serveBucket hr hb hdone w
    rwa [ha] at this
  obtain ⟨hadm, -⟩ := hadmitted _ rfl
  unfold Buckets.serve at hserve
  simp only [hb₀, ht, ha] at hserve
  obtain ⟨hview, rfl⟩ := Prod.mk.inj hserve
  have hacc : account s' m' (reqsource inet_pton w.req).key = (b₂.level, now, b₂.brim) := by
    rw [account_some (by rw [← hview, Function.update_self]), hadm.last, hlast]
  refine ⟨s', _, m', hok, ⟨h.step (reqsource inet_pton w.req).key hr hnow hstep.now hstep.table
    (fun k' hne => ?_) (fun w' hw' => ?_) (fun e he => ?_) (fun src hsrc => ?_) ?_, hstep.heap⟩,
    fun w' hw' => ?_⟩
  · rw [← hview, Function.update_of_ne hne]
  · rw [List.mem_singleton.mp hw']
  · rcases List.mem_append.mp he with he | he
    · obtain ⟨w', hw', rfl⟩ := List.mem_map.mp he
      exact ⟨hsent w' hw', fun _ => Event.noConfusion⟩
    · rw [(hadm.req e he).1]
      exact ⟨rfl, (hadm.req e he).2⟩
  · rw [hacc, passedNow_append, refusedNow_append, List.map_append, ← List.append_assoc]
    exact (hadmitted src hsrc).2
  · rw [hacc]
  · rw [hacc]
    rcases List.mem_append.mp hw' with hw' | hw'
    · obtain ⟨_, -, he⟩ := List.mem_map.mp hw'
      cases he
    · exact ⟨(hadm.req _ hw').1, hadm.full w' hw'⟩

end Step

/-! ## The law -/

section Law

variable [Field α] [LinearOrder α] [IsStrictOrderedRing α]

theorem Run.invariant {cf : Config α} {inet_pton : ℕ → Bytes → Option Bytes} {s : State α}
    {arr : List Waiting} {out : List (α × Event)} (hsize : 0 < cf.size) (hr : 0 ≤ cf.rate)
    (hb : 0 ≤ cf.brimsize.toInt) (h : Run cf inet_pton s arr out) :
    ∃ m, Invariant cf inet_pton s arr out m := by
  induction h with
  | start now =>
    exact ⟨fun _ => none, ⟨tableOk_start now, fun _ => .nil hsize hr hb now, fun _ => le_rfl, by simp⟩,
      indexed_start now⟩
  | serve now w _ hnow hs ih =>
    obtain ⟨m, hm⟩ := ih
    rcases hm.serve hr hb hnow w with herr | ⟨s', evs, m', hok, hinv, -⟩
    · rw [herr] at hs
      cases hs
    · rw [hok] at hs
      cases hs
      exact ⟨m', hinv⟩
  | check now bt _ hnow hbt hs ih =>
    obtain ⟨m, hm⟩ := ih
    obtain ⟨n, hn⟩ := List.mem_iff_getElem?.mp hbt
    obtain ⟨-, k, hk⟩ := hm.heap.pos n bt hn
    obtain ⟨s', evs, m', hok, hinv⟩ := hm.check hsize hr hnow hk
    rw [hok] at hs
    cases hs
    exact ⟨m', hinv⟩

/-- **Admission.** In every run, for every source: in any window of length `T`, less than
    `size + 1 + rate * T` requests are passed on; of those that have arrived, in their order,
    each has been decided upon once, so that the ones passed on, followed by those that wait,
    and the ones refused are in this order, too; none is closed without an answer. A request
    that comes next is served, unless there is no memory for its bucket, and refused only if
    `brimsize` requests of its source wait; a timer is served as well. -/
theorem admission_law (cf : Config α) (inet_pton : ℕ → Bytes → Option Bytes) {s : State α}
    {arr : List Waiting} {out : List (α × Event)} (hsize : 0 < cf.size) (hrate : 0 < cf.rate)
    (hbrim : 0 ≤ cf.brimsize.toInt) (h : Run cf inet_pton s arr out) :
    (∀ src a T, 0 ≤ T →
      (((passedOf inet_pton src out).countP fun p => a ≤ p.1 ∧ p.1 ≤ a + T : ℕ) : α) <
        cf.size + 1 + cf.rate * T) ∧
    (∀ src, Decided (arrivedOf inet_pton src arr)
      ((passedOf inet_pton src out).map Prod.snd ++ queued src s) (refusedOf inet_pton src out)) ∧
    (∀ e ∈ out, ∀ w, e.2 ≠ .closed w) ∧
    (∀ now w, s.now ≤ now → serve cf inet_pton now w s = .error .nomem ∨
      ∃ s' evs, serve cf inet_pton now w s = .ok (s', evs) ∧ ∀ w', .refused w' ∈ evs →
        w' = w ∧ ((queued (reqsource inet_pton w.req) s').length : ℤ) = cf.brimsize.toInt) ∧
    (∀ now, s.now ≤ now → ∀ bt ∈ s.timeheap,
      ∃ s' evs, checkbtime cf bt.bk { s with now := now } = .ok (s', evs)) := by
  obtain ⟨m, hm⟩ := h.invariant hsize hrate.le hbrim
  refine ⟨fun src a T hT => ?_, fun src => ?_, hm.answered, fun now w hnow => ?_,
    fun now hnow bt hbt => ?_⟩
  · have hb := (hm.served src).bounded a (a + T) (by linarith)
    unfold LeakyBucket.within at hb
    rw [List.countP_map, add_sub_cancel_left] at hb
    exact hb
  · rw [queued_eq hm.table]
    exact (hm.served src).decided
  · rcases hm.serve hrate.le hbrim hnow w with herr | ⟨s', evs, m', hok, hinv, hfull⟩
    · exact .inl herr
    · refine .inr ⟨s', evs, hok, fun w' hw' => ?_⟩
      rw [queued_eq hinv.table]
      exact hfull w' hw'
  · obtain ⟨n, hn⟩ := List.mem_iff_getElem?.mp hbt
    obtain ⟨-, k, hk⟩ := hm.heap.pos n bt hn
    obtain ⟨s', evs, -, hok, -⟩ := hm.check hsize hrate.le hnow hk
    exact ⟨s', evs, hok⟩

/-- One request at a time, one a second. -/
def oneBySecond : Config ℚ := { size := 1, rate := 1, retain := 10, warnrate := 60, brimsize := 1 }

/-- What a step has led to. -/
def after (r : Except Abort (State ℚ × List Event)) : State ℚ × List Event :=
  r.toOption.getD (start 0, [])

theorem eq_after {r : Except Abort (State ℚ × List Event)} (h : r.isOk = true) :
    r = .ok ((after r).1, (after r).2) := by
  cases r with
  | ok r => rfl
  | error e => cases h

/-- The first request. -/
theorem admission_law_first :
    ∃ s evs, serve oneBySecond (fun _ _ => none) 0 ⟨{}, 3⟩ (start 0) = .ok (s, evs) ∧
      (((passedOf (fun _ _ => none) {} ([] ++ evs.map ((0 : ℚ), ·))).countP
        fun p => 0 ≤ p.1 ∧ p.1 ≤ 0 + 5 : ℕ) : ℚ) < oneBySecond.size + 1 + oneBySecond.rate * 5 := by
  obtain ⟨s, evs, h⟩ : ∃ s evs,
      serve oneBySecond (fun _ _ => none) 0 ⟨{}, 3⟩ (start 0) = .ok (s, evs) := by
    have hok : (serve oneBySecond (fun _ _ => none) 0 ⟨{}, 3⟩ (start 0)).isOk = true := by
      decide +kernel
    cases hs : serve oneBySecond (fun _ _ => none) 0 ⟨{}, 3⟩ (start 0) with
    | error e => simp [hs, Except.isOk, Except.toBool] at hok
    | ok r => exact ⟨r.1, r.2, rfl⟩
  exact ⟨s, evs, h, (admission_law oneBySecond (fun _ _ => none) (by decide +kernel)
    (by decide +kernel) (by decide) (.serve 0 ⟨{}, 3⟩ (.start 0) le_rfl h)).1 {} 0 5 (by decide +kernel)⟩

end Law

end Ashd.Ratequeue
