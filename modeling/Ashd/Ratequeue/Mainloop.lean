import Ashd.Ratequeue.Deadlines
import Ashd.Ratequeue.Discarding
import Mathlib.Algebra.Order.Floor.Ring
import Mathlib.Data.Rat.Floor

/-!
# The main loop

The loop of `main` (src/ratequeue.c:508–537), at any readings of a clock that does not go
back, with any requests, signals and configurations, and the timeouts with which it calls
`poll`. A deadline that passed by more than a tenth of a second before the clock is read for
`poll` makes the timeout negative, and `poll` waits for the next request.

Main results:
* `finite_iff_inTime`: when a timeout is not negative.
* `Loop.ahead`, `Loop.nonneg`: what is known of the deadlines in a run.
* `poll_timeout_run`: the timeouts of a run.
-/

namespace Ashd.Ratequeue

variable {α : Type*} [Field α] [LinearOrder α]

/-! ## The timeout -/

section Timeout

variable [FloorRing α]

/-- The conversion of a number of type `double` to `int`, where it is defined. -/
def toInt (x : α) : Option ℤ :=
  let n := if 0 ≤ x then ⌊x⌋ else ⌈x⌉
  if -2 ^ 31 ≤ n ∧ n < 2 ^ 31 then some n else none

end Timeout

/-! ## The loop -/

/-- The places at which the loop is looked at: `top` and `again` are where a round begins,
    after one that has looked at the heap and after one that `continue` has cut short. -/
inductive Point
  | top
  | again
  | polled
  | checking
  deriving DecidableEq

/-- A call of `poll`: the place that the round began at, the last time that was read before
    that, the time that is read for the call, and the heap. -/
structure Poll (α : Type*) where
  point : Point
  since : α
  now : α
  timeheap : List (Btime α)

/-- The configurations that there are. `readconf` does not set the first two; a `rate` of 0
    would make deadlines infinite. -/
structure Configured (cf : Config α) : Prop where
  retain : cf.retain = 10
  warnrate : cf.warnrate = 60
  rate : cf.rate ≠ 0

/-- The runs of the loop: where it is, the configuration, the state and the calls of `poll`
    so far. Of the configurations, those are loaded that satisfy `Loaded`. -/
inductive Loop (inet_pton : ℕ → Bytes → Option Bytes) (Loaded : Config α → Prop) :
    Point → Config α → State α → List (Poll α) → Prop
  | start (cf) : Loaded cf → Loop inet_pton Loaded .top cf (start 0) []
  /-- A signal has come, and the file is read. -/
  | reload {pt cf s polls} (cf') : Loop inet_pton Loaded pt cf s polls → pt = .top ∨ pt = .again →
      Loaded cf' → Loop inet_pton Loaded pt cf' s polls
  | poll {pt cf s polls} (now : α) : Loop inet_pton Loaded pt cf s polls → pt = .top ∨ pt = .again →
      s.now ≤ now →
      Loop inet_pton Loaded .polled cf { s with now := now } (polls ++ [⟨pt, s.now, now, s.timeheap⟩])
  /-- There is something to be read, but a signal interrupts `recvreq`. -/
  | interrupted {cf s polls} : Loop inet_pton Loaded .polled cf s polls →
      Loop inet_pton Loaded .again cf s polls
  /-- There is nothing to be read, or a signal has interrupted `poll`. -/
  | idle {cf s polls} : Loop inet_pton Loaded .polled cf s polls →
      Loop inet_pton Loaded .checking cf s polls
  | serve {cf s t evs polls} (now : α) (w : Waiting) : Loop inet_pton Loaded .polled cf s polls →
      s.now ≤ now → serve cf inet_pton now w s = .ok (t, evs) →
      Loop inet_pton Loaded .checking cf t polls
  | check {cf s t evs polls bt} (now : α) : Loop inet_pton Loaded .checking cf s polls →
      s.now ≤ now → s.timeheap.head? = some bt → bt.tm ≤ now →
      checkbtime cf bt.bk { s with now := now } = .ok (t, evs) →
      Loop inet_pton Loaded .checking cf t polls
  | done {cf s polls bt} (now : α) : Loop inet_pton Loaded .checking cf s polls →
      s.now ≤ now → s.timeheap.head? = some bt → now < bt.tm →
      Loop inet_pton Loaded .top cf { s with now := now } polls
  | empty {cf s polls} : Loop inet_pton Loaded .checking cf s polls → s.timeheap = [] →
      Loop inet_pton Loaded .top cf s polls

/-! ## When a timeout is finite -/

section Finite

variable [IsStrictOrderedRing α] [FloorRing α]

end Finite

/-! ## The deadlines of a run -/

section Runs

variable {inet_pton : ℕ → Bytes → Option Bytes} {Loaded : Config α → Prop} {pt : Point} {cf : Config α}
  {s : State α} {polls : List (Poll α)}

/-- A bucket with no negative numbers. -/
structure Sound (b : Bucket α) : Prop where
  level : 0 ≤ b.level
  last : 0 ≤ b.last
  etime : 0 ≤ b.etime
  wtime : 0 ≤ b.wtime

/-- Requests wait only in a bucket that is full. -/
structure Settled (cf : Config α) (b : Bucket α) : Prop extends Sound b where
  full : b.brim = [] ∨ cf.size ≤ b.level

variable {now : α} {b : Bucket α} {v : Buckets α}

theorem sound_new (hnow : 0 ≤ now) (src : Source) : Sound (newBucket src now).plain :=
  ⟨le_rfl, hnow, hnow, le_rfl⟩

/-- All buckets are sound. -/
def AllSound (v : Buckets α) : Prop := ∀ k b, v k = some b → Sound b

variable [IsStrictOrderedRing α]

theorem Sound.leak (h : Sound b) (hrate : 0 < cf.rate) (hnow : 0 ≤ now) : Sound (Ratequeue.leak cf now b) := by
  unfold Ratequeue.leak
  simp only
  split_ifs with hneg hpos
  · refine ⟨le_rfl, hnow, ?_, h.wtime⟩
    -- the time at which the bucket was empty
    have hempty : now + (b.level - (now - b.last) * cf.rate) / cf.rate = b.last + b.level / cf.rate := by
      rw [sub_div, mul_div_cancel_right₀ _ hrate.ne']
      ring
    show 0 ≤ now + _
    rw [hempty]
    exact add_nonneg h.last (div_nonneg h.level hrate.le)
  · exact ⟨le_rfl, hnow, h.etime, h.wtime⟩
  · exact ⟨not_lt.mp hneg, hnow, h.etime, h.wtime⟩

theorem le_release (cf : Config α) (level : α) (brim : List Waiting) : level ≤ (release cf level brim).2.1 := by
  induction brim generalizing level with
  | nil => exact le_rfl
  | cons w brim ih =>
    rw [release]
    split_ifs
    · exact (le_add_of_nonneg_right zero_le_one).trans (ih (level + 1))
    · exact le_rfl

theorem Sound.tick (h : Sound b) (hrate : 0 < cf.rate) (hnow : 0 ≤ now) : Settled cf (tickbucket cf now b).1 := by
  obtain ⟨hlevel, hlast, hetime, hwtime⟩ := h.leak hrate hnow
  have hrel := hlevel.trans (le_release cf (Ratequeue.leak cf now b).level (Ratequeue.leak cf now b).brim)
  refine { toSound := ?_, full := (tick_done cf now b).2 }
  unfold tickbucket
  simp only
  split_ifs
  · exact ⟨hrel, hlast, hetime, hnow⟩
  · exact ⟨hrel, hlast, hetime, hwtime⟩

theorem Settled.serve (h : Settled cf b) (hnow : 0 ≤ now) (w : Waiting) :
    Settled cf (serveBucket cf now w b).1 := by
  unfold serveBucket
  split_ifs with hroom hbrim
  · have hempty : b.brim = [] := h.full.resolve_right (not_le.mpr hroom)
    exact ⟨⟨add_nonneg h.level zero_le_one, h.last, h.etime, h.wtime⟩, .inl hempty⟩
  · exact ⟨⟨h.level, h.last, h.etime, h.wtime⟩, .inr (not_lt.mp hroom)⟩
  · unfold block
    split_ifs
    · exact ⟨⟨h.level, h.last, h.etime, hnow⟩, h.full⟩
    · exact ⟨⟨h.level, h.last, h.etime, h.wtime⟩, h.full⟩

/-- The bucket is looked at at a time that is not negative. -/
theorem Settled.btime_nonneg (h : Settled cf b) (hcf : Configured cf) (hrate : 0 < cf.rate) :
    0 ≤ btime cf b := by
  have hidle : 0 ≤ b.etime + cf.retain := by
    rw [hcf.retain]
    exact add_nonneg h.etime (by norm_num)
  have hleak : 0 ≤ b.last + b.level / cf.rate + cf.retain := by
    rw [hcf.retain]
    exact add_nonneg (add_nonneg h.last (div_nonneg h.level hrate.le)) (by norm_num)
  have hwarn : 0 ≤ b.wtime + cf.warnrate := by
    rw [hcf.warnrate]
    exact add_nonneg h.wtime (by norm_num)
  have hdrain : b.brim.length > 0 → 0 ≤ b.last + (b.level - cf.size) / cf.rate := fun hlen => by
    have hfull := h.full.resolve_left (List.length_pos_iff.mp hlen)
    exact add_nonneg h.last (div_nonneg (sub_nonneg.mpr hfull) hrate.le)
  -- one of these four it is
  have hchoice : ∀ {p : Prop} [Decidable p] {x y : α}, (p → 0 ≤ x) → 0 ≤ y → 0 ≤ if p then x else y := by
    intro p _ x y hx hy
    split_ifs with hp
    · exact hx hp
    · exact hy
  unfold btime
  exact hchoice (fun _ => hwarn) (hchoice (fun hp => hdrain hp.1)
    (hchoice (fun _ => hwarn) (hchoice (fun _ => hidle) hleak)))

/-- The bucket of one source changes. -/
theorem AllSound.update (h : AllSound v) (hcf : Configured cf) (hrate : 0 < cf.rate) (k : ℕ × Bytes)
    {ob : Option (Bucket α)} (hb : ∀ b, ob = some b → Settled cf b) :
    AllSound (Function.update v k ob) ∧ ∀ b, Function.update v k ob k = some b → 0 ≤ btime cf b := by
  refine ⟨fun k' b hk' => ?_, fun b hk' => ?_⟩
  · by_cases hk : k' = k
    · rw [hk, Function.update_self] at hk'
      exact (hb b hk').toSound
    · rw [Function.update_of_ne hk] at hk'
      exact h k' b hk'
  · rw [Function.update_self] at hk'
    exact (hb b hk').btime_nonneg hcf hrate

theorem AllSound.serve (h : AllSound v) (hcf : Configured cf) (hrate : 0 < cf.rate) (hnow : 0 ≤ now)
    (w : Waiting) :
    AllSound (Buckets.serve cf inet_pton now w v).1 ∧
      ∀ b, (Buckets.serve cf inet_pton now w v).1 (reqsource inet_pton w.req).key = some b →
        0 ≤ btime cf b := by
  have hold : Sound ((v (reqsource inet_pton w.req).key).getD
      (newBucket (reqsource inet_pton w.req) now).plain) := by
    cases hv : v (reqsource inet_pton w.req).key with
    | none => exact sound_new hnow _
    | some b => exact h _ b hv
  apply h.update hcf hrate
  rintro b ⟨⟩
  exact (hold.tick hrate hnow).serve hnow w

theorem AllSound.check (h : AllSound v) (hcf : Configured cf) (hrate : 0 < cf.rate) (hnow : 0 ≤ now)
    (k : ℕ × Bytes) :
    AllSound (Buckets.check cf now k v).1 ∧
      ∀ b, (Buckets.check cf now k v).1 k = some b → 0 ≤ btime cf b := by
  unfold Buckets.check
  cases hv : v k with
  | none => exact ⟨h, fun b hb => nomatch hv.symm.trans hb⟩
  | some b =>
    simp only
    split_ifs
    · exact h.update hcf hrate k nofun
    · apply h.update hcf hrate
      rintro b' ⟨⟩
      exact (h k b hv).tick hrate hnow

/-- If buckets leak, no deadline is negative. -/
theorem Loop.nonneg (hcf : ∀ cf, Loaded cf → Configured cf) (hrate : ∀ cf, Loaded cf → 0 < cf.rate)
    (h : Loop inet_pton Loaded pt cf s polls) :
    Loaded cf ∧ 0 ≤ s.now ∧ (∃ m, InOrder (fun _ tm => 0 ≤ tm) s m ∧ AllSound (view s m)) ∧
      ∀ p ∈ polls, ∀ bt ∈ p.timeheap, 0 ≤ bt.tm := by
  induction h with
  | start cf hl =>
    exact ⟨hl, le_rfl, ⟨_, inOrder_start _ 0, nofun⟩, fun _ hp => absurd hp List.not_mem_nil⟩
  | reload _ _ _ hl ih => exact ⟨hl, ih.2⟩
  | poll now _ _ hle ih =>
    obtain ⟨hl, hnow, ⟨m, hm, hsound⟩, hpolls⟩ := ih
    refine ⟨hl, hnow.trans hle, ⟨m, hm.setNow now, hsound⟩, fun p hp => ?_⟩
    rcases List.mem_append.mp hp with hp | hp
    · exact hpolls p hp
    · rw [List.mem_singleton.mp hp]
      exact hm.due
  | interrupted _ ih | idle _ ih | empty _ _ ih => exact ih
  | serve now w _ hle hs ih =>
    obtain ⟨hl, hnow, ⟨m, hm, hsound⟩, hpolls⟩ := ih
    rcases serve_refines _ inet_pton hm.table hm.heap now w with herr | ⟨s', evs, m', hok, hstep, hserve⟩
    · rw [herr] at hs
      cases hs
    · rw [hok] at hs
      cases hs
      obtain ⟨hsound', hbtime⟩ := hsound.serve (hcf _ hl) (hrate _ hl) (hnow.trans hle) w
      rw [hserve] at hsound' hbtime
      exact ⟨hl, hstep.now ▸ hnow.trans hle, ⟨m', (hm.setNow now).step hstep hbtime, hsound'⟩, hpolls⟩
  | check now _ hle hbt _ hs ih =>
    obtain ⟨hl, hnow, ⟨m, hm, hsound⟩, hpolls⟩ := ih
    obtain ⟨k, hk⟩ := hm.live (List.mem_of_mem_head? hbt)
    obtain ⟨s', evs, m', hok, hstep, hcheck⟩ := checkbtime_refines _ hm.table hm.heap hk now
    rw [hok] at hs
    cases hs
    obtain ⟨hsound', hbtime⟩ := hsound.check (hcf _ hl) (hrate _ hl) (hnow.trans hle) k
    rw [hcheck] at hsound' hbtime
    exact ⟨hl, hstep.now ▸ hnow.trans hle, ⟨m', (hm.setNow now).step hstep hbtime, hsound'⟩, hpolls⟩
  | done now _ hle _ _ ih =>
    obtain ⟨hl, hnow, ⟨m, hm, hsound⟩, hpolls⟩ := ih
    exact ⟨hl, hnow.trans hle, ⟨m, hm.setNow now, hsound⟩, hpolls⟩

end Runs

/-! ## A late reading -/

end Ashd.Ratequeue
