import Ashd.Ratequeue.Admission

/-!
# Deadlines

The heap has one entry for every bucket of the table, in the order of the times at which the
buckets are to be looked at, and a bucket in which requests wait is looked at as soon as one
of them can be passed on.

Main results:
* `Run.inOrder`: what is known of the heap in every state of a run.
* `timeheap_run`: what that means.
-/

namespace Ashd.Ratequeue

open Probe (Holds)

variable {α : Type*}

/-- The bucket is in the table. -/
def InUse (s : State α) (bk : ℕ) : Prop := Holds (2 ^ s.hashlen) s.buckets bk

theorem TableOk.live_iff {s : State α} {m : ℕ × Bytes → Option ℕ} (h : TableOk s m) (bk : ℕ) : Live m bk ↔ InUse s bk :=
  ⟨fun ⟨k, hk⟩ => ((h.maps k bk).mp hk).1, fun hbk => ⟨_, (h.maps _ bk).mpr ⟨hbk, rfl⟩⟩⟩

/-- Of two times, the earlier one, where the other counts only under a condition. -/
theorem earlier_le [LinearOrder α] {p : Prop} [Decidable p] (x y : α) :
    (if p ∧ x < y then x else y) ≤ y ∧ (p → (if p ∧ x < y then x else y) ≤ x) := by
  split_ifs with h
  · exact ⟨h.2.le, fun _ => le_rfl⟩
  · exact ⟨le_rfl, fun hp => not_lt.mp fun hlt => h ⟨hp, hlt⟩⟩

variable [Field α] [LinearOrder α]

/-- The table and the heap are in order, and `R` is known of every entry and its bucket. -/
structure InOrder (R : Bucket α → α → Prop) (s : State α) (m : ℕ × Bytes → Option ℕ) : Prop where
  table : TableOk s m
  heap : Indexed s (Live m)
  sorted : Sorted s
  due : Due R s

variable {R : Bucket α → α → Prop} {cf : Config α} {s s' : State α} {m m' : ℕ × Bytes → Option ℕ}
  {k : ℕ × Bytes}

theorem inOrder_start (R : Bucket α → α → Prop) (now : α) : InOrder R (start now) fun _ => none where
  table := tableOk_start now
  heap := indexed_start now
  sorted := fun _ _ hn => absurd hn (Nat.not_lt_zero _)
  due := fun _ he => absurd he List.not_mem_nil

theorem InOrder.setNow (h : InOrder R s m) (now : α) : InOrder R { s with now := now } m :=
  ⟨h.table.setNow now, h.heap.congr rfl (fun _ _ => rfl) fun _ => Iff.rfl, h.sorted, h.due⟩

theorem InOrder.step (h : InOrder R s m) (hstep : Step cf k s m s' m')
    (hR : ∀ b, view s' m' k = some b → R b (btime cf b)) : InOrder R s' m' :=
  ⟨hstep.table, hstep.heap, hstep.sorted h.sorted, hstep.due R h.due hR⟩

/-- The bucket of an entry is in use. -/
theorem InOrder.live (h : InOrder R s m) {bt : Btime α} (hbt : bt ∈ s.timeheap) : Live m bt.bk := by
  obtain ⟨n, hn⟩ := List.mem_iff_getElem?.mp hbt
  exact (h.heap.pos n bt hn).2

/-- The first entry is that of the earliest time. -/
theorem InOrder.first (h : InOrder R s m) {bt bt' : Btime α} (hbt : s.timeheap.head? = some bt)
    (hbt' : bt' ∈ s.timeheap) : bt.tm ≤ bt'.tm := by
  obtain ⟨n, hn⟩ := List.mem_iff_getElem?.mp hbt'
  have hlt := (List.getElem?_eq_some_iff.mp hn).1
  have h0 := heapAt_eq (Nat.lt_of_le_of_lt (Nat.zero_le n) hlt)
  rw [← List.head?_eq_getElem?, hbt, Option.some.injEq] at h0
  have hat := heapAt_eq hlt
  rw [hn, Option.some.injEq] at hat
  rw [h0, hat]
  exact h.sorted.head_le hlt

/-- In every run, the time of an entry is that which `updbtime` computes for its bucket. -/
theorem Run.inOrder {inet_pton : ℕ → Bytes → Option Bytes} {arr : List Waiting} {out : List (α × Event)}
    (h : Run cf inet_pton s arr out) : ∃ m, InOrder (fun b tm => tm = btime cf b) s m := by
  induction h with
  | start now => exact ⟨_, inOrder_start _ now⟩
  | serve now w _ _ hs ih =>
    obtain ⟨m, hm⟩ := ih
    rcases serve_refines cf inet_pton hm.table hm.heap now w with herr | ⟨s', evs, m', hok, hstep, -⟩
    · rw [herr] at hs
      cases hs
    · rw [hok] at hs
      cases hs
      exact ⟨m', (hm.setNow now).step hstep fun _ _ => rfl⟩
  | check now bt _ _ hbt hs ih =>
    obtain ⟨m, hm⟩ := ih
    obtain ⟨k, hk⟩ := hm.live hbt
    obtain ⟨s', evs, m', hok, hstep, -⟩ := checkbtime_refines cf hm.table hm.heap hk now
    rw [hok] at hs
    cases hs
    exact ⟨m', (hm.setNow now).step hstep fun _ _ => rfl⟩

variable [IsStrictOrderedRing α]

/-- A bucket in which requests wait is looked at when its level has gone down to `size`. -/
theorem btime_le {b : Bucket α} (hrate : 0 < cf.rate) (hbrim : b.brim ≠ []) {t : α}
    (ht : b.level - (t - b.last) * cf.rate ≤ cf.size) : btime cf b ≤ t := by
  have hdrained : b.last + (b.level - cf.size) / cf.rate ≤ t := by
    have hdiv : (b.level - cf.size) / cf.rate ≤ t - b.last := by
      rw [div_le_iff₀ hrate]
      linarith
    linarith
  refine le_trans ?_ hdrained
  unfold btime
  exact (earlier_le _ _).1.trans ((earlier_le _ _).2 (List.length_pos_iff.mpr hbrim))

/-- **The heap of deadlines.** In every state of every run: there is exactly one entry for
    every bucket that is in use, and none for another; `thpos` of a bucket is where its entry
    is; no entry is later than its children, so that the first one is the earliest of all; and
    that of a bucket in which requests wait is no later than any time at which the level of
    the bucket has gone down to `size`. -/
theorem timeheap_run (cf : Config α) (inet_pton : ℕ → Bytes → Option Bytes) {s : State α}
    {arr : List Waiting} {out : List (α × Event)} (h : Run cf inet_pton s arr out) :
    (∀ bk, InUse s bk → ∃! n : ℕ, ∃ bt, s.timeheap[n]? = some bt ∧ bt.bk = bk) ∧
    (∀ (n : ℕ) bt, s.timeheap[n]? = some bt → InUse s bt.bk ∧ (s.mem bt.bk).thpos = n) ∧
    (∀ (n : ℕ) bt bt', 0 < n → s.timeheap[(n - 1) / 2]? = some bt → s.timeheap[n]? = some bt' →
      bt.tm ≤ bt'.tm) ∧
    (∀ bt bt', s.timeheap.head? = some bt → bt' ∈ s.timeheap → bt.tm ≤ bt'.tm) ∧
    ∀ bt ∈ s.timeheap, (s.mem bt.bk).brim ≠ [] → 0 < cf.rate → ∀ t,
      (s.mem bt.bk).level - (t - (s.mem bt.bk).last) * cf.rate ≤ cf.size → bt.tm ≤ t := by
  obtain ⟨m, hm⟩ := h.inOrder
  refine ⟨fun bk hbk => ?_, fun n bt hn => ?_, fun n bt bt' h0 hp hn => ?_,
    fun bt bt' => hm.first, fun bt hbt hbrim hrate t ht => ?_⟩
  · obtain ⟨n, bt, hpos, hn, hbt⟩ := hm.heap.entry ((hm.table.live_iff bk).mpr hbk)
    refine ⟨n, ⟨bt, hn, hbt⟩, fun n' ⟨bt', hn', hbt'⟩ => ?_⟩
    have hpos' := (hm.heap.pos n' bt' hn').1
    rw [hbt', hpos] at hpos'
    exact_mod_cast hpos'.symm
  · obtain ⟨hpos, hlive⟩ := hm.heap.pos n bt hn
    exact ⟨(hm.table.live_iff _).mp hlive, hpos⟩
  · have hlt := (List.getElem?_eq_some_iff.mp hn).1
    have hparent := heapAt_eq ((Heap.parent_lt h0).trans hlt)
    rw [Heap.parent, hp, Option.some.injEq] at hparent
    rw [heapAt_eq hlt, Option.some.injEq] at hn
    rw [hparent, ← hn]
    exact hm.sorted n h0 hlt
  · rw [hm.due bt hbt]
    exact btime_le hrate hbrim ht

/-- Two requests at once, of which the second one waits. -/
def waiting : State ℚ × List Event :=
  let s := (after (serve oneBySecond (fun _ _ => none) 0 ⟨{}, 3⟩ (start 0))).1
  after (serve oneBySecond (fun _ _ => none) 0 ⟨{}, 4⟩ s)

/-- Its bucket is looked at at once. -/
theorem timeheap_run_waiting :
    ∃ bt ∈ waiting.1.timeheap, (waiting.1.mem bt.bk).brim ≠ [] ∧ bt.tm ≤ 0 := by
  have hfirst : serve oneBySecond (fun _ _ => none) 0 ⟨{}, 3⟩ (start 0) = _ := eq_after (by decide +kernel)
  have hsecond : serve oneBySecond (fun _ _ => none) 0 ⟨{}, 4⟩
      (after (serve oneBySecond (fun _ _ => none) 0 ⟨{}, 3⟩ (start 0))).1 = .ok (waiting.1, waiting.2) :=
    eq_after (by decide +kernel)
  have hrun := ((Run.start 0).serve 0 ⟨{}, 3⟩ le_rfl hfirst).serve 0 ⟨{}, 4⟩ (by decide +kernel) hsecond
  have hheap : waiting.1.timeheap.map Btime.bk = [0] := by decide +kernel
  obtain ⟨bt, hbt, hbk⟩ := List.mem_map.mp (hheap ▸ List.mem_singleton_self 0)
  have hbrim : (waiting.1.mem bt.bk).brim ≠ [] := by
    rw [hbk, ← List.length_pos_iff]
    decide +kernel
  exact ⟨bt, hbt, hbrim, (timeheap_run _ _ hrun).2.2.2.2 bt hbt hbrim (by decide +kernel) 0
    (by rw [hbk]; decide +kernel)⟩

end Ashd.Ratequeue
