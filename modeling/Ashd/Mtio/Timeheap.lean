import Ashd.Common.Heap
import Mathlib.Data.List.Basic
import Mathlib.Order.Defs.LinearOrder

/-!
# The timeouts of the event loops

`timeheap` of mtio-epoll.c and mtio-kqueue.c, which are alike here: the blockers that have a
timeout, and for each of them its place, `thpos`. A blocker is its address. Their times, the
field `to`, do not change and are a parameter.

Main definitions:
* `addtimeout`, `deltimeout`.
* `Timeouts`: the heap is in order and has the blockers of a set.

Main results:
* `Timeouts.addtimeout`, `Timeouts.deltimeout`.
-/

namespace Ashd.Mtio

/-- `timeheap`, and the field `thpos` of the blockers. -/
structure Timeheap where
  b : ℕ → ℕ
  d : ℕ
  thpos : ℕ → ℕ

/-- `timeheap.b[n] = bl` and `timeheap.b[n]->thpos = n`. -/
def Timeheap.set (h : Timeheap) (n bl : ℕ) : Timeheap :=
  { h with b := Function.update h.b n bl, thpos := Function.update h.thpos bl n }

@[simp] theorem set_d (h : Timeheap) (n bl : ℕ) : (h.set n bl).d = h.d := rfl

section Model

variable (timeout : ℕ → ℤ)

/-- `thraise` (mtio-epoll.c:136–150). With `n` for fuel, the loop ends by itself. -/
def thraise (bl : ℕ) : ℕ → ℕ → Timeheap → Timeheap
  | 0, n, h => h.set n bl
  | fuel + 1, n, h =>
    if n > 0 then
      let p := (n - 1) / 2
      if timeout (h.b p) ≤ timeout bl then h.set n bl
      else thraise bl fuel p (h.set n (h.b p))
    else h.set n bl

/-- `thlower` (mtio-epoll.c:152–171). With `timeheap.d` for fuel, the loop ends by itself. -/
def thlower (bl : ℕ) : ℕ → ℕ → Timeheap → Timeheap
  | 0, n, h => h.set n bl
  | fuel + 1, n, h =>
    let c := 2 * n + 1
    if c ≥ h.d then h.set n bl
    else
      let c := if c + 1 < h.d ∧ timeout (h.b (c + 1)) < timeout (h.b c) then c + 1 else c
      if timeout (h.b c) > timeout bl then h.set n bl
      else thlower bl fuel c (h.set n (h.b c))

/-- `addtimeout` (mtio-epoll.c:173–177). -/
def addtimeout (bl : ℕ) (h : Timeheap) : Timeheap :=
  thraise timeout bl h.d h.d { h with d := h.d + 1 }

/-- `deltimeout` (mtio-epoll.c:179–192). -/
def deltimeout (bl : ℕ) (h : Timeheap) : Timeheap :=
  if h.thpos bl + 1 = h.d then { h with d := h.d - 1 }
  else
    let n := h.thpos bl
    let h := { h with d := h.d - 1 }
    let bl := h.b h.d
    if n > 0 ∧ timeout (h.b ((n - 1) / 2)) > timeout bl then thraise timeout bl n n h
    else thlower timeout bl h.d n h

end Model

/-! ## The places -/

/-- The entries are the blockers in `S`, each at its `thpos`. -/
structure Indexed (h : Timeheap) (S : ℕ → Prop) : Prop where
  pos : ∀ n < h.d, S (h.b n) ∧ h.thpos (h.b n) = n
  all : ∀ a, S a → h.thpos a < h.d ∧ h.b (h.thpos a) = a

variable {h : Timeheap} {S : ℕ → Prop} {n m bl : ℕ}

theorem Indexed.congr {S' : ℕ → Prop} (hi : Indexed h S) (hS : ∀ a, S' a ↔ S a) : Indexed h S' where
  pos := fun n hn => ⟨(hS _).mpr (hi.pos n hn).1, (hi.pos n hn).2⟩
  all := fun a ha => hi.all a ((hS a).mp ha)

/-- Two entries are not the same blocker. -/
theorem Indexed.ne (hi : Indexed h S) (hn : n < h.d) (hm : m < h.d) (hnm : n ≠ m) : h.b n ≠ h.b m := by
  intro heq
  apply hnm
  rw [← (hi.pos n hn).2, heq, (hi.pos m hm).2]

/-- The hole at `n`, where `bl` is to be, moves to `m`. -/
theorem Indexed.move (hi : Indexed (h.set n bl) S) (hn : n < h.d) (hm : m < h.d) (hmn : m ≠ n) :
    Indexed ((h.set n (h.b m)).set m bl) S := by
  have hbn : (h.set n bl).b n = bl := Function.update_self ..
  have hb : ∀ i, i ≠ n → (h.set n bl).b i = h.b i := fun i hin => Function.update_of_ne hin ..
  -- no other entry is `bl`
  have hbl : ∀ i < h.d, i ≠ n → h.b i ≠ bl := by
    intro i hid hin
    have := hi.ne hid hn hin
    rwa [hb i hin, hbn] at this
  have hpos : ∀ i < h.d, i ≠ n → S (h.b i) ∧ h.thpos (h.b i) = i := by
    intro i hid hin
    have := hi.pos i hid
    have hth : (h.set n bl).thpos (h.b i) = h.thpos (h.b i) := Function.update_of_ne (hbl i hid hin) ..
    rwa [hb i hin, hth] at this
  have hSbl : S bl := by
    have := (hi.pos n hn).1
    rwa [hbn] at this
  refine ⟨fun i hid => ?_, fun a ha => ?_⟩
  · show S (Function.update (Function.update h.b n (h.b m)) m bl i) ∧ Function.update
      (Function.update h.thpos (h.b m) n) bl m (Function.update (Function.update h.b n (h.b m)) m bl i) = i
    by_cases him : i = m
    · rw [him, Function.update_self, Function.update_self]
      exact ⟨hSbl, rfl⟩
    · rw [Function.update_of_ne him]
      by_cases hin : i = n
      · rw [hin, Function.update_self, Function.update_of_ne (hbl m hm hmn), Function.update_self]
        exact ⟨(hpos m hm hmn).1, rfl⟩
      · have hne : h.b i ≠ h.b m := fun heq => him (by rw [← (hpos i hid hin).2, heq, (hpos m hm hmn).2])
        rw [Function.update_of_ne hin, Function.update_of_ne (hbl i hid hin), Function.update_of_ne hne]
        exact hpos i hid hin
  · show Function.update (Function.update h.thpos (h.b m) n) bl m a < h.d ∧ Function.update
      (Function.update h.b n (h.b m)) m bl (Function.update (Function.update h.thpos (h.b m) n) bl m a) = a
    by_cases habl : a = bl
    · rw [habl, Function.update_self, Function.update_self]
      exact ⟨hm, rfl⟩
    · rw [Function.update_of_ne habl]
      by_cases ham : a = h.b m
      · rw [ham, Function.update_self, Function.update_of_ne hmn.symm, Function.update_self]
        exact ⟨hn, rfl⟩
      · rw [Function.update_of_ne ham]
        have hall := hi.all a ha
        rw [show (h.set n bl).thpos a = h.thpos a from Function.update_of_ne habl ..] at hall
        have hin : h.thpos a ≠ n := by
          intro hin
          rw [hin, hbn] at hall
          exact habl hall.2.symm
        have him : h.thpos a ≠ m := by
          intro him
          rw [him, hb m hmn] at hall
          exact ham hall.2.symm
        rw [Function.update_of_ne him, Function.update_of_ne hin, ← hb _ hin]
        exact hall

/-- A new entry at the end. -/
theorem Indexed.push (hi : Indexed h S) (hbl : ¬ S bl) :
    Indexed (({ h with d := h.d + 1 } : Timeheap).set h.d bl) fun a => S a ∨ a = bl := by
  refine ⟨fun i hid => ?_, fun a ha => ?_⟩
  · have hid : i < h.d + 1 := hid
    show (S (Function.update h.b h.d bl i) ∨ Function.update h.b h.d bl i = bl) ∧
      Function.update h.thpos bl h.d (Function.update h.b h.d bl i) = i
    by_cases hin : i = h.d
    · rw [hin, Function.update_self, Function.update_self]
      exact ⟨.inr rfl, rfl⟩
    · have hpos := hi.pos i (by omega)
      have hne : h.b i ≠ bl := fun heq => hbl (heq ▸ hpos.1)
      rw [Function.update_of_ne hin, Function.update_of_ne hne]
      exact ⟨.inl hpos.1, hpos.2⟩
  · show Function.update h.thpos bl h.d a < h.d + 1 ∧
      Function.update h.b h.d bl (Function.update h.thpos bl h.d a) = a
    by_cases habl : a = bl
    · rw [habl, Function.update_self, Function.update_self]
      exact ⟨by omega, rfl⟩
    · have hall := hi.all a (ha.resolve_right habl)
      rw [Function.update_of_ne habl, Function.update_of_ne hall.1.ne]
      exact ⟨by omega, hall.2⟩

/-- The last entry is taken out. -/
theorem Indexed.pop_last (hi : Indexed h S) (hbl : S bl) (hlast : h.thpos bl + 1 = h.d) :
    Indexed { h with d := h.d - 1 } fun a => S a ∧ a ≠ bl := by
  refine ⟨fun i hid => ?_, fun a ha => ?_⟩
  · have hid : i < h.d - 1 := hid
    have hpos := hi.pos i (by omega)
    refine ⟨⟨hpos.1, fun heq => ?_⟩, hpos.2⟩
    have := hpos.2
    rw [heq] at this
    omega
  · have hall := hi.all a ha.1
    refine ⟨?_, hall.2⟩
    show h.thpos a < h.d - 1
    have hne : h.thpos a ≠ h.thpos bl := fun heq => ha.2 (by rw [← hall.2, heq, (hi.all bl hbl).2])
    omega

/-- Another one is taken out, and the last one put in its place. -/
theorem Indexed.pop (hi : Indexed h S) (hbl : S bl) (hlast : h.thpos bl + 1 ≠ h.d) :
    Indexed (({ h with d := h.d - 1 } : Timeheap).set (h.thpos bl) (h.b (h.d - 1))) fun a => S a ∧ a ≠ bl := by
  have hbpos := hi.all bl hbl
  have hlt : h.d - 1 < h.d := by omega
  have hlast' := hi.pos (h.d - 1) hlt
  refine ⟨fun i hid => ?_, fun a ha => ?_⟩
  · have hid : i < h.d - 1 := hid
    show (S (Function.update h.b (h.thpos bl) (h.b (h.d - 1)) i) ∧
      Function.update h.b (h.thpos bl) (h.b (h.d - 1)) i ≠ bl) ∧ Function.update h.thpos (h.b (h.d - 1))
      (h.thpos bl) (Function.update h.b (h.thpos bl) (h.b (h.d - 1)) i) = i
    by_cases hin : i = h.thpos bl
    · rw [hin, Function.update_self, Function.update_self]
      refine ⟨⟨hlast'.1, fun heq => ?_⟩, rfl⟩
      have := hlast'.2
      rw [heq] at this
      omega
    · have hpos := hi.pos i (by omega)
      have hne : h.b i ≠ h.b (h.d - 1) := hi.ne (by omega) hlt (by omega)
      rw [Function.update_of_ne hin, Function.update_of_ne hne]
      exact ⟨⟨hpos.1, fun heq => hin (by rw [← heq, hpos.2])⟩, hpos.2⟩
  · show Function.update h.thpos (h.b (h.d - 1)) (h.thpos bl) a < h.d - 1 ∧ Function.update h.b (h.thpos bl)
      (h.b (h.d - 1)) (Function.update h.thpos (h.b (h.d - 1)) (h.thpos bl) a) = a
    by_cases hal : a = h.b (h.d - 1)
    · rw [hal, Function.update_self, Function.update_self]
      exact ⟨by omega, rfl⟩
    · have hall := hi.all a ha.1
      have hne : h.thpos a ≠ h.thpos bl := fun heq => ha.2 (by rw [← hall.2, heq, hbpos.2])
      have hne' : h.thpos a ≠ h.d - 1 := fun heq => hal (by rw [← hall.2, heq])
      rw [Function.update_of_ne hal, Function.update_of_ne hne]
      exact ⟨by omega, hall.2⟩

/-! ## The order -/

section Order

variable {timeout : ℕ → ℤ} {fuel : ℕ}

/-- The times of the entries. -/
def Timeheap.times (timeout : ℕ → ℤ) (h : Timeheap) (n : ℕ) : ℤ := timeout (h.b n)

theorem times_set (n bl : ℕ) : (h.set n bl).times timeout = Function.update (h.times timeout) n (timeout bl) := by
  funext i
  show timeout (Function.update h.b n bl i) = Function.update (fun i => timeout (h.b i)) n (timeout bl) i
  rw [Function.update_apply, Function.update_apply]
  split_ifs <;> rfl

/-- The heap is in order, and its entries are the blockers in `S`, each at its `thpos`. -/
structure Timeouts (timeout : ℕ → ℤ) (h : Timeheap) (S : ℕ → Prop) : Prop extends Indexed h S where
  ordered : Heap.Ordered (h.times timeout) h.d

theorem Timeouts.congr {S' : ℕ → Prop} (ht : Timeouts timeout h S) (hS : ∀ a, S' a ↔ S a) :
    Timeouts timeout h S' :=
  ⟨ht.toIndexed.congr hS, ht.ordered⟩

/-- The heap does not depend on the times of the others. -/
theorem Timeouts.retime (timeout' : ℕ → ℤ) (ht : Timeouts timeout h S) (hS : ∀ a, S a → timeout' a = timeout a) :
    Timeouts timeout' h S where
  toIndexed := ht.toIndexed
  ordered := ht.ordered.congr fun n hn => hS _ (ht.pos n hn).1

/-- Nor on the places of the others. -/
theorem Timeouts.forget (ht : Timeouts timeout h S) (hbl : ¬ S bl) (n : ℕ) :
    Timeouts timeout { h with thpos := Function.update h.thpos bl n } S := by
  have hne : ∀ a, S a → a ≠ bl := fun a ha hab => hbl (hab ▸ ha)
  refine ⟨⟨fun i hi => ⟨(ht.pos i hi).1, ?_⟩, fun a ha => ?_⟩, ht.ordered⟩
  · show Function.update h.thpos bl n (h.b i) = i
    rw [Function.update_of_ne (hne _ (ht.pos i hi).1), (ht.pos i hi).2]
  · show Function.update h.thpos bl n a < h.d ∧ h.b (Function.update h.thpos bl n a) = a
    rw [Function.update_of_ne (hne a ha)]
    exact ht.all a ha

/-- `thraise` ends with `bl` in its place. -/
theorem thraise_timeouts (n : ℕ) (h : Timeheap) (hn : n < h.d) (hfuel : n ≤ fuel) (hi : Indexed (h.set n bl) S)
    (hr : Heap.Raising (h.times timeout) h.d n (timeout bl)) : Timeouts timeout (thraise timeout bl fuel n h) S := by
  have hstop (n : ℕ) (h : Timeheap) (hi : Indexed (h.set n bl) S)
      (hr : Heap.Raising (h.times timeout) h.d n (timeout bl))
      (hdone : 0 < n → h.times timeout (Heap.parent n) ≤ timeout bl) : Timeouts timeout (h.set n bl) S := by
    refine ⟨hi, ?_⟩
    rw [times_set]
    exact hr.done hdone
  induction fuel generalizing n h with
  | zero => exact hstop n h hi hr fun h0 => by omega
  | succ fuel ih =>
    rw [thraise]
    simp only
    split_ifs with h0 hle
    · exact hstop n h hi hr fun _ => hle
    · have hp := Heap.parent_lt h0
      apply ih (Heap.parent n) (h.set n (h.b (Heap.parent n))) (hp.trans hn) (by omega)
      · exact hi.move hn (hp.trans hn) hp.ne
      · rw [times_set]
        exact hr.move h0 hn (not_le.mp hle)
    · exact hstop n h hi hr fun h0' => absurd h0' h0

/-- The least child, for `thlower`. -/
theorem thlower_child (timeout : ℕ → ℤ) (h : Timeheap) {n c : ℕ} (hlt : 2 * n + 1 < h.d)
    (hc : c = if 2 * n + 1 + 1 < h.d ∧ timeout (h.b (2 * n + 1 + 1)) < timeout (h.b (2 * n + 1))
      then 2 * n + 1 + 1 else 2 * n + 1) :
    n < c ∧ c < h.d ∧ Heap.parent c = n ∧
      ∀ i < h.d, 0 < i → Heap.parent i = n → h.times timeout c ≤ h.times timeout i := by
  have hchild : ∀ i, 0 < i → Heap.parent i = n → i = 2 * n + 1 ∨ i = 2 * n + 1 + 1 := by
    intro i h0 hi
    unfold Heap.parent at hi
    omega
  unfold Timeheap.times Heap.parent
  split_ifs at hc with hright
  · refine ⟨by omega, by omega, by omega, fun i hi h0 hpi => ?_⟩
    rcases hchild i h0 hpi with rfl | rfl
    · rw [hc]
      exact hright.2.le
    · rw [hc]
  · refine ⟨by omega, by omega, by omega, fun i hi h0 hpi => ?_⟩
    rcases hchild i h0 hpi with rfl | rfl
    · rw [hc]
    · rw [hc]
      exact not_lt.mp fun hless => hright ⟨hi, hless⟩

/-- So does `thlower`. -/
theorem thlower_timeouts (n : ℕ) (h : Timeheap) (hn : n < h.d) (hfuel : h.d ≤ n + fuel)
    (hi : Indexed (h.set n bl) S) (hl : Heap.Lowering (h.times timeout) h.d n (timeout bl)) :
    Timeouts timeout (thlower timeout bl fuel n h) S := by
  have hstop (n : ℕ) (h : Timeheap) (hi : Indexed (h.set n bl) S)
      (hl : Heap.Lowering (h.times timeout) h.d n (timeout bl))
      (hdone : ∀ c < h.d, 0 < c → Heap.parent c = n → timeout bl ≤ h.times timeout c) :
      Timeouts timeout (h.set n bl) S := by
    refine ⟨hi, ?_⟩
    rw [times_set]
    exact hl.done hdone
  induction fuel generalizing n h with
  | zero => omega
  | succ fuel ih =>
    rw [thlower]
    simp only
    by_cases hlt : 2 * n + 1 < h.d
    · rw [if_neg (not_le.mpr hlt)]
      obtain ⟨c, hc⟩ : ∃ c, c = if 2 * n + 1 + 1 < h.d ∧
          timeout (h.b (2 * n + 1 + 1)) < timeout (h.b (2 * n + 1)) then 2 * n + 1 + 1 else 2 * n + 1 := ⟨_, rfl⟩
      rw [← hc]
      obtain ⟨hnc, hcd, hcn, hleast⟩ := thlower_child timeout h hlt hc
      split_ifs with hgt
      · exact hstop n h hi hl fun i hid h0 hpi => hgt.le.trans (hleast i hid h0 hpi)
      · apply ih c (h.set n (h.b c)) hcd (by rw [set_d]; omega)
        · exact hi.move hn hcd hnc.ne'
        · rw [times_set]
          exact hl.move hcd (by omega) hcn hleast (not_lt.mp hgt)
    · rw [if_pos (not_lt.mp hlt)]
      refine hstop n h hi hl fun i hid h0 hpi => ?_
      unfold Heap.parent at hpi
      omega

theorem Timeouts.addtimeout (ht : Timeouts timeout h S) (hbl : ¬ S bl) :
    Timeouts timeout (addtimeout timeout bl h) fun a => S a ∨ a = bl := by
  apply thraise_timeouts
  · exact Nat.lt_succ_self h.d
  · exact le_rfl
  · exact ht.push hbl
  · exact ht.ordered.push (timeout bl)

theorem Timeouts.deltimeout (ht : Timeouts timeout h S) (hbl : S bl) :
    Timeouts timeout (deltimeout timeout bl h) fun a => S a ∧ a ≠ bl := by
  have hshort : Heap.Ordered (h.times timeout) (h.d - 1) := ht.ordered.mono (by omega)
  have hlt := (ht.all bl hbl).1
  unfold Mtio.deltimeout
  simp only
  split_ifs with hlast hup
  · exact ⟨ht.pop_last hbl hlast, hshort⟩
  · have hn : h.thpos bl < h.d - 1 := by omega
    exact thraise_timeouts _ _ hn le_rfl (ht.pop hbl hlast) (hshort.raising hup.1 hup.2)
  · have hn : h.thpos bl < h.d - 1 := by omega
    apply thlower_timeouts _ _ hn (Nat.le_add_left _ _) (ht.pop hbl hlast)
    exact hshort.lowering fun h0 => not_lt.mp fun hgt => hup ⟨h0, hgt⟩

end Order

end Ashd.Mtio
