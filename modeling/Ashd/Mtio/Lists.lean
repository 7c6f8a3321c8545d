import Ashd.Mtio.Model
import Mathlib.Data.List.Nodup

/-!
# The lists and the heap of the event loops

What `addblock` and `remblock` do to `blockers`, to the lists of `fdlist` and to `timeheap`, with
either kernel interface, and whatever the kernel refuses.

Main definitions:
* `Fds`, `Alls`: the lists of `fdlist`, the list `blockers` and the heap are in order.
* `Wf`: all of them are.

Main results:
* `Wf.addblock`, `addblock_told`: `addblock`, when it succeeds and when it does not.
* `Wf.remblock`.
-/

namespace Ashd.Mtio

variable {ctl : ℕ → Bool} {be : Backend} {s s' : State} {a fd : ℕ} {l : List ℕ} {fl : ℕ → List ℕ}

/-! ## Pointers that are changed in place -/

theorem poke_self (f : ℕ → Option ℕ) (b : Option ℕ) (a : ℕ) : poke f b (f a) a = f a := by
  rw [poke, ite_self]

section Cells

variable {next prev : ℕ → Option ℕ}

theorem linked_link (h : Linked next prev l) (ha : a ∉ l) (hprev : prev a = none) :
    Linked (Function.update next a l.head?) (poke prev l.head? (some a)) (a :: l) := by
  apply h.push ha
  · exact Function.update_self ..
  · rw [poke, if_neg, hprev]
    exact fun hhead => ha (List.mem_of_head? hhead)
  · exact fun c hc => Function.update_of_ne (ne_of_mem_of_not_mem hc ha) ..
  · exact fun c _ => rfl

theorem linked_unlink (h : Linked next prev l) (ha : a ∈ l) :
    Linked (poke next (poke prev (next a) (prev a) a) (next a)) (poke prev (next a) (prev a))
      (l.erase a) := by
  rw [poke_self]
  apply h.erase ha
  · exact fun c _ => rfl
  · exact fun c _ => rfl

end Cells

/-! ## What the calls to the kernel leave alone -/

/-- Only what the kernel has been told has changed. -/
def Told (s s' : State) : Prop :=
  ∃ interest filters calls, s' = { s with interest, filters, calls }

theorem Told.refl (s : State) : Told s s := ⟨_, _, _, rfl⟩

theorem Told.trans {s'' : State} (h : Told s s') (h' : Told s' s'') : Told s s'' := by
  obtain ⟨_, _, _, rfl⟩ := h
  obtain ⟨_, _, _, rfl⟩ := h'
  exact ⟨_, _, _, rfl⟩

theorem told_epollCtl (ctl : ℕ → Bool) (op : EpollOp) (fd : ℕ) (evd : Events) (s : State) :
    Told s (epollCtl ctl op fd evd s).2 := by
  unfold epollCtl
  simp only
  split_ifs
  · exact ⟨_, _, _, rfl⟩
  · exact ⟨_, _, _, rfl⟩

theorem told_kevent (ctl : ℕ → Bool) (on : Bool) (fd : ℕ) (filter : Filter) (s : State) :
    Told s (kevent ctl on fd filter s).2 := by
  unfold kevent
  split_ifs
  · exact ⟨_, _, _, rfl⟩
  · exact ⟨_, _, _, rfl⟩

theorem told_linkfd (h : Told s s') (a fd : ℕ) : Told (linkfd a fd s) (linkfd a fd s') := by
  obtain ⟨_, _, _, rfl⟩ := h
  exact ⟨_, _, _, rfl⟩

/-- What `regfd` does: nothing if there is no descriptor, and else the blocker is put in the
    list unless the kernel refuses. -/
theorem regfd_cases (ctl : ℕ → Bool) (be : Backend) (a : ℕ) (s : State) :
    (s.blk a).fd < 0 ∧ regfd ctl be a s = (true, s) ∨
    0 ≤ (s.blk a).fd ∧ (regfd ctl be a s).1 = true ∧
      Told (linkfd a (s.blk a).fd.toNat s) (regfd ctl be a s).2 ∨
    0 ≤ (s.blk a).fd ∧ (regfd ctl be a s).1 = false ∧ Told s (regfd ctl be a s).2 := by
  by_cases hneg : (s.blk a).fd < 0
  · left
    refine ⟨hneg, ?_⟩
    cases be with
    | epoll => rw [regfd, Epoll.regfd, if_pos hneg]
    | kqueue => rw [regfd, Kqueue.regfd, if_pos hneg]
  · right
    rw [← and_or_left]
    refine ⟨not_lt.mp hneg, ?_⟩
    -- whatever was told to the kernel
    have hdone (r : Bool × State) (hr : Told s r.2) :
        (if r.1 then (true, linkfd a (s.blk a).fd.toNat r.2) else (false, r.2)).1 = true ∧
          Told (linkfd a (s.blk a).fd.toNat s)
            (if r.1 then (true, linkfd a (s.blk a).fd.toNat r.2) else (false, r.2)).2 ∨
        (if r.1 then (true, linkfd a (s.blk a).fd.toNat r.2) else (false, r.2)).1 = false ∧
          Told s (if r.1 then (true, linkfd a (s.blk a).fd.toNat r.2) else (false, r.2)).2 := by
      split_ifs
      · exact .inl ⟨rfl, told_linkfd hr _ _⟩
      · exact .inr ⟨rfl, hr⟩
    cases be with
    | epoll =>
      rw [regfd, Epoll.regfd, if_neg hneg]
      apply hdone
      unfold Epoll.ctlreg
      split
      · exact told_epollCtl ..
      · exact told_epollCtl ..
    | kqueue =>
      rw [regfd, Kqueue.regfd, if_neg hneg]
      simp only
      have hkevent (c : Bool) (filter : Filter) (s₀ s₁ : State) (h₁ : Told s₀ s₁) : Told s₀
          (if c = true then kevent ctl true (s.blk a).fd.toNat filter s₁ else (true, s₁)).2 := by
        split_ifs
        · exact h₁.trans (told_kevent ..)
        · exact h₁
      obtain ⟨r, hr⟩ : ∃ r, r = if ((s.blk a).ev.read && !(s.orev ∅ (s.onfd (s.blk a).fd.toNat)).read) = true then
        kevent ctl true (s.blk a).fd.toNat .read s else (true, s) := ⟨_, rfl⟩
      have hread : Told s r.2 := hr ▸ hkevent _ .read s s (.refl s)
      rw [← hr]
      by_cases hok : r.1 = true
      · rw [if_pos hok]
        exact hdone _ (hkevent _ .write s r.2 hread)
      · rw [if_neg hok]
        exact .inr ⟨rfl, hread⟩

/-- What `remfd` does: the blocker is taken out of the list it is in. -/
theorem remfd_cases (ctl : ℕ → Bool) (be : Backend) (a : ℕ) (s : State) :
    s.reg a = false ∧ remfd ctl be a s = s ∨
    s.reg a = true ∧ Told { unlinkfd a (s.blk a).fd.toNat s with reg := Function.update s.reg a false }
      (remfd ctl be a s) := by
  cases hreg : s.reg a with
  | false =>
    left
    refine ⟨rfl, ?_⟩
    cases be with
    | epoll => rw [remfd, Epoll.remfd, hreg, if_neg Bool.false_ne_true]
    | kqueue => rw [remfd, Kqueue.remfd, hreg, if_neg Bool.false_ne_true]
  | true =>
    right
    refine ⟨rfl, ?_⟩
    have hdone (s₁ : State) (h₁ : Told (unlinkfd a (s.blk a).fd.toNat s) s₁) :
        Told { unlinkfd a (s.blk a).fd.toNat s with reg := Function.update s.reg a false }
          { s₁ with reg := Function.update s₁.reg a false } := by
      obtain ⟨_, _, _, rfl⟩ := h₁
      exact ⟨_, _, _, rfl⟩
    cases be with
    | epoll =>
      rw [remfd, Epoll.remfd, hreg, if_pos rfl]
      apply hdone
      unfold Epoll.ctlrem
      split
      · exact told_epollCtl ..
      · exact told_epollCtl ..
    | kqueue =>
      rw [remfd, Kqueue.remfd, hreg, if_pos rfl]
      simp only
      apply hdone
      have hkevent (c : Bool) (filter : Filter) (s₀ s₁ : State) (h₁ : Told s₀ s₁) : Told s₀
          (if c = true then (kevent ctl false (s.blk a).fd.toNat filter s₁).2 else s₁) := by
        split_ifs
        · exact h₁.trans (told_kevent ..)
        · exact h₁
      exact hkevent _ _ _ _ (hkevent _ _ _ _ (.refl _))

theorem orev_congr (ev : Events) (hb : ∀ a ∈ l, s'.blk a = s.blk a) : s'.orev ev l = s.orev ev l := by
  unfold State.orev
  induction l generalizing ev with
  | nil => rfl
  | cons a l ih =>
    rw [List.foldl_cons, List.foldl_cons, hb a List.mem_cons_self]
    exact ih _ fun c hc => hb c (List.mem_cons_of_mem a hc)

/-- Who is registered after `regfd`. -/
theorem regfd_reg (hok : (regfd ctl be a s).1 = true) (c : ℕ) :
    (regfd ctl be a s).2.reg c = true ↔ c = a ∧ 0 ≤ (s.blk a).fd ∨ s.reg c = true := by
  rcases regfd_cases ctl be a s with ⟨hneg, heq⟩ | ⟨hfd, -, htold⟩ | ⟨-, hno, -⟩
  · rw [heq]
    constructor
    · exact .inr
    · rintro (⟨-, hfd⟩ | hc)
      · omega
      · exact hc
  · obtain ⟨_, _, _, heq⟩ := htold
    rw [heq]
    show Function.update s.reg a true c = true ↔ _
    by_cases hca : c = a
    · simp [hca, hfd]
    · simp [hca]
  · rw [hok] at hno
    cases hno

/-- And after `remfd`. -/
theorem remfd_reg (ctl : ℕ → Bool) (be : Backend) (a : ℕ) (s : State) (c : ℕ) :
    (remfd ctl be a s).reg c = true ↔ c ≠ a ∧ s.reg c = true := by
  rcases remfd_cases ctl be a s with ⟨hreg, heq⟩ | ⟨-, htold⟩
  · rw [heq]
    refine ⟨fun hc => ⟨?_, hc⟩, fun hc => hc.2⟩
    rintro rfl
    rw [hreg] at hc
    cases hc
  · obtain ⟨_, _, _, heq⟩ := htold
    rw [heq]
    show Function.update s.reg a false c = true ↔ _
    by_cases hca : c = a
    · simp [hca]
    · simp [hca]

/-! ## The lists of `fdlist` -/

/-- `fdlist[fd]` is `fl fd`, for every `fd`: the blockers that are registered for it. -/
structure Fds (s : State) (fl : ℕ → List ℕ) : Prop where
  linked : ∀ fd, Linked s.n2 s.p2 (fl fd)
  head : ∀ fd, s.fdlist fd = (fl fd).head?
  mem : ∀ fd a, a ∈ fl fd ↔ s.reg a = true ∧ (s.blk a).fd = fd
  fresh : ∀ a, s.reg a = true → a < s.brk

/-- The lists, with `a` in front of that of `fd`. -/
def pushfd (fd : ℤ) (a : ℕ) (fl : ℕ → List ℕ) (fd' : ℕ) : List ℕ := if fd = fd' then a :: fl fd' else fl fd'

@[simp] theorem pushfd_self (fd a : ℕ) (fl : ℕ → List ℕ) : pushfd fd a fl fd = a :: fl fd := if_pos rfl

theorem pushfd_of_ne {fd' : ℕ} (h : fd' ≠ fd) (a : ℕ) (fl : ℕ → List ℕ) : pushfd fd a fl fd' = fl fd' :=
  if_neg (by exact_mod_cast h.symm)

/-- There are no lists for what is not a descriptor. -/
theorem pushfd_neg {fd : ℤ} (h : fd < 0) (a : ℕ) (fl : ℕ → List ℕ) : pushfd fd a fl = fl := by
  funext fd'
  rw [pushfd, if_neg (by omega)]

@[simp] theorem erase_pushfd (fd : ℤ) (a fd' : ℕ) (fl : ℕ → List ℕ) (ha : a ∉ fl fd') :
    (pushfd fd a fl fd').erase a = fl fd' := by
  unfold pushfd
  split_ifs
  · rw [List.erase_cons_head]
  · rw [List.erase_of_not_mem ha]

theorem Fds.told (h : Fds s fl) (ht : Told s s') : Fds s' fl := by
  obtain ⟨_, _, _, rfl⟩ := ht
  exact { h with }

/-- A blocker is in one list at most. -/
theorem Fds.fd_unique (h : Fds s fl) {fd' : ℕ} (ha : a ∈ fl fd) (ha' : a ∈ fl fd') : fd = fd' := by
  have hfd := ((h.mem fd a).mp ha).2
  rw [((h.mem fd' a).mp ha').2] at hfd
  exact_mod_cast hfd.symm

/-- `fdlist[fd]`, as it is read. -/
theorem Fds.onfd (h : Fds s fl) (fd : ℕ) : s.onfd fd = fl fd := by
  unfold State.onfd
  rw [h.head fd]
  exact (h.linked fd).walk_lt fun a ha => h.fresh a ((h.mem fd a).mp ha).1

theorem Fds.linkfd (h : Fds s fl) (ha : s.reg a = false) (hlt : a < s.brk) (hfd : (s.blk a).fd = fd) :
    Fds (linkfd a fd s) (pushfd fd a fl) := by
  have hnot (fd' : ℕ) : a ∉ fl fd' := by
    intro hmem
    have := ((h.mem fd' a).mp hmem).1
    rw [ha] at this
    cases this
  have hne (fd' c : ℕ) (hc : c ∈ fl fd') : c ≠ a := fun hca => hnot fd' (hca ▸ hc)
  refine ⟨fun fd' => ?_, fun fd' => ?_, fun fd' c => ?_, fun c hc => ?_⟩
  · by_cases heq : fd' = fd
    · subst heq
      rw [pushfd_self]
      have hcleared : Linked s.n2 (Function.update s.p2 a none) (fl fd') := by
        apply (h.linked fd').congr
        · exact fun c _ => rfl
        · exact fun c hc => Function.update_of_ne (hne fd' c hc) ..
      have hlinked := linked_link hcleared (hnot fd') (Function.update_self ..)
      rwa [← h.head fd'] at hlinked
    · rw [pushfd_of_ne heq]
      apply (h.linked fd').congr
      · exact fun c hc => Function.update_of_ne (hne fd' c hc) ..
      · intro c hc
        show poke (Function.update s.p2 a none) (s.fdlist fd) (some a) c = s.p2 c
        rw [poke, if_neg, Function.update_of_ne (hne fd' c hc)]
        rw [h.head]
        exact fun hhead => heq (h.fd_unique hc (List.mem_of_head? hhead))
  · show Function.update s.fdlist fd (some a) fd' = (pushfd fd a fl fd').head?
    by_cases heq : fd' = fd
    · rw [heq, Function.update_self, pushfd_self, List.head?_cons]
    · rw [Function.update_of_ne heq, pushfd_of_ne heq, h.head]
  · show c ∈ pushfd fd a fl fd' ↔ Function.update s.reg a true c = true ∧ (s.blk c).fd = fd'
    by_cases hca : c = a
    · rw [hca, Function.update_self, hfd, pushfd]
      split_ifs with heq
      · simp [heq]
      · simp [heq, hnot fd']
    · rw [Function.update_of_ne hca, ← h.mem fd' c, pushfd]
      split_ifs
      · rw [List.mem_cons, or_iff_right hca]
      · rfl
  · have hc : Function.update s.reg a true c = true := hc
    by_cases hca : c = a
    · exact hca ▸ hlt
    · rw [Function.update_of_ne hca] at hc
      exact h.fresh c hc

theorem Fds.unlinkfd (h : Fds s fl) (ha : s.reg a = true) (hfd : (s.blk a).fd = fd) :
    Fds { unlinkfd a fd s with reg := Function.update s.reg a false } fun fd' => (fl fd').erase a := by
  have hmem : a ∈ fl fd := (h.mem fd a).mpr ⟨ha, hfd⟩
  refine ⟨fun fd' => ?_, fun fd' => ?_, fun fd' c => ?_, fun c hc => ?_⟩
  · by_cases heq : fd' = fd
    · subst heq
      exact linked_unlink (h.linked fd') hmem
    · have hnot : a ∉ fl fd' := fun hmem' => heq (h.fd_unique hmem' hmem)
      rw [List.erase_of_not_mem hnot]
      -- the neighbours of `a` are in its own list
      apply (h.linked fd').congr
      · intro c hc
        show poke s.n2 (poke s.p2 (s.n2 a) (s.p2 a) a) (s.n2 a) c = s.n2 c
        rw [poke_self, poke, if_neg]
        exact fun hprev => heq (h.fd_unique hc ((h.linked fd).prev_mem hmem hprev))
      · intro c hc
        show poke s.p2 (s.n2 a) (s.p2 a) c = s.p2 c
        rw [poke, if_neg]
        exact fun hnext => heq (h.fd_unique hc ((h.linked fd).next_mem hmem hnext))
  · show (if s.fdlist fd = some a then Function.update s.fdlist fd (poke s.n2 _ (s.n2 a) a) else s.fdlist) fd' = _
    rw [poke_self]
    by_cases heq : fd' = fd
    · rw [heq, (h.linked fd).head?_erase hmem, ← h.head]
      split_ifs
      · rw [Function.update_self]
      · rfl
    · have hnot : a ∉ fl fd' := fun hmem' => heq (h.fd_unique hmem' hmem)
      rw [List.erase_of_not_mem hnot, ← h.head]
      split_ifs
      · rw [Function.update_of_ne heq]
      · rfl
  · show c ∈ (fl fd').erase a ↔ Function.update s.reg a false c = true ∧ (s.blk c).fd = fd'
    rw [(h.linked fd').nodup.mem_erase_iff, h.mem]
    by_cases hca : c = a
    · simp [hca]
    · simp [hca]
  · have hc : Function.update s.reg a false c = true := hc
    have hca : c ≠ a := by
      rintro rfl
      simp at hc
    rw [Function.update_of_ne hca] at hc
    exact h.fresh c hc

theorem Fds.regfd (h : Fds s fl) (ha : s.reg a = false) (hlt : a < s.brk) (hok : (regfd ctl be a s).1 = true) :
    Fds (regfd ctl be a s).2 (pushfd (s.blk a).fd a fl) := by
  rcases regfd_cases ctl be a s with ⟨hneg, heq⟩ | ⟨hfd, -, htold⟩ | ⟨-, hno, -⟩
  · rw [heq, pushfd_neg hneg]
    exact h
  · have hcast : (s.blk a).fd = (s.blk a).fd.toNat := (Int.toNat_of_nonneg hfd).symm
    have := (h.linkfd ha hlt hcast).told htold
    rwa [← hcast] at this
  · rw [hok] at hno
    cases hno

theorem Fds.remfd (ctl : ℕ → Bool) (be : Backend) (h : Fds s fl) (hfd : s.reg a = true → 0 ≤ (s.blk a).fd) :
    Fds (remfd ctl be a s) fun fd' => (fl fd').erase a := by
  rcases remfd_cases ctl be a s with ⟨hreg, heq⟩ | ⟨hreg, htold⟩
  · have hfl : (fun fd' => (fl fd').erase a) = fl := by
      funext fd'
      rw [List.erase_of_not_mem]
      intro hmem
      have := ((h.mem fd' a).mp hmem).1
      rw [hreg] at this
      cases this
    rw [heq, hfl]
    exact h
  · exact (h.unlinkfd hreg (Int.toNat_of_nonneg (hfd hreg)).symm).told htold

/-! ## The list `blockers`, and the heap -/

/-- `blockers` is `l`, and those of them that have a timeout are in the heap. -/
structure Alls (s : State) (l : List ℕ) : Prop where
  linked : Linked s.n s.p l
  head : s.blockers = l.head?
  fresh : ∀ a ∈ l, a < s.brk
  heap : Timeouts s.timeouts s.timeheap fun a => a ∈ l ∧ 0 < (s.blk a).timeout

theorem Alls.length_le (h : Alls s l) : l.length ≤ s.brk := h.linked.length_le h.fresh

/-- `blockers`, as it is read. -/
theorem Alls.all (h : Alls s l) : s.all = l := by
  unfold State.all
  rw [h.head]
  exact h.linked.walk_lt h.fresh

/-- Only what has to do with descriptors has changed. -/
def Fdonly (s s' : State) : Prop :=
  ∃ n2 p2 fdlist reg interest filters calls, s' = { s with n2, p2, fdlist, reg, interest, filters, calls }

theorem fdonly_regfd (ctl : ℕ → Bool) (be : Backend) (a : ℕ) (s : State) : Fdonly s (regfd ctl be a s).2 := by
  rcases regfd_cases ctl be a s with ⟨-, heq⟩ | ⟨-, -, htold⟩ | ⟨-, -, htold⟩
  · rw [heq]
    exact ⟨_, _, _, _, _, _, _, rfl⟩
  · obtain ⟨_, _, _, htold⟩ := htold
    rw [htold]
    exact ⟨_, _, _, _, _, _, _, rfl⟩
  · obtain ⟨_, _, _, htold⟩ := htold
    rw [htold]
    exact ⟨_, _, _, _, _, _, _, rfl⟩

theorem fdonly_remfd (ctl : ℕ → Bool) (be : Backend) (a : ℕ) (s : State) : Fdonly s (remfd ctl be a s) := by
  rcases remfd_cases ctl be a s with ⟨-, heq⟩ | ⟨-, htold⟩
  · rw [heq]
    exact ⟨_, _, _, _, _, _, _, rfl⟩
  · obtain ⟨_, _, _, htold⟩ := htold
    rw [htold]
    exact ⟨_, _, _, _, _, _, _, rfl⟩

theorem Alls.fdonly (h : Alls s l) (hf : Fdonly s s') : Alls s' l := by
  obtain ⟨_, _, _, _, _, _, _, rfl⟩ := hf
  exact { h with }

theorem Alls.push (h : Alls s l) (ha : a ∉ l) (hlt : a < s.brk) (hp : s.p a = none) :
    Alls (addto a (link a s)) (a :: l) := by
  have hlinked : Linked (link a s).n (link a s).p (a :: l) := by
    have hlinked := linked_link h.linked ha hp
    rwa [← h.head] at hlinked
  have hfresh : ∀ c ∈ a :: l, c < s.brk := List.forall_mem_cons.mpr ⟨hlt, h.fresh⟩
  have htimeout : (link a s).blk a = s.blk a := rfl
  unfold addto
  split_ifs with hto
  · have hheap := h.heap.addtimeout (show ¬ (a ∈ l ∧ 0 < (s.blk a).timeout) from fun hmem => ha hmem.1)
    refine ⟨hlinked, rfl, hfresh, hheap.congr fun c => ?_⟩
    show c ∈ a :: l ∧ 0 < (s.blk c).timeout ↔ _
    rw [List.mem_cons]
    constructor
    · rintro ⟨rfl | hc, hpos⟩
      · exact .inr rfl
      · exact .inl ⟨hc, hpos⟩
    · rintro (⟨hc, hpos⟩ | rfl)
      · exact ⟨.inr hc, hpos⟩
      · exact ⟨.inl rfl, hto⟩
  · refine ⟨hlinked, rfl, hfresh, h.heap.congr fun c => ?_⟩
    show c ∈ a :: l ∧ 0 < (s.blk c).timeout ↔ c ∈ l ∧ 0 < (s.blk c).timeout
    rw [List.mem_cons]
    constructor
    · rintro ⟨rfl | hc, hpos⟩
      · exact absurd hpos hto
      · exact ⟨hc, hpos⟩
    · exact fun hc => ⟨.inr hc.1, hc.2⟩

theorem Alls.erase (h : Alls s l) (ha : a ∈ l) : Alls (unlink a (delto a s)) (l.erase a) := by
  have hheap : Timeouts s.timeouts (delto a s).timeheap fun c => c ∈ l.erase a ∧ 0 < (s.blk c).timeout := by
    unfold delto
    split_ifs with hto
    · apply (h.heap.deltimeout (show a ∈ l ∧ 0 < (s.blk a).timeout from ⟨ha, hto⟩)).congr
      intro c
      rw [h.linked.nodup.mem_erase_iff]
      tauto
    · apply h.heap.congr
      intro c
      rw [h.linked.nodup.mem_erase_iff]
      constructor
      · exact fun hc => ⟨hc.1.2, hc.2⟩
      · rintro ⟨hc, hpos⟩
        refine ⟨⟨?_, hc⟩, hpos⟩
        rintro rfl
        exact hto hpos
  have hdelto : delto a s = { s with timeheap := (delto a s).timeheap } := by
    unfold delto
    split_ifs <;> rfl
  rw [hdelto]
  refine ⟨linked_unlink h.linked ha, ?_, fun c hc => h.fresh c (List.mem_of_mem_erase hc), hheap⟩
  show (if s.blockers = some a then poke s.n (poke s.p (s.n a) (s.p a) a) (s.n a) a else s.blockers) = _
  rw [poke_self, h.linked.head?_erase ha, h.head]

/-! ## All of it -/

/-- The lists and the heap are in order. -/
structure Wf (s : State) (l : List ℕ) (fl : ℕ → List ℕ) : Prop where
  alls : Alls s l
  fds : Fds s fl
  reg : ∀ a, s.reg a = true → a ∈ l ∧ 0 ≤ (s.blk a).fd
  idle : s.polling = false → ∀ a, s.reg a = false

/-- The operations on the lists do not change these. -/
def Frame (s s' : State) : Prop :=
  s'.brk = s.brk ∧ s'.blk = s.blk ∧ s'.waiting = s.waiting ∧ s'.polling = s.polling

theorem Frame.refl (s : State) : Frame s s := ⟨rfl, rfl, rfl, rfl⟩

theorem Frame.trans {s'' : State} (h : Frame s s') (h' : Frame s' s'') : Frame s s'' :=
  ⟨h'.1.trans h.1, h'.2.1.trans h.2.1, h'.2.2.1.trans h.2.2.1, h'.2.2.2.trans h.2.2.2⟩

theorem Fdonly.frame (h : Fdonly s s') : Frame s s' := by
  obtain ⟨_, _, _, _, _, _, _, rfl⟩ := h
  exact ⟨rfl, rfl, rfl, rfl⟩

theorem Fds.not_mem (h : Fds s fl) (ha : s.reg a = false) (fd : ℕ) : a ∉ fl fd := by
  intro hmem
  have := ((h.mem fd a).mp hmem).1
  rw [ha] at this
  cases this

theorem frame_addto (a : ℕ) (s : State) : Frame s (addto a s) := by
  unfold addto
  split_ifs <;> exact ⟨rfl, rfl, rfl, rfl⟩

theorem frame_delto (a : ℕ) (s : State) : Frame s (delto a s) := by
  unfold delto
  split_ifs <;> exact ⟨rfl, rfl, rfl, rfl⟩

theorem frame_addblock (ctl : ℕ → Bool) (be : Backend) (a : ℕ) (s : State) :
    Frame s (addblock ctl be a s).2 := by
  unfold addblock
  simp only
  have hreg : Frame s (if s.polling = true then regfd ctl be a s else (true, s)).2 := by
    split_ifs
    · exact (fdonly_regfd ctl be a s).frame
    · exact .refl s
  split_ifs at hreg ⊢ <;> first
    | exact hreg.trans (Frame.trans ⟨rfl, rfl, rfl, rfl⟩ (frame_addto a _))
    | exact hreg

theorem frame_remblock (ctl : ℕ → Bool) (be : Backend) (a : ℕ) (s : State) : Frame s (remblock ctl be a s) :=
  (frame_delto a s).trans (Frame.trans ⟨rfl, rfl, rfl, rfl⟩ (fdonly_remfd ctl be a _).frame)

theorem frame_remblocks (ctl : ℕ → Bool) (be : Backend) (bls : List ℕ) (s : State) :
    Frame s (remblocks ctl be bls s) := by
  unfold remblocks
  induction bls generalizing s with
  | nil => exact .refl s
  | cons a bls ih => exact (frame_remblock ctl be a s).trans (ih _)

/-- A new blocker is in no list. -/
theorem Wf.alloc (h : Wf s l fl) (b : Blocker) : Wf (alloc b s) l fl := by
  have hnew : s.brk ∉ l := fun hmem => (h.alls.fresh _ hmem).ne rfl
  have hreg : s.reg s.brk = false := by
    rw [Bool.eq_false_iff]
    exact fun hreg => (h.fds.fresh _ hreg).ne rfl
  have hregof (a : ℕ) (ha : Function.update s.reg s.brk false a = true) : a ≠ s.brk ∧ s.reg a = true := by
    by_cases heq : a = s.brk
    · rw [heq, Function.update_self] at ha
      cases ha
    · rw [Function.update_of_ne heq] at ha
      exact ⟨heq, ha⟩
  refine ⟨⟨?_, h.alls.head, fun a ha => Nat.lt_succ_of_lt (h.alls.fresh a ha), ?_⟩, ⟨fun fd => ?_, h.fds.head,
    fun fd a => ?_, fun a ha => ?_⟩, fun a ha => ?_, fun hp a => ?_⟩
  · apply h.alls.linked.congr
    · exact fun c hc => Function.update_of_ne (ne_of_mem_of_not_mem hc hnew) ..
    · exact fun c hc => Function.update_of_ne (ne_of_mem_of_not_mem hc hnew) ..
  · have hblk (a : ℕ) (ha : a ∈ l) : (Mtio.alloc b s).blk a = s.blk a :=
      Function.update_of_ne (ne_of_mem_of_not_mem ha hnew) ..
    have hheap := h.alls.heap.forget (show ¬ (s.brk ∈ l ∧ 0 < (s.blk s.brk).timeout) from fun hmem => hnew hmem.1) 0
    apply (hheap.retime (Mtio.alloc b s).timeouts fun a ha => ?_).congr fun a => ?_
    · show ((Mtio.alloc b s).blk a).timeout = (s.blk a).timeout
      rw [hblk a ha.1]
    · constructor
      · exact fun ha => ⟨ha.1, hblk a ha.1 ▸ ha.2⟩
      · exact fun ha => ⟨ha.1, (hblk a ha.1).symm ▸ ha.2⟩
  · apply (h.fds.linked fd).congr
    · exact fun c hc => Function.update_of_ne (ne_of_mem_of_not_mem hc (h.fds.not_mem hreg fd)) ..
    · exact fun c hc => Function.update_of_ne (ne_of_mem_of_not_mem hc (h.fds.not_mem hreg fd)) ..
  · show a ∈ fl fd ↔ Function.update s.reg s.brk false a = true ∧ (Function.update s.blk s.brk b a).fd = fd
    by_cases heq : a = s.brk
    · simp [heq, h.fds.not_mem hreg fd]
    · rw [Function.update_of_ne heq, Function.update_of_ne heq]
      exact h.fds.mem fd a
  · exact Nat.lt_succ_of_lt (h.fds.fresh a (hregof a ha).2)
  · show a ∈ l ∧ 0 ≤ (Function.update s.blk s.brk b a).fd
    rw [Function.update_of_ne (hregof a ha).1]
    exact h.reg a (hregof a ha).2
  · show Function.update s.reg s.brk false a = false
    by_cases heq : a = s.brk
    · rw [heq, Function.update_self]
    · rw [Function.update_of_ne heq, h.idle hp a]

/-- Only what has to do with `blockers` and the heap has changed. -/
def Allonly (s s' : State) : Prop :=
  ∃ n p blockers timeheap, s' = { s with n, p, blockers, timeheap }

theorem allonly_push (a : ℕ) (s : State) : Allonly s (addto a (link a s)) := by
  unfold addto
  split_ifs <;> exact ⟨_, _, _, _, rfl⟩

theorem allonly_erase (a : ℕ) (s : State) : Allonly s (unlink a (delto a s)) := by
  unfold delto
  split_ifs <;> exact ⟨_, _, _, _, rfl⟩

theorem Fds.allonly (h : Fds s fl) (hs : Allonly s s') : Fds s' fl := by
  obtain ⟨_, _, _, _, rfl⟩ := hs
  exact { h with }

theorem addblock_idle (hp : s.polling = false) : addblock ctl be a s = (true, addto a (link a s)) := by
  simp [addblock, hp]

theorem addblock_polling (hp : s.polling = true) : addblock ctl be a s =
    if (regfd ctl be a s).1 = true then (true, addto a (link a (regfd ctl be a s).2))
    else (false, (regfd ctl be a s).2) := by
  simp [addblock, hp]

/-- What `addblock` does if it succeeds. -/
theorem addblock_true (hok : (addblock ctl be a s).1 = true) :
    s.polling = false ∧ (addblock ctl be a s).2 = addto a (link a s) ∨
    s.polling = true ∧ (regfd ctl be a s).1 = true ∧
      (addblock ctl be a s).2 = addto a (link a (regfd ctl be a s).2) := by
  cases hp : s.polling with
  | false =>
    rw [addblock_idle hp]
    exact .inl ⟨rfl, rfl⟩
  | true =>
    rw [addblock_polling hp] at hok ⊢
    split_ifs at hok ⊢ with hreg
    exact .inr ⟨rfl, hreg, rfl⟩

/-- And if it does not. -/
theorem addblock_false (hok : (addblock ctl be a s).1 = false) :
    s.polling = true ∧ (regfd ctl be a s).1 = false ∧ (addblock ctl be a s).2 = (regfd ctl be a s).2 := by
  cases hp : s.polling with
  | false =>
    rw [addblock_idle hp] at hok
    cases hok
  | true =>
    rw [addblock_polling hp] at hok ⊢
    split_ifs at hok ⊢ with hreg
    exact ⟨rfl, Bool.eq_false_iff.mpr hreg, rfl⟩

/-- The lists of `fdlist` after `addblock`. -/
def addfd (s : State) (a : ℕ) (fl : ℕ → List ℕ) : ℕ → List ℕ :=
  if s.polling then pushfd (s.blk a).fd a fl else fl

theorem Wf.not_reg (h : Wf s l fl) (ha : a ∉ l) : s.reg a = false := by
  rw [Bool.eq_false_iff]
  exact fun hreg => ha (h.reg a hreg).1

/-- A blocker is registered. -/
theorem Wf.regfd (h : Wf s l fl) (hset : a ∈ l) (hreg : s.reg a = false) (hp : s.polling = true)
    (hok : (regfd ctl be a s).1 = true) : Wf (regfd ctl be a s).2 l (pushfd (s.blk a).fd a fl) := by
  obtain ⟨-, hblk, -, hpolling⟩ := (fdonly_regfd ctl be a s).frame
  refine ⟨h.alls.fdonly (fdonly_regfd ctl be a s), h.fds.regfd hreg (h.alls.fresh a hset) hok, fun c hc => ?_,
    fun hidle => ?_⟩
  · rw [hblk]
    rcases (regfd_reg hok c).mp hc with ⟨rfl, hfd⟩ | hc
    · exact ⟨hset, hfd⟩
    · exact h.reg c hc
  · rw [hpolling, hp] at hidle
    cases hidle

/-- It is no longer registered. -/
theorem Wf.remfd (ctl : ℕ → Bool) (be : Backend) (h : Wf s l fl) (a : ℕ) : Wf (remfd ctl be a s) l fun fd => (fl fd).erase a := by
  obtain ⟨-, hblk, -, hpolling⟩ := (fdonly_remfd ctl be a s).frame
  refine ⟨h.alls.fdonly (fdonly_remfd ctl be a s), h.fds.remfd ctl be fun hreg => (h.reg a hreg).2, fun c hc => ?_,
    fun hidle c => ?_⟩
  · rw [hblk]
    exact h.reg c ((remfd_reg ctl be a s c).mp hc).2
  · rw [hpolling] at hidle
    rw [Bool.eq_false_iff]
    intro hc
    have := ((remfd_reg ctl be a s c).mp hc).2
    rw [h.idle hidle c] at this
    cases this

theorem Wf.addblock (h : Wf s l fl) (ha : a ∉ l) (hlt : a < s.brk) (hp : s.p a = none)
    (hok : (addblock ctl be a s).1 = true) : Wf (addblock ctl be a s).2 (a :: l) (addfd s a fl) := by
  rcases addblock_true hok with ⟨hidle, heq⟩ | ⟨hpolling, hreg, heq⟩
  · rw [heq, addfd, hidle, if_neg Bool.false_ne_true]
    obtain ⟨_, _, _, _, hs'⟩ := allonly_push a s
    refine ⟨h.alls.push ha hlt hp, h.fds.allonly (allonly_push a s), ?_, ?_⟩
    · rw [hs']
      exact fun c hc => ⟨List.mem_cons_of_mem a (h.reg c hc).1, (h.reg c hc).2⟩
    · rw [hs']
      exact h.idle
  · rw [heq, addfd, hpolling, if_pos rfl]
    obtain ⟨_, _, _, _, _, _, _, hs₁⟩ := fdonly_regfd ctl be a s
    obtain ⟨_, _, _, _, hs'⟩ := allonly_push a (Mtio.regfd ctl be a s).2
    refine ⟨?_, (h.fds.regfd (h.not_reg ha) hlt hreg).allonly (allonly_push a _), ?_, ?_⟩
    · apply (h.alls.fdonly (fdonly_regfd ctl be a s)).push ha
      · rw [hs₁]
        exact hlt
      · rw [hs₁]
        exact hp
    · rw [hs']
      show ∀ c, (Mtio.regfd ctl be a s).2.reg c = true → c ∈ a :: l ∧ 0 ≤ ((Mtio.regfd ctl be a s).2.blk c).fd
      rw [(fdonly_regfd ctl be a s).frame.2.1]
      intro c hc
      rcases (regfd_reg hreg c).mp hc with ⟨rfl, hfd⟩ | hc
      · exact ⟨List.mem_cons_self, hfd⟩
      · exact ⟨List.mem_cons_of_mem a (h.reg c hc).1, (h.reg c hc).2⟩
    · rw [hs', hs₁]
      intro hidle
      have hidle : s.polling = false := hidle
      rw [hpolling] at hidle
      cases hidle

theorem Wf.told (h : Wf s l fl) (ht : Told s s') : Wf s' l fl := by
  obtain ⟨_, _, _, rfl⟩ := ht
  exact { h with
    alls := { h.alls with }
    fds := { h.fds with } }

/-- The kernel refuses, and nothing else happens. -/
theorem addblock_told (hok : (addblock ctl be a s).1 = false) : Told s (addblock ctl be a s).2 := by
  obtain ⟨-, hreg, heq⟩ := addblock_false hok
  rw [heq]
  rcases regfd_cases ctl be a s with ⟨-, hs₁⟩ | ⟨-, hyes, -⟩ | ⟨-, -, htold⟩
  · rw [hs₁]
    exact .refl s
  · rw [hreg] at hyes
    cases hyes
  · exact htold

theorem Wf.remblock (ctl : ℕ → Bool) (be : Backend) (h : Wf s l fl) (ha : a ∈ l) :
    Wf (remblock ctl be a s) (l.erase a) fun fd => (fl fd).erase a := by
  have hreg₁ : (unlink a (delto a s)).reg = s.reg := by
    obtain ⟨_, _, _, _, hs₁⟩ := allonly_erase a s
    rw [hs₁]
  have hblk₁ : (unlink a (delto a s)).blk = s.blk := by
    obtain ⟨_, _, _, _, hs₁⟩ := allonly_erase a s
    rw [hs₁]
  have hreg (c : ℕ) : (Mtio.remblock ctl be a s).reg c = true ↔ c ≠ a ∧ s.reg c = true := by
    rw [← hreg₁]
    exact remfd_reg ctl be a (unlink a (delto a s)) c
  obtain ⟨-, hblk, -, hpolling⟩ := frame_remblock ctl be a s
  refine ⟨(h.alls.erase ha).fdonly (fdonly_remfd ctl be a _), ?_, fun c hc => ?_, fun hidle c => ?_⟩
  · apply (h.fds.allonly (allonly_erase a s)).remfd ctl be
    rw [hreg₁, hblk₁]
    exact fun hr => (h.reg a hr).2
  · obtain ⟨hca, hc⟩ := (hreg c).mp hc
    rw [hblk]
    exact ⟨(List.mem_erase_of_ne hca).mpr (h.reg c hc).1, (h.reg c hc).2⟩
  · rw [hpolling] at hidle
    rw [Bool.eq_false_iff]
    intro hc
    have := ((hreg c).mp hc).2
    rw [h.idle hidle c] at this
    cases this

/-- The blockers of a thread are removed. -/
theorem Wf.remblocks (ctl : ℕ → Bool) (be : Backend) (h : Wf s l fl) {bls : List ℕ} (hnodup : bls.Nodup) (hmem : ∀ a ∈ bls, a ∈ l) :
    Wf (remblocks ctl be bls s) (l.diff bls) fun fd => (fl fd).diff bls := by
  induction bls generalizing s l fl with
  | nil => exact h
  | cons a bls ih =>
    obtain ⟨ha, hnodup⟩ := List.nodup_cons.mp hnodup
    have := ih (h.remblock ctl be (hmem a List.mem_cons_self)) hnodup fun c hc =>
      (List.mem_erase_of_ne (ne_of_mem_of_not_mem hc ha)).mpr (hmem c (List.mem_cons_of_mem a hc))
    simp only [List.diff_cons]
    exact this

end Ashd.Mtio
