import Ashd.Mtio.Threads

/-!
# What `epoll` waits for is what the threads wait for

The registration invariant of mtio-epoll.c, where the kernel refuses nothing, in every state
that is reached while threads block and are resumed and `ioloop` is left and entered.

Main definitions:
* `Live`: what the kernel has been told.
* `Reachable`: the states between two operations.
* `Registered`: what is expected of them.

Main results:
* `regfd_live`, `remfd_live`.
* `reachable_registered`: the invariant.
-/

namespace Ashd.Mtio

variable {ctl : ℕ → Bool} {s s' : State} {a fd : ℕ} {l : List ℕ} {fl : ℕ → List ℕ}

/-! ## What the kernel has been told -/

/-- A descriptor is registered if there is a blocker for it, with the events of all of them. -/
def Interest (s : State) (fl : ℕ → List ℕ) : Prop :=
  ∀ fd, s.interest fd = if fl fd = [] then none else some (s.orev ∅ (fl fd))

theorem orev_cons (s : State) (a : ℕ) (l : List ℕ) : s.orev ∅ (a :: l) = s.orev (s.blk a).ev l := by
  unfold State.orev
  rw [List.foldl_cons, events_empty_union]

theorem Interest.frame (h : Interest s fl) (hi : s'.interest = s.interest) (hb : s'.blk = s.blk) : Interest s' fl := by
  intro fd
  unfold State.orev
  rw [hi, hb]
  exact h fd

/-- `regfd` succeeds, and tells the kernel of the events of the blocker. -/
theorem regfd_live (hctl : ∀ i, ctl i = true) (h : Fds s fl) (hi : Interest s fl) (a : ℕ) :
    (regfd ctl .epoll a s).1 = true ∧ Interest (regfd ctl .epoll a s).2 (pushfd (s.blk a).fd a fl) := by
  rw [regfd, Epoll.regfd]
  by_cases hneg : (s.blk a).fd < 0
  · rw [if_pos hneg, pushfd_neg hneg]
    exact ⟨rfl, hi⟩
  · obtain ⟨fd, hfd⟩ : ∃ fd : ℕ, (s.blk a).fd = fd := ⟨_, (Int.toNat_of_nonneg (not_lt.mp hneg)).symm⟩
    rw [if_neg hneg, hfd, Int.toNat_natCast]
    have hcall : Epoll.ctlreg ctl fd (s.blk a).ev s = (true, { s with
        calls := s.calls + 1
        interest := Function.update s.interest fd (some (s.orev ∅ (a :: fl fd))) }) := by
      rw [Epoll.ctlreg, orev_cons, h.onfd fd, h.head fd]
      have hinterest := hi fd
      cases hl : fl fd with
      | nil =>
        rw [hl, if_pos rfl] at hinterest
        simp [epollCtl, hctl, hinterest, State.orev]
      | cons o l =>
        rw [hl, if_neg (List.cons_ne_nil o l)] at hinterest
        simp [epollCtl, hctl, hinterest]
    simp only [hcall]
    refine ⟨rfl, fun fd' => ?_⟩
    show Function.update s.interest fd (some (s.orev ∅ (a :: fl fd))) fd' =
      if pushfd fd a fl fd' = [] then none else some (s.orev ∅ (pushfd fd a fl fd'))
    by_cases heq : fd' = fd
    · rw [heq, Function.update_self, pushfd_self, if_neg (List.cons_ne_nil a (fl fd))]
    · rw [Function.update_of_ne heq, pushfd_of_ne heq]
      exact hi fd'

/-- `remfd` tells the kernel of what is left. -/
theorem remfd_live (hctl : ∀ i, ctl i = true) (h : Fds s fl) (hi : Interest s fl)
    (hfd : s.reg a = true → 0 ≤ (s.blk a).fd) : Interest (remfd ctl .epoll a s) fun fd' => (fl fd').erase a := by
  have hafter := h.remfd ctl .epoll hfd
  rw [remfd, Epoll.remfd] at hafter ⊢
  cases hreg : s.reg a with
  | false =>
    rw [if_neg Bool.false_ne_true]
    have hfl : (fun fd' => (fl fd').erase a) = fl := by
      funext fd'
      rw [List.erase_of_not_mem (h.not_mem hreg fd')]
    rw [hfl]
    exact hi
  | true =>
    obtain ⟨fd, hfd⟩ : ∃ fd : ℕ, (s.blk a).fd = fd := ⟨_, (Int.toNat_of_nonneg (hfd hreg)).symm⟩
    have hfds := h.unlinkfd hreg hfd
    rw [if_pos rfl, hfd, Int.toNat_natCast]
    -- the descriptor is registered so far
    have hmem : a ∈ fl fd := (h.mem fd a).mpr ⟨hreg, hfd⟩
    have hsome : s.interest fd = some (s.orev ∅ (fl fd)) := by
      rw [hi fd, if_neg (List.ne_nil_of_mem hmem)]
    have hcall : Epoll.ctlrem ctl fd (unlinkfd a fd s) = { unlinkfd a fd s with
        calls := s.calls + 1
        interest := Function.update s.interest fd (if (fl fd).erase a = [] then none
          else some (s.orev ∅ ((fl fd).erase a))) } := by
      have honfd : (unlinkfd a fd s).onfd fd = (fl fd).erase a := hfds.onfd fd
      have hhead : (unlinkfd a fd s).fdlist fd = ((fl fd).erase a).head? := hfds.head fd
      have hi : (unlinkfd a fd s).interest = s.interest := rfl
      have hc : (unlinkfd a fd s).calls = s.calls := rfl
      have ho : (unlinkfd a fd s).orev = s.orev := rfl
      rw [Epoll.ctlrem, honfd, hhead, ho]
      cases hl : (fl fd).erase a with
      | nil => simp [epollCtl, hctl, hi, hc, hsome]
      | cons o l => simp [epollCtl, hctl, hi, hc, hsome]
    simp only [hcall]
    intro fd'
    show Function.update s.interest fd _ fd' =
      if (fl fd').erase a = [] then none else some (s.orev ∅ ((fl fd').erase a))
    by_cases heq : fd' = fd
    · rw [heq, Function.update_self]
    · have hnot : a ∉ fl fd' := fun hmem' => heq (h.fd_unique hmem' hmem)
      rw [Function.update_of_ne heq, List.erase_of_not_mem hnot]
      exact hi fd'

/-- While `ioloop` runs: the kernel knows, and every blocker that has a descriptor is
    registered. -/
structure Live (s : State) : Prop where
  interest : Interest s s.onfd
  reg : ∀ a ∈ s.all, 0 ≤ (s.blk a).fd → s.reg a = true

theorem Wf.live (h : Wf s l fl) (hi : Interest s fl) (hreg : ∀ a ∈ l, 0 ≤ (s.blk a).fd → s.reg a = true) : Live s where
  interest := by rwa [funext h.fds.onfd]
  reg := by rwa [h.alls.all]

theorem Wf.interest (h : Wf s l fl) (hlive : Live s) : Interest s fl := by
  rw [← funext h.fds.onfd]
  exact hlive.interest

theorem Wf.registered (h : Wf s l fl) (hlive : Live s) (ha : a ∈ l) (hfd : 0 ≤ (s.blk a).fd) : s.reg a = true :=
  hlive.reg a (h.alls.all.symm ▸ ha) hfd

/-! ## Adding and removing -/

variable {th : ℕ} {bls : List ℕ} {bs : List Blocker}

theorem live_alloc (h : Wf s l fl) (hlive : Live s) (b : Blocker) : Live (alloc b s) := by
  have hblk : ∀ a ∈ l, (alloc b s).blk a = s.blk a := fun a ha => alloc_blk_of_lt b (h.alls.fresh a ha)
  apply (h.alloc b).live
  · intro fd
    have hfd : ∀ a ∈ fl fd, (alloc b s).blk a = s.blk a :=
      fun a ha => hblk a (h.reg a ((h.fds.mem fd a).mp ha).1).1
    rw [orev_congr ∅ hfd]
    exact h.interest hlive fd
  · intro a ha hfd
    rw [hblk a ha] at hfd
    show Function.update s.reg s.brk false a = true
    rw [Function.update_of_ne (h.alls.fresh a ha).ne]
    exact h.registered hlive ha hfd

/-- No blocker is refused. -/
theorem live_addblock (hctl : ∀ i, ctl i = true) (h : Wf s l fl) (hlive : s.polling = true → Live s) (ha : a ∉ l)
    (hlt : a < s.brk) (hp : s.p a = none) : (addblock ctl .epoll a s).1 = true ∧
      (s.polling = true → Live (addblock ctl .epoll a s).2) := by
  cases hpolling : s.polling with
  | false =>
    rw [addblock_idle hpolling]
    exact ⟨rfl, nofun⟩
  | true =>
    have hlive := hlive hpolling
    obtain ⟨hok, hi⟩ := regfd_live hctl h.fds (h.interest hlive) a
    have hadd : (addblock ctl .epoll a s).1 = true := by
      rw [addblock_polling hpolling, if_pos hok]
    refine ⟨hadd, fun _ => (h.addblock ha hlt hp hadd).live ?_ ?_⟩
    · obtain ⟨_, _, _, _, heq⟩ := allonly_push a (regfd ctl .epoll a s).2
      rw [addfd, hpolling, if_pos rfl, addblock_polling hpolling, if_pos hok]
      exact hi.frame (by rw [heq]) (by rw [heq])
    · obtain ⟨_, _, _, _, heq⟩ := allonly_push a (regfd ctl .epoll a s).2
      obtain ⟨-, hblk, -⟩ := (fdonly_regfd ctl .epoll a s).frame
      intro c hc hfd
      rw [addblock_polling hpolling, if_pos hok, heq] at hfd ⊢
      show (regfd ctl .epoll a s).2.reg c = true
      rw [hblk] at hfd
      rw [regfd_reg hok]
      rcases List.mem_cons.mp hc with rfl | hc
      · exact .inl ⟨rfl, hfd⟩
      · exact .inr (h.registered hlive hc hfd)

theorem live_remblock (hctl : ∀ i, ctl i = true) (h : Wf s l fl) (hlive : Live s) (ha : a ∈ l) :
    Live (remblock ctl .epoll a s) := by
  obtain ⟨_, _, _, _, heq⟩ := allonly_erase a s
  have hreg : (unlink a (delto a s)).reg = s.reg := by
    rw [heq]
  have hblk : (unlink a (delto a s)).blk = s.blk := by
    rw [heq]
  apply (h.remblock ctl .epoll ha).live
  · apply remfd_live hctl (h.fds.allonly (allonly_erase a s))
    · exact (h.interest hlive).frame (by rw [heq]) hblk
    · rw [hreg, hblk]
      exact fun hr => (h.reg a hr).2
  · intro c hc hfd
    rw [(frame_remblock ctl .epoll a s).2.1] at hfd
    obtain ⟨hca, hc⟩ := h.alls.linked.nodup.mem_erase_iff.mp hc
    apply (remfd_reg ctl .epoll a (unlink a (delto a s)) c).mpr
    rw [hreg]
    exact ⟨hca, h.registered hlive hc hfd⟩

theorem live_remblocks (hctl : ∀ i, ctl i = true) (h : Wf s l fl) (hlive : Live s) (hnodup : bls.Nodup)
    (hmem : ∀ a ∈ bls, a ∈ l) : Live (remblocks ctl .epoll bls s) := by
  induction bls generalizing s l fl with
  | nil => exact hlive
  | cons a bls ih =>
    obtain ⟨ha, hnodup⟩ := List.nodup_cons.mp hnodup
    have hal := hmem a List.mem_cons_self
    apply ih (h.remblock ctl .epoll hal) (live_remblock hctl h hlive hal) hnodup
    exact fun c hc => (List.mem_erase_of_ne (ne_of_mem_of_not_mem hc ha)).mpr (hmem c (List.mem_cons_of_mem a hc))

/-- No call of `mblock` or `block` is refused. -/
theorem live_addblocks (hctl : ∀ i, ctl i = true) {s₀ : State} {fl' : ℕ → List ℕ} (bs : List Blocker)
    (h : Added th s₀ l fl bls s fl') (hbs : ∀ b ∈ bs, b.th = th) (hlive : s.polling = true → Live s) :
    (addblocks ctl .epoll bs bls s).1 = true ∧ (s.polling = true → Live (addblocks ctl .epoll bs bls s).2.2) := by
  induction bs generalizing bls s fl' with
  | nil => exact ⟨rfl, hlive⟩
  | cons b bs ih =>
    have hnew : s.brk ∉ bls.reverse ++ l := fun hmem => (h.wf.alls.fresh _ hmem).ne rfl
    obtain ⟨hok, hlive'⟩ := live_addblock hctl (h.wf.alloc b) (fun hp => live_alloc h.wf (hlive hp) b) hnew
      (Nat.lt_succ_self _) (Function.update_self ..)
    have hpolling : (addblock ctl .epoll s.brk (alloc b s)).2.polling = s.polling :=
      (frame_addblock ctl .epoll s.brk (alloc b s)).2.2.2
    rw [addblocks, if_pos hok, ← hpolling]
    apply ih (h.addblock (hbs b List.mem_cons_self) hok) (fun c hc => hbs c (List.mem_cons_of_mem b hc))
    rw [hpolling]
    exact hlive'

theorem live_attempt (hctl : ∀ i, ctl i = true) (h : Inv s l fl) (hbs : ∀ b ∈ bs, b.th = th)
    (hlive : s.polling = true → Live s) : (attempt ctl .epoll th bs s).1 = true ∧
      (s.polling = true → Live (attempt ctl .epoll th bs s).2) := by
  obtain ⟨hok, hlive⟩ := live_addblocks hctl bs (h.wf.added th) hbs hlive
  unfold attempt
  simp only
  rw [if_pos hok]
  exact ⟨rfl, fun hp => { hlive hp with }⟩

theorem live_wake (hctl : ∀ i, ctl i = true) (h : Inv s l fl) (hth : s.waiting th = some bls) (hlive : Live s) :
    Live (wake ctl .epoll th bls s) := by
  have hlive : Live { s with waiting := Function.update s.waiting th none } := { hlive with }
  apply live_remblocks hctl (h.wf.setwaiting _) hlive (h.waits.nodup th bls hth)
  exact fun a ha => (h.waits.mem a).mpr ⟨th, bls, hth, ha⟩

/-! ## The start of `ioloop` -/

/-- The loop at the start of `ioloop`; `xs` is behind it. -/
theorem live_regall (hctl : ∀ i, ctl i = true) {fuel : ℕ} {xs ys : List ℕ} (h : Wf s (xs ++ ys) fl)
    (hp : s.polling = true) (hi : Interest s fl) (hfuel : ys.length ≤ fuel)
    (hxs : ∀ a ∈ xs, 0 ≤ (s.blk a).fd → s.reg a = true) (hys : ∀ a ∈ ys, s.reg a = false) :
    ∃ s' fl', regall ctl .epoll fuel ys.head? s = some s' ∧ Fdonly s s' ∧ Wf s' (xs ++ ys) fl' ∧ Live s' := by
  induction ys generalizing xs s fl fuel with
  | nil =>
    refine ⟨s, fl, ?_, ⟨_, _, _, _, _, _, _, rfl⟩, h, h.live hi fun a ha => hxs a ?_⟩
    · cases fuel <;> rfl
    · rwa [List.append_nil] at ha
  | cons a ys ih =>
    cases fuel with
    | zero => simp at hfuel
    | succ fuel =>
      have hreg := hys a List.mem_cons_self
      obtain ⟨hok, hi'⟩ := regfd_live hctl h.fds hi a
      have hwf := h.regfd (by simp) hreg hp hok
      obtain ⟨-, hblk, -, hpolling⟩ := (fdonly_regfd ctl .epoll a s).frame
      have hnext : s.n a = ys.head? := h.alls.linked.next_eq
      have hxs' : ∀ c ∈ xs ++ [a], 0 ≤ ((regfd ctl .epoll a s).2.blk c).fd →
          (regfd ctl .epoll a s).2.reg c = true := by
        intro c hc hfd
        rw [hblk] at hfd
        rw [regfd_reg hok]
        rcases List.mem_append.mp hc with hc | hc
        · exact .inr (hxs c hc hfd)
        · rw [List.mem_singleton.mp hc] at hfd ⊢
          exact .inl ⟨rfl, hfd⟩
      have hys' : ∀ c ∈ ys, (regfd ctl .epoll a s).2.reg c = false := by
        intro c hc
        rw [Bool.eq_false_iff, Ne, regfd_reg hok]
        rintro (⟨rfl, -⟩ | hc')
        · have := (List.nodup_append.mp h.alls.linked.nodup).2.1
          simp [hc] at this
        · rw [hys c (List.mem_cons_of_mem a hc)] at hc'
          cases hc'
      rw [List.append_cons] at hwf ⊢
      obtain ⟨s', fl', hloop, hsame, hrest⟩ := ih hwf (hpolling.trans hp) hi' (by simpa using hfuel) hxs' hys'
      refine ⟨s', fl', ?_, (fdonly_regfd ctl .epoll a s).trans hsame, hrest⟩
      rw [List.head?_cons, regall, if_pos hok, hnext]
      exact hloop

/-- No blocker is refused at the start of `ioloop`. -/
theorem live_start (hctl : ∀ i, ctl i = true) (h : Inv s l fl) (hidle : s.polling = false) :
    ∃ s' fl', start ctl .epoll s = some s' ∧ Inv s' l fl' ∧ Live s' := by
  have hnone : ∀ fd, fl fd = [] := by
    intro fd
    rw [List.eq_nil_iff_forall_not_mem]
    exact fun a => h.wf.fds.not_mem (h.wf.idle hidle a) fd
  have hi : Interest (create s) fl := fun fd => by
    rw [hnone fd, if_pos rfl]
    rfl
  have hlen : l.length ≤ s.brk := h.wf.alls.length_le
  have hnil : Wf (create s) ([] ++ l) fl := h.create.wf
  obtain ⟨s', fl', hstart, hsame, hwf, hlive⟩ := live_regall hctl hnil rfl hi hlen nofun
    fun a _ => h.wf.idle hidle a
  rw [← h.wf.alls.head] at hstart
  obtain ⟨-, hblk, hwaiting, -⟩ := hsame.frame
  refine ⟨s', fl', hstart, ⟨hwf, ?_⟩, hlive⟩
  rw [hblk, hwaiting]
  exact h.waits

/-! ## Every run -/

/-- The states between two operations. What a thread does while `ioloop` does not run, and how
    often and when `ioloop` is entered and left, is not restricted. -/
inductive Reachable (ctl : ℕ → Bool) : State → Prop
  | init : Reachable ctl .init
  | act {s : State} (o : Act) (h : Reachable ctl s) (henabled : o.Enabled s) : Reachable ctl (o.run ctl .epoll s)
  | start {s s' : State} (h : Reachable ctl s) (hidle : s.polling = false) (hstart : start ctl .epoll s = some s') :
    Reachable ctl s'
  | finish {s : State} (h : Reachable ctl s) (hp : s.polling = true) : Reachable ctl (finish ctl .epoll s)

theorem attempt_good (hctl : ∀ i, ctl i = true) (h : Inv s l fl) (hlive : s.polling = true → Live s)
    (hth : s.waiting th = none) (hbs : ∀ b ∈ bs, b.th = th) :
    ∃ l' fl', Inv (attempt ctl .epoll th bs s).2 l' fl' ∧
      ((attempt ctl .epoll th bs s).2.polling = true → Live (attempt ctl .epoll th bs s).2) := by
  obtain ⟨hok, hlive'⟩ := live_attempt hctl h hbs hlive
  obtain ⟨bls, fl', hinv, -, -, hpolling, -⟩ := h.attempt hth hbs hok
  exact ⟨_, fl', hinv, hpolling ▸ hlive'⟩

/-- The invariant, through every run. -/
theorem reachable_inv (hctl : ∀ i, ctl i = true) (h : Reachable ctl s) :
    ∃ l fl, Inv s l fl ∧ (s.polling = true → Live s) := by
  induction h with
  | init => exact ⟨[], _, inv_init, nofun⟩
  | act o _ henabled ih =>
    obtain ⟨l, fl, hinv, hlive⟩ := ih
    cases o with
    | block th now fd ev to' =>
      rw [Act.run, block_epoll]
      exact attempt_good hctl hinv hlive henabled mkblocker_th
    | mblock th now to' spec => exact attempt_good hctl hinv hlive henabled mkblockers_th
    | wake th bls =>
      refine ⟨_, _, hinv.wake henabled, fun hp => live_wake hctl hinv henabled (hlive ?_)⟩
      rwa [Act.run, wake, (frame_remblocks ..).2.2.2] at hp
  | start _ hidle hstart ih =>
    obtain ⟨l, fl, hinv, -⟩ := ih
    obtain ⟨s', fl', hstart', hinv', hlive⟩ := live_start hctl hinv hidle
    rw [hstart, Option.some.injEq] at hstart'
    exact ⟨l, fl', hstart' ▸ hinv', fun _ => hstart' ▸ hlive⟩
  | finish _ _ ih =>
    obtain ⟨l, fl, hinv, -⟩ := ih
    obtain ⟨fl', hinv'⟩ := hinv.finish
    exact ⟨l, fl', hinv', nofun⟩

/-- A thread waits with the blocker `a`. -/
def State.Waiting (s : State) (a : ℕ) : Prop := ∃ th bls, s.waiting th = some bls ∧ a ∈ bls

/-- What is expected while `ioloop` runs. -/
structure Registered (s : State) : Prop where
  /-- `fdlist[fd]` is a list of the blockers that wait for `fd`. -/
  fdlist : ∀ fd, ∃ l, Linked s.n2 s.p2 l ∧ s.fdlist fd = l.head? ∧ ∀ a, a ∈ l ↔ s.Waiting a ∧ (s.blk a).fd = fd
  /-- The kernel waits for `fd` if there is one, -/
  registered : ∀ fd, (s.interest fd).isSome ↔ ∃ a, s.Waiting a ∧ (s.blk a).fd = fd
  /-- with the events that are in the mask of one. -/
  interest : ∀ fd evd, s.interest fd = some evd → ∀ f, evd.get f = true ↔
    ∃ a, s.Waiting a ∧ (s.blk a).fd = fd ∧ (s.blk a).ev.get f = true
  /-- The heap is in order, and has the blockers that wait with a timeout, each at its `thpos`. -/
  timeheap : Timeouts s.timeouts s.timeheap fun a => s.Waiting a ∧ 0 < (s.blk a).timeout

theorem orev_get (s : State) (ev : Events) (l : List ℕ) (f : Filter) :
    (s.orev ev l).get f = true ↔ ev.get f = true ∨ ∃ a ∈ l, (s.blk a).ev.get f = true := by
  unfold State.orev
  induction l generalizing ev with
  | nil => simp
  | cons a l ih =>
    rw [List.foldl_cons, ih]
    have hunion : (ev ∪ (s.blk a).ev).get f = true ↔ ev.get f = true ∨ (s.blk a).ev.get f = true := by
      cases f <;> simp [Events.get]
    rw [hunion, List.exists_mem_cons_iff, or_assoc]

/-- **The registration invariant** of the event loop on `epoll`, whenever `ioloop` runs. -/
theorem reachable_registered (hctl : ∀ i, ctl i = true) (h : Reachable ctl s) (hp : s.polling = true) : Registered s := by
  obtain ⟨l, fl, ⟨hwf, hwaits⟩, hlive⟩ := reachable_inv hctl h
  have hlive := hlive hp
  have hmem (fd a : ℕ) : a ∈ fl fd ↔ s.Waiting a ∧ (s.blk a).fd = fd := by
    rw [hwf.fds.mem, State.Waiting, ← hwaits.mem]
    constructor
    · exact fun ha => ⟨(hwf.reg a ha.1).1, ha.2⟩
    · exact fun ha => ⟨hwf.registered hlive ha.1 (by rw [ha.2]; omega), ha.2⟩
  have hi := hwf.interest hlive
  refine ⟨fun fd => ⟨fl fd, hwf.fds.linked fd, hwf.fds.head fd, hmem fd⟩, fun fd => ?_, fun fd evd hevd f => ?_, ?_⟩
  · simp only [← hmem, hi fd]
    cases hl : fl fd with
    | nil => simp
    | cons a l => simp
  · have hevd := (hi fd).symm.trans hevd
    split_ifs at hevd
    rw [← Option.some.inj hevd, orev_get]
    have hempty : ((∅ : Events).get f = true) = False := by
      cases f <;> simp [Events.get, EmptyCollection.emptyCollection]
    simp only [hempty, false_or, ← and_assoc, ← hmem]
  · apply hwf.alls.heap.congr
    intro a
    rw [State.Waiting, ← hwaits.mem]

/-- A thread waits for a descriptor before `ioloop` is entered, and another one for the same, and
    one more, with a timeout; then the first one is resumed. -/
theorem registered_second : ∃ s, s.polling = true ∧ s.interest 3 = some ⟨false, true⟩ ∧ s.timeheap.d = 2 ∧
    Registered s := by
  have h₁ : Reachable (fun _ => true) _ := .act (.block 1 100 3 ⟨true, false⟩ 0) .init rfl
  have h₂ : Reachable (fun _ => true) _ := .start h₁ rfl rfl
  have h₃ : Reachable (fun _ => true) _ := .act (.mblock 2 100 60 [⟨3, ⟨false, true⟩⟩, ⟨4, ⟨true, false⟩⟩]) h₂ rfl
  have h₄ : Reachable (fun _ => true) _ := .act (.wake 1 [0]) h₃ rfl
  exact ⟨_, rfl, by decide, by decide, reachable_registered (fun _ => rfl) h₄ rfl⟩

end Ashd.Mtio
