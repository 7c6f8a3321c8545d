import Ashd.Mtio.Lists

/-!
# The threads that wait

What `block` and `mblock` do before and after `yield`, as a whole: all the blockers of a thread
are there while it waits, and none is when it does not.

Main definition:
* `Inv`: the lists and the heap are in order, and have the blockers of the threads that wait.

Main results:
* `Inv.attempt`, `Inv.attempt_false`: `mblock`, when it yields and when it does not.
* `Inv.wake`: the thread is resumed.
-/

namespace Ashd.Mtio

variable {ctl : ℕ → Bool} {be : Backend} {s s' : State} {a fd : ℕ} {l : List ℕ} {fl : ℕ → List ℕ}

/-! ## The blockers of a thread -/

/-- Blockers of `th` have been made and added, in this order, to the lists `l` and `fl` of `s₀`. -/
structure Added (th : ℕ) (s₀ : State) (l : List ℕ) (fl : ℕ → List ℕ) (bls : List ℕ) (s : State)
    (fl' : ℕ → List ℕ) : Prop where
  wf : Wf s (bls.reverse ++ l) fl'
  undo : ∀ fd, (fl' fd).diff bls.reverse = fl fd
  own : ∀ a ∈ bls, (s.blk a).th = th
  brk : s₀.brk ≤ s.brk
  blk : ∀ a < s₀.brk, s.blk a = s₀.blk a
  waiting : s.waiting = s₀.waiting
  polling : s.polling = s₀.polling

variable {th : ℕ} {s₀ : State} {bls : List ℕ} {fl' : ℕ → List ℕ}

theorem Wf.added (h : Wf s l fl) (th : ℕ) : Added th s l fl [] s fl :=
  ⟨h, fun _ => rfl, nofun, le_rfl, fun _ _ => rfl, rfl, rfl⟩

theorem alloc_blk (b : Blocker) (s : State) : (alloc b s).blk s.brk = b := Function.update_self ..

theorem alloc_blk_of_lt (b : Blocker) {s : State} (ha : a < s.brk) : (alloc b s).blk a = s.blk a :=
  Function.update_of_ne ha.ne ..

/-- One more is made, and is not added. -/
theorem Added.alloc (h : Added th s₀ l fl bls s fl') (b : Blocker) : Added th s₀ l fl bls (alloc b s) fl' where
  wf := h.wf.alloc b
  undo := h.undo
  own := fun a ha => by
    rw [alloc_blk_of_lt b (h.wf.alls.fresh a (by simp [ha]))]
    exact h.own a ha
  brk := Nat.le_succ_of_le h.brk
  blk := fun a ha => (alloc_blk_of_lt b (ha.trans_le h.brk)).trans (h.blk a ha)
  waiting := h.waiting
  polling := h.polling

theorem Added.told (h : Added th s₀ l fl bls s fl') (ht : Told s s') : Added th s₀ l fl bls s' fl' := by
  have hwf := h.wf.told ht
  obtain ⟨_, _, _, rfl⟩ := ht
  exact { h with wf := hwf }

/-- One more is made and added. -/
theorem Added.addblock (h : Added th s₀ l fl bls s fl') {b : Blocker} (hb : b.th = th)
    (hok : (addblock ctl be s.brk (Mtio.alloc b s)).1 = true) :
    Added th s₀ l fl (bls ++ [s.brk]) (addblock ctl be s.brk (Mtio.alloc b s)).2
      (addfd (Mtio.alloc b s) s.brk fl') := by
  have hnew : s.brk ∉ bls.reverse ++ l := fun hmem => (h.wf.alls.fresh _ hmem).ne rfl
  obtain ⟨hbrk, hblk, hwaiting, hpolling⟩ := frame_addblock ctl be s.brk (Mtio.alloc b s)
  have hwf := (h.alloc b).wf.addblock hnew (Nat.lt_succ_self _) (Function.update_self ..) hok
  refine ⟨?_, fun fd => ?_, fun a ha => ?_, ?_, fun a ha => ?_, ?_, ?_⟩
  · rw [List.reverse_append]
    exact hwf
  · have herase : (addfd (Mtio.alloc b s) s.brk fl' fd).erase s.brk = fl' fd := by
      have hnot := (h.alloc b).wf.fds.not_mem ((h.alloc b).wf.not_reg hnew) fd
      unfold addfd
      split_ifs
      · exact erase_pushfd _ _ _ _ hnot
      · exact List.erase_of_not_mem hnot
    rw [List.reverse_append, List.reverse_singleton, List.singleton_append, List.diff_cons, herase]
    exact h.undo fd
  · rw [hblk]
    rcases List.mem_append.mp ha with ha | ha
    · exact (h.alloc b).own a ha
    · rw [List.mem_singleton.mp ha, alloc_blk]
      exact hb
  · rw [hbrk]
    exact (h.alloc b).brk
  · rw [hblk]
    exact (h.alloc b).blk a ha
  · rw [hwaiting]
    exact h.waiting
  · rw [hpolling]
    exact h.polling

/-- The first loop of `mblock`. -/
theorem Added.addblocks (ctl : ℕ → Bool) (be : Backend) (bs : List Blocker) (h : Added th s₀ l fl bls s fl') (hbs : ∀ b ∈ bs, b.th = th) :
    ∃ fl'', Added th s₀ l fl (addblocks ctl be bs bls s).2.1 (addblocks ctl be bs bls s).2.2 fl'' := by
  induction bs generalizing bls s fl' with
  | nil => exact ⟨fl', h⟩
  | cons b bs ih =>
    rw [Mtio.addblocks]
    split_ifs with hok
    · exact ih (h.addblock (hbs b List.mem_cons_self) hok) fun c hc => hbs c (List.mem_cons_of_mem b hc)
    · exact ⟨fl', (h.alloc b).told (addblock_told (Bool.eq_false_iff.mpr hok))⟩

/-- All are added, or else the loop ends early. -/
theorem addblocks_length (bs : List Blocker) (bls : List ℕ) (s : State)
    (hok : (addblocks ctl be bs bls s).1 = true) :
    (addblocks ctl be bs bls s).2.1.length = bls.length + bs.length := by
  induction bs generalizing bls s with
  | nil => rfl
  | cons b bs ih =>
    rw [addblocks] at hok ⊢
    split_ifs at hok ⊢
    rw [ih _ _ hok, List.length_append, List.length_singleton, List.length_cons]
    omega

theorem diff_append_left (xs l : List ℕ) : (xs ++ l).diff xs = l := by
  induction xs with
  | nil => rfl
  | cons x xs ih => rw [List.cons_append, List.diff_cons, List.erase_cons_head, ih]

/-- The second one, if it is run. -/
theorem Added.remblocks (h : Added th s₀ l fl bls s fl') : Wf (remblocks ctl be bls.reverse s) l fl := by
  have hnodup := (List.nodup_append.mp h.wf.alls.linked.nodup).1
  have := h.wf.remblocks ctl be hnodup fun a ha => List.mem_append_left l ha
  rwa [diff_append_left, funext h.undo] at this

/-! ## The threads -/

/-- The blockers in `l` are those of the threads that wait. -/
structure Waits (waiting : ℕ → Option (List ℕ)) (blk : ℕ → Blocker) (l : List ℕ) : Prop where
  mem : ∀ a, a ∈ l ↔ ∃ th bls, waiting th = some bls ∧ a ∈ bls
  nodup : ∀ th bls, waiting th = some bls → bls.Nodup
  own : ∀ th bls a, waiting th = some bls → a ∈ bls → (blk a).th = th

section Waits

variable {waiting : ℕ → Option (List ℕ)} {blk blk' : ℕ → Blocker}

/-- Only blockers that no thread waits with are made. -/
theorem Waits.congr (h : Waits waiting blk l) (hb : ∀ a ∈ l, blk' a = blk a) : Waits waiting blk' l where
  mem := h.mem
  nodup := h.nodup
  own := fun th bls a hth ha => by
    rw [hb a ((h.mem a).mpr ⟨th, bls, hth, ha⟩)]
    exact h.own th bls a hth ha

/-- A blocker in the list is one of the thread that it names. -/
theorem Waits.parked (h : Waits waiting blk l) (ha : a ∈ l) : ∃ bls, waiting (blk a).th = some bls ∧ a ∈ bls := by
  obtain ⟨th, bls, hth, ha⟩ := (h.mem a).mp ha
  exact ⟨bls, (h.own th bls a hth ha).symm ▸ hth, ha⟩

/-- A thread begins to wait. -/
theorem Waits.park (h : Waits waiting blk l) (hth : waiting th = none) (hnodup : bls.Nodup)
    (hown : ∀ a ∈ bls, (blk a).th = th) :
    Waits (Function.update waiting th (some bls)) blk (bls.reverse ++ l) := by
  have hupd (th' : ℕ) (bls' : List ℕ) (hbls' : Function.update waiting th (some bls) th' = some bls') :
      th' = th ∧ bls' = bls ∨ waiting th' = some bls' := by
    by_cases heq : th' = th
    · rw [heq, Function.update_self, Option.some.injEq] at hbls'
      exact .inl ⟨heq, hbls'.symm⟩
    · rw [Function.update_of_ne heq] at hbls'
      exact .inr hbls'
  refine ⟨fun a => ?_, fun th' bls' hbls' => ?_, fun th' bls' a hbls' ha => ?_⟩
  · rw [List.mem_append, List.mem_reverse]
    constructor
    · rintro (ha | ha)
      · exact ⟨th, bls, Function.update_self .., ha⟩
      · obtain ⟨th', bls', hth', ha⟩ := (h.mem a).mp ha
        refine ⟨th', bls', ?_, ha⟩
        rw [Function.update_of_ne, hth']
        rintro rfl
        rw [hth] at hth'
        cases hth'
    · rintro ⟨th', bls', hbls', ha⟩
      rcases hupd th' bls' hbls' with ⟨-, rfl⟩ | hold
      · exact .inl ha
      · exact .inr ((h.mem a).mpr ⟨th', bls', hold, ha⟩)
  · rcases hupd th' bls' hbls' with ⟨-, rfl⟩ | hold
    · exact hnodup
    · exact h.nodup th' bls' hold
  · rcases hupd th' bls' hbls' with ⟨rfl, rfl⟩ | hold
    · exact hown a ha
    · exact h.own th' bls' a hold ha

/-- A thread no longer waits. -/
theorem Waits.wake (h : Waits waiting blk l) (hl : l.Nodup) (hth : waiting th = some bls) :
    Waits (Function.update waiting th none) blk (l.diff bls) := by
  have hupd (th' : ℕ) (bls' : List ℕ) : Function.update waiting th none th' = some bls' ↔
      th' ≠ th ∧ waiting th' = some bls' := by
    by_cases heq : th' = th
    · simp [heq]
    · simp [heq]
  refine ⟨fun a => ?_, fun th' bls' hbls' => ?_, fun th' bls' a hbls' ha => ?_⟩
  · rw [hl.mem_sdiff_iff, h.mem]
    constructor
    · rintro ⟨⟨th', bls', hbls', ha⟩, hnot⟩
      refine ⟨th', bls', (hupd th' bls').mpr ⟨?_, hbls'⟩, ha⟩
      rintro rfl
      rw [hth, Option.some.injEq] at hbls'
      exact hnot (hbls' ▸ ha)
    · rintro ⟨th', bls', hbls', ha⟩
      obtain ⟨hne, hbls'⟩ := (hupd th' bls').mp hbls'
      refine ⟨⟨th', bls', hbls', ha⟩, fun hmem => hne ?_⟩
      rw [← h.own th' bls' a hbls' ha, h.own th bls a hth hmem]
  · exact h.nodup th' bls' ((hupd th' bls').mp hbls').2
  · exact h.own th' bls' a ((hupd th' bls').mp hbls').2 ha

end Waits

/-- The lists and the heap are in order, and have the blockers of the threads that wait. -/
structure Inv (s : State) (l : List ℕ) (fl : ℕ → List ℕ) : Prop where
  wf : Wf s l fl
  waits : Waits s.waiting s.blk l

theorem inv_init : Inv .init [] fun _ => [] where
  wf :=
    { alls := ⟨linked_nil, rfl, nofun, ⟨⟨nofun, nofun⟩, nofun⟩⟩
      fds := ⟨fun _ => linked_nil, fun _ => rfl, fun fd a => by simp [State.init], nofun⟩
      reg := nofun
      idle := fun _ _ => rfl }
  waits := ⟨fun a => by simp [State.init], nofun, nofun⟩

/-- `mblock`, and `block` where it minds whether `addblock` succeeds. -/
def attempt (ctl : ℕ → Bool) (be : Backend) (th : ℕ) (bs : List Blocker) (s : State) : Bool × State :=
  let r := addblocks ctl be bs [] s
  if r.1 then (true, park th r.2.1 r.2.2) else (false, remblocks ctl be r.2.1.reverse r.2.2)

/-- The blocker that `block` makes. -/
def mkblocker (th : ℕ) (now fd : ℤ) (ev : Events) (to' : ℤ) : Blocker :=
  { fd, ev, id := -1, timeout := deadline now to', th }

theorem attempt_singleton (ctl : ℕ → Bool) (be : Backend) (th : ℕ) (b : Blocker) (s : State) :
    attempt ctl be th [b] s = if (addblock ctl be s.brk (alloc b s)).1 = true
      then (true, park th [s.brk] (addblock ctl be s.brk (alloc b s)).2)
      else (false, (addblock ctl be s.brk (alloc b s)).2) := by
  unfold attempt
  rw [addblocks]
  split_ifs with hok
  · rfl
  · simp [remblocks]

theorem block_epoll (ctl : ℕ → Bool) (th : ℕ) (now fd : ℤ) (ev : Events) (to' : ℤ) (s : State) :
    block ctl .epoll th now fd ev to' s = attempt ctl .epoll th [mkblocker th now fd ev to'] s :=
  (attempt_singleton ..).symm

theorem mkblocker_th {now fd to' : ℤ} {ev : Events} : ∀ b ∈ [mkblocker th now fd ev to'], b.th = th := by
  simp [mkblocker]

theorem mkblockers_th {timeout : ℤ} {spec : List Selected} : ∀ b ∈ mkblockers th timeout spec, b.th = th := by
  intro b hb
  obtain ⟨i, hi, rfl⟩ := List.mem_mapIdx.mp hb
  rfl

variable {bs : List Blocker}

theorem Wf.setwaiting (h : Wf s l fl) (waiting : ℕ → Option (List ℕ)) : Wf { s with waiting } l fl := { h with
  alls := { h.alls with }
  fds := { h.fds with } }

/-- All of the blockers are added, and the thread waits. -/
theorem Inv.attempt (h : Inv s l fl) (hth : s.waiting th = none) (hbs : ∀ b ∈ bs, b.th = th)
    (hok : (attempt ctl be th bs s).1 = true) :
    ∃ bls fl', Inv (attempt ctl be th bs s).2 (bls.reverse ++ l) fl' ∧
      (Mtio.attempt ctl be th bs s).2.waiting th = some bls ∧ bls.length = bs.length ∧
      (Mtio.attempt ctl be th bs s).2.polling = s.polling ∧ ∀ fd, ∀ a ∈ fl fd, a ∈ fl' fd := by
  unfold Mtio.attempt at hok ⊢
  simp only at hok ⊢
  obtain ⟨fl', hadded⟩ := (h.wf.added th).addblocks ctl be bs hbs
  split_ifs at hok ⊢ with hadd
  refine ⟨_, fl', ⟨hadded.wf.setwaiting _, ?_⟩, Function.update_self .., ?_, hadded.polling, fun fd a ha => ?_⟩
  · have hwaits := h.waits.congr fun a ha => hadded.blk a (h.wf.alls.fresh a ha)
    rw [← hadded.waiting] at hwaits
    apply hwaits.park
    · rw [hadded.waiting, hth]
    · exact List.nodup_reverse.mp (List.nodup_append.mp hadded.wf.alls.linked.nodup).1
    · exact hadded.own
  · rw [addblocks_length bs [] s hadd, List.length_nil, Nat.zero_add]
  · rw [← hadded.undo fd] at ha
    exact List.diff_subset _ _ ha

/-- The blockers that there are stay as they are. -/
theorem addblocks_blk (ctl : ℕ → Bool) (be : Backend) (bs : List Blocker) (bls : List ℕ) (s : State) (ha : a < s.brk) :
    (addblocks ctl be bs bls s).2.2.blk a = s.blk a := by
  induction bs generalizing bls s with
  | nil => rfl
  | cons b bs ih =>
    obtain ⟨hbrk, hblk, -⟩ := frame_addblock ctl be s.brk (alloc b s)
    have hold : (addblock ctl be s.brk (alloc b s)).2.blk a = s.blk a := by
      rw [hblk]
      exact alloc_blk_of_lt b ha
    rw [addblocks]
    split_ifs
    · rw [← hold]
      apply ih
      rw [hbrk]
      exact Nat.lt_succ_of_lt ha
    · exact hold

theorem attempt_blk (ctl : ℕ → Bool) (be : Backend) (th : ℕ) (bs : List Blocker) (s : State) (ha : a < s.brk) :
    (attempt ctl be th bs s).2.blk a = s.blk a := by
  unfold attempt
  simp only
  split_ifs
  · exact addblocks_blk ctl be bs [] s ha
  · rw [(frame_remblocks ..).2.1]
    exact addblocks_blk ctl be bs [] s ha

/-- One is refused, and all is as it was. -/
theorem Inv.attempt_false (h : Inv s l fl) (hbs : ∀ b ∈ bs, b.th = th)
    (hok : (Mtio.attempt ctl be th bs s).1 = false) : Inv (Mtio.attempt ctl be th bs s).2 l fl := by
  have hblk := h.waits.congr fun a ha => attempt_blk ctl be th bs s (h.wf.alls.fresh a ha)
  unfold Mtio.attempt at hok hblk ⊢
  simp only at hok hblk ⊢
  obtain ⟨fl', hadded⟩ := (h.wf.added th).addblocks ctl be bs hbs
  split_ifs at hok hblk ⊢ with hadd
  refine ⟨hadded.remblocks, ?_⟩
  rw [(frame_remblocks ..).2.2.1, hadded.waiting]
  exact hblk

/-- What the first part of `block` and `mblock` leads to, where it minds what `addblock` returns. -/
theorem attempt_inv (ctl : ℕ → Bool) (be : Backend) (bs : List Blocker) (h : Inv s l fl) (hth : s.waiting th = none) (hbs : ∀ b ∈ bs, b.th = th) :
    ∃ l' fl', Inv (attempt ctl be th bs s).2 l' fl' ∧ ∀ fd, ∀ a ∈ fl fd, a ∈ fl' fd := by
  cases hok : (attempt ctl be th bs s).1 with
  | false => exact ⟨l, fl, h.attempt_false hbs hok, fun _ _ ha => ha⟩
  | true =>
    obtain ⟨bls, fl', hinv, -, -, -, hmem⟩ := h.attempt hth hbs hok
    exact ⟨_, fl', hinv, hmem⟩

/-- A thread that waits is resumed. -/
theorem Inv.wake (h : Inv s l fl) (hth : s.waiting th = some bls) :
    Inv (wake ctl be th bls s) (l.diff bls) fun fd => (fl fd).diff bls := by
  obtain ⟨-, hblk, hwaiting, -⟩ := frame_remblocks ctl be bls { s with waiting := Function.update s.waiting th none }
  refine ⟨(h.wf.setwaiting _).remblocks ctl be (h.waits.nodup th bls hth) fun a ha => (h.waits.mem a).mpr ⟨th, bls, hth, ha⟩, ?_⟩
  unfold Mtio.wake
  rw [hblk, hwaiting]
  exact h.waits.wake h.wf.alls.linked.nodup hth

/-! ## The ends of `ioloop` -/

theorem Fdonly.trans {s'' : State} (h : Fdonly s s') (h' : Fdonly s' s'') : Fdonly s s'' := by
  obtain ⟨_, _, _, _, _, _, _, rfl⟩ := h
  obtain ⟨_, _, _, _, _, _, _, rfl⟩ := h'
  exact ⟨_, _, _, _, _, _, _, rfl⟩

theorem Inv.create (h : Inv s l fl) : Inv (create s) l fl where
  wf :=
    { alls := { h.wf.alls with }
      fds := { h.wf.fds with }
      reg := h.wf.reg
      idle := nofun }
  waits := h.waits

/-- A blocker is registered, or refused. -/
theorem Inv.regfd (h : Inv s l fl) (ha : a ∈ l) (hreg : s.reg a = false) (hp : s.polling = true) :
    ∃ fl', Inv (regfd ctl be a s).2 l fl' := by
  obtain ⟨-, hblk, hwaiting, -⟩ := (fdonly_regfd ctl be a s).frame
  have hwaits : Waits (Mtio.regfd ctl be a s).2.waiting (Mtio.regfd ctl be a s).2.blk l := by
    rw [hblk, hwaiting]
    exact h.waits
  cases hok : (Mtio.regfd ctl be a s).1 with
  | false =>
    refine ⟨fl, ?_, hwaits⟩
    rcases regfd_cases ctl be a s with ⟨-, heq⟩ | ⟨-, hyes, -⟩ | ⟨-, -, htold⟩
    · rw [heq]
      exact h.wf
    · rw [hok] at hyes
      cases hyes
    · exact h.wf.told htold
  | true => exact ⟨_, h.wf.regfd ha hreg hp hok, hwaits⟩

/-- The loop at the end of `ioloop`; `xs` is behind it. -/
theorem Wf.remall (ctl : ℕ → Bool) (be : Backend) {fuel : ℕ} {xs ys : List ℕ} (h : Wf s (xs ++ ys) fl) (hfuel : ys.length ≤ fuel)
    (hxs : ∀ a ∈ xs, s.reg a = false) :
    Fdonly s (remall ctl be fuel ys.head? s) ∧ ∃ fl', Wf (remall ctl be fuel ys.head? s) (xs ++ ys) fl' ∧
      ∀ a ∈ xs ++ ys, (Mtio.remall ctl be fuel ys.head? s).reg a = false := by
  induction ys generalizing xs s fl fuel with
  | nil =>
    have hnone : Mtio.remall ctl be fuel ([] : List ℕ).head? s = s := by
      cases fuel <;> rfl
    rw [hnone]
    refine ⟨⟨_, _, _, _, _, _, _, rfl⟩, fl, h, fun a ha => hxs a ?_⟩
    rwa [List.append_nil] at ha
  | cons a ys ih =>
    cases fuel with
    | zero => simp at hfuel
    | succ fuel =>
      have hwf := h.remfd ctl be a
      have hxs' : ∀ c ∈ xs ++ [a], (Mtio.remfd ctl be a s).reg c = false := by
        intro c hc
        rw [Bool.eq_false_iff]
        intro hreg
        obtain ⟨hca, hreg⟩ := (remfd_reg ctl be a s c).mp hreg
        rcases List.mem_append.mp hc with hc | hc
        · rw [hxs c hc] at hreg
          cases hreg
        · exact hca (List.mem_singleton.mp hc)
      have hfuel : ys.length ≤ fuel := by simpa using hfuel
      rw [List.append_cons] at hwf ⊢
      obtain ⟨hsame, hrest⟩ := ih hwf hfuel hxs'
      have hnext : (Mtio.remfd ctl be a s).n a = ys.head? := by
        have hlinked := hwf.alls.linked
        rw [← List.append_cons] at hlinked
        exact hlinked.next_eq
      rw [List.head?_cons, Mtio.remall, hnext]
      exact ⟨(fdonly_remfd ctl be a s).trans hsame, hrest⟩

/-- After `ioloop`, no blocker is registered. -/
theorem Inv.finish (h : Inv s l fl) : ∃ fl', Inv (finish ctl be s) l fl' := by
  have hlen := h.wf.alls.length_le
  have hnil : Wf s ([] ++ l) fl := h.wf
  obtain ⟨hsame, fl', hwf, hnone⟩ := hnil.remall ctl be hlen nofun
  rw [← h.wf.alls.head] at hsame hwf hnone
  obtain ⟨-, hblk, hwaiting, -⟩ := hsame.frame
  refine ⟨fl', ⟨{ hwf.alls with }, { hwf.fds with }, hwf.reg, fun _ a => ?_⟩, ?_⟩
  · rw [Bool.eq_false_iff]
    intro hreg
    have := hnone a (hwf.reg a hreg).1
    rw [show (remall ctl be s.brk s.blockers s).reg a = true from hreg] at this
    cases this
  · show Waits (remall ctl be s.brk s.blockers s).waiting (remall ctl be s.brk s.blockers s).blk l
    rw [hblk, hwaiting]
    exact h.waits

end Ashd.Mtio
