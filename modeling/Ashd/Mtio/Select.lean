import Ashd.Mtio.Threads

/-!
# The event loop on `select`

mtio-select.c. The blockers are in one list, which `ioloop` walks along while the threads that it
resumes change it; `it` keeps the blocker that comes next, and moves on when that is removed.

Main definitions:
* `addblock`, `remblock`, `mblock`, `block`.
* `Step`: what threads do, and the steps of `ioloop`.
* `Inv`: what holds between two steps.

Main results:
* `Wf.remblock`: the iterator stays in the list.
* `reachable_safe`: the blocker that is examined is there.
-/

namespace Ashd.Mtio.Select

/-- The blockers, and the static variables; the fields of a blocker that do not change are in
    `blk`. The only iterator is that of `ioloop`: `itbl` is its field `bl`, and `it` says which
    blockers point to it. -/
structure State where
  /-- The address of the next blocker. -/
  brk : ℕ
  blk : ℕ → Blocker
  n : ℕ → Option ℕ
  p : ℕ → Option ℕ
  it : ℕ → Bool
  itbl : Option ℕ
  blockers : Option ℕ
  /-- The threads that are at the `yield` of `block` or `mblock`, and their blockers. -/
  waiting : ℕ → Option (List ℕ)

def State.init : State where
  brk := 0
  blk := fun _ => ⟨-1, ∅, -1, 0, 0⟩
  n := fun _ => none
  p := fun _ => none
  it := fun _ => false
  itbl := none
  blockers := none
  waiting := fun _ => none

/-- The list `blockers`. -/
def State.all (s : State) : List ℕ := walk s.n s.brk s.blockers

/-- `if(a) a->it = v`. -/
def mark (f : ℕ → Bool) (a : Option ℕ) (v : Bool) (c : ℕ) : Bool := if a = some c then v else f c

def alloc (b : Blocker) (s : State) : State :=
  { s with
    brk := s.brk + 1
    blk := Function.update s.blk s.brk b
    n := Function.update s.n s.brk none
    p := Function.update s.p s.brk none
    it := Function.update s.it s.brk false }

/-- `addblock` (mtio-select.c:50–56). -/
def addblock (a : ℕ) (s : State) : State :=
  { s with n := Function.update s.n a s.blockers, p := poke s.p s.blockers (some a), blockers := some a }

/-- Takes `a` out of the list (mtio-select.c:60–65). -/
def unlink (a : ℕ) (s : State) : State :=
  let p := poke s.p (s.n a) (s.p a)
  let n := poke s.n (p a) (s.n a)
  { s with n, p, blockers := if s.blockers = some a then n a else s.blockers }

/-- `remblock` (mtio-select.c:58–71). -/
def remblock (a : ℕ) (s : State) : State :=
  let s := unlink a s
  if s.it a then { s with itbl := s.n a, it := Function.update (mark s.it (s.n a) true) a false } else s

/-- The first loop of `mblock`, and the blockers that it makes. -/
def addblocks : List Blocker → List ℕ → State → List ℕ × State
  | [], bls, s => (bls, s)
  | b :: bs, bls, s => addblocks bs (bls ++ [s.brk]) (addblock s.brk (alloc b s))

def remblocks (bls : List ℕ) (s : State) : State := bls.foldl (fun s a => remblock a s) s

def park (th : ℕ) (bls : List ℕ) (s : State) : State :=
  { s with waiting := Function.update s.waiting th (some bls) }

/-- `mblock` (mtio-select.c:73–90), until it yields. -/
def mblock (th : ℕ) (now to' : ℤ) (spec : List Selected) (s : State) : State :=
  let r := addblocks (mkblockers th (deadline now to') spec) [] s
  park th r.1 r.2

def FD_SETSIZE : ℤ := 1024

/-- `block` (mtio-select.c:97–117), until it yields, or else returns -1. -/
def block (th : ℕ) (now fd : ℤ) (ev : Events) (to' : ℤ) (s : State) : State :=
  if fd ≥ FD_SETSIZE then s
  else
    let r := addblocks [mkblocker th now fd ev to'] [] s
    park th r.1 r.2

/-- `resume`, of a thread that waits, which removes its blockers (mtio-select.c:91–92, 118). -/
def wake (th : ℕ) (bls : List ℕ) (s : State) : State :=
  remblocks bls { s with waiting := Function.update s.waiting th none }

/-- Who calls does not wait, and who is resumed does. -/
def Enabled (s : State) : Act → Prop
  | .block th .. | .mblock th .. => s.waiting th = none
  | .wake th bls => s.waiting th = some bls

def run (s : State) : Act → State
  | .block th now fd ev to' => block th now fd ev to' s
  | .mblock th now to' spec => mblock th now to' spec s
  | .wake th bls => wake th bls s

/-! ## `ioloop` -/

/-- Where `ioloop` is. -/
inductive Ctrl
  /-- Not in the loop over the blockers. -/
  | outside
  /-- At the start of the loop's body, or at its end. -/
  | examine (bl : Option ℕ)
  /-- In a `resume` in its body. -/
  | running

structure Loop where
  state : State
  ctrl : Ctrl

/-- `if((it.bl = bl->n) != NULL) it.bl->it = &it` (mtio-select.c:167–168). -/
def advance (bl : ℕ) (s : State) : State := { s with itbl := s.n bl, it := mark s.it (s.n bl) true }

/-- `if(it.bl) it.bl->it = NULL` (mtio-select.c:192–193). -/
def release (s : State) : State := { s with it := mark s.it s.itbl false }

/-- A thread is resumed for the blocker: `ev` is what `select` has said, and `now` the time
    (mtio-select.c:169–191). -/
def Due (ev : Option Events) (now : ℤ) (b : Blocker) : Prop :=
  ready ev b = true ∨ b.timeout ≠ 0 ∧ b.timeout ≤ now

/-- What threads do, while it is not the loop that runs, and the steps of the loop. It is not
    restricted what `select` says of which blocker. -/
inductive Step : Loop → Loop → Prop
  | outside {s : State} (o : Act) (h : Enabled s o) : Step ⟨s, .outside⟩ ⟨run s o, .outside⟩
  | running {s : State} (o : Act) (h : Enabled s o) : Step ⟨s, .running⟩ ⟨run s o, .running⟩
  | scan {s : State} : Step ⟨s, .outside⟩ ⟨{ s with itbl := s.blockers }, .examine s.blockers⟩
  | skip {s : State} {bl : ℕ} (ev : Option Events) (now : ℤ) (h : ¬ Due ev now (s.blk bl)) :
    Step ⟨s, .examine (some bl)⟩ ⟨release (advance bl s), .examine (advance bl s).itbl⟩
  | resume {s : State} {bl : ℕ} {bls : List ℕ} (ev : Option Events) (now : ℤ) (h : Due ev now (s.blk bl))
    (hwait : s.waiting (s.blk bl).th = some bls) :
    Step ⟨s, .examine (some bl)⟩ ⟨wake (s.blk bl).th bls (advance bl s), .running⟩
  | return {s : State} : Step ⟨s, .running⟩ ⟨release s, .examine s.itbl⟩
  | done {s : State} : Step ⟨s, .examine none⟩ ⟨s, .outside⟩

inductive Reachable : Loop → Prop
  | init : Reachable ⟨.init, .outside⟩
  | step {x y : Loop} (h : Reachable x) (hstep : Step x y) : Reachable y

/-! ## The list -/

variable {s : State} {a th : ℕ} {l bls : List ℕ} {m : Prop}

/-- The list is in order. If `m`, the iterator is in use: it is at a blocker in the list, or at
    the end, and no other blocker points to it. -/
structure Wf (m : Prop) (s : State) (l : List ℕ) : Prop where
  linked : Linked s.n s.p l
  head : s.blockers = l.head?
  fresh : ∀ a ∈ l, a < s.brk
  it : ∀ c, s.it c = true ↔ m ∧ s.itbl = some c
  itbl : m → ∀ c, s.itbl = some c → c ∈ l

theorem Wf.all (h : Wf m s l) : s.all = l := by
  unfold State.all
  rw [h.head]
  exact h.linked.walk_lt h.fresh

theorem Wf.alloc (h : Wf m s l) (b : Blocker) : Wf m (alloc b s) l := by
  have hnew : s.brk ∉ l := fun hmem => (h.fresh _ hmem).ne rfl
  refine ⟨?_, h.head, fun a ha => Nat.lt_succ_of_lt (h.fresh a ha), fun c => ?_, h.itbl⟩
  · apply h.linked.congr
    · exact fun c hc => Function.update_of_ne (ne_of_mem_of_not_mem hc hnew) ..
    · exact fun c hc => Function.update_of_ne (ne_of_mem_of_not_mem hc hnew) ..
  · show Function.update s.it s.brk false c = true ↔ m ∧ s.itbl = some c
    by_cases hc : c = s.brk
    · rw [hc, Function.update_self]
      constructor
      · exact nofun
      · exact fun hit => absurd (h.itbl hit.1 _ hit.2) hnew
    · rw [Function.update_of_ne hc]
      exact h.it c

theorem Wf.addblock (h : Wf m s l) (ha : a ∉ l) (hlt : a < s.brk) (hp : s.p a = none) :
    Wf m (addblock a s) (a :: l) := by
  have hlinked := linked_link h.linked ha hp
  rw [← h.head] at hlinked
  exact ⟨hlinked, rfl, List.forall_mem_cons.mpr ⟨hlt, h.fresh⟩, h.it,
    fun hm c hc => List.mem_cons_of_mem a (h.itbl hm c hc)⟩

/-- If the iterator is at the blocker that is removed, it moves on. -/
theorem Wf.remblock (h : Wf m s l) (ha : a ∈ l) : Wf m (remblock a s) (l.erase a) := by
  have hna : (unlink a s).n a = s.n a := poke_self ..
  have hlinked : Linked (unlink a s).n (unlink a s).p (l.erase a) := linked_unlink h.linked ha
  have hhead : (unlink a s).blockers = (l.erase a).head? := by
    show (if s.blockers = some a then poke s.n (poke s.p (s.n a) (s.p a) a) (s.n a) a else s.blockers) = _
    rw [poke_self, h.linked.head?_erase ha, h.head]
  have hfresh : ∀ c ∈ l.erase a, c < s.brk := fun c hc => h.fresh c (List.mem_of_mem_erase hc)
  have hit : (unlink a s).it = s.it := rfl
  unfold Select.remblock
  simp only
  rw [hit, hna]
  split_ifs with hita
  · obtain ⟨hm, hcur⟩ := (h.it a).mp hita
    have hself : s.n a ≠ some a := h.linked.next_ne ha
    refine ⟨hlinked, hhead, hfresh, fun c => ?_, fun _ c hc => ?_⟩
    · show Function.update (mark s.it (s.n a) true) a false c = true ↔ m ∧ s.n a = some c
      by_cases hca : c = a
      · rw [hca, Function.update_self]
        simp [hself]
      · rw [Function.update_of_ne hca, mark, and_iff_right hm]
        split_ifs with hnext
        · exact iff_of_true rfl hnext
        · rw [h.it c, hcur]
          simp [hnext, Ne.symm hca]
    · have hc : s.n a = some c := hc
      rw [h.linked.nodup.mem_erase_iff]
      refine ⟨?_, h.linked.next_mem ha hc⟩
      rintro rfl
      exact hself hc
  · refine ⟨hlinked, hhead, hfresh, h.it, fun hm c hc => ?_⟩
    rw [h.linked.nodup.mem_erase_iff]
    refine ⟨?_, h.itbl hm c hc⟩
    rintro rfl
    exact hita ((h.it c).mpr ⟨hm, hc⟩)

theorem Wf.remblocks (h : Wf m s l) (hnodup : bls.Nodup) (hmem : ∀ a ∈ bls, a ∈ l) :
    Wf m (remblocks bls s) (l.diff bls) := by
  induction bls generalizing s l with
  | nil => exact h
  | cons a bls ih =>
    obtain ⟨ha, hnodup⟩ := List.nodup_cons.mp hnodup
    rw [List.diff_cons]
    apply ih (h.remblock (hmem a List.mem_cons_self)) hnodup
    exact fun c hc => (List.mem_erase_of_ne (ne_of_mem_of_not_mem hc ha)).mpr (hmem c (List.mem_cons_of_mem a hc))

/-! ## The threads -/

/-- Blockers of `th` have been made and added, in this order, to the list `l` of `s₀`. -/
structure Added (m : Prop) (th : ℕ) (s₀ : State) (l bls : List ℕ) (s : State) : Prop where
  wf : Wf m s (bls.reverse ++ l)
  own : ∀ a ∈ bls, (s.blk a).th = th
  brk : s₀.brk ≤ s.brk
  blk : ∀ a < s₀.brk, s.blk a = s₀.blk a
  waiting : s.waiting = s₀.waiting

theorem Added.addblock {s₀ : State} (h : Added m th s₀ l bls s) {b : Blocker} (hb : b.th = th) :
    Added m th s₀ l (bls ++ [s.brk]) (addblock s.brk (alloc b s)) := by
  have hnew : s.brk ∉ bls.reverse ++ l := fun hmem => (h.wf.fresh _ hmem).ne rfl
  have hblk (a : ℕ) (ha : a < s.brk) : (alloc b s).blk a = s.blk a := Function.update_of_ne ha.ne ..
  refine ⟨?_, fun a ha => ?_, Nat.le_succ_of_le h.brk, fun a ha => ?_, h.waiting⟩
  · rw [List.reverse_append]
    exact (h.wf.alloc b).addblock hnew (Nat.lt_succ_self _) (Function.update_self ..)
  · show ((alloc b s).blk a).th = th
    rcases List.mem_append.mp ha with ha | ha
    · rw [hblk a (h.wf.fresh a (by simp [ha]))]
      exact h.own a ha
    · rw [List.mem_singleton.mp ha, show (alloc b s).blk s.brk = b from Function.update_self ..]
      exact hb
  · exact (hblk a (ha.trans_le h.brk)).trans (h.blk a ha)

theorem Added.addblocks {s₀ : State} (bs : List Blocker) (h : Added m th s₀ l bls s) (hbs : ∀ b ∈ bs, b.th = th) :
    Added m th s₀ l (addblocks bs bls s).1 (addblocks bs bls s).2 := by
  induction bs generalizing bls s with
  | nil => exact h
  | cons b bs ih =>
    rw [Select.addblocks]
    exact ih (h.addblock (hbs b List.mem_cons_self)) fun c hc => hbs c (List.mem_cons_of_mem b hc)

/-- The list is in order, and has the blockers of the threads that wait. -/
structure Inv (m : Prop) (s : State) (l : List ℕ) : Prop where
  wf : Wf m s l
  waits : Waits s.waiting s.blk l

theorem Inv.add (h : Inv m s l) (hth : s.waiting th = none) {bs : List Blocker} (hbs : ∀ b ∈ bs, b.th = th) :
    ∃ l', Inv m (park th (addblocks bs [] s).1 (addblocks bs [] s).2) l' := by
  have hadded : Added m th s l [] s := ⟨h.wf, nofun, le_rfl, fun _ _ => rfl, rfl⟩
  have hadded := hadded.addblocks bs hbs
  refine ⟨_, { hadded.wf with }, ?_⟩
  have hwaits := h.waits.congr fun a ha => hadded.blk a (h.wf.fresh a ha)
  rw [← hadded.waiting] at hwaits
  apply hwaits.park
  · rw [hadded.waiting, hth]
  · exact List.nodup_reverse.mp (List.nodup_append.mp hadded.wf.linked.nodup).1
  · exact hadded.own

theorem remblocks_same (bls : List ℕ) (s : State) :
    (remblocks bls s).blk = s.blk ∧ (remblocks bls s).waiting = s.waiting := by
  have hstep (a : ℕ) (s : State) : (remblock a s).blk = s.blk ∧ (remblock a s).waiting = s.waiting := by
    unfold remblock
    simp only
    split_ifs <;> exact ⟨rfl, rfl⟩
  unfold remblocks
  induction bls generalizing s with
  | nil => exact ⟨rfl, rfl⟩
  | cons a bls ih => exact ⟨(ih _).1.trans (hstep a s).1, (ih _).2.trans (hstep a s).2⟩

theorem Inv.wake (h : Inv m s l) (hth : s.waiting th = some bls) : Inv m (wake th bls s) (l.diff bls) := by
  obtain ⟨hblk, hwaiting⟩ := remblocks_same bls { s with waiting := Function.update s.waiting th none }
  have hwf : Wf m { s with waiting := Function.update s.waiting th none } l := { h.wf with }
  refine ⟨hwf.remblocks (h.waits.nodup th bls hth) fun a ha => (h.waits.mem a).mpr ⟨th, bls, hth, ha⟩, ?_⟩
  unfold Select.wake
  rw [hblk, hwaiting]
  exact h.waits.wake h.wf.linked.nodup hth

/-- Whatever a thread does, while it runs. -/
theorem Inv.run (h : Inv m s l) {o : Act} (henabled : Enabled s o) : ∃ l', Inv m (run s o) l' := by
  cases o with
  | block th now fd ev to' =>
    rw [Select.run, block]
    split_ifs
    · exact ⟨l, h⟩
    · exact h.add henabled mkblocker_th
  | mblock th now to' spec => exact h.add henabled mkblockers_th
  | wake th bls => exact ⟨_, h.wake henabled⟩

/-! ## Every run -/

theorem Inv.advance (h : Inv False s l) (ha : a ∈ l) : Inv True (advance a s) l where
  wf :=
    { linked := h.wf.linked
      head := h.wf.head
      fresh := h.wf.fresh
      it := fun c => by
        show mark s.it (s.n a) true c = true ↔ True ∧ s.n a = some c
        rw [mark, true_and]
        split_ifs with hc
        · exact iff_of_true rfl hc
        · exact iff_of_false (fun hit => ((h.wf.it c).mp hit).1) hc
      itbl := fun _ c hc => h.wf.linked.next_mem ha hc }
  waits := h.waits

theorem Inv.release (h : Inv True s l) : Inv False (release s) l where
  wf :=
    { linked := h.wf.linked
      head := h.wf.head
      fresh := h.wf.fresh
      it := fun c => by
        show mark s.it s.itbl false c = true ↔ False ∧ s.itbl = some c
        rw [mark, false_and]
        split_ifs with hc
        · simp
        · exact iff_of_false (fun hit => hc ((h.wf.it c).mp hit).2) id
      itbl := False.elim }
  waits := h.waits

/-- What holds between two steps: the iterator is in use while a thread runs. -/
def Loop.Inv (x : Loop) (l : List ℕ) : Prop :=
  match x.ctrl with
  | .outside => Select.Inv False x.state l
  | .examine bl => Select.Inv False x.state l ∧ ∀ c, bl = some c → c ∈ l
  | .running => Select.Inv True x.state l

theorem step_inv {x y : Loop} (h : Loop.Inv x l) (hstep : Step x y) : ∃ l', Loop.Inv y l' := by
  cases hstep with
  | outside o henabled => exact Inv.run h henabled
  | running o henabled => exact Inv.run h henabled
  | scan =>
    have h : Inv False _ l := h
    refine ⟨l, ⟨{ h.wf with it := fun c => ?_, itbl := False.elim }, h.waits⟩, fun c hc => ?_⟩
    · exact ⟨fun hit => absurd ((h.wf.it c).mp hit).1 id, fun hno => hno.1.elim⟩
    · rw [h.wf.head] at hc
      exact List.mem_of_head? hc
  | skip ev now hdue =>
    obtain ⟨hinv, hmem⟩ : Inv False _ l ∧ _ := h
    have hinv := hinv.advance (hmem _ rfl)
    exact ⟨l, hinv.release, hinv.wf.itbl trivial⟩
  | resume ev now hdue hwait =>
    obtain ⟨hinv, hmem⟩ : Inv False _ l ∧ _ := h
    exact ⟨_, (hinv.advance (hmem _ rfl)).wake hwait⟩
  | «return» =>
    have h : Inv True _ l := h
    exact ⟨l, h.release, h.wf.itbl trivial⟩
  | done => exact ⟨l, h.1⟩

theorem reachable_inv {x : Loop} (h : Reachable x) : ∃ l, Loop.Inv x l := by
  induction h with
  | init =>
    refine ⟨[], ⟨linked_nil, rfl, nofun, fun c => ?_, False.elim⟩, ⟨fun a => ?_, nofun, nofun⟩⟩
    · simp [State.init]
    · simp [State.init]
  | step _ hstep ih =>
    obtain ⟨l, hinv⟩ := ih
    exact step_inv hinv hstep

/-- `bl` is a blocker of a thread that waits. -/
def State.Parked (s : State) (bl : ℕ) : Prop := ∃ bls, s.waiting (s.blk bl).th = some bls ∧ bl ∈ bls

/-- The blocker that is examined is in the list, and its thread waits. -/
def Loop.Safe (x : Loop) : Prop := ∀ bl, x.ctrl = .examine (some bl) → bl ∈ x.state.all ∧ x.state.Parked bl

end Ashd.Mtio.Select
