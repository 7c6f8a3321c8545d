import Ashd.Common.Dlist
import Ashd.Mtio.Timeheap

/-!
# The event loops on `epoll` and on `kqueue`

`block` and `mblock` of mtio-epoll.c and mtio-kqueue.c, the registration of blockers, and the
ends of `ioloop`. A blocker is at an address of its own; what is assigned to its fields once it
is made is kept field by field. The kernel takes or refuses each call as it likes, apart from
those that it cannot take: `ctl i` is what it does with the `i`th call.

The two files differ in `regfd`, `remfd` and `block`; everything else is written once. Memory is
always there. `rev` and `exitstatus`, which tell a resumed thread and the daemon what happened,
are left out.

Main definitions:
* `Epoll.regfd`, `Epoll.remfd`, `Kqueue.regfd`, `Kqueue.remfd`.
* `addblock`, `remblock`.
* `mblock`, `block`: the two parts of each, before and after `yield`.
* `Act`: what a thread does to the blockers.
-/

namespace Ashd.Mtio

/-- A set of `EV_READ` and `EV_WRITE`. -/
structure Events where
  read : Bool
  write : Bool
deriving DecidableEq

instance : EmptyCollection Events := ⟨⟨false, false⟩⟩

instance : Union Events := ⟨fun a b => ⟨a.read || b.read, a.write || b.write⟩⟩

@[simp] theorem events_empty_union (e : Events) : ∅ ∪ e = e := by
  cases e
  rfl

@[simp] theorem events_union_read (a b : Events) : (a ∪ b).read = (a.read || b.read) := rfl

@[simp] theorem events_union_write (a b : Events) : (a ∪ b).write = (a.write || b.write) := rfl

/-- `EVFILT_READ` and `EVFILT_WRITE`. -/
inductive Filter
  | read
  | write
deriving DecidableEq

def Events.get (e : Events) : Filter → Bool
  | .read => e.read
  | .write => e.write

def Events.set (e : Events) (on : Bool) : Filter → Events
  | .read => { e with read := on }
  | .write => { e with write := on }

/-- The fields of `struct blocker` that do not change; `timeout` is `to`. -/
structure Blocker where
  fd : ℤ
  ev : Events
  id : ℤ
  timeout : ℤ
  th : ℕ

/-- The static variables, the blockers, and what the kernel has been told. The entries of
    `fdlist` that there is no room for yet are null, as they are when there is. -/
structure State where
  /-- The address of the next blocker. -/
  brk : ℕ
  blk : ℕ → Blocker
  n : ℕ → Option ℕ
  p : ℕ → Option ℕ
  n2 : ℕ → Option ℕ
  p2 : ℕ → Option ℕ
  reg : ℕ → Bool
  blockers : Option ℕ
  fdlist : ℕ → Option ℕ
  timeheap : Timeheap
  /-- `epfd`, or `qfd`, is not -1. -/
  polling : Bool
  /-- What `epfd` waits for, for those descriptors that are registered. -/
  interest : ℕ → Option Events
  /-- The filters of `qfd`. -/
  filters : ℕ → Events
  /-- The kernel calls so far. -/
  calls : ℕ
  /-- The threads that are at the `yield` of `block` or `mblock`, and their blockers. -/
  waiting : ℕ → Option (List ℕ)

def State.init : State where
  brk := 0
  blk := fun _ => ⟨-1, ∅, -1, 0, 0⟩
  n := fun _ => none
  p := fun _ => none
  n2 := fun _ => none
  p2 := fun _ => none
  reg := fun _ => false
  blockers := none
  fdlist := fun _ => none
  timeheap := ⟨fun _ => 0, 0, fun _ => 0⟩
  polling := false
  interest := fun _ => none
  filters := fun _ => ∅
  calls := 0
  waiting := fun _ => none

def State.timeouts (s : State) (a : ℕ) : ℤ := (s.blk a).timeout

/-- The list `blockers`. -/
def State.all (s : State) : List ℕ := walk s.n s.brk s.blockers

/-- The list `fdlist[fd]`. -/
def State.onfd (s : State) (fd : ℕ) : List ℕ := walk s.n2 s.brk (s.fdlist fd)

/-- `for(...; o; o = o->n2) ev |= o->ev`. -/
def State.orev (s : State) (ev : Events) (l : List ℕ) : Events := l.foldl (fun ev o => ev ∪ (s.blk o).ev) ev

/-- `if(a) a->f = v`. -/
def poke (f : ℕ → Option ℕ) (a v : Option ℕ) (c : ℕ) : Option ℕ := if a = some c then v else f c

/-! ## The lists -/

/-- Puts `a` in front of `fdlist[fd]` (mtio-epoll.c:92–97, mtio-kqueue.c:93–98). -/
def linkfd (a fd : ℕ) (s : State) : State :=
  let n2 := Function.update s.n2 a (s.fdlist fd)
  let p2 := Function.update s.p2 a none
  let p2 := poke p2 (s.fdlist fd) (some a)
  { s with n2, p2, fdlist := Function.update s.fdlist fd (some a), reg := Function.update s.reg a true }

/-- Takes `a` out of `fdlist[fd]` (mtio-epoll.c:108–113, mtio-kqueue.c:111–116). -/
def unlinkfd (a fd : ℕ) (s : State) : State :=
  let p2 := poke s.p2 (s.n2 a) (s.p2 a)
  let n2 := poke s.n2 (p2 a) (s.n2 a)
  let fdlist := if s.fdlist fd = some a then Function.update s.fdlist fd (n2 a) else s.fdlist
  { s with n2, p2, fdlist }

/-- Puts `a` in front of `blockers` (mtio-epoll.c:198–201). -/
def link (a : ℕ) (s : State) : State :=
  { s with n := Function.update s.n a s.blockers, p := poke s.p s.blockers (some a), blockers := some a }

/-- Takes `a` out of `blockers` (mtio-epoll.c:211–216). -/
def unlink (a : ℕ) (s : State) : State :=
  let p := poke s.p (s.n a) (s.p a)
  let n := poke s.n (p a) (s.n a)
  { s with n, p, blockers := if s.blockers = some a then n a else s.blockers }

section Model

variable (ctl : ℕ → Bool)

/-! ## The kernel -/

/-- `EPOLL_CTL_ADD`, `EPOLL_CTL_MOD` and `EPOLL_CTL_DEL`. -/
inductive EpollOp
  | add
  | mod
  | del

/-- `epoll_ctl`, and whether it succeeds. What is registered cannot be added, and what is not
    cannot be modified or deleted. -/
def epollCtl (op : EpollOp) (fd : ℕ) (evd : Events) (s : State) : Bool × State :=
  let able := match op with
    | .add => (s.interest fd).isNone
    | .mod | .del => (s.interest fd).isSome
  let interest := match op with
    | .add | .mod => Function.update s.interest fd (some evd)
    | .del => Function.update s.interest fd none
  if ctl s.calls && able then (true, { s with calls := s.calls + 1, interest })
  else (false, { s with calls := s.calls + 1 })

/-- `kevent` with one change, `EV_ADD` if `on`, else `EV_DELETE`. What is not there cannot be
    deleted. -/
def kevent (on : Bool) (fd : ℕ) (filter : Filter) (s : State) : Bool × State :=
  if ctl s.calls && (on || (s.filters fd).get filter) then
    (true, { s with
      calls := s.calls + 1
      filters := Function.update s.filters fd ((s.filters fd).set on filter) })
  else (false, { s with calls := s.calls + 1 })

/-- The call in `regfd` (mtio-epoll.c:73–91), with those blockers that are there already. -/
def Epoll.ctlreg (fd : ℕ) (ev : Events) (s : State) : Bool × State :=
  match s.fdlist fd with
  | none => epollCtl ctl .add fd ev s
  | some _ => epollCtl ctl .mod fd (s.orev ev (s.onfd fd)) s

/-- `regfd` (mtio-epoll.c:51–100), and whether it succeeds. -/
def Epoll.regfd (a : ℕ) (s : State) : Bool × State :=
  if (s.blk a).fd < 0 then (true, s)
  else
    let fd := (s.blk a).fd.toNat
    let r := Epoll.ctlreg ctl fd (s.blk a).ev s
    if r.1 then (true, linkfd a fd r.2) else (false, r.2)

/-- The call in `remfd` (mtio-epoll.c:114–132), with those blockers that are left. It does not
    matter whether it succeeds. -/
def Epoll.ctlrem (fd : ℕ) (s : State) : State :=
  match s.fdlist fd with
  | none => (epollCtl ctl .del fd ∅ s).2
  | some _ => (epollCtl ctl .mod fd (s.orev ∅ (s.onfd fd)) s).2

/-- `remfd` (mtio-epoll.c:102–134). -/
def Epoll.remfd (a : ℕ) (s : State) : State :=
  if s.reg a then
    let fd := (s.blk a).fd.toNat
    let s := Epoll.ctlrem ctl fd (unlinkfd a fd s)
    { s with reg := Function.update s.reg a false }
  else s

/-- `regfd` (mtio-kqueue.c:51–101), and whether it succeeds. -/
def Kqueue.regfd (a : ℕ) (s : State) : Bool × State :=
  if (s.blk a).fd < 0 then (true, s)
  else
    let fd := (s.blk a).fd.toNat
    let ev := (s.blk a).ev
    let prev := s.orev ∅ (s.onfd fd)
    let r := if ev.read && !prev.read then kevent ctl true fd .read s else (true, s)
    if r.1 then
      let r := if ev.write && !prev.write then kevent ctl true fd .write r.2 else (true, r.2)
      if r.1 then (true, linkfd a fd r.2) else (false, r.2)
    else (false, r.2)

/-- `remfd` (mtio-kqueue.c:103–142). -/
def Kqueue.remfd (a : ℕ) (s : State) : State :=
  if s.reg a then
    let fd := (s.blk a).fd.toNat
    let ev := (s.blk a).ev
    let s := unlinkfd a fd s
    let left := s.orev ∅ (s.onfd fd)
    let s := if ev.read && !left.read then (kevent ctl false fd .read s).2 else s
    let s := if ev.write && !left.write then (kevent ctl false fd .write s).2 else s
    { s with reg := Function.update s.reg a false }
  else s

/-- `(ev < 0) || (ev & bl->ev)`; `none` is -1. -/
def ready (ev : Option Events) (b : Blocker) : Bool :=
  match ev with
  | none => true
  | some ev => (ev.read && b.ev.read) || (ev.write && b.ev.write)

/-- Which of the two files is compiled. -/
inductive Backend
  | epoll
  | kqueue

def regfd : Backend → ℕ → State → Bool × State
  | .epoll => Epoll.regfd ctl
  | .kqueue => Kqueue.regfd ctl

def remfd : Backend → ℕ → State → State
  | .epoll => Epoll.remfd ctl
  | .kqueue => Kqueue.remfd ctl

variable (be : Backend)

/-! ## The blockers -/

/-- The address of a blocker that is made. -/
def alloc (b : Blocker) (s : State) : State :=
  { s with
    brk := s.brk + 1
    blk := Function.update s.blk s.brk b
    n := Function.update s.n s.brk none
    p := Function.update s.p s.brk none
    n2 := Function.update s.n2 s.brk none
    p2 := Function.update s.p2 s.brk none
    reg := Function.update s.reg s.brk false
    timeheap := { s.timeheap with thpos := Function.update s.timeheap.thpos s.brk 0 } }

/-- `if(bl->to > 0) addtimeout(bl, bl->to)`. -/
def addto (a : ℕ) (s : State) : State :=
  if (s.blk a).timeout > 0 then { s with timeheap := addtimeout s.timeouts a s.timeheap } else s

/-- `if(bl->to > 0) deltimeout(bl)`. -/
def delto (a : ℕ) (s : State) : State :=
  if (s.blk a).timeout > 0 then { s with timeheap := deltimeout s.timeouts a s.timeheap } else s

/-- `addblock` (mtio-epoll.c:194–205), and whether it succeeds. -/
def addblock (a : ℕ) (s : State) : Bool × State :=
  let r := if s.polling then regfd ctl be a s else (true, s)
  if r.1 then (true, addto a (link a r.2)) else (false, r.2)

/-- `remblock` (mtio-epoll.c:207–218). -/
def remblock (a : ℕ) (s : State) : State := remfd ctl be a (unlink a (delto a s))

/-- `struct selected`. -/
structure Selected where
  fd : ℤ
  ev : Events

/-- `(to > 0)?(time(NULL) + to):0`. -/
def deadline (now to' : ℤ) : ℤ := if to' > 0 then now + to' else 0

/-- The first loop of `mblock`: whether all of the blockers could be added, and those that
    were. -/
def addblocks : List Blocker → List ℕ → State → Bool × List ℕ × State
  | [], bls, s => (true, bls, s)
  | b :: bs, bls, s =>
    let a := s.brk
    let r := addblock ctl be a (alloc b s)
    if r.1 then addblocks bs (bls ++ [a]) r.2 else (false, bls, r.2)

def remblocks (bls : List ℕ) (s : State) : State := bls.foldl (fun s a => remblock ctl be a s) s

/-- The thread `th` yields. -/
def park (th : ℕ) (bls : List ℕ) (s : State) : State :=
  { s with waiting := Function.update s.waiting th (some bls) }

/-- The entries of `bls` in `mblock`. -/
def mkblockers (th : ℕ) (timeout : ℤ) (spec : List Selected) : List Blocker :=
  spec.mapIdx fun i sel => { fd := sel.fd, ev := sel.ev, id := i, timeout, th }

/-- `mblock` (mtio-epoll.c:220–242) until it yields, or else returns -1 for descriptor and
    events; and whether it yields. -/
def mblock (th : ℕ) (now to' : ℤ) (spec : List Selected) (s : State) : Bool × State :=
  let r := addblocks ctl be (mkblockers th (deadline now to') spec) [] s
  if r.1 then (true, park th r.2.1 r.2.2) else (false, remblocks ctl be r.2.1.reverse r.2.2)

/-- `block` (mtio-epoll.c:248–262, mtio-kqueue.c:257–271) until it yields, or else returns -1; and
    whether it yields. -/
def block (th : ℕ) (now : ℤ) (fd : ℤ) (ev : Events) (to' : ℤ) (s : State) : Bool × State :=
  let a := s.brk
  let bl := { fd, ev, id := -1, timeout := deadline now to', th }
  let r := addblock ctl be a (alloc bl s)
  match be with
  | .epoll => if r.1 then (true, park th [a] r.2) else (false, r.2)
  | .kqueue => (true, park th [a] r.2)

/-- `resume`, of a thread that waits in `block` or `mblock`, which removes its blockers
    (mtio-epoll.c:241–242, 263). -/
def wake (th : ℕ) (bls : List ℕ) (s : State) : State :=
  remblocks ctl be bls { s with waiting := Function.update s.waiting th none }

/-- What is done to the blockers: a thread calls `block` or `mblock`, or it is resumed from one
    of these, by `ioloop` or by another thread. -/
inductive Act
  | block (th : ℕ) (now : ℤ) (fd : ℤ) (ev : Events) (to' : ℤ)
  | mblock (th : ℕ) (now to' : ℤ) (spec : List Selected)
  | wake (th : ℕ) (bls : List ℕ)

/-- Who calls does not wait, and who is resumed does. -/
def Act.Enabled (s : State) : Act → Prop
  | .block th .. | .mblock th .. => s.waiting th = none
  | .wake th bls => s.waiting th = some bls

/-- The blockers that are removed. -/
def Act.removed : Act → List ℕ
  | .wake _ bls => bls
  | _ => []

def Act.run (s : State) : Act → State
  | .block th now fd ev to' => (Mtio.block ctl be th now fd ev to' s).2
  | .mblock th now to' spec => (Mtio.mblock ctl be th now to' spec s).2
  | .wake th bls => Mtio.wake ctl be th bls s

/-! ## The ends of `ioloop` -/

/-- `epfd = epoll_create(128)` or `qfd = kqueue()`. -/
def create (s : State) : State :=
  { s with polling := true, interest := fun _ => none, filters := fun _ => ∅ }

/-- The loop at the start of `ioloop` (mtio-epoll.c:277–281). There is no state if a registration
    fails: a thread is resumed in the middle of the loop. -/
def regall : ℕ → Option ℕ → State → Option State
  | 0, _, s => some s
  | _ + 1, none, s => some s
  | fuel + 1, some a, s =>
    let nbl := s.n a
    let r := regfd ctl be a s
    if r.1 then regall fuel nbl r.2 else none

/-- The start of `ioloop` (mtio-epoll.c:274–281). -/
def start (s : State) : Option State := regall ctl be s.brk s.blockers (create s)

/-- The loop at the end of `ioloop` (mtio-epoll.c:332–333). -/
def remall : ℕ → Option ℕ → State → State
  | 0, _, s => s
  | _ + 1, none, s => s
  | fuel + 1, some a, s =>
    let s := remfd ctl be a s
    remall fuel (s.n a) s

/-- The end of `ioloop` (mtio-epoll.c:332–335); what has been told to the kernel is forgotten. -/
def finish (s : State) : State :=
  { remall ctl be s.brk s.blockers s with polling := false, interest := fun _ => none, filters := fun _ => ∅ }

end Model

end Ashd.Mtio
