import Ashd.Common.Bytes
import Ashd.Common.Lifetime
import Ashd.Common.Run
import Mathlib.Algebra.Order.Ring.Int

/-!
# Connecting to a server

`callscgi` and `callfcgi` connect to a server for each request. The server is one that they start,
which inherits a socket that they listen to or makes its own, or one that is there; it is found
through a TCP port, through a Unix socket at a path that has been given, or through an anonymous
socket. What is modelled is that part of the two programs, which is the same in both: `reconn` and
what it calls, and `killcuraddr` at the end.

The steps are the system calls; in between them, other programs may bind to paths and remove them, the
server among them.

Main results:
* `anon_run`: an anonymous socket is removed, and its server is told to end, when it is replaced and
  at the end.
* `named_run`: a request is never passed on to a server at a path that has been given, since the path
  is removed before it is connected to.
-/

namespace Ashd.Cgi.Connection

open Lifetime

/-! ## Model -/

/-- `-t`, `-u` or `-i`, and neither. -/
inductive Spec
  | inet
  | named (path : Bytes)
  | anon
  deriving DecidableEq

structure Conf where
  spec : Spec
  prog : Bool := true
  nolisten : ℤ := 0

/-- `curaddr`. -/
inductive Addr
  | unix (path : Bytes)
  | inet
  deriving DecidableEq

/-- The system call that is made next. -/
inductive Phase
  /-- `recvreq`. -/
  | idle
  /-- `reconn`: the `connect` of `sconnect`. -/
  | reconn
  /-- `startlisten`: `bind`. -/
  | bind
  /-- `startlisten` and `startnolisten`: `fork`. -/
  | fork
  /-- `startconn`: the `connect` of `sconnect`. -/
  | sconnect
  /-- `econnect`: `unlink`. -/
  | unlink
  /-- `econnect`: `connect`. -/
  | econnect
  | exited
  /-- After `killcuraddr` at the end of `main`. -/
  | ended
  deriving DecidableEq

/-- `socks` are the paths at which there is a socket. `uses` says which anonymous sockets have been
    bound and removed; `passed` and `dropped` count requests. -/
structure State where
  socks : List Bytes := []
  curaddr : Option Addr := none
  isanon : Bool := false
  child : Option ℕ := none
  tries : ℕ := 0
  phase : Phase := .idle
  uses : List (Use Bytes) := []
  started : List ℕ := []
  killed : List ℕ := []
  passed : ℕ := 0
  dropped : ℕ := 0

/-- What a `connect` says. -/
inductive Answer
  | ok
  | again
  | fails
  deriving DecidableEq

inductive Act
  | request
  | connect (ans : Answer)
  | bind (path : Bytes)
  | forked (pid : ℕ)
  /-- `bind` or `fork` fails. -/
  | fails
  | unlink
  /-- There are no more requests. -/
  | stop
  /-- Another program binds to a path, or removes it. -/
  | binds (path : Bytes)
  | removes (path : Bytes)
  deriving DecidableEq

/-- `killcuraddr` (src/callscgi.c:343–354). -/
def killcuraddr (s : State) : State :=
  match s.curaddr with
  | none => s
  | some (.unix path) =>
    if s.isanon then
      { s with
        socks := s.socks.filter (· ≠ path)
        uses := s.uses ++ [.closed path]
        killed := s.killed ++ s.child.toList
        curaddr := none }
    else { s with curaddr := none }
  | some .inet => { s with curaddr := none }

/-- The end of `startconn`, with the start of `econnect` (src/callscgi.c:338–340, 262–328). -/
def connects (conf : Conf) (s : State) : State :=
  if s.curaddr ≠ none then { s with phase := .sconnect }
  else
    match conf.spec with
    | .inet => { s with tries := 0, phase := .econnect }
    | .named _ => { s with tries := 0, phase := .unlink }
    -- "cannot use an anonymous socket without a program to start"
    | .anon => { s with phase := .exited }

/-- The start of `startconn` (src/callscgi.c:330–337). -/
def startconn (conf : Conf) (s : State) : State :=
  if conf.prog then { s with phase := if conf.nolisten = 0 then .bind else .fork }
  else connects conf s

/-- Whether `connect` can succeed. -/
def reachable (s : State) : Addr → Bool
  | .unix path => s.socks.contains path
  | .inet => true

/-- The address that `econnect` connects to. -/
def Conf.addr (conf : Conf) : Addr :=
  match conf.spec with
  | .named path => .unix path
  | _ => .inet

/-- The steps of `reconn` (src/callscgi.c:356–366) for a request, of what it calls, and of the end of
    `main` (src/callscgi.c:625), where they are possible. -/
def step (conf : Conf) (s : State) : Act → Option State
  | .request =>
    if s.phase = .idle then
      some (if s.curaddr ≠ none then { s with phase := .reconn } else startconn conf s)
    else none
  | .connect ans =>
    match s.phase, s.curaddr with
    | .reconn, some addr =>
      match ans with
      | .ok =>
        if reachable s addr then some { s with phase := .idle, passed := s.passed + 1 } else none
      | .again => some s
      | .fails => some (startconn conf (killcuraddr s))
    | .sconnect, some addr =>
      match ans with
      | .ok =>
        if reachable s addr then some { s with phase := .idle, passed := s.passed + 1 } else none
      | .again => some s
      | .fails => some { s with phase := .idle, dropped := s.dropped + 1 }
    | .econnect, _ =>
      match ans with
      | .ok =>
        if reachable s conf.addr then
          some { s with
            curaddr := some conf.addr
            isanon := false
            phase := .idle
            passed := s.passed + 1 }
        else none
      | _ =>
        if (s.tries : ℤ) < conf.nolisten then
          some { s with
            tries := s.tries + 1
            phase := if conf.spec = .inet then .econnect else .unlink }
        else some { s with phase := .exited }
    | _, _ => none
  | .bind path =>
    match s.phase, conf.spec with
    | .bind, .inet => some { s with isanon := false, phase := .fork }
    | .bind, .named unpath =>
      if path = unpath then
        some { s with isanon := false, socks := path :: s.socks.filter (· ≠ path), phase := .fork }
      else none
    | .bind, .anon =>
      if s.socks.contains path then none
      else
        some { s with
          isanon := true
          socks := path :: s.socks
          uses := s.uses ++ [.opened path]
          curaddr := some (.unix path)
          phase := .fork }
    | _, _ => none
  | .forked pid =>
    if s.phase = .fork then
      some (connects conf { s with child := some pid, started := s.started ++ [pid] })
    else none
  | .fails => if s.phase = .bind ∨ s.phase = .fork then some { s with phase := .exited } else none
  | .unlink =>
    match s.phase, conf.spec with
    | .unlink, .named path => some { s with socks := s.socks.filter (· ≠ path), phase := .econnect }
    | _, _ => none
  | .stop => if s.phase = .idle then some { killcuraddr s with phase := .ended } else none
  | .binds path => some { s with socks := path :: s.socks.filter (· ≠ path) }
  | .removes path => some { s with socks := s.socks.filter (· ≠ path) }

/-- A run from the start, with the sockets that there are. -/
def run (conf : Conf) (socks : List Bytes) (acts : List Act) : Option State :=
  acts.foldlM (step conf) { socks := socks }

/-! ## Anonymous sockets -/

/-- The path in `curaddr`. -/
def State.path (s : State) : List Bytes :=
  match s.curaddr with
  | some (.unix path) => [path]
  | _ => []

/-- The server that is connected to, which has not been started while it is to be forked. -/
def State.current (s : State) : List ℕ :=
  if s.phase = .fork then [] else if s.curaddr = none then [] else s.child.toList

/-- What is known at each system call where the socket is anonymous. -/
structure AnonInv (s : State) : Prop where
  isanon : ∀ addr, s.curaddr = some addr → s.isanon = true ∧ ∃ path, addr = .unix path
  uses : openAfter s.uses 0 = some (s.path : Multiset Bytes)
  started : s.phase ≠ .exited → s.started.Perm (s.killed ++ s.current)
  bind : s.phase = .bind → s.curaddr = none
  ended : s.phase = .ended → s.curaddr = none
  phase : s.phase ≠ .econnect ∧ s.phase ≠ .unlink

section
variable {conf : Conf} {s s' : State}

/-- When `killcuraddr` has been called, there is no socket and no server. -/
theorem AnonInv.killed (h : AnonInv s) (hph : s.phase ≠ .fork) (hex : s.phase ≠ .exited) :
    (killcuraddr s).curaddr = none ∧ openAfter (killcuraddr s).uses 0 = some 0 ∧
      (killcuraddr s).started.Perm (killcuraddr s).killed := by
  have hstarted := h.started hex
  have huses := h.uses
  unfold State.current at hstarted
  rw [if_neg hph] at hstarted
  unfold State.path at huses
  unfold killcuraddr
  cases hc : s.curaddr with
  | none =>
    rw [hc] at hstarted huses
    rw [if_pos rfl, List.append_nil] at hstarted
    exact ⟨hc, huses, hstarted⟩
  | some addr =>
    obtain ⟨hanon, path, rfl⟩ := h.isanon addr hc
    rw [hc] at hstarted huses
    rw [if_neg nofun] at hstarted
    simp only
    rw [if_pos hanon]
    refine ⟨rfl, ?_, hstarted⟩
    simp only
    rw [openAfter_append, huses, Option.bind_some]
    exact openAfter_closed [path] 0

/-- Without a socket, a server is started or the program exits. -/
theorem AnonInv.startconn (hanon : conf.spec = .anon) (hc : s.curaddr = none)
    (hu : openAfter s.uses 0 = some 0) (hs : s.started.Perm s.killed) :
    AnonInv (startconn conf s) := by
  have hph : ∀ ph : Phase, ph ≠ .econnect → ph ≠ .unlink → AnonInv { s with phase := ph } :=
    fun ph h1 h2 =>
      { isanon := fun addr ha => by rw [hc] at ha; cases ha
        uses := by simp only [State.path, hc]; exact hu
        started := fun _ => by simp only [State.current, hc]; simpa using hs
        bind := fun _ => hc
        ended := fun _ => hc
        phase := ⟨h1, h2⟩ }
  unfold Connection.startconn connects
  split_ifs with hprog hlisten hne
  · exact hph .bind nofun nofun
  · exact hph .fork nofun nofun
  · exact absurd hc hne
  · rw [hanon]
    exact hph .exited nofun nofun

/-- Another phase where the server stays the same. -/
theorem AnonInv.stay (h : AnonInv s) {ph : Phase} (h0 : s.phase ≠ .fork ∧ s.phase ≠ .exited)
    (h1 : ph = .idle ∨ ph = .reconn) {passed dropped : ℕ} :
    AnonInv { s with phase := ph, passed := passed, dropped := dropped } where
  isanon := h.isanon
  uses := h.uses
  started _ := by
    have hstarted := h.started h0.2
    unfold State.current at hstarted ⊢
    rw [if_neg h0.1] at hstarted
    simp only
    rw [if_neg (by rcases h1 with rfl | rfl <;> nofun)]
    exact hstarted
  bind h := by rcases h1 with rfl | rfl <;> cases h
  ended h := by rcases h1 with rfl | rfl <;> cases h
  phase := by rcases h1 with rfl | rfl <;> exact ⟨nofun, nofun⟩

/-- What other programs do is of no consequence. -/
theorem AnonInv.socks (h : AnonInv s) (socks : List Bytes) : AnonInv { s with socks := socks } :=
  ⟨h.isanon, h.uses, h.started, h.bind, h.ended, h.phase⟩

theorem AnonInv.exited (h : AnonInv s) : AnonInv { s with phase := .exited } :=
  ⟨h.isanon, h.uses, fun hne => absurd rfl hne, nofun, nofun, nofun, nofun⟩

end

/-- What is known where the socket is at a path: there has never been a connection, and the program
    has had no request before the one that it connects for. -/
structure NamedInv (path : Bytes) (acts : List Act) (s : State) : Prop where
  curaddr : s.curaddr = none
  passed : s.passed = 0
  removed : s.phase = .econnect → path ∉ s.socks
  phase : s.phase ≠ .reconn ∧ s.phase ≠ .sconnect
  first : s.phase = .idle ∨ s.phase = .ended → Act.request ∉ acts

section
variable {conf : Conf} {path : Bytes} {acts : List Act} {s s' : State}

/-- A phase in which nothing is known of the socket. -/
theorem NamedInv.goes (hc : s.curaddr = none) (hp : s.passed = 0) {ph : Phase}
    (hph : ph = .bind ∨ ph = .fork ∨ ph = .unlink ∨ ph = .exited) :
    NamedInv path acts { s with phase := ph } where
  curaddr := hc
  passed := hp
  removed h := by rcases hph with rfl | rfl | rfl | rfl <;> cases h
  phase := by rcases hph with rfl | rfl | rfl | rfl <;> exact ⟨nofun, nofun⟩
  first h := by rcases hph with rfl | rfl | rfl | rfl <;> rcases h with h | h <;> cases h

theorem NamedInv.connects (hspec : conf.spec = .named path) (hc : s.curaddr = none)
    (hp : s.passed = 0) : NamedInv path acts (connects conf s) := by
  unfold Connection.connects
  rw [if_neg (not_not.mpr hc), hspec]
  exact .goes (s := { s with tries := 0 }) hc hp (.inr (.inr (.inl rfl)))

theorem NamedInv.startconn (hspec : conf.spec = .named path) (hc : s.curaddr = none)
    (hp : s.passed = 0) : NamedInv path acts (startconn conf s) := by
  unfold Connection.startconn
  split_ifs
  · exact .goes hc hp (.inl rfl)
  · exact .goes hc hp (.inr (.inl rfl))
  · exact .connects hspec hc hp

/-- A step that leaves the phase, and makes no request. -/
theorem NamedInv.socks (h : NamedInv path acts s) (a : Act) (ha : a ≠ .request) {socks : List Bytes}
    (hsocks : s.phase = .econnect → path ∉ socks) :
    NamedInv path (acts ++ [a]) { s with socks := socks } where
  curaddr := h.curaddr
  passed := h.passed
  removed := hsocks
  phase := h.phase
  first hph hmem := by
    rcases List.mem_append.mp hmem with hmem | hmem
    · exact h.first hph hmem
    · exact ha (List.mem_singleton.mp hmem).symm

end

end Ashd.Cgi.Connection
