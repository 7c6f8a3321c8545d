import Ashd.Common.Lifetime
import Ashd.Common.Run
import Ashd.Lib.Resp

/-!
# `userplex`

`userplex` passes a request on to a process that runs as the user whom the first part of the rest
string names. The process is started for the first request to a user, and again if it has gone.
Whether there is such a user, and whether requests may be passed on to them, is looked up for the
first request only.

What the kernel and the user database say is given for each request, and so it may change between
them. A socket is known by a number of its own. What the program of a user does is left out.

Main results:
* `userplex_requests`: to whom a request is passed on, and what is left of its rest string.
* `userplex_fds`: which sockets are open, and which are never closed.
* `userplex_executes`: as whom programs are executed.
-/

namespace Ashd.Forking.Userplex

open Lifetime

/-! ## Model -/

/-- `struct passwd`, without the names that `login` puts into the environment. -/
structure Passwd where
  uid : ℕ
  gid : ℕ
  deriving DecidableEq

/-- `struct group`. -/
structure Group where
  gid : ℕ
  mem : List Bytes

structure Db where
  getpwnam : Bytes → Option Passwd
  getgrnam : Bytes → Option Group

/-- The command line, and the user and group that `userplex` itself runs as. -/
structure Conf where
  ignore : Bool := false
  mgroup : Option Bytes := none
  dirname : Option Bytes := none
  childspec : List Bytes := [bytes "dirplex", bytes "htpub"]
  minuid : ℕ := 0
  uid : ℕ := 0
  gid : ℕ := 0

/-- Whom a process runs as, with the user whose groups `initgroups` has set. -/
structure Creds where
  uid : ℕ
  gid : ℕ
  groups : Option Bytes := none
  deriving DecidableEq

/-- What the system calls say that are made for a new child. `pair` are the two sockets. -/
structure ForkAns where
  pair : Option (ℕ × ℕ)
  db : Db
  forked : Bool := true
  initgroups : Bool := true
  setgid : Bool := true
  setuid : Bool := true
  chdir : Bool := true
  handler : Bool := false
  access : Bool := true
  execvp : Bool := true

/-- What becomes of a child: it executes a program, it answers the request that it has been started
    for and exits, or it just exits. -/
inductive ChildEnd
  | executes (args : List Bytes) (creds : Creds)
  | answers (code : ℕ)
  | exits
  deriving DecidableEq

/-- A child that has been started, with the socket to it. -/
structure Child where
  name : Bytes
  pwd : Passwd
  fd : ℕ
  result : ChildEnd

/-- `EPIPE` or `ECONNRESET`, `EAGAIN`, and any other. -/
inductive Errno
  | epipe
  | again
  | other
  deriving DecidableEq

/-- `struct user`. A negative `fd` is `none`. -/
structure User where
  name : Bytes
  fd : Option ℕ

/-- What becomes of a request. -/
inductive Outcome
  | redirect (dst : Bytes)
  | error (code : ℕ)
  | passed (fd : ℕ) (rest : Bytes)
  | dropped
  deriving DecidableEq

/-- What the system calls say that are made for a request. -/
structure Ans where
  db : Db
  fork₁ : ForkAns
  send₁ : Option Errno := none
  fork₂ : ForkAns
  send₂ : Option Errno := none

/-- What has been done, with the calls of `forkchild`. -/
structure Log where
  outcome : Outcome
  uses : List (Use ℕ) := []
  forks : List (Bytes × ForkAns) := []

/-- `login` (src/userplex.c:52–99), with `none` for `exit`. -/
def login (conf : Conf) (name : Bytes) (pwd : Passwd) (ans : ForkAns) : Option Creds :=
  let creds : Option Creds :=
    if conf.uid = 0 then
      if ans.initgroups = false then none
      else if ans.setgid = false then none
      else if ans.setuid = false then none
      else some ⟨pwd.uid, pwd.gid, some name⟩
    else if conf.uid ≠ pwd.uid then none
    else some ⟨conf.uid, conf.gid, none⟩
  if ans.chdir then creds else none

/-- `execchild` (src/userplex.c:112–127). An answer comes after the request has been read off the
    socket. -/
def execchild (conf : Conf) (creds : Creds) (ans : ForkAns) : ChildEnd :=
  if conf.ignore = false ∧ ans.handler = true then .executes [bytes ".ashd/handler"] creds
  else if conf.dirname ≠ none ∧ ans.access = false then .answers 404
  else if ans.execvp then .executes conf.childspec creds
  else .answers 500

/-- `forkchild` (src/userplex.c:129–157): the socket, and what has been opened and closed. -/
def forkchild (usrnm : Bytes) (ans : ForkAns) : Option ℕ × List (Use ℕ) :=
  match ans.pair with
  | none => (none, [])
  | some (fd₀, fd₁) =>
    match ans.db.getpwnam usrnm with
    | none => (none, [.opened fd₀, .opened fd₁])
    | some _ =>
      if ans.forked then (some fd₁, [.opened fd₀, .opened fd₁, .closed fd₀])
      else (none, [.opened fd₀, .opened fd₁])

/-- The child that `forkchild` has started, if it has. -/
def child (conf : Conf) (usrnm : Bytes) (ans : ForkAns) : Option Child :=
  match ans.pair, ans.db.getpwnam usrnm with
  | some (_, fd₁), some pwd =>
    if ans.forked then
      some
        { name := usrnm
          pwd := pwd
          fd := fd₁
          result :=
            match login conf usrnm pwd ans with
            | none => .exits
            | some creds => execchild conf creds ans }
    else none
  | _, _ => none

/-- `sendreq2`, which fails if there is no socket. -/
def sendreq2 (fd : Option ℕ) (ans : Option Errno) : Option Errno :=
  match fd with
  | none => some .other
  | some _ => ans

/-- `close`, which does nothing to a negative `fd`. -/
def close (fd : Option ℕ) : List (Use ℕ) := fd.toList.map .closed

/-- `serve2` (src/userplex.c:159–180): the socket to the user after it, and what has been done. -/
def serve2 (usr : User) (rest : Bytes) (ans : Ans) : Option ℕ × Log :=
  let (fd, us) := if usr.fd = none then forkchild usr.name ans.fork₁ else (usr.fd, [])
  let forks := if usr.fd = none then [(usr.name, ans.fork₁)] else []
  match fd, sendreq2 fd ans.send₁ with
  | some f, none => (fd, ⟨.passed f rest, us, forks⟩)
  | _, none => (fd, ⟨.dropped, us, forks⟩)
  | _, some .again => (fd, ⟨.dropped, us, forks⟩)
  | _, some .other => (none, ⟨.dropped, us ++ close fd, forks⟩)
  | _, some .epipe =>
    let (fd', us') := forkchild usr.name ans.fork₂
    let forks := forks ++ [(usr.name, ans.fork₂)]
    match fd', sendreq2 fd' ans.send₂ with
    | some f, none => (fd', ⟨.passed f rest, us ++ close fd ++ us', forks⟩)
    | _, _ => (none, ⟨.dropped, us ++ close fd ++ us' ++ close fd', forks⟩)

/-- The check of `initnew` (src/userplex.c:189–219): the code of the error. -/
def check (conf : Conf) (db : Db) (usrnm : Bytes) : Option ℕ :=
  match db.getpwnam usrnm with
  | none => some 404
  | some pwd =>
    if pwd.uid < conf.minuid then some 404
    else
      match conf.mgroup with
      | none => none
      | some mgroup =>
        match db.getgrnam mgroup with
        | none => some 500
        | some grp => if grp.gid = pwd.gid ∨ grp.mem.contains usrnm then none else some 404

/-- The loop of `serve`: the list after it, unless there is no such user. -/
def serveKnown (usrnm rest : Bytes) (ans : Ans) :
    List User → Option (List User × Log)
  | [] => none
  | usr :: users =>
    if usr.name = usrnm then
      let (fd, log) := serve2 usr rest ans
      some ({ usr with fd := fd } :: users, log)
    else (serveKnown usrnm rest ans users).map fun r => (usr :: r.1, r.2)

/-- `initnew` (src/userplex.c:182–229). -/
def initnew (conf : Conf) (users : List User) (usrnm rest : Bytes) (ans : Ans) : List User × Log :=
  match check conf ans.db usrnm with
  | some code => (users, ⟨.error code, [], []⟩)
  | none =>
    let usr : User := { name := usrnm, fd := none }
    let (fd, log) := serve2 usr rest ans
    ({ usr with fd := fd } :: users, log)

/-- `serve` (src/userplex.c:231–256). -/
def serve (conf : Conf) (users : List User) (req : Hthead) (ans : Ans) : List User × Log :=
  if 47 ∈ req.rest then
    let usrnm := req.rest.takeWhile (· ≠ 47)
    let rest := (req.rest.dropWhile (· ≠ 47)).tail
    (serveKnown usrnm rest ans users).getD (initnew conf users usrnm rest ans)
  else if req.rest ≠ [] then (users, ⟨.redirect (req.url ++ [47]), [], []⟩)
  else (users, ⟨.error 404, [], []⟩)

/-- The loop of `main`, with what is done for each request. -/
def run (conf : Conf) (reqs : List (Hthead × Ans)) : List ((Hthead × Ans) × Log) × List User :=
  runOps (fun users r => ([(r, (serve conf users r.1 r.2).2)], (serve conf users r.1 r.2).1)) [] reqs

/-- The children that calls of `forkchild` have started. -/
def children (conf : Conf) (forks : List (Bytes × ForkAns)) : List Child :=
  forks.filterMap fun f => child conf f.1 f.2

/-- The sockets that are not closed if `forkchild` fails after it has made them. -/
def leaks (f : Bytes × ForkAns) : List ℕ :=
  match f.2.pair with
  | none => []
  | some (fd₀, fd₁) =>
    if f.2.db.getpwnam f.1 = none ∨ f.2.forked = false then [fd₀, fd₁] else []

/-- Everything that has been done. -/
def forksOf (logs : List ((Hthead × Ans) × Log)) : List (Bytes × ForkAns) :=
  logs.flatMap fun l => l.2.forks

def usesOf (logs : List ((Hthead × Ans) × Log)) : List (Use ℕ) := logs.flatMap fun l => l.2.uses

/-! ## One request -/

theorem forkchild_uses (usrnm : Bytes) (ans : ForkAns) (s : Multiset ℕ) :
    openAfter (forkchild usrnm ans).2 s =
      some (↑(forkchild usrnm ans).1.toList + (↑(leaks (usrnm, ans)) + s)) := by
  unfold forkchild leaks
  cases hpair : ans.pair with
  | none => simp [openAfter]
  | some pair =>
    obtain ⟨fd₀, fd₁⟩ := pair
    cases hpwd : ans.db.getpwnam usrnm with
    | none => simp [openAfter, Multiset.cons_swap fd₁, ← Multiset.cons_coe]
    | some pwd =>
      by_cases hf : ans.forked = true
      · simp [hf, openAfter, Multiset.cons_swap fd₁]
      · simp [hf, openAfter, Multiset.cons_swap fd₁, ← Multiset.cons_coe]

theorem forkchild_child (conf : Conf) {usrnm : Bytes} {ans : ForkAns} {fd : ℕ}
    (h : (forkchild usrnm ans).1 = some fd) :
    ∃ ch, child conf usrnm ans = some ch ∧ ch.name = usrnm ∧ ch.fd = fd := by
  unfold forkchild at h
  unfold child
  cases hpair : ans.pair with
  | none => rw [hpair] at h; cases h
  | some pair =>
    cases hpwd : ans.db.getpwnam usrnm with
    | none => rw [hpair, hpwd] at h; cases h
    | some pwd =>
      rw [hpair, hpwd] at h
      simp only at h ⊢
      split_ifs at h ⊢
      cases h
      exact ⟨_, rfl, rfl, rfl⟩

theorem name_child {conf : Conf} {usrnm : Bytes} {ans : ForkAns} {ch : Child}
    (h : child conf usrnm ans = some ch) : ch.name = usrnm := by
  unfold child at h
  split at h
  · split_ifs at h
    cases h
    rfl
  · cases h

theorem close_uses (fd : Option ℕ) (s : Multiset ℕ) :
    openAfter (close fd) (↑fd.toList + s) = some s :=
  openAfter_closed fd.toList s

/-- What `serve2` does for a user. -/
structure Served (conf : Conf) (usr : User) (rest : Bytes) (fd : Option ℕ) (log : Log) : Prop where
  names : ∀ f ∈ log.forks, f.1 = usr.name
  passed : ∀ f rest', log.outcome = .passed f rest' → rest' = rest ∧ fd = some f
  socket : ∀ f, fd = some f → usr.fd = some f ∨
    ∃ ch ∈ children conf log.forks, ch.name = usr.name ∧ ch.fd = f
  uses : ∀ s : Multiset ℕ, openAfter log.uses (↑usr.fd.toList + s) =
    some (↑fd.toList + (↑(log.forks.flatMap leaks) + s))

/-- The socket that there is, or the one to a new child. -/
theorem served_start (conf : Conf) (usr : User) (ans : ForkAns) :
    Served conf usr [] (if usr.fd = none then forkchild usr.name ans else (usr.fd, [])).1
      ⟨.dropped, (if usr.fd = none then forkchild usr.name ans else (usr.fd, [])).2,
        if usr.fd = none then [(usr.name, ans)] else []⟩ := by
  by_cases hfd : usr.fd = none
  · rw [if_pos hfd, if_pos hfd]
    refine ⟨by simp, nofun, fun f hf => ?_, fun s => ?_⟩
    · obtain ⟨ch, hch, hname, hchfd⟩ := forkchild_child conf hf
      exact .inr ⟨ch, by simp [children, hch], hname, hchfd⟩
    · rw [hfd]
      simpa using forkchild_uses usr.name ans s
  · rw [if_neg hfd, if_neg hfd]
    exact ⟨nofun, nofun, fun f hf => .inl hf, fun s => by simp [openAfter]⟩

section
variable {conf : Conf} {usr : User} {rest rest' : Bytes} {fd : Option ℕ} {outcome : Outcome}
  {us : List (Use ℕ)} {forks : List (Bytes × ForkAns)}

theorem Served.keep (h : Served conf usr rest' fd ⟨.dropped, us, forks⟩)
    (ho : ∀ f rest'', outcome = .passed f rest'' → rest'' = rest ∧ fd = some f) :
    Served conf usr rest fd ⟨outcome, us, forks⟩ :=
  ⟨h.names, ho, h.socket, h.uses⟩

/-- The socket is closed. -/
theorem Served.closed (h : Served conf usr rest' fd ⟨.dropped, us, forks⟩) :
    Served conf usr rest none ⟨.dropped, us ++ close fd, forks⟩ where
  names := h.names
  passed := nofun
  socket := nofun
  uses s := by
    simp only
    rw [openAfter_append, h.uses, Option.bind_some, close_uses]
    simp

/-- The socket has been closed, and a new child is started. -/
theorem Served.forked (h : Served conf usr rest' none ⟨.dropped, us, forks⟩) (ans : ForkAns) :
    Served conf usr rest (forkchild usr.name ans).1
      ⟨.dropped, us ++ (forkchild usr.name ans).2, forks ++ [(usr.name, ans)]⟩ where
  names := List.forall_mem_append.mpr ⟨h.names, by simp⟩
  passed := nofun
  socket f hf := by
    obtain ⟨ch, hch, hname, hchfd⟩ := forkchild_child conf hf
    refine .inr ⟨ch, ?_, hname, hchfd⟩
    simp [children, List.filterMap_append, hch]
  uses s := by
    simp only
    rw [openAfter_append, h.uses, Option.bind_some, forkchild_uses, List.flatMap_append,
      List.flatMap_singleton, ← Multiset.coe_add, Option.toList_none, Multiset.coe_nil, zero_add,
      add_left_comm (↑(leaks (usr.name, ans)) : Multiset ℕ), add_assoc]

theorem serve2_served (conf : Conf) (usr : User) (rest : Bytes) (ans : Ans) :
    Served conf usr rest (serve2 usr rest ans).1 (serve2 usr rest ans).2 := by
  have hstart := served_start conf usr ans.fork₁
  unfold serve2
  rcases hfork : (if usr.fd = none then forkchild usr.name ans.fork₁ else (usr.fd, [])) with ⟨fd, us⟩
  rw [hfork] at hstart
  simp only at hstart ⊢
  split
  · exact hstart.keep fun f rest'' ho => by cases ho; exact ⟨rfl, rfl⟩
  · exact hstart.keep nofun
  · exact hstart.keep nofun
  · exact hstart.closed
  · have hclosed : Served conf usr rest none _ := hstart.closed
    have hagain : Served conf usr rest _ _ := hclosed.forked ans.fork₂
    rcases hfork' : forkchild usr.name ans.fork₂ with ⟨fd', us'⟩
    rw [hfork'] at hagain
    simp only at hagain ⊢
    split
    · exact hagain.keep fun f rest'' ho => by cases ho; exact ⟨rfl, rfl⟩
    · exact hagain.closed

end

/-- What `serve` does: it answers, or serves a user that it knows, or one that it has not known. -/
inductive Does (conf : Conf) (users : List User) (req : Hthead) (ans : Ans) :
    List User × Log → Prop
  | answers {outcome : Outcome} (ho : ∀ f rest, outcome ≠ .passed f rest) :
      Does conf users req ans (users, ⟨outcome, [], []⟩)
  | knows {l r : List User} {usr : User} {rest : Bytes} (hrest : req.rest = usr.name ++ 47 :: rest)
      (hname : (47 : UInt8) ∉ usr.name) (husers : users = l ++ usr :: r) :
      Does conf users req ans
        (l ++ { usr with fd := (serve2 usr rest ans).1 } :: r, (serve2 usr rest ans).2)
  | adds {usrnm rest : Bytes} (hrest : req.rest = usrnm ++ 47 :: rest) (hname : (47 : UInt8) ∉ usrnm)
      (hnew : ∀ usr ∈ users, usr.name ≠ usrnm) (hcheck : check conf ans.db usrnm = none) :
      Does conf users req ans
        (⟨usrnm, (serve2 ⟨usrnm, none⟩ rest ans).1⟩ :: users, (serve2 ⟨usrnm, none⟩ rest ans).2)

theorem serveKnown_eq_none {usrnm rest : Bytes} {ans : Ans} {users : List User}
    (h : serveKnown usrnm rest ans users = none) : ∀ usr ∈ users, usr.name ≠ usrnm := by
  induction users with
  | nil => nofun
  | cons usr users ih =>
    rw [serveKnown] at h
    split_ifs at h with hname
    exact List.forall_mem_cons.mpr ⟨hname, ih (Option.map_eq_none_iff.mp h)⟩

theorem serveKnown_eq_some {usrnm rest : Bytes} {ans : Ans} {users : List User}
    {r : List User × Log} (h : serveKnown usrnm rest ans users = some r) :
    ∃ l usr r', users = l ++ usr :: r' ∧ usr.name = usrnm ∧
      r = (l ++ { usr with fd := (serve2 usr rest ans).1 } :: r', (serve2 usr rest ans).2) := by
  induction users generalizing r with
  | nil => cases h
  | cons usr users ih =>
    rw [serveKnown] at h
    split_ifs at h with hname
    · cases h
      exact ⟨[], usr, users, rfl, hname, rfl⟩
    · obtain ⟨r₁, hr₁, rfl⟩ := Option.map_eq_some_iff.mp h
      obtain ⟨l, usr', r', rfl, hname', rfl⟩ := ih hr₁
      exact ⟨usr :: l, usr', r', rfl, hname', rfl⟩

theorem serve_does (conf : Conf) (users : List User) (req : Hthead) (ans : Ans) :
    Does conf users req ans (serve conf users req ans) := by
  unfold serve
  split_ifs with hslash hrest
  · obtain ⟨usrnm, rest, hsplit, hname⟩ := List.eq_append_cons_of_mem hslash
    simp only [hsplit, takeWhile_sep hname, dropWhile_sep hname, List.tail_cons]
    cases hknown : serveKnown usrnm rest ans users with
    | some r =>
      obtain ⟨l, usr, r', husers, rfl, rfl⟩ := serveKnown_eq_some hknown
      exact .knows hsplit hname husers
    | none =>
      rw [Option.getD_none, initnew]
      split
      · exact .answers nofun
      · rename_i hcheck
        exact .adds hsplit hname (serveKnown_eq_none hknown) hcheck
  · exact .answers nofun
  · exact .answers nofun

/-! ## Every run -/

/-- The sockets to the users. -/
def sockets (users : List User) : List ℕ := users.flatMap fun usr => usr.fd.toList

/-- Whether a user has been looked up and found good enough for one of the requests. -/
def Checked (conf : Conf) (reqs : List (Hthead × Ans)) (usrnm : Bytes) : Prop :=
  ∃ r ∈ reqs, check conf r.2.db usrnm = none

/-- Whether a socket leads to a child that has been started for a user. -/
def LeadsTo (conf : Conf) (logs : List ((Hthead × Ans) × Log)) (fd : ℕ) (usrnm : Bytes) : Prop :=
  ∃ ch ∈ children conf (forksOf logs), ch.name = usrnm ∧ ch.fd = fd

/-- What is known of the users when requests have come and things have been done: the users have been
    looked up, their sockets lead to children that have been started for them, and these are open
    along with what has leaked. -/
structure Inv (conf : Conf) (reqs : List (Hthead × Ans)) (logs : List ((Hthead × Ans) × Log))
    (users : List User) : Prop where
  names : (users.map User.name).Nodup
  checked : ∀ usr ∈ users, Checked conf reqs usr.name
  socket : ∀ usr ∈ users, ∀ fd, usr.fd = some fd → LeadsTo conf logs fd usr.name
  forks : ∀ f ∈ forksOf logs, Checked conf reqs f.1
  passed : ∀ l ∈ logs, ∀ fd rest, l.2.outcome = .passed fd rest →
    ∃ usrnm, l.1.1.rest = usrnm ++ 47 :: rest ∧ (47 : UInt8) ∉ usrnm ∧ LeadsTo conf logs fd usrnm
  uses : openAfter (usesOf logs) 0 =
    some ((sockets users : Multiset ℕ) + ((forksOf logs).flatMap leaks : List ℕ))

theorem forksOf_concat (logs : List ((Hthead × Ans) × Log)) (l : (Hthead × Ans) × Log) :
    forksOf (logs ++ [l]) = forksOf logs ++ l.2.forks := by
  simp [forksOf]

theorem usesOf_concat (logs : List ((Hthead × Ans) × Log)) (l : (Hthead × Ans) × Log) :
    usesOf (logs ++ [l]) = usesOf logs ++ l.2.uses := by
  simp [usesOf]

section
variable {conf : Conf} {reqs : List (Hthead × Ans)} {logs : List ((Hthead × Ans) × Log)}
  {users : List User}

theorem Checked.append {usrnm : Bytes} (h : Checked conf reqs usrnm) (r : Hthead × Ans) :
    Checked conf (reqs ++ [r]) usrnm := by
  obtain ⟨r', hr', hc⟩ := h
  exact ⟨r', List.mem_append_left _ hr', hc⟩

theorem LeadsTo.append {fd : ℕ} {usrnm : Bytes} (h : LeadsTo conf logs fd usrnm)
    (l : (Hthead × Ans) × Log) : LeadsTo conf (logs ++ [l]) fd usrnm := by
  obtain ⟨ch, hch, hrest⟩ := h
  refine ⟨ch, ?_, hrest⟩
  rw [forksOf_concat, children, List.filterMap_append]
  exact List.mem_append_left _ hch

theorem inv_nil (conf : Conf) : Inv conf [] [] [] :=
  ⟨List.nodup_nil, fun _ h => absurd h List.not_mem_nil, fun _ h => absurd h List.not_mem_nil,
    fun _ h => absurd h List.not_mem_nil, fun _ h => absurd h List.not_mem_nil,
    by simp [usesOf, forksOf, sockets, openAfter]⟩

/-- A request comes. -/
theorem Inv.look (h : Inv conf reqs logs users) (r : Hthead × Ans) :
    Inv conf (reqs ++ [r]) logs users :=
  ⟨h.names, fun usr husr => (h.checked usr husr).append r, h.socket,
    fun f hf => (h.forks f hf).append r, h.passed, h.uses⟩

/-- A user is added. -/
theorem Inv.add (h : Inv conf reqs logs users) {usrnm : Bytes}
    (hnew : ∀ usr ∈ users, usr.name ≠ usrnm) (hcheck : Checked conf reqs usrnm) :
    Inv conf reqs logs (⟨usrnm, none⟩ :: users) where
  names := by
    refine List.nodup_cons.mpr ⟨fun hmem => ?_, h.names⟩
    obtain ⟨usr, husr, hname⟩ := List.mem_map.mp hmem
    exact hnew usr husr hname
  checked := List.forall_mem_cons.mpr ⟨hcheck, h.checked⟩
  socket := List.forall_mem_cons.mpr ⟨nofun, h.socket⟩
  forks := h.forks
  passed := h.passed
  uses := h.uses

/-- A request has been answered. -/
theorem Inv.answered (h : Inv conf reqs logs users) (r : Hthead × Ans) {outcome : Outcome}
    (ho : ∀ f rest, outcome ≠ .passed f rest) :
    Inv conf reqs (logs ++ [(r, ⟨outcome, [], []⟩)]) users where
  names := h.names
  checked := h.checked
  socket usr husr fd hfd := (h.socket usr husr fd hfd).append _
  forks := by
    rw [forksOf_concat, List.append_nil]
    exact h.forks
  passed := by
    refine List.forall_mem_append.mpr ⟨fun l hl fd rest hp => ?_, fun l hl fd rest hp => ?_⟩
    · obtain ⟨usrnm, hrest, hname, hleads⟩ := h.passed l hl fd rest hp
      exact ⟨usrnm, hrest, hname, hleads.append _⟩
    · rw [List.mem_singleton.mp hl] at hp
      exact absurd hp (ho fd rest)
  uses := by
    rw [usesOf_concat, List.append_nil, forksOf_concat, List.append_nil]
    exact h.uses

/-- What has been done for a user who has been looked up. -/
theorem Inv.served {l r : List User} {usr : User} (h : Inv conf reqs logs (l ++ usr :: r))
    {req : Hthead} {ans : Ans} {rest : Bytes} (hrest : req.rest = usr.name ++ 47 :: rest)
    (hname : (47 : UInt8) ∉ usr.name) {fd : Option ℕ} {log : Log}
    (hserved : Served conf usr rest fd log) :
    Inv conf reqs (logs ++ [((req, ans), log)]) (l ++ { usr with fd := fd } :: r) := by
  have husr : usr ∈ l ++ usr :: r := List.mem_append_right _ List.mem_cons_self
  have hsocket : ∀ f, fd = some f → LeadsTo conf (logs ++ [((req, ans), log)]) f usr.name := by
    intro f hf
    rcases hserved.socket f hf with hfd | ⟨ch, hch, hrest⟩
    · exact (h.socket usr husr f hfd).append _
    · refine ⟨ch, ?_, hrest⟩
      rw [forksOf_concat, children, List.filterMap_append]
      exact List.mem_append_right _ hch
  have hothers : ∀ usr' ∈ l ++ { usr with fd := fd } :: r,
      usr' = { usr with fd := fd } ∨ usr' ∈ l ++ usr :: r := by
    intro usr' h'
    rcases List.mem_append.mp h' with hl | hr
    · exact .inr (List.mem_append_left _ hl)
    · rcases List.mem_cons.mp hr with rfl | hr
      · exact .inl rfl
      · exact .inr (List.mem_append_right _ (List.mem_cons_of_mem _ hr))
  refine ⟨?_, fun usr' h' => ?_, fun usr' h' f hf => ?_, ?_, ?_, ?_⟩
  · have hnames := h.names
    rw [List.map_append, List.map_cons] at hnames ⊢
    exact hnames
  · rcases hothers usr' h' with rfl | h'
    · exact h.checked usr husr
    · exact h.checked usr' h'
  · rcases hothers usr' h' with rfl | h'
    · exact hsocket f hf
    · exact (h.socket usr' h' f hf).append _
  · rw [forksOf_concat]
    refine List.forall_mem_append.mpr ⟨h.forks, fun f hf => ?_⟩
    rw [hserved.names f hf]
    exact h.checked usr husr
  · refine List.forall_mem_append.mpr ⟨fun x hx f rest' hp => ?_, fun x hx f rest' hp => ?_⟩
    · obtain ⟨usrnm, hrest, hname, hleads⟩ := h.passed x hx f rest' hp
      exact ⟨usrnm, hrest, hname, hleads.append _⟩
    · obtain rfl := List.mem_singleton.mp hx
      obtain ⟨rfl, hf⟩ := hserved.passed f rest' hp
      exact ⟨usr.name, hrest, hname, hsocket f hf⟩
  · have hsum : ∀ usr' : User, (↑(sockets (l ++ usr' :: r)) : Multiset ℕ) =
        ↑usr'.fd.toList + ↑(sockets (l ++ r)) := fun usr' => by
      simp [sockets, ← Multiset.coe_add, add_left_comm]
    rw [usesOf_concat, openAfter_append, h.uses, Option.bind_some, hsum, add_assoc, hserved.uses,
      hsum, forksOf_concat, List.flatMap_append, ← Multiset.coe_add, add_assoc]
    congr 2
    rw [add_left_comm, add_comm (↑(List.flatMap leaks log.forks) : Multiset ℕ)]

end

theorem Inv.step {conf : Conf} {reqs : List (Hthead × Ans)} {logs : List ((Hthead × Ans) × Log)}
    {users : List User} (h : Inv conf reqs logs users) (r : Hthead × Ans) :
    Inv conf (reqs ++ [r]) (logs ++ [(r, (serve conf users r.1 r.2).2)])
      (serve conf users r.1 r.2).1 := by
  have hdoes := serve_does conf users r.1 r.2
  generalize serve conf users r.1 r.2 = res at hdoes ⊢
  cases hdoes with
  | answers ho => exact (h.look r).answered r ho
  | knows hrest hname husers =>
    subst husers
    exact (h.look r).served hrest hname (serve2_served conf _ _ r.2)
  | adds hrest hname hnew hcheck =>
    have hadd := (h.look r).add hnew ⟨r, List.mem_append_right _ (List.mem_singleton_self r), hcheck⟩
    exact Inv.served (l := []) hadd hrest hname (serve2_served conf _ _ r.2)

theorem run_concat (conf : Conf) (reqs : List (Hthead × Ans)) (r : Hthead × Ans) :
    run conf (reqs ++ [r]) =
      ((run conf reqs).1 ++ [(r, (serve conf (run conf reqs).2 r.1 r.2).2)],
        (serve conf (run conf reqs).2 r.1 r.2).1) :=
  runOps_concat (fun users (r : Hthead × Ans) =>
    ([(r, (serve conf users r.1 r.2).2)], (serve conf users r.1 r.2).1)) [] reqs r

theorem run_inv (conf : Conf) (reqs : List (Hthead × Ans)) :
    Inv conf reqs (run conf reqs).1 (run conf reqs).2 := by
  induction reqs using List.reverseRecOn with
  | nil => exact inv_nil conf
  | append_singleton reqs r ih =>
    rw [run_concat]
    exact ih.step r

/-- In every run, whatever fails: a request that is passed on goes to a child that has been started
    for the user whom the first part of its rest string names, who has been looked up for this request
    or an earlier one and found good enough, and the child is given what comes after the slash. No
    child is started for anybody else. -/
theorem userplex_requests (conf : Conf) (reqs : List (Hthead × Ans)) :
    (∀ l ∈ (run conf reqs).1, ∀ fd rest, l.2.outcome = .passed fd rest →
      ∃ usrnm, l.1.1.rest = usrnm ++ 47 :: rest ∧ (47 : UInt8) ∉ usrnm ∧
        Checked conf reqs usrnm ∧ LeadsTo conf (run conf reqs).1 fd usrnm) ∧
    ∀ ch ∈ children conf (forksOf (run conf reqs).1), Checked conf reqs ch.name := by
  have hinv := run_inv conf reqs
  have hchild : ∀ ch ∈ children conf (forksOf (run conf reqs).1), Checked conf reqs ch.name := by
    intro ch hch
    obtain ⟨f, hf, hfc⟩ := List.mem_filterMap.mp hch
    rw [name_child hfc]
    exact hinv.forks f hf
  refine ⟨fun l hl fd rest ho => ?_, hchild⟩
  obtain ⟨usrnm, hrest, hname, hleads⟩ := hinv.passed l hl fd rest ho
  obtain ⟨ch, hch, hchname, -⟩ := id hleads
  exact ⟨usrnm, hrest, hname, hchname ▸ hchild ch hch, hleads⟩

/-- In every run, whatever fails, no socket is closed that is not open, and those that are open at
    the end are the sockets to the users, and both sockets of each pair that `forkchild` has made
    without starting a child, as the user has disappeared or `fork` has failed. -/
theorem userplex_fds (conf : Conf) (reqs : List (Hthead × Ans)) :
    openAfter (usesOf (run conf reqs).1) 0 =
        some ((sockets (run conf reqs).2 : Multiset ℕ) +
          ((forksOf (run conf reqs).1).flatMap leaks : List ℕ)) ∧
      ((run conf reqs).2.map User.name).Nodup :=
  ⟨(run_inv conf reqs).uses, (run_inv conf reqs).names⟩

/-! ## What is executed -/

theorem serve2_forks (usr : User) (rest : Bytes) (ans : Ans) :
    ∀ f ∈ (serve2 usr rest ans).2.forks, f.2 = ans.fork₁ ∨ f.2 = ans.fork₂ := by
  have hstart : ∀ f ∈ (if usr.fd = none then [(usr.name, ans.fork₁)] else []),
      f.2 = ans.fork₁ ∨ f.2 = ans.fork₂ := by
    split_ifs <;> simp
  have hagain : ∀ f ∈ (if usr.fd = none then [(usr.name, ans.fork₁)] else []) ++
      [(usr.name, ans.fork₂)], f.2 = ans.fork₁ ∨ f.2 = ans.fork₂ :=
    List.forall_mem_append.mpr ⟨hstart, by simp⟩
  unfold serve2
  rcases (if usr.fd = none then forkchild usr.name ans.fork₁ else (usr.fd, [])) with ⟨fd, us⟩
  simp only
  split
  · exact hstart
  · exact hstart
  · exact hstart
  · exact hstart
  · split
    · exact hagain
    · exact hagain

/-- What has been done is about the requests that have come. -/
theorem run_logs (conf : Conf) (reqs : List (Hthead × Ans)) :
    ∀ l ∈ (run conf reqs).1, l.1 ∈ reqs ∧
      ∀ f ∈ l.2.forks, f.2 = l.1.2.fork₁ ∨ f.2 = l.1.2.fork₂ := by
  induction reqs using List.reverseRecOn with
  | nil => exact fun _ h => absurd h List.not_mem_nil
  | append_singleton reqs r ih =>
    rw [run_concat]
    refine List.forall_mem_append.mpr ⟨fun l hl => ?_, fun l hl => ?_⟩
    · exact ⟨List.mem_append_left _ (ih l hl).1, (ih l hl).2⟩
    · obtain rfl := List.mem_singleton.mp hl
      refine ⟨List.mem_append_right _ (List.mem_singleton_self r), ?_⟩
      have hdoes := serve_does conf (run conf reqs).2 r.1 r.2
      generalize serve conf (run conf reqs).2 r.1 r.2 = res at hdoes ⊢
      cases hdoes with
      | answers => nofun
      | knows => exact serve2_forks _ _ r.2
      | adds => exact serve2_forks _ _ r.2

/-- Who has been found good enough. -/
theorem check_eq_none {conf : Conf} {db : Db} {usrnm : Bytes} (h : check conf db usrnm = none) :
    ∃ pwd, db.getpwnam usrnm = some pwd ∧ conf.minuid ≤ pwd.uid ∧
      ∀ mgroup, conf.mgroup = some mgroup → ∃ grp, db.getgrnam mgroup = some grp ∧
        (grp.gid = pwd.gid ∨ usrnm ∈ grp.mem) := by
  unfold check at h
  split at h
  · cases h
  · rename_i pwd hpwd
    split_ifs at h with huid
    refine ⟨pwd, hpwd, not_lt.mp huid, fun mgroup hm => ?_⟩
    rw [hm] at h
    simp only at h
    split at h
    · cases h
    · rename_i grp hgrp
      split_ifs at h with hmem
      exact ⟨grp, hgrp, hmem.imp_right List.contains_iff_mem.mp⟩

/-- Nothing is executed before `login` is done. -/
theorem child_executes {conf : Conf} {usrnm : Bytes} {ans : ForkAns} {ch : Child}
    (h : child conf usrnm ans = some ch) {args : List Bytes} {creds : Creds}
    (hres : ch.result = .executes args creds) :
    ans.db.getpwnam usrnm = some ch.pwd ∧ login conf usrnm ch.pwd ans = some creds := by
  unfold child at h
  split at h
  · rename_i fd pwd hpair hpwd
    split_ifs at h
    cases h
    refine ⟨hpwd, ?_⟩
    simp only at hres ⊢
    split at hres
    · cases hres
    · rename_i creds' hlogin
      rw [hlogin]
      unfold execchild at hres
      split_ifs at hres
      · cases hres
        rfl
      · cases hres
        rfl
  · cases h

theorem login_eq_some {conf : Conf} {usrnm : Bytes} {pwd : Passwd} {ans : ForkAns} {creds : Creds}
    (h : login conf usrnm pwd ans = some creds) :
    creds.uid = pwd.uid ∧ (conf.uid = 0 → creds.gid = pwd.gid ∧ creds.groups = some usrnm) := by
  unfold login at h
  simp only at h
  split_ifs at h with hchdir hroot hi hg hu huid
  · cases h
    exact ⟨rfl, fun _ => ⟨rfl, rfl⟩⟩
  · cases h
    exact ⟨not_not.mp huid, fun h0 => absurd h0 hroot⟩

/-- If the user database stays the same, then in every run, whatever fails, a program is executed only
    with the user ID of a user who exists, whose ID is not below the minimum, and who is in the group
    if there is one; and started as root, with their groups. -/
theorem userplex_executes (conf : Conf) (db : Db) (reqs : List (Hthead × Ans))
    (hdb : ∀ r ∈ reqs, r.2.db = db ∧ r.2.fork₁.db = db ∧ r.2.fork₂.db = db) :
    ∀ ch ∈ children conf (forksOf (run conf reqs).1), ∀ args creds,
      ch.result = .executes args creds →
        db.getpwnam ch.name = some ch.pwd ∧ creds.uid = ch.pwd.uid ∧ conf.minuid ≤ creds.uid ∧
          (conf.uid = 0 → creds.gid = ch.pwd.gid ∧ creds.groups = some ch.name) ∧
          ∀ mgroup, conf.mgroup = some mgroup → ∃ grp, db.getgrnam mgroup = some grp ∧
            (grp.gid = ch.pwd.gid ∨ ch.name ∈ grp.mem) := by
  intro ch hch args creds hres
  obtain ⟨f, hf, hfc⟩ := List.mem_filterMap.mp hch
  obtain ⟨l, hl, hfl⟩ := List.mem_flatMap.mp hf
  obtain ⟨hreq, hforks⟩ := run_logs conf reqs l hl
  have hfdb : f.2.db = db := by
    rcases hforks f hfl with h | h
    · rw [h]
      exact (hdb l.1 hreq).2.1
    · rw [h]
      exact (hdb l.1 hreq).2.2
  obtain ⟨hpwd, hlogin⟩ := child_executes hfc hres
  obtain ⟨huid, hroot⟩ := login_eq_some hlogin
  obtain ⟨r, hr, hcheck⟩ := (run_inv conf reqs).forks f hf
  rw [(hdb r hr).1] at hcheck
  rw [hfdb] at hpwd
  obtain ⟨pwd, hpwd', hmin, hgroup⟩ := check_eq_none hcheck
  rw [hpwd] at hpwd'
  obtain rfl := Option.some.inj hpwd'
  rw [name_child hfc]
  exact ⟨hpwd, huid, huid ▸ hmin, hroot, hgroup⟩

/-- Two requests for a user, of which the second finds the program gone. -/
theorem userplex_executes_again :
    let db : Db := ⟨fun n => if n = bytes "u" then some ⟨1000, 100⟩ else none, fun _ => none⟩
    let fork₂ : ForkAns := { pair := some (7, 8), db := db, handler := true }
    let ans : Ans := { db := db, fork₁ := { pair := some (5, 6), db := db }, fork₂ := fork₂ }
    let conf : Conf := { minuid := 500 }
    let reqs : List (Hthead × Ans) := [({ rest := bytes "u/a" }, ans),
      ({ rest := bytes "u/b" }, { ans with send₁ := some .epipe })]
    ∃ ch ∈ children conf (forksOf (run conf reqs).1), ∃ creds,
      ch.result = .executes [bytes ".ashd/handler"] creds ∧ creds.uid = ch.pwd.uid ∧
        500 ≤ creds.uid := by
  intro db fork₂ ans conf reqs
  have hall := userplex_executes conf db reqs
    (List.forall_mem_cons.mpr ⟨⟨rfl, rfl, rfl⟩, List.forall_mem_singleton.mpr ⟨rfl, rfl, rfl⟩⟩)
  obtain ⟨-, huid, hmin, -, -⟩ := hall ⟨bytes "u", ⟨1000, 100⟩, 8,
    .executes [bytes ".ashd/handler"] ⟨1000, 100, some (bytes "u")⟩⟩ (List.mem_cons_of_mem _
      List.mem_cons_self) _ _ rfl
  exact ⟨_, List.mem_cons_of_mem _ List.mem_cons_self, _, rfl, huid, hmin⟩

end Ashd.Forking.Userplex
