import Ashd.Common.Lifetime
import Ashd.Htparser.Model
import Ashd.Lib.Stdiofd

/-!
# The descriptors of `serve`

For each request `serve` makes a socket pair, of which one end is passed on to the root handler
and closed, and the other is under the `bufio` that the request is written to and the response
read from. With the response may come more descriptors, the first of which is kept, and becomes
one side of the relay if the connection is given up to it.

Main results:
* `serve_closed_iff`: everything that `serve` opens or receives is closed once exactly if no
  `sendreq` fails.
* `sendreq_leaks`: both ends of the socket pair stay open if one does.
-/

namespace Ashd

open Lifetime

/-! ## The calls -/

/-- What decides the course of a round, with what `initreq` returns, the socket pair, and the
    descriptors that come with the head of the response, with the rest of it (none where that is
    not read), and with what is relayed. -/
structure Fdround extends Round where
  initfails : Bool
  pfds : ℕ × ℕ
  rights : List ℕ
  bodyrights : List ℕ
  relayrights : List ℕ

/-- The relay, over the descriptor that has come with the response (src/htparser.c:413–422). -/
def duplexCalls (round : Fdround) (outi : Stdiofd) : List Syscall :=
  match outi.rights with
  | none => mtclose outi
  | some fd =>
    match mtrecv { fd := fd, sock := true } round.relayrights with
    | (dout, calls) => calls ++ mtclose dout ++ mtclose { outi with rights := none }

/-- From where `out` is opened (src/htparser.c:381–479). However the loop is left, and also if it is
    not, `out` is closed. -/
def outCalls (round : Fdround) (outi : Stdiofd) (req : Hthead) (inb : Bufio) : List Syscall :=
  match passreq req inb round.out with
  | none => mtclose outi
  | some (req, _, out) =>
    match bioflush out with
    | (ret, out) =>
      if ret ≠ 0 then mtclose outi
      else
        match mtrecv outi round.rights with
        | (outi, calls) =>
          calls ++
            match parseresponseb out with
            | (none, _) => mtclose outi
            | (some resp, _) =>
              if (fixresp req resp).1 then duplexCalls round outi
              else
                match mtrecv outi round.bodyrights with
                | (outi, calls) => calls ++ mtclose outi

/-- One round of the loop of `serve` (src/htparser.c:363–476). -/
def roundCalls (id : Bytes) (round : Fdround) (inb : Bufio) : List Syscall :=
  match acceptreq id round.toRound inb with
  | none => []
  | some (req, inb) =>
    if round.initfails || !round.ready || !round.socketpair then []
    else
      .socketpair round.pfds :: .sendreq round.pfds.1 round.sendreq ::
        if round.sendreq then
          .close round.pfds.1 :: outCalls round { fd := round.pfds.2, sock := true } req inb
        else []

/-- `serve` (src/htparser.c:350–486): the rounds of its loop, which is left at the latest when the
    root handler is gone, `plex` being -1 then. -/
def serveCalls (id : Bytes) : List Fdround → Bufio → List Syscall
  | [], _ => []
  | round :: rounds, inb =>
    roundCalls id round inb ++
      match if round.initfails then none else serveOnce id round.toRound inb with
      | none => []
      | some inb => serveCalls id rounds inb

/-- What a call opens and closes. -/
def Syscall.uses : Syscall → List (Use ℕ)
  | .socketpair pfds => [.opened pfds.1, .opened pfds.2]
  | .recvmsg fds => fds.map .opened
  | .close fd => [.closed fd]
  | _ => []

/-! ## What is open -/

/-- What is open after some calls. -/
abbrev openCalls (calls : List Syscall) (s : Multiset ℕ) : Option (Multiset ℕ) :=
  openAfter (calls.flatMap Syscall.uses) s

/-- The descriptors that belong to a `stdiofd`. -/
def Stdiofd.held (d : Stdiofd) : List ℕ := d.fd :: (d.rights.toList ++ d.sendrights.toList)

theorem openCalls_append (calls calls' : List Syscall) (s : Multiset ℕ) :
    openCalls (calls ++ calls') s = (openCalls calls s).bind (openCalls calls') := by
  rw [openCalls, List.flatMap_append, openAfter_append]

/-- What belongs to a `stdiofd`, with what it has received in front. -/
theorem held_coe (d : Stdiofd) :
    (↑d.held : Multiset ℕ) = ↑d.rights.toList + ↑(d.fd :: d.sendrights.toList) := by
  rw [Multiset.coe_add]
  exact Multiset.coe_eq_coe.mpr List.perm_middle.symm

theorem mtclose_open (d : Stdiofd) (s : Multiset ℕ) :
    openCalls (mtclose d) (↑d.held + s) = some s := by
  have hclose : (d.held.map Syscall.close).flatMap Syscall.uses = d.held.map .closed := by
    rw [List.flatMap_map, List.map_eq_flatMap]
    rfl
  have := openAfter_closed d.held s
  rwa [← hclose] at this

/-- Of the descriptors that come with a message, those that are not kept are closed. -/
theorem keeprights_open (rights : Option ℕ) (fds : List ℕ) (s : Multiset ℕ) :
    openCalls (keeprights rights fds).2 (↑fds + (↑rights.toList + s)) =
      some (↑(keeprights rights fds).1.toList + s) := by
  induction fds generalizing rights s with
  | nil =>
    rw [Multiset.coe_nil, zero_add]
    cases rights <;> rfl
  | cons fd fds ih =>
    cases rights with
    | none =>
      have := ih (some fd) s
      rw [Option.toList_some, Multiset.coe_singleton, Multiset.singleton_add] at this
      rw [← Multiset.cons_coe, Multiset.cons_add, ← Multiset.add_cons, Option.toList_none,
        Multiset.coe_nil, zero_add]
      exact this
    | some r =>
      rw [← Multiset.cons_coe, Multiset.cons_add]
      show (if fd ∈ _ then openAfter _ _ else none) = _
      rw [if_pos (Multiset.mem_cons_self _ _), Multiset.erase_cons_head]
      exact ih (some r) s

theorem mtrecv_open (d : Stdiofd) (fds : List ℕ) (s : Multiset ℕ) :
    openCalls (mtrecv d fds).2 (↑d.held + s) = some (↑(mtrecv d fds).1.held + s) := by
  have hcalls : openCalls (mtrecv d fds).2 (↑d.held + s) =
      openCalls (keeprights d.rights fds).2 (↑fds + (↑d.held + s)) := by
    rw [openCalls, mtrecv]
    show openAfter (fds.map .opened ++ _) _ = _
    rw [openAfter_append, openAfter_opened]
    rfl
  rw [hcalls, held_coe, held_coe, add_assoc, add_assoc]
  exact keeprights_open d.rights fds _

/-! ## A round -/

/-- A `stdiofd` that has received something more is closed. -/
theorem mtrecv_mtclose_open (d : Stdiofd) (fds : List ℕ) (s : Multiset ℕ) :
    openCalls ((mtrecv d fds).2 ++ mtclose (mtrecv d fds).1) (↑d.held + s) = some s := by
  rw [openCalls_append, mtrecv_open, Option.bind_some, mtclose_open]

theorem duplexCalls_open (round : Fdround) (outi : Stdiofd) (s : Multiset ℕ) :
    openCalls (duplexCalls round outi) (↑outi.held + s) = some s := by
  unfold duplexCalls
  cases hr : outi.rights with
  | none => exact mtclose_open outi s
  | some fd =>
    -- the descriptor changes over to `dout`
    have hheld : (↑outi.held + s : Multiset ℕ) =
        ↑({ fd := fd, sock := true } : Stdiofd).held +
          (↑({ outi with rights := none } : Stdiofd).held + s) := by
      rw [held_coe, hr, add_assoc]
      rfl
    rw [hheld]
    simp only
    rw [openCalls_append, mtrecv_mtclose_open, Option.bind_some, mtclose_open]

theorem outCalls_open (round : Fdround) (outi : Stdiofd) (req : Hthead) (inb : Bufio)
    (s : Multiset ℕ) : openCalls (outCalls round outi req inb) (↑outi.held + s) = some s := by
  unfold outCalls
  split
  · exact mtclose_open outi s
  split
  split_ifs with hret
  · exact mtclose_open outi s
  simp only
  rw [openCalls_append, mtrecv_open, Option.bind_some]
  split
  · exact mtclose_open _ s
  split_ifs with hdup
  · exact duplexCalls_open round _ s
  · exact mtrecv_mtclose_open _ round.bodyrights s

/-- How far a round gets. -/
theorem roundCalls_cases (id : Bytes) (round : Fdround) (inb : Bufio) :
    roundCalls id round inb = [] ∨
      (round.sendreq = false ∧ roundCalls id round inb =
        [.socketpair round.pfds, .sendreq round.pfds.1 false]) ∨
      ∃ req inb', roundCalls id round inb =
        .socketpair round.pfds :: .sendreq round.pfds.1 true :: .close round.pfds.1 ::
          outCalls round { fd := round.pfds.2, sock := true } req inb' := by
  unfold roundCalls
  split
  · exact .inl rfl
  · rename_i req inb' _
    by_cases hno : round.initfails || !round.ready || !round.socketpair
    · rw [if_pos hno]
      exact .inl rfl
    · rw [if_neg hno]
      cases hsend : round.sendreq with
      | false => exact .inr (.inl ⟨rfl, rfl⟩)
      | true => exact .inr (.inr ⟨req, inb', rfl⟩)

/-- A round in which `sendreq` does not fail closes what it opens. -/
theorem sent_open (round : Fdround) (req : Hthead) (inb : Bufio) (s : Multiset ℕ) :
    openCalls (.socketpair round.pfds :: .sendreq round.pfds.1 true :: .close round.pfds.1 ::
      outCalls round { fd := round.pfds.2, sock := true } req inb) s = some s := by
  have hout := outCalls_open round { fd := round.pfds.2, sock := true } req inb s
  show (if round.pfds.1 ∈ _ then openAfter _ _ else none) = _
  rw [Multiset.cons_swap, if_pos (Multiset.mem_cons_self _ _), Multiset.erase_cons_head]
  exact hout

theorem sendreq_notMem_mtclose (d : Stdiofd) (fd : ℕ) (ok : Bool) :
    .sendreq fd ok ∉ mtclose d := by
  simp [mtclose]

theorem sendreq_notMem_mtrecv (d : Stdiofd) (fds : List ℕ) (fd : ℕ) (ok : Bool) :
    .sendreq fd ok ∉ (mtrecv d fds).2 := by
  have hkeep : ∀ rights, .sendreq fd ok ∉ (keeprights rights fds).2 := by
    induction fds with
    | nil =>
      intro rights
      cases rights <;> exact List.not_mem_nil
    | cons fd' fds ih =>
      intro rights
      cases rights with
      | none => exact ih (some fd')
      | some r => exact List.not_mem_cons_of_ne_of_not_mem (by simp) (ih (some r))
  exact List.not_mem_cons_of_ne_of_not_mem (by simp) (hkeep d.rights)

theorem sendreq_notMem_outCalls (round : Fdround) (outi : Stdiofd) (req : Hthead) (inb : Bufio)
    (fd : ℕ) (ok : Bool) : .sendreq fd ok ∉ outCalls round outi req inb := by
  unfold outCalls duplexCalls
  split
  · exact sendreq_notMem_mtclose _ _ _
  split
  split_ifs with hret
  · exact sendreq_notMem_mtclose _ _ _
  simp only
  rw [List.mem_append, not_or]
  refine ⟨sendreq_notMem_mtrecv _ _ _ _, ?_⟩
  split
  · exact sendreq_notMem_mtclose _ _ _
  split_ifs with hdup
  · split
    · exact sendreq_notMem_mtclose _ _ _
    · simp only [List.mem_append, sendreq_notMem_mtrecv, sendreq_notMem_mtclose, or_self,
        not_false_eq_true]
  · simp only [List.mem_append, sendreq_notMem_mtrecv, sendreq_notMem_mtclose, or_self,
      not_false_eq_true]

/-! ## The run -/

/-- The loop is left when `sendreq` fails. -/
theorem serveOnce_sendreq {id : Bytes} {round : Round} (h : round.sendreq = false) (inb : Bufio) :
    serveOnce id round inb = none := by
  unfold serveOnce
  split
  · rfl
  · rw [h, Bool.and_false]
    rfl

/-- What is left open: nothing, unless a `sendreq` fails, and then both ends of a socket pair. -/
def Leaves (calls : List Syscall) (s : Multiset ℕ) : Prop :=
  (∀ fd, .sendreq fd false ∉ calls) ∧ openCalls calls s = some s ∨
    (∃ fd, .sendreq fd false ∈ calls) ∧ ∃ a b, openCalls calls s = some (b ::ₘ a ::ₘ s)

theorem Leaves.nil (s : Multiset ℕ) : Leaves [] s := .inl ⟨fun _ => List.not_mem_nil, rfl⟩

theorem Leaves.append {calls calls' : List Syscall} {s : Multiset ℕ}
    (hno : ∀ fd, .sendreq fd false ∉ calls) (hopen : openCalls calls s = some s)
    (h : Leaves calls' s) : Leaves (calls ++ calls') s := by
  unfold Leaves at h ⊢
  rw [openCalls_append, hopen, Option.bind_some]
  have hmem : ∀ fd, Syscall.sendreq fd false ∈ calls ++ calls' ↔
      Syscall.sendreq fd false ∈ calls' := by
    intro fd
    rw [List.mem_append, or_iff_right (hno fd)]
  simpa only [hmem] using h

theorem serveCalls_leaves (id : Bytes) (rounds : List Fdround) (inb : Bufio) (s : Multiset ℕ) :
    Leaves (serveCalls id rounds inb) s := by
  induction rounds generalizing inb with
  | nil => exact .nil s
  | cons round rounds ih =>
    rw [serveCalls]
    have hrest : Leaves (match if round.initfails then none
        else serveOnce id round.toRound inb with
        | none => []
        | some inb => serveCalls id rounds inb) s := by
      split
      · exact .nil s
      · exact ih _
    obtain hnone | ⟨hsend, hfail⟩ | ⟨req, inb', hsent⟩ := roundCalls_cases id round inb
    · rw [hnone]
      exact hrest
    · have hend : (if round.initfails then none else serveOnce id round.toRound inb) = none := by
        rw [serveOnce_sendreq hsend, ite_self]
      rw [hfail, hend]
      exact .inr ⟨⟨_, List.mem_cons_of_mem _ List.mem_cons_self⟩, _, _, rfl⟩
    · rw [hsent]
      refine .append ?_ (sent_open round req inb' s) hrest
      intro fd hmem
      simp only [List.mem_cons, reduceCtorEq, Syscall.sendreq.injEq, Bool.false_eq_true, and_false,
        false_or, sendreq_notMem_outCalls] at hmem

/-- In every run of `serve`, for all that clients, handlers and the kernel do: every descriptor that
    it creates or receives is closed exactly once, exactly if no `sendreq` fails. -/
theorem serve_closed_iff (id : Bytes) (rounds : List Fdround) (inb : Bufio) :
    ClosedOnce ((serveCalls id rounds inb).flatMap Syscall.uses) ↔
      ∀ fd, .sendreq fd false ∉ serveCalls id rounds inb := by
  rw [closedOnce_iff]
  obtain ⟨hno, hopen⟩ | ⟨⟨fd, hfail⟩, a, b, hopen⟩ := serveCalls_leaves id rounds inb 0
  · exact ⟨fun _ => hno, fun _ => hopen⟩
  · constructor
    · intro h
      rw [openCalls, h, Option.some.injEq] at hopen
      exact absurd hopen.symm (Multiset.cons_ne_zero)
    · intro h
      exact absurd hfail (h fd)

/-- A request of a client, and a root handler that cannot be sent it. -/
def refused : Fdround where
  ready := true
  socketpair := true
  sendreq := false
  initreq := []
  response := []
  initfails := false
  pfds := (5, 6)
  rights := []
  bodyrights := []
  relayrights := []

/-- Neither end of the socket pair is closed. -/
theorem sendreq_leaks :
    serveCalls (bytes "A") [refused]
        (bioopen { avail := bytes "GET / HTTP/1.1\r\n\r\n" } {}) =
      [.socketpair (5, 6), .sendreq 5 false] ∧
    ¬ ClosedOnce (([.socketpair (5, 6), .sendreq 5 false] : List Syscall).flatMap
      Syscall.uses) := by
  refine ⟨by decide +kernel, ?_⟩
  intro h
  exact absurd (h 5).1 (by decide)

end Ashd
