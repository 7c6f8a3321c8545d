import Ashd.Common.Bytes

/-!
# Sockets under a `bufio`: `struct stdiofd`

The functions of lib/mtio.c that a `bufio` reads, writes and closes its socket with. A descriptor
in `sendrights` is to go along with what is written next, and one that comes with what is read is
kept in `rights`. What they do to the kernel is given as the list of their calls, with the
outcomes.

Main results:
* `mtwrite_passed_iff`: the descriptor that is to be passed is lost exactly if the first attempt
  to write would block and a later one succeeds.
* `mtwrite_loses`: it is closed, and the peer gets the data without it.
-/

namespace Ashd

/-- What `sendmsg` or `write` returns: `EAGAIN`, another error, or a count. -/
inductive Sent
  | again
  | error (e : ℤ)
  | count (n : ℕ)
  deriving DecidableEq

/-- The calls that open, pass or close a descriptor, `sendreq` with whether it succeeds. -/
inductive Syscall
  | socketpair (pfds : ℕ × ℕ)
  | sendreq (fd : ℕ) (ok : Bool)
  | recvmsg (fds : List ℕ)
  | sendmsg (data : Bytes) (rights : Option ℕ) (res : Sent)
  | write (data : Bytes) (res : Sent)
  | close (fd : ℕ)
  deriving DecidableEq

/-- `struct stdiofd` (lib/mtio.h:9–14), without the `timeout` that is passed to `block`; for
    `rights` and `sendrights`, `none` is -1. -/
structure Stdiofd where
  fd : ℕ
  sock : Bool
  rights : Option ℕ := none
  sendrights : Option ℕ := none

/-! ## Reading -/

/-- The loops of `mtrecv` over the descriptors that have come with a message
    (lib/mtio.c:55–66). -/
def keeprights : Option ℕ → List ℕ → Option ℕ × List Syscall
  | rights, [] => (rights, [])
  | none, fd :: fds => keeprights (some fd) fds
  | some rights, fd :: fds =>
    match keeprights (some rights) fds with
    | (r, calls) => (r, .close fd :: calls)

/-- `mtrecv` (lib/mtio.c:35–68), of a message that comes with `fds`. -/
def mtrecv (d : Stdiofd) (fds : List ℕ) : Stdiofd × List Syscall :=
  match keeprights d.rights fds with
  | (rights, calls) => ({ d with rights := rights }, .recvmsg fds :: calls)

/-! ## Writing -/

/-- `mtsend` (lib/mtio.c:98–129), for what `sendmsg` returns. -/
def mtsend (d : Stdiofd) (buf : Bytes) (ret : Sent) : Stdiofd × List Syscall :=
  match d.sendrights with
  | some cr => ({ d with sendrights := none }, [.sendmsg buf (some cr) ret, .close cr])
  | none => (d, [.sendmsg buf none ret])

/-- An attempt of `mtwrite` (lib/mtio.c:138–141). -/
def trywrite (d : Stdiofd) (buf : Bytes) (ret : Sent) : Stdiofd × List Syscall :=
  if d.sock then mtsend d buf ret else (d, [.write buf ret])

/-- What `block` returns: less than 0, 0, or what can be done. -/
inductive Woken
  | error
  | timeout
  | ready
  deriving DecidableEq

def ETIMEDOUT : ℤ := 110

/-- The outcome of the last attempt, which does not block. -/
def Sent.last : Except ℤ ℕ → Sent
  | .error e => .error e
  | .ok n => .count n

/-- `mtwrite` (lib/mtio.c:131–155): as long as the socket would block, `block` returns the next of
    the list; when that has run out, the attempt to write ends in `last`. -/
def mtwrite (d : Stdiofd) (buf : Bytes) (last : Except ℤ ℕ) :
    List Woken → Except ℤ ℕ × Stdiofd × List Syscall
  | [] =>
    match trywrite d buf (.last last) with
    | (d, calls) => (last, d, calls)
  | ev :: blocked =>
    match trywrite d buf .again with
    | (d, calls) =>
      if ev = .timeout then (.error ETIMEDOUT, d, calls)
      else
        -- also after an error, the next attempt tells what it is
        match mtwrite d buf last blocked with
        | (ret, d, calls') => (ret, d, calls ++ calls')

/-! ## Closing -/

/-- `mtclose` (lib/mtio.c:157–168). -/
def mtclose (d : Stdiofd) : List Syscall :=
  .close d.fd :: (d.rights.toList ++ d.sendrights.toList).map .close

/-! ## What becomes of the descriptor that is to be passed -/

/-- The descriptors that went along with what was sent, in order. -/
def sent : List Syscall → List (Option ℕ)
  | [] => []
  | .sendmsg _ rights (.count _) :: calls => rights :: sent calls
  | _ :: calls => sent calls

/-- `cr` goes along with the first bytes that are sent, once, and is not closed before. -/
def RightsPassed (cr : ℕ) (calls : List Syscall) : Prop :=
  ∃ pre buf n post, calls = pre ++ .sendmsg buf (some cr) (.count n) :: post ∧
    sent pre = [] ∧ some cr ∉ sent post ∧ .close cr ∉ pre

/-- `mtwrite` returns an error if `block` times out, or the last attempt fails. -/
theorem mtwrite_error_iff (d : Stdiofd) (buf : Bytes) (last : Except ℤ ℕ) (blocked : List Woken) :
    (∃ e, (mtwrite d buf last blocked).1 = .error e) ↔
      .timeout ∈ blocked ∨ ∃ e, last = .error e := by
  induction blocked generalizing d with
  | nil => simp [mtwrite]
  | cons ev blocked ih =>
    rw [mtwrite]
    simp only
    by_cases hev : ev = .timeout
    · rw [if_pos hev, hev]
      exact ⟨fun _ => .inl List.mem_cons_self, fun _ => ⟨ETIMEDOUT, rfl⟩⟩
    · rw [if_neg hev, ih, List.mem_cons, or_iff_right (Ne.symm hev)]

/-- Once there is nothing to be passed, nothing is, and nothing is closed. -/
theorem mtwrite_none {d : Stdiofd} (hsock : d.sock = true) (hnone : d.sendrights = none)
    (buf : Bytes) (last : Except ℤ ℕ) (blocked : List Woken) :
    (mtwrite d buf last blocked).2.1 = d ∧
      ∀ call ∈ (mtwrite d buf last blocked).2.2, ∃ res, call = .sendmsg buf none res := by
  have htry : ∀ res, trywrite d buf res = (d, [.sendmsg buf none res]) := by
    intro res
    rw [trywrite, if_pos hsock, mtsend, hnone]
  induction blocked with
  | nil =>
    rw [mtwrite, htry]
    exact ⟨rfl, fun call hcall => ⟨_, List.mem_singleton.mp hcall⟩⟩
  | cons ev blocked ih =>
    rw [mtwrite, htry]
    simp only
    by_cases hev : ev = .timeout
    · rw [if_pos hev]
      exact ⟨rfl, fun call hcall => ⟨_, List.mem_singleton.mp hcall⟩⟩
    · rw [if_neg hev]
      refine ⟨ih.1, fun call hcall => ?_⟩
      rcases List.mem_cons.mp hcall with rfl | hcall
      · exact ⟨_, rfl⟩
      · exact ih.2 call hcall

/-- What can be said of what is sent when nothing is to be passed. -/
theorem sent_none {calls : List Syscall} {buf : Bytes}
    (h : ∀ call ∈ calls, ∃ res, call = .sendmsg buf none res) (cr : ℕ) :
    some cr ∉ sent calls ∧ .close cr ∉ calls ∧
      ∀ buf' res, .sendmsg buf' (some cr) res ∉ calls := by
  have hno : some cr ∉ sent calls := by
    induction calls with
    | nil => exact List.not_mem_nil
    | cons call calls ih =>
      obtain ⟨res, rfl⟩ := h call List.mem_cons_self
      have hcalls := ih fun c hc => h c (List.mem_cons_of_mem _ hc)
      cases res with
      | again => exact hcalls
      | error e => exact hcalls
      | count n =>
        rw [sent, List.mem_cons, not_or]
        exact ⟨by simp, hcalls⟩
  refine ⟨hno, ?_, ?_⟩
  · intro hclose
    obtain ⟨res, hres⟩ := h _ hclose
    cases hres
  · intro buf' res hmem
    obtain ⟨res', hres⟩ := h _ hmem
    cases hres

/-- The first attempt of `mtwrite` takes the descriptor with it, and closes it. -/
theorem trywrite_rights {d : Stdiofd} {cr : ℕ} (hsock : d.sock = true)
    (hcr : d.sendrights = some cr) (buf : Bytes) (res : Sent) :
    trywrite d buf res =
      ({ d with sendrights := none }, [.sendmsg buf (some cr) res, .close cr]) := by
  rw [trywrite, if_pos hsock, mtsend, hcr]

/-- The calls of `mtwrite`: those of the first attempt, and then such as pass nothing. They end
    with the first if it does not block, or the wait times out. -/
theorem mtwrite_calls {d : Stdiofd} {cr : ℕ} (hsock : d.sock = true)
    (hcr : d.sendrights = some cr) (buf : Bytes) (last : Except ℤ ℕ) (blocked : List Woken) :
    (mtwrite d buf last blocked).2.1.sendrights = none ∧
      ∃ calls, (mtwrite d buf last blocked).2.2 =
          .sendmsg buf (some cr) (if blocked = [] then .last last else .again) :: .close cr :: calls ∧
        (∀ call ∈ calls, ∃ res, call = .sendmsg buf none res) := by
  cases blocked with
  | nil =>
    rw [mtwrite, trywrite_rights hsock hcr, if_pos rfl]
    exact ⟨rfl, [], rfl, fun call hcall => absurd hcall List.not_mem_nil⟩
  | cons ev blocked =>
    rw [mtwrite, trywrite_rights hsock hcr, if_neg (List.cons_ne_nil _ _)]
    simp only
    by_cases hev : ev = .timeout
    · rw [if_pos hev]
      exact ⟨rfl, [], rfl, fun call hcall => absurd hcall List.not_mem_nil⟩
    · rw [if_neg hev]
      have hnone := mtwrite_none (d := { d with sendrights := none }) hsock rfl buf last blocked
      exact ⟨congrArg Stdiofd.sendrights hnone.1, _, rfl, hnone.2⟩

/-- For all that the kernel and `block` return: `mtwrite` returns an error, or has passed the
    descriptor along with the first bytes that it sent, and has closed it once and after that,
    exactly if the first attempt does not block, or a wait times out, or the last attempt fails. -/
theorem mtwrite_passed_iff (d : Stdiofd) (cr : ℕ) (hsock : d.sock = true)
    (hcr : d.sendrights = some cr) (buf : Bytes) (last : Except ℤ ℕ) (blocked : List Woken) :
    (((∃ e, (mtwrite d buf last blocked).1 = .error e) ∨
          RightsPassed cr (mtwrite d buf last blocked).2.2) ∧
        (mtwrite d buf last blocked).2.2.count (.close cr) = 1 ∧
        (mtwrite d buf last blocked).2.1.sendrights = none) ↔
      blocked = [] ∨ .timeout ∈ blocked ∨ ∃ e, last = .error e := by
  obtain ⟨hrights, calls, hcalls, hnone⟩ := mtwrite_calls hsock hcr buf last blocked
  obtain ⟨hsent, hclose, hpassed⟩ := sent_none hnone cr
  have hcount : (mtwrite d buf last blocked).2.2.count (.close cr) = 1 := by
    rw [hcalls, List.count_cons_of_ne (by simp), List.count_cons_self,
      List.count_eq_zero_of_not_mem hclose]
  rw [mtwrite_error_iff, and_iff_left ⟨hcount, hrights⟩]
  constructor
  · rintro (herr | ⟨pre, buf', n, post, heq, hpre, -, -⟩)
    · exact .inr herr
    · by_cases hb : blocked = []
      · exact .inl hb
      · -- the attempt that sends is not the first, and the others pass nothing
        rw [hcalls, if_neg hb] at heq
        rcases pre with _ | ⟨call, _ | ⟨call', pre⟩⟩
        · cases heq
        · cases heq
        · injection heq with _ heq
          injection heq with _ heq
          exact absurd (heq ▸ List.mem_append_right _ List.mem_cons_self) (hpassed buf' (.count n))
  · rintro (hb | herr)
    · cases last with
      | error e => exact .inl (.inr ⟨e, rfl⟩)
      | ok n =>
        rw [hcalls, if_pos hb]
        refine .inr ⟨[], buf, n, .close cr :: calls, rfl, rfl, ?_, List.not_mem_nil⟩
        exact hsent
    · exact .inl herr

/-- A socket whose buffer is full at the first attempt, and not at the second. -/
def passing : Stdiofd := { fd := 3, sock := true, sendrights := some 7 }

theorem passing_iff :
    (((∃ e, (mtwrite passing [104, 105] (.ok 2) [.ready]).1 = .error e) ∨
          RightsPassed 7 (mtwrite passing [104, 105] (.ok 2) [.ready]).2.2) ∧
        (mtwrite passing [104, 105] (.ok 2) [.ready]).2.2.count (.close 7) = 1 ∧
        (mtwrite passing [104, 105] (.ok 2) [.ready]).2.1.sendrights = none) ↔
      ([Woken.ready] = [] ∨ .timeout ∈ [Woken.ready] ∨ ∃ e, (.ok 2 : Except ℤ ℕ) = .error e) :=
  mtwrite_passed_iff passing 7 rfl rfl [104, 105] (.ok 2) [.ready]

/-- The first attempt closes the descriptor; the second sends all of the data without it. -/
theorem mtwrite_loses :
    (mtwrite passing [104, 105] (.ok 2) [.ready]).1 = .ok 2 ∧
      (mtwrite passing [104, 105] (.ok 2) [.ready]).2.2 =
        [.sendmsg [104, 105] (some 7) .again, .close 7, .sendmsg [104, 105] none (.count 2)] ∧
      sent (mtwrite passing [104, 105] (.ok 2) [.ready]).2.2 = [none] := by
  exact ⟨rfl, rfl, rfl⟩

end Ashd
