import Mathlib.Data.Nat.Bitwise
import Mathlib.Tactic.Ring

/-!
# Numbers as bits, most significant first

`bitsOf k n` are the `k` low bits of `n`, and `ofBits` reads bits back. A run of bits that is to be
taken for bytes is cut into groups of eight; what is left over is dropped (`octets`).

Main results:
* `bitsOf_add`: the bits of a number in two parts.
* `ofBits_append`: the value of two parts.
* `octets_flatMap`: the bytes come back from their bits, whatever less than a byte follows.
-/

namespace Ashd

/-- The `k` low bits of `n`, the highest first. -/
def bitsOf : ℕ → ℕ → List Bool
  | 0, _ => []
  | k + 1, n => n.testBit k :: bitsOf k n

/-- The number with these bits. -/
def ofBits (l : List Bool) : ℕ := l.foldl (fun n b => 2 * n + b.toNat) 0

/-- The bytes with these bits, without the bits at the end that do not make up a byte. -/
def octets (l : List Bool) : List UInt8 :=
  if 8 ≤ l.length then UInt8.ofNat (ofBits (l.take 8)) :: octets (l.drop 8) else []
termination_by l.length
decreasing_by rw [List.length_drop]; omega

@[simp] theorem length_bitsOf (k n : ℕ) : (bitsOf k n).length = k := by
  induction k with
  | zero => rfl
  | succ k ih => rw [bitsOf, List.length_cons, ih]

/-- The high bits, and then the low ones. -/
theorem bitsOf_add (j k n : ℕ) : bitsOf (j + k) n = bitsOf j (n / 2 ^ k) ++ bitsOf k n := by
  induction j with
  | zero => simp [bitsOf]
  | succ j ih =>
    rw [Nat.succ_add, bitsOf, bitsOf, ih, List.cons_append, ← Nat.shiftRight_eq_div_pow,
      Nat.testBit_shiftRight, Nat.add_comm k j]

@[simp] theorem ofBits_nil : ofBits [] = 0 := rfl

theorem foldl_ofBits (l : List Bool) (n : ℕ) :
    l.foldl (fun n b => 2 * n + b.toNat) n = n * 2 ^ l.length + ofBits l := by
  unfold ofBits
  induction l generalizing n with
  | nil => simp
  | cons b l ih =>
    rw [List.foldl_cons, List.foldl_cons, ih, ih (2 * 0 + b.toNat), List.length_cons, pow_succ]
    ring

theorem ofBits_append (a b : List Bool) : ofBits (a ++ b) = ofBits a * 2 ^ b.length + ofBits b := by
  rw [ofBits, List.foldl_append, foldl_ofBits]
  rfl

theorem ofBits_cons (b : Bool) (l : List Bool) :
    ofBits (b :: l) = b.toNat * 2 ^ l.length + ofBits l := by
  rw [← List.singleton_append, ofBits_append]
  simp [ofBits]

theorem ofBits_lt (l : List Bool) : ofBits l < 2 ^ l.length := by
  induction l with
  | nil => simp
  | cons b l ih =>
    rw [ofBits_cons, List.length_cons, pow_succ]
    cases b <;> simp <;> omega

theorem ofBits_bitsOf (k n : ℕ) : ofBits (bitsOf k n) = n % 2 ^ k := by
  induction k with
  | zero => simp [bitsOf, Nat.mod_one]
  | succ k ih =>
    rw [bitsOf, ofBits_cons, ih, length_bitsOf, Nat.toNat_testBit, Nat.mod_pow_succ]
    ring

theorem octets_append {a : List Bool} (h : a.length = 8) (l : List Bool) :
    octets (a ++ l) = UInt8.ofNat (ofBits a) :: octets l := by
  rw [octets, if_pos (by rw [List.length_append]; omega), List.take_left' h, List.drop_left' h]

theorem octets_eq_nil {l : List Bool} (h : l.length < 8) : octets l = [] := by
  rw [octets, if_neg (by omega)]

/-- Bytes that have been written in bits. -/
theorem octets_flatMap (x : List UInt8) {l : List Bool} (h : l.length < 8) :
    octets (x.flatMap (fun c => bitsOf 8 c.toNat) ++ l) = x := by
  induction x with
  | nil => exact octets_eq_nil h
  | cons c x ih =>
    rw [List.flatMap_cons, List.append_assoc, octets_append (length_bitsOf 8 _), ih, ofBits_bitsOf,
      Nat.mod_eq_of_lt c.toNat_lt, UInt8.ofNat_toNat]

end Ashd
