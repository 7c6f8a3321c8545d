import Mathlib.Data.Nat.Digits.Lemmas
import Mathlib.Data.List.TakeWhile

/-!
# Byte strings

`char` strings are lists of bytes. The functions of `<string.h>`, `<ctype.h>`
and `<stdio.h>` that the programs use are defined here as they behave in the
C locale (`htparser` and the programs that pass requests on never call
`setlocale`), together with the lemmas about them that later modules use.

* `cstr`: the C string that starts a buffer, that is, the part before the first
  NUL.
* `fold`: lower case; `strcasecmp a b == 0` iff `fold a = fold b`.
* `numeral`: the output of `%i` and `%zx` on a natural number, and
  `numeralValue`, which reads it back.
-/

namespace Ashd

/-- A `char` string or a run of raw bytes. -/
abbrev Bytes := List UInt8

/-- The bytes of an ASCII string literal of the source. -/
def bytes (s : String) : Bytes := s.toList.map fun c => UInt8.ofNat c.toNat

/-! ## Separators -/

section Separators

variable {d : UInt8} {a a' : Bytes}

/-- What comes before the first separator. -/
theorem takeWhile_sep (h : d ∉ a) (b : Bytes) : (a ++ d :: b).takeWhile (· ≠ d) = a := by
  have hall : ∀ c ∈ a, decide (c ≠ d) = true := by
    intro c hc
    simpa using fun h0 : c = d => h (h0 ▸ hc)
  rw [List.takeWhile_append_of_pos hall]
  simp

theorem dropWhile_sep (h : d ∉ a) (b : Bytes) : (a ++ d :: b).dropWhile (· ≠ d) = d :: b := by
  have hsplit := List.takeWhile_append_dropWhile (p := (· ≠ d)) (l := a ++ d :: b)
  rw [takeWhile_sep h] at hsplit
  exact List.append_cancel_left hsplit

end Separators

/-! ## NUL-terminated strings -/

/-- What a `char *` to the start of `b` denotes: `b` up to its first NUL. -/
def cstr (b : Bytes) : Bytes := b.takeWhile (· ≠ 0)

/-- `b` can be a C string. -/
def NulFree (b : Bytes) : Prop := (0 : UInt8) ∉ b

instance (b : Bytes) : Decidable (NulFree b) := inferInstanceAs (Decidable (_ ∉ _))

@[simp] theorem nulFree_nil : NulFree [] := by simp [NulFree]

theorem nulFree_cons {c : UInt8} {s : Bytes} : NulFree (c :: s) ↔ c ≠ 0 ∧ NulFree s := by
  unfold NulFree
  rw [List.mem_cons, not_or, eq_comm]

theorem nulFree_append {a b : Bytes} : NulFree (a ++ b) ↔ NulFree a ∧ NulFree b := by
  unfold NulFree
  rw [List.mem_append, not_or]

theorem nulFree_cstr (b : Bytes) : NulFree (cstr b) := by
  intro h
  simpa using List.mem_takeWhile_imp h

theorem cstr_eq_self {b : Bytes} (h : NulFree b) : cstr b = b := by
  unfold cstr
  rw [List.takeWhile_eq_self_iff]
  intro x hx
  have : x ≠ 0 := fun h0 => h (h0 ▸ hx)
  simpa using this

/-- A buffer with a NUL is its C string, the NUL, and the rest. -/
theorem cstr_split {b : Bytes} (h : ¬ NulFree b) :
    b = cstr b ++ 0 :: b.drop ((cstr b).length + 1) := by
  induction b with
  | nil => exact absurd nulFree_nil h
  | cons c b ih =>
    by_cases hc : c = 0
    · subst hc; simp [cstr]
    · have hb : ¬ NulFree b := fun hb => h (nulFree_cons.mpr ⟨hc, hb⟩)
      have hcs : cstr (c :: b) = c :: cstr b := by simp [cstr, hc]
      rw [hcs]
      simpa using ih hb

theorem cstr_append {a : Bytes} (h : NulFree a) (t : Bytes) : cstr (a ++ 0 :: t) = a := by
  unfold cstr
  exact takeWhile_sep h t

/-! ## Characters -/

/-- `isspace` in the C locale. -/
def isspace (c : UInt8) : Bool := c == 32 || (9 ≤ c && c ≤ 13)

/-- `isdigit`. -/
def isdigit (c : UInt8) : Bool := 48 ≤ c && c ≤ 57

/-- `isalnum` in the C locale. -/
def isalnum (c : UInt8) : Bool :=
  isdigit c || (65 ≤ c && c ≤ 90) || (97 ≤ c && c ≤ 122)

/-- `tolower` in the C locale. -/
def tolower (c : UInt8) : UInt8 := if 65 ≤ c && c ≤ 90 then c + 32 else c

/-- `toupper` in the C locale. -/
def toupper (c : UInt8) : UInt8 := if 97 ≤ c && c ≤ 122 then c - 32 else c

/-- A string in lower case. -/
def fold (s : Bytes) : Bytes := s.map tolower

/-- `!strcasecmp(a, b)`. -/
def strcaseeq (a b : Bytes) : Bool := fold a == fold b

/-- `!strncasecmp(s, p, strlen(p))`: `s` begins with `p` in any letter case. -/
def hasPrefixCase (p s : Bytes) : Bool := fold (s.take p.length) == fold p

theorem isdigit_ne {c : UInt8} (h : isdigit c = true) :
    isspace c = false ∧ c ≠ 43 ∧ c ≠ 45 ∧ c ≠ 0 := by
  unfold isdigit at h
  unfold isspace
  simp only [Bool.and_eq_true, decide_eq_true_eq, UInt8.le_iff_toNat_le] at h
  simp only [Bool.or_eq_false_iff, Bool.and_eq_false_iff, decide_eq_false_iff_not, beq_eq_false_iff_ne,
    ne_eq, UInt8.le_iff_toNat_le, ← UInt8.toNat_inj] at h ⊢
  simp only [UInt8.reduceToNat] at h ⊢
  omega

@[simp] theorem strcaseeq_iff {a b : Bytes} : strcaseeq a b = true ↔ fold a = fold b := by
  simp [strcaseeq]

/-! ## Numerals -/

/-- The character of a digit, `0`–`9` and then `a`–`f`. -/
def digitChar (d : ℕ) : UInt8 := if d < 10 then UInt8.ofNat (48 + d) else UInt8.ofNat (87 + d)

/-- The value of a digit character of base at most 16, in either case. -/
def digitVal (c : UInt8) : Option ℕ :=
  if 48 ≤ c && c ≤ 57 then some (c.toNat - 48)
  else if 65 ≤ c && c ≤ 70 then some (c.toNat - 55)
  else if 97 ≤ c && c ≤ 102 then some (c.toNat - 87)
  else none

/-- `printf` of `n` with `%i` (base 10) or `%zx` (base 16). -/
def numeral (base n : ℕ) : Bytes :=
  if n = 0 then [48] else (Nat.digits base n).reverse.map digitChar

/-- The number a string of digit characters denotes, most significant first. -/
def numeralValue (base : ℕ) (s : Bytes) : ℕ :=
  s.foldl (fun acc c => acc * base + (digitVal c).getD 0) 0

/-- `s` is a non-empty string of decimal digits. -/
def IsDecimal (s : Bytes) : Prop := s ≠ [] ∧ ∀ c ∈ s, isdigit c = true

instance (s : Bytes) : Decidable (IsDecimal s) := inferInstanceAs (Decidable (_ ∧ _))

theorem digitVal_digitChar {d : ℕ} (h : d < 16) : digitVal (digitChar d) = some d := by
  interval_cases d <;> decide

theorem digitVal_lt {c : UInt8} {d : ℕ} (h : digitVal c = some d) : d < 16 := by
  unfold digitVal at h
  split_ifs at h with h1 h2 h3
  all_goals
    cases h
    simp only [Bool.and_eq_true, decide_eq_true_eq, UInt8.le_iff_toNat_le] at *
  · have : (57 : UInt8).toNat = 57 := rfl
    omega
  · have : (70 : UInt8).toNat = 70 := rfl
    omega
  · have : (102 : UInt8).toNat = 102 := rfl
    omega

theorem digitVal_eq_zero {c : UInt8} (h : digitVal c = some 0) : c = 48 := by
  unfold digitVal at h
  split_ifs at h with h1 h2 h3
  all_goals
    have h0 := Option.some.inj h
    simp only [Bool.and_eq_true, decide_eq_true_eq, UInt8.le_iff_toNat_le] at *
  · have : (48 : UInt8).toNat = 48 := rfl
    exact UInt8.toNat_inj.mp (by omega)
  · have : (65 : UInt8).toNat = 65 := rfl
    omega
  · have : (97 : UInt8).toNat = 97 := rfl
    omega

theorem digitVal_of_isdigit {c : UInt8} (h : isdigit c = true) : digitVal c = some (c.toNat - 48) := by
  unfold isdigit at h
  unfold digitVal
  rw [if_pos h]

/-- Digits that follow make a number no smaller. -/
theorem le_foldl_digitVal {base : ℕ} (hb : 0 < base) (s : Bytes) (v : ℕ) :
    v ≤ s.foldl (fun acc c => acc * base + (digitVal c).getD 0) v := by
  induction s generalizing v with
  | nil => exact le_rfl
  | cons c s ih =>
    have : v ≤ v * base := Nat.le_mul_of_pos_right v hb
    exact le_trans (by simp only; omega) (ih _)

theorem numeral_ne_nil (base n : ℕ) : numeral base n ≠ [] := by
  unfold numeral
  split_ifs with h
  · simp
  · simpa using Nat.digits_ne_nil_iff_ne_zero.mpr h

/-- A positive numeral has only digit characters below the base. -/
theorem numeral_digits {base n : ℕ} (h1 : 1 < base) :
    ∀ c ∈ numeral base n, ∃ d, d < base ∧ c = digitChar d := by
  intro c hc
  unfold numeral at hc
  split_ifs at hc with h
  · exact ⟨0, by omega, List.mem_singleton.mp hc⟩
  · obtain ⟨d, hd, rfl⟩ := List.mem_map.mp hc
    exact ⟨d, Nat.digits_lt_base h1 (List.mem_reverse.mp hd), rfl⟩

theorem foldl_digits_reverse (base : ℕ) (hb : base ≤ 16) (l : List ℕ) (hl : ∀ d ∈ l, d < base) :
    (l.reverse.map digitChar).foldl (fun acc c => acc * base + (digitVal c).getD 0) 0 =
      Nat.ofDigits base l := by
  induction l with
  | nil => rfl
  | cons d l ih =>
    have hd : d < 16 := lt_of_lt_of_le (hl d (by simp)) hb
    rw [List.reverse_cons, List.map_append, List.foldl_append,
      ih fun d hd => hl d (List.mem_cons_of_mem _ hd), Nat.ofDigits_cons]
    simp only [List.map_cons, List.map_nil, List.foldl_cons, List.foldl_nil,
      digitVal_digitChar hd, Option.getD_some]
    ring

/-- Reading a numeral gives the number it was printed from. -/
theorem numeralValue_numeral {base : ℕ} (h1 : 1 < base) (h2 : base ≤ 16) (n : ℕ) :
    numeralValue base (numeral base n) = n := by
  unfold numeralValue numeral
  split_ifs with h
  · subst h; simp [digitVal]
  · rw [foldl_digits_reverse base h2 _ fun d hd => Nat.digits_lt_base h1 hd, Nat.ofDigits_digits]

end Ashd
