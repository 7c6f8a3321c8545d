import Ashd.Common.Bytes

/-!
# Connection identifiers

`connid` of src/htparser.c counts in letters, the lowest first, with no letter for zero: it is a
bijective numeration of base 26. So the strings that it returns are as different as numbers are.

Main results:
* `value_connid`: a call adds one to the number that the letters denote.
* `connids_nodup`: all that is returned since the start of the process is different.
-/

namespace Ashd

/-- What a call of `connid` (src/htparser.c:288–305) makes of the letters in `cur`. Without a `goto
    done`, the loop ends with `bufadd`. -/
def connid : Bytes → Bytes
  | [] => [65]
  | c :: cur => if c + 1 > 90 then 65 :: connid cur else (c + 1) :: cur

/-- What the first `n` calls return, each a copy of `cur`. -/
def connids : ℕ → Bytes → List Bytes
  | 0, _ => []
  | n + 1, cur => connid cur :: connids n (connid cur)

/-- Letters from A to Z. -/
def Letters (s : Bytes) : Prop := ∀ c ∈ s, 65 ≤ c.toNat ∧ c.toNat ≤ 90

/-- The number that letters denote, A being 1. -/
def value : Bytes → ℕ
  | [] => 0
  | c :: cur => (c.toNat - 64) + 26 * value cur

/-- The letter after another, or the carry. -/
theorem next_letter {c : UInt8} (h : 65 ≤ c.toNat ∧ c.toNat ≤ 90) :
    (c + 1 > 90 ↔ c.toNat = 90) ∧ (c + 1).toNat = c.toNat + 1 := by
  have hadd : (c + 1).toNat = c.toNat + 1 := by
    rw [UInt8.toNat_add]
    show (c.toNat + 1) % 256 = c.toNat + 1
    omega
  rw [gt_iff_lt, UInt8.lt_iff_toNat_lt, hadd]
  show (90 < c.toNat + 1 ↔ _) ∧ _
  omega

theorem letters_connid {cur : Bytes} (h : Letters cur) : Letters (connid cur) := by
  have hA : 65 ≤ (65 : UInt8).toNat ∧ (65 : UInt8).toNat ≤ 90 := by decide
  induction cur with
  | nil =>
    intro c hc
    rw [List.mem_singleton.mp hc]
    exact hA
  | cons c cur ih =>
    have hcur : Letters cur := fun x hx => h x (List.mem_cons_of_mem _ hx)
    have hc := h c List.mem_cons_self
    obtain ⟨hgt, hadd⟩ := next_letter hc
    rw [connid]
    split_ifs with hcarry
    · intro x hx
      rcases List.mem_cons.mp hx with rfl | hx
      · exact hA
      · exact ih hcur x hx
    · intro x hx
      rw [hgt] at hcarry
      rcases List.mem_cons.mp hx with rfl | hx
      · omega
      · exact hcur x hx

/-- A call counts on by one. -/
theorem value_connid {cur : Bytes} (h : Letters cur) : value (connid cur) = value cur + 1 := by
  induction cur with
  | nil => rfl
  | cons c cur ih =>
    have hcur : Letters cur := fun x hx => h x (List.mem_cons_of_mem _ hx)
    have hc := h c List.mem_cons_self
    obtain ⟨hgt, hadd⟩ := next_letter hc
    rw [connid]
    split_ifs with hcarry
    · rw [value, value, ih hcur]
      have hA : (65 : UInt8).toNat = 65 := rfl
      rw [hgt] at hcarry
      omega
    · rw [value, value, hadd]
      omega

theorem connid_ne_nil (cur : Bytes) : connid cur ≠ [] := by
  cases cur with
  | nil => exact List.cons_ne_nil _ _
  | cons c cur =>
    rw [connid]
    split_ifs
    · exact List.cons_ne_nil _ _
    · exact List.cons_ne_nil _ _

/-- The numbers of what is returned go up from that of `cur`. -/
theorem connids_values {cur : Bytes} (h : Letters cur) (n : ℕ) :
    (connids n cur).map value = List.range' (value cur + 1) n := by
  induction n generalizing cur with
  | zero => rfl
  | succ n ih =>
    rw [connids, List.map_cons, ih (letters_connid h), value_connid h, List.range'_succ]

theorem connids_letters {cur : Bytes} (h : Letters cur) (n : ℕ) :
    ∀ id ∈ connids n cur, id ≠ [] ∧ Letters id := by
  induction n generalizing cur with
  | zero => exact fun id hid => absurd hid List.not_mem_nil
  | succ n ih =>
    intro id hid
    rcases List.mem_cons.mp hid with rfl | hid
    · exact ⟨connid_ne_nil cur, letters_connid h⟩
    · exact ih (letters_connid h) id hid

/-- However many connections there are, the strings that `connid` has returned for them are
    different, not empty, and consist of letters from A to Z. -/
theorem connids_nodup (n : ℕ) :
    (connids n []).Nodup ∧ ∀ id ∈ connids n [], id ≠ [] ∧ Letters id := by
  have hnil : Letters [] := fun c hc => absurd hc List.not_mem_nil
  refine ⟨?_, connids_letters hnil n⟩
  apply List.Nodup.of_map value
  rw [connids_values hnil]
  exact List.nodup_range'

example : connids 28 [] =
    (["A", "B", "C", "D", "E", "F", "G", "H", "I", "J", "K", "L", "M", "N", "O", "P", "Q", "R", "S",
      "T", "U", "V", "W", "X", "Y", "Z", "AA", "BA"].map bytes) := by decide

end Ashd
