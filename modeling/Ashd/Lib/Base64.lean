import Ashd.Common.Bits
import Ashd.Lib.Utils

/-!
# Base64 (lib/utils.c:241–309)

A character of the alphabet stands for six bits. The decoder puts them into bytes
as they come: what `cur` holds are the bits of a byte that is not complete, in
its high bits.

Main results:
* `base64decode_encode`: what was encoded is decoded, whatever newlines there are.
* `base64decode_exact_iff`: when the decoder takes only what is in the alphabet.
-/

namespace Ashd.Base64

/-! ## Model -/

/-- `base64set` (lib/utils.c:30). -/
def base64set : Bytes := bytes "ABCDEFGHIJKLMNOPQRSTUVWXYZabcdefghijklmnopqrstuvwxyz0123456789+/"

/-- `base64set[i]`. -/
def digit (i : ℕ) : UInt8 := base64set.getD i 0

/-- `base64encode` (lib/utils.c:241–272), without the NUL at the end. -/
def base64encode : Bytes → Bytes
  | [] => []
  | [a] => [digit ((a.toNat &&& 0xfc) >>> 2), digit ((a.toNat &&& 0x03) <<< 4), 61, 61]
  | [a, b] =>
    [digit ((a.toNat &&& 0xfc) >>> 2),
      digit ((a.toNat &&& 0x03) <<< 4 ||| (b.toNat &&& 0xf0) >>> 4),
      digit ((b.toNat &&& 0x0f) <<< 2), 61]
  | a :: b :: c :: data =>
    digit ((a.toNat &&& 0xfc) >>> 2) ::
      digit ((a.toNat &&& 0x03) <<< 4 ||| (b.toNat &&& 0xf0) >>> 4) ::
      digit ((b.toNat &&& 0x0f) <<< 2 ||| (c.toNat &&& 0xc0) >>> 6) ::
      digit (c.toNat &&& 0x3f) :: base64encode data

/-! ## Specification -/

/-- A byte that may stand in front of the padding. -/
def good (c : UInt8) : Bool := c == 10 || (base64rev c).isSome

/-- The bits that a character stands for. -/
def sextet (c : UInt8) : List Bool := (base64rev c).elim [] (bitsOf 6)

/-- The text before the padding. -/
def body (data : Bytes) : Bytes := data.takeWhile (· ≠ 61)

/-- What a text is to be decoded to: nothing unless its characters are in the alphabet. -/
def decoded (data : Bytes) : Option Bytes :=
  if (body data).all good then some (octets ((body data).flatMap sextet)) else none

/-! ## The alphabet -/

theorem base64rev_digit {i : ℕ} (h : i < 64) : base64rev (digit i) = some i := by
  have : ∀ i : Fin 64, base64rev (digit i) = some i.val := by decide +kernel
  exact this ⟨i, h⟩

theorem base64rev_lt {c : UInt8} {v : ℕ} (h : base64rev c = some v) : v < 64 := by
  unfold base64rev at h
  simp only [Bool.and_eq_true, decide_eq_true_eq, UInt8.le_iff_toNat_le] at h
  split_ifs at h <;> cases h <;> simp at * <;> omega

theorem base64rev_ne {c : UInt8} {v : ℕ} (h : base64rev c = some v) :
    c ≠ 0 ∧ c < 128 ∧ c ≠ 61 ∧ c ≠ 10 := by
  unfold base64rev at h
  simp only [Bool.and_eq_true, decide_eq_true_eq, UInt8.le_iff_toNat_le, UInt8.lt_iff_toNat_lt,
    ne_eq, ← UInt8.toNat_inj] at h ⊢
  split_ifs at h <;> simp at * <;> omega

/-! ## The decoder -/

/-- The byte that `b` more bits complete. -/
theorem cur_or {pending : List Bool} {b n : ℕ} (hb : pending.length + b = 8) (hn : n < 2 ^ b) :
    UInt8.ofNat (ofBits pending * 2 ^ b) ||| UInt8.ofNat n =
      UInt8.ofNat (ofBits (pending ++ bitsOf b n)) := by
  have hlt : ofBits pending * 2 ^ b < 256 := by
    calc ofBits pending * 2 ^ b < 2 ^ pending.length * 2 ^ b :=
          Nat.mul_lt_mul_of_pos_right (ofBits_lt pending) (Nat.two_pow_pos b)
      _ = 256 := by rw [← pow_add, hb]; rfl
  have hn' : n < 256 := lt_of_lt_of_le hn (by
    calc 2 ^ b ≤ 2 ^ 8 := Nat.pow_le_pow_right (by omega) (by omega)
      _ = 256 := rfl)
  rw [ofBits_append, ofBits_bitsOf, length_bitsOf, Nat.mod_eq_of_lt hn, Nat.mul_comm,
    Nat.two_pow_add_eq_or_of_lt hn]
  rw [Nat.mul_comm] at hlt
  apply UInt8.toNat_inj.mp
  rw [UInt8.toNat_or, UInt8.toNat_ofNat', UInt8.toNat_ofNat', UInt8.toNat_ofNat',
    Nat.mod_eq_of_lt hlt, Nat.mod_eq_of_lt hn', Nat.mod_eq_of_lt]
  exact Nat.or_lt_two_pow hlt hn'

/-- The bits that are left of a character, in their place in the next byte. -/
theorem cur_rest {v b : ℕ} (hb : b ≤ 6) :
    UInt8.ofNat (v * 2 ^ (b + 2)) = UInt8.ofNat (ofBits (bitsOf (6 - b) v) * 2 ^ (b + 2)) := by
  have hpow : 2 ^ (6 - b) * 2 ^ (b + 2) = 2 ^ 8 := by
    rw [← pow_add]
    congr 1
    omega
  apply UInt8.toNat_inj.mp
  rw [UInt8.toNat_ofNat', UInt8.toNat_ofNat', ofBits_bitsOf, ← hpow, Nat.mul_mod_mul_right,
    Nat.mul_mod_mul_right, Nat.mod_mod]

/-- `b` bits are missing of a byte that begins with the bits `pending`. -/
structure Missing (pending : List Bool) (b : ℕ) : Prop where
  length : pending.length + b = 8
  two_le : 2 ≤ b
  even : b % 2 = 0

/-- What the decoder does with a character of the alphabet. -/
theorem base64loop_digit {c : UInt8} {v : ℕ} (hv : base64rev c = some v) (data buf : Bytes)
    {pending : List Bool} {b : ℕ} (hb : Missing pending b) :
    ∃ b' buf' pending', Missing pending' b' ∧
      base64loop (c :: data) (UInt8.ofNat (ofBits pending * 2 ^ b)) b buf =
        base64loop data (UInt8.ofNat (ofBits pending' * 2 ^ b')) b' buf' ∧
      ∀ l, buf ++ octets (pending ++ (bitsOf 6 v ++ l)) = buf' ++ octets (pending' ++ l) := by
  obtain ⟨h0, h128, h61, h10⟩ := base64rev_ne hv
  obtain ⟨hlen, htwo, heven⟩ := hb
  have hchar : ¬ (c = 0 ∨ 128 ≤ c) := not_or.mpr ⟨h0, UInt8.not_le.mpr h128⟩
  rw [base64loop, if_neg hchar, if_neg h61, if_neg h10, hv]
  simp only
  by_cases hb : b ≤ 6
  · have hdiv : v / 2 ^ (6 - b) < 2 ^ b := by
      rw [Nat.div_lt_iff_lt_mul (Nat.two_pow_pos _), ← pow_add, Nat.add_sub_cancel' hb]
      exact base64rev_lt hv
    have hbits : bitsOf 6 v = bitsOf b (v / 2 ^ (6 - b)) ++ bitsOf (6 - b) v := by
      rw [← bitsOf_add, Nat.add_sub_cancel' hb]
    refine ⟨b + 2, buf ++ [UInt8.ofNat (ofBits (pending ++ bitsOf b (v / 2 ^ (6 - b))))],
      bitsOf (6 - b) v, ⟨by simp; omega, by omega, by omega⟩, ?_, fun l => ?_⟩
    · rw [if_pos hb, cur_or hlen hdiv, cur_rest hb]
    · rw [hbits, List.append_assoc (bitsOf b _), ← List.append_assoc pending,
        octets_append (by simp [hlen]), List.append_assoc, List.singleton_append]
  · obtain rfl : b = 8 := by omega
    obtain rfl : pending = [] := List.length_eq_zero_iff.mp (by omega)
    refine ⟨2, buf, bitsOf 6 v, ⟨by simp, le_rfl, rfl⟩, ?_, fun l => by rw [List.nil_append]⟩
    have hlt : v < 2 ^ 6 := base64rev_lt hv
    rw [if_neg hb, ofBits_bitsOf, Nat.mod_eq_of_lt hlt]
    simp

/-- What it does with characters of the alphabet and newlines. -/
theorem base64loop_run {data : Bytes} (hgood : ∀ c ∈ data, good c = true) (t : Bytes) :
    ∀ {b : ℕ} (buf : Bytes) {pending : List Bool}, Missing pending b →
    ∃ b' buf' pending', Missing pending' b' ∧
      base64loop (data ++ t) (UInt8.ofNat (ofBits pending * 2 ^ b)) b buf =
        base64loop t (UInt8.ofNat (ofBits pending' * 2 ^ b')) b' buf' ∧
      ∀ l, buf ++ octets (pending ++ (data.flatMap sextet ++ l)) =
        buf' ++ octets (pending' ++ l) := by
  induction data with
  | nil => exact fun {b} buf {pending} hb => ⟨b, buf, pending, hb, rfl, fun l => rfl⟩
  | cons c data ih =>
    intro b buf pending hb
    have ih := @ih fun d hd => hgood d (List.mem_cons_of_mem _ hd)
    rw [List.cons_append, List.flatMap_cons, sextet]
    cases hv : base64rev c with
    | none =>
      obtain rfl : c = 10 := by simpa [good, hv] using hgood c List.mem_cons_self
      exact ih buf hb
    | some v =>
      obtain ⟨b₁, buf₁, pending₁, hb₁, hloop₁, hbits₁⟩ := base64loop_digit hv (data ++ t) buf hb
      obtain ⟨b', buf', pending', hb', hloop, hbits⟩ := ih buf₁ hb₁
      refine ⟨b', buf', pending', hb', hloop₁.trans hloop, fun l => ?_⟩
      rw [Option.elim_some, List.append_assoc (bitsOf 6 v), hbits₁, hbits]

/-- The bits that are left at the end are dropped. -/
theorem Missing.octets {pending : List Bool} {b : ℕ} (h : Missing pending b) :
    octets pending = [] := by
  have := h.length
  have := h.two_le
  exact octets_eq_nil (by omega)

theorem base64decode_run {data : Bytes} (hgood : ∀ c ∈ data, good c = true) (t : Bytes) :
    ∃ cur b, base64decode (data ++ t) = base64loop t cur b (octets (data.flatMap sextet)) := by
  have h8 : Missing [] 8 := ⟨rfl, by omega, rfl⟩
  obtain ⟨b, buf, pending, hb, hloop, hbits⟩ := base64loop_run hgood t [] h8
  have hbuf : octets (data.flatMap sextet) = buf := by simpa [hb.octets] using hbits []
  rw [hbuf]
  exact ⟨_, b, hloop⟩

theorem base64decode_good {data : Bytes} (hgood : ∀ c ∈ body data, good c = true) :
    base64decode data = some (octets ((body data).flatMap sextet)) := by
  obtain ⟨cur, b, h⟩ := base64decode_run hgood (data.dropWhile (· ≠ 61))
  rw [body, List.takeWhile_append_dropWhile] at h
  rw [h]
  cases hrest : data.dropWhile (· ≠ 61) with
  | nil => rfl
  | cons c rest =>
    have hc := List.head?_dropWhile_not (· ≠ (61 : UInt8)) data
    rw [hrest] at hc
    obtain rfl : c = 61 := by simpa using hc
    rfl

/-! ## The encoder -/

theorem bits_first (a : ℕ) : bitsOf 6 ((a &&& 0xfc) >>> 2) ++ bitsOf 2 a = bitsOf 8 a := by
  simp +decide [bitsOf, Nat.testBit_and, Nat.testBit_shiftRight]

theorem bits_second (a b : ℕ) : bitsOf 6 ((a &&& 0x03) <<< 4 ||| (b &&& 0xf0) >>> 4) ++ bitsOf 4 b =
    bitsOf 2 a ++ bitsOf 8 b := by
  have h3 : Nat.testBit 3 1 = true := rfl
  have h240 : Nat.testBit 240 9 = false := rfl
  simp +decide [bitsOf, Nat.testBit_or, Nat.testBit_and, Nat.testBit_shiftLeft,
    Nat.testBit_shiftRight, h3, h240]

theorem bits_third (b c : ℕ) : bitsOf 6 ((b &&& 0x0f) <<< 2 ||| (c &&& 0xc0) >>> 6) ++
    bitsOf 6 (c &&& 0x3f) = bitsOf 4 b ++ bitsOf 8 c := by
  have h15 : ∀ i < 4, Nat.testBit 15 i = true := by decide
  have h192 : Nat.testBit 192 9 = false ∧ Nat.testBit 192 10 = false ∧
    Nat.testBit 192 11 = false := by decide
  simp +decide [bitsOf, Nat.testBit_or, Nat.testBit_and, Nat.testBit_shiftLeft,
    Nat.testBit_shiftRight, h15, h192]

theorem bits_pad_one (a : ℕ) : bitsOf 6 ((a &&& 0x03) <<< 4) = bitsOf 2 a ++ bitsOf 4 0 := by
  simp +decide [bitsOf, Nat.testBit_and, Nat.testBit_shiftLeft]

theorem bits_pad_two (b : ℕ) : bitsOf 6 ((b &&& 0x0f) <<< 2) = bitsOf 4 b ++ bitsOf 2 0 := by
  simp +decide [bitsOf, Nat.testBit_and, Nat.testBit_shiftLeft]

/-- Three bytes in four characters. -/
theorem bits_group (a b c : ℕ) :
    bitsOf 6 ((a &&& 0xfc) >>> 2) ++ (bitsOf 6 ((a &&& 0x03) <<< 4 ||| (b &&& 0xf0) >>> 4) ++
      (bitsOf 6 ((b &&& 0x0f) <<< 2 ||| (c &&& 0xc0) >>> 6) ++ bitsOf 6 (c &&& 0x3f))) =
    bitsOf 8 a ++ (bitsOf 8 b ++ bitsOf 8 c) := by
  rw [bits_third, ← List.append_assoc (bitsOf 6 _) (bitsOf 4 _), bits_second,
    List.append_assoc, ← List.append_assoc, bits_first]

/-- Each character has the six bits of its number. -/
theorem sextet_digit {i : ℕ} (h : i < 64) : sextet (digit i) = bitsOf 6 i := by
  rw [sextet, base64rev_digit h, Option.elim_some]

theorem and_shiftLeft_lt (n : ℕ) {m k : ℕ} (h : m * 2 ^ k < 64) : (n &&& m) <<< k < 2 ^ 6 := by
  rw [Nat.shiftLeft_eq]
  exact lt_of_le_of_lt (Nat.mul_le_mul_right _ Nat.and_le_right) h

theorem and_shiftRight_lt (n : ℕ) {m k : ℕ} (h : m / 2 ^ k < 64) : (n &&& m) >>> k < 2 ^ 6 := by
  rw [Nat.shiftRight_eq_div_pow]
  exact lt_of_le_of_lt (Nat.div_le_div_right Nat.and_le_right) h

/-- What is encoded is characters with the bits of the data and less than a byte of zeros, and then
    the padding. -/
theorem base64encode_spec (x : Bytes) : ∃ (is : List ℕ) (pad : Bytes) (l : List Bool),
    base64encode x = is.map digit ++ pad ∧
    (∀ i ∈ is, i < 64) ∧ (∀ c ∈ pad, c = 61) ∧ l.length < 8 ∧
    is.flatMap (bitsOf 6) = x.flatMap (fun c => bitsOf 8 c.toNat) ++ l := by
  fun_induction base64encode x with
  | case1 => exact ⟨[], [], [], rfl, by simp, by simp, by simp, rfl⟩
  | case2 a =>
    refine ⟨[_, _], [61, 61], bitsOf 4 0, rfl, ?_, by simp, by simp, ?_⟩
    · simp only [List.forall_mem_cons]
      exact ⟨and_shiftRight_lt _ (by decide), and_shiftLeft_lt _ (by decide), List.forall_mem_nil _⟩
    · simp only [List.flatMap_cons, List.flatMap_nil, List.append_nil]
      rw [bits_pad_one, ← List.append_assoc, bits_first]
  | case3 a b =>
    refine ⟨[_, _, _], [61], bitsOf 2 0, rfl, ?_, by simp, by simp, ?_⟩
    · simp only [List.forall_mem_cons]
      exact ⟨and_shiftRight_lt _ (by decide), Nat.or_lt_two_pow (and_shiftLeft_lt _ (by decide))
        (and_shiftRight_lt _ (by decide)), and_shiftLeft_lt _ (by decide), List.forall_mem_nil _⟩
    · simp only [List.flatMap_cons, List.flatMap_nil, List.append_nil]
      rw [bits_pad_two, ← List.append_assoc (bitsOf 6 _) (bitsOf 4 _), bits_second,
        List.append_assoc, ← List.append_assoc, bits_first, List.append_assoc]
  | case4 a b c data ih =>
    obtain ⟨is, pad, l, heq, his, hpad, hl, hbits⟩ := ih
    refine ⟨_ :: _ :: _ :: _ :: is, pad, l, by rw [heq]; rfl, ?_, hpad, hl, ?_⟩
    · simp only [List.forall_mem_cons]
      exact ⟨and_shiftRight_lt _ (by decide), Nat.or_lt_two_pow (and_shiftLeft_lt _ (by decide))
        (and_shiftRight_lt _ (by decide)), Nat.or_lt_two_pow (and_shiftLeft_lt _ (by decide))
        (and_shiftRight_lt _ (by decide)), lt_of_le_of_lt Nat.and_le_right (by decide), his⟩
    · have hgroup := bits_group a.toNat b.toNat c.toNat
      simp only [List.flatMap_cons, hbits]
      simp only [← List.append_assoc] at hgroup ⊢
      rw [hgroup]

/-! ## Round trip -/

theorem body_filter (t : Bytes) : (body t).filter (· ≠ 10) = body (t.filter (· ≠ 10)) := by
  unfold body
  induction t with
  | nil => rfl
  | cons c t ih =>
    by_cases h10 : c = 10
    · subst h10
      simpa using ih
    · by_cases h61 : c = 61
      · subst h61
        simp
      · simpa [h10, h61] using ih

theorem flatMap_sextet_filter (t : Bytes) :
    (t.filter (· ≠ 10)).flatMap sextet = t.flatMap sextet := by
  have hnewline : sextet 10 = [] := rfl
  induction t with
  | nil => rfl
  | cons c t ih =>
    by_cases h10 : c = 10
    · subst h10
      simpa [hnewline] using ih
    · simpa [h10] using ih

theorem body_append {chars pad : Bytes} (hchars : ∀ c ∈ chars, c ≠ 61) (hpad : ∀ c ∈ pad, c = 61) :
    body (chars ++ pad) = chars := by
  unfold body
  rw [List.takeWhile_append_of_pos fun c hc => by simpa using hchars c hc]
  cases pad with
  | nil => simp
  | cons c pad => simp [hpad c]

/-- Newlines anywhere in what was encoded do not matter for what it is decoded to. -/
theorem base64decode_encode (x t : Bytes) (h : t.filter (· ≠ 10) = base64encode x) :
    base64decode t = some x := by
  obtain ⟨is, pad, l, henc, his, hpad, hl, hbits⟩ := base64encode_spec x
  have hbody : (body t).filter (· ≠ 10) = is.map digit := by
    rw [body_filter, h, henc]
    refine body_append (fun c hc => ?_) hpad
    obtain ⟨i, hi, rfl⟩ := List.mem_map.mp hc
    exact (base64rev_ne (base64rev_digit (his i hi))).2.2.1
  have hgood : ∀ c ∈ body t, good c = true := by
    intro c hc
    by_cases h10 : c = 10
    · simp [good, h10]
    · have hmem : c ∈ is.map digit := by
        rw [← hbody]
        exact List.mem_filter.mpr ⟨hc, by simpa using h10⟩
      obtain ⟨i, hi, rfl⟩ := List.mem_map.mp hmem
      simp [good, base64rev_digit (his i hi)]
  have hsextets : (is.map digit).flatMap sextet = is.flatMap (bitsOf 6) := by
    rw [List.flatMap_map]
    exact List.flatMap_congr fun i hi => sextet_digit (his i hi)
  rw [base64decode_good hgood, ← flatMap_sextet_filter, hbody, hsextets, hbits, octets_flatMap x hl]

/-- `QUJD` is `ABC`. -/
theorem base64decode_encode_newlines : base64decode (bytes "QU\n\nJD\n") = some (bytes "ABC") :=
  base64decode_encode _ _ (by decide +kernel)

/-! ## What is outside of the alphabet -/

/-- The first character before the padding that is not in the alphabet, if there is one, is an
    ASCII character. -/
def Plain (data : Bytes) : Prop := ∀ c ∈ ((body data).dropWhile good).head?, c < 128

/-- At a character that is not in the alphabet, the decoder fails or ends. -/
theorem base64loop_bad {c : UInt8} (hgood : good c = false) (h0 : c ≠ 0) (h61 : c ≠ 61)
    (data : Bytes) (cur : UInt8) (b : ℕ) (buf : Bytes) :
    base64loop (c :: data) cur b buf = if c < 128 then none else some buf := by
  obtain ⟨h10, hrev⟩ : c ≠ 10 ∧ base64rev c = none := by simpa [good] using hgood
  rw [base64loop]
  by_cases h128 : c < 128
  · rw [if_neg (not_or.mpr ⟨h0, UInt8.not_le.mpr h128⟩), if_neg h61, if_neg h10, hrev, if_pos h128]
  · rw [if_pos (.inr (UInt8.not_lt.mp h128)), if_neg h128]

/-- The decoder refuses what is outside of the alphabet, and decodes the rest, iff the first
    character that is outside of it is an ASCII character: at any other the loop ends as at the
    end of the text. -/
theorem base64decode_exact_iff (data : Bytes) (hdata : NulFree data) :
    base64decode data = decoded data ↔ Plain data := by
  have hgood : ∀ c ∈ (body data).takeWhile good, good c = true :=
    fun c hc => List.mem_takeWhile_imp hc
  have hsplit := List.takeWhile_append_dropWhile (p := good) (l := body data)
  have hhead := List.head?_dropWhile_not good (body data)
  unfold Plain decoded
  generalize (body data).takeWhile good = g at *
  cases hbad : (body data).dropWhile good with
  | nil =>
    rw [hbad, List.append_nil] at hsplit
    rw [hsplit] at hgood
    rw [if_pos (List.all_eq_true.mpr hgood)]
    exact iff_of_true (base64decode_good hgood) (by simp)
  | cons c rest =>
    rw [hbad] at hsplit hhead
    have hc : good c = false := hhead
    have hbody : body data ++ data.dropWhile (· ≠ 61) = data := List.takeWhile_append_dropWhile
    have hmem : c ∈ body data := by
      rw [← hsplit]
      simp
    have h61 : c ≠ 61 := by simpa using List.mem_takeWhile_imp hmem
    have h0 : c ≠ 0 := fun h => hdata (h ▸ (List.takeWhile_sublist _).subset hmem)
    obtain ⟨cur, b, hrun⟩ := base64decode_run hgood (c :: rest ++ data.dropWhile (· ≠ 61))
    rw [← List.append_assoc, hsplit, hbody, List.cons_append,
      base64loop_bad hc h0 h61] at hrun
    have hnone : ¬ (body data).all good = true := by
      rw [List.all_eq_true]
      intro h
      rw [h c hmem] at hc
      cases hc
    rw [hrun, if_neg hnone]
    by_cases h128 : c < 128 <;> simp [h128]

theorem base64decode_exact_ascii : base64decode (bytes "QU-D") = decoded (bytes "QU-D") :=
  (base64decode_exact_iff _ (by decide)).mpr (by unfold Plain; decide +kernel)

/-- A byte above 127 ends the text. -/
theorem base64decode_high_byte :
    ¬ ∀ data : Bytes, NulFree data → base64decode data = decoded data := by
  intro h
  have hdec := h (bytes "dXNlcg" ++ [128]) (by decide)
  have hnone : decoded (bytes "dXNlcg" ++ [128]) = none := if_neg (by decide)
  have hsome : base64decode (bytes "dXNlcg" ++ [128]) = some (bytes "user") := by decide +kernel
  rw [hnone, hsome] at hdec
  cases hdec

end Ashd.Base64
