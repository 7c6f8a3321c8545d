import Ashd.Lib.Resp

/-!
# Quoting names

A directory listing puts `htmlquote(urlquote(name))` into a link, and the name as it is shown
through `htmlquote`. When the link is followed, the client takes the entities away, and
`unquoteurl` the escapes.

Main results:
* `quoting_roundtrip`: the link leads to the name, whatever bytes it consists of.
* `htmlText_htmlquote`, `unhtmlquote_htmlquote`: what `htmlquote` puts out can stand in a page, and
  is read as what was put in.
-/

namespace Ashd

/-! ## `urlquote` -/

/-- `safechars` (lib/resp.c:33–43). -/
def safechars : List ℕ :=
  [0, 0, 0, 0, 0, 0, 0, 0, 0, 0, 0, 0, 0, 0, 0, 0,
   0, 0, 0, 0, 0, 0, 0, 0, 0, 0, 0, 0, 0, 0, 0, 0,
   0, 1, 0, 0, 0, 0, 0, 0, 1, 1, 1, 0, 0, 1, 1, 1,
   1, 1, 1, 1, 1, 1, 1, 1, 1, 1, 0, 0, 0, 0, 0, 0,
   0, 1, 1, 1, 1, 1, 1, 1, 1, 1, 1, 1, 1, 1, 1, 1,
   1, 1, 1, 1, 1, 1, 1, 1, 1, 1, 1, 0, 0, 0, 0, 1,
   0, 1, 1, 1, 1, 1, 1, 1, 1, 1, 1, 1, 1, 1, 1, 1,
   1, 1, 1, 1, 1, 1, 1, 1, 1, 1, 1, 0, 0, 0, 1, 0]

/-- `(c < 128) && safechars[(int)c]`. -/
def issafe (c : UInt8) : Bool := decide (c < 128) && safechars.getD c.toNat 0 ≠ 0

/-- A digit of `%X`. -/
def upperDigit (d : ℕ) : UInt8 := if d < 10 then UInt8.ofNat (48 + d) else UInt8.ofNat (55 + d)

/-- What `urlquote` puts for a byte: itself, or what `bprintf` makes of it with `%%%02X`. -/
def urlquoteChar (c : UInt8) : Bytes :=
  if issafe c then [c] else [37, upperDigit (c.toNat / 16), upperDigit (c.toNat % 16)]

/-- `urlquote` (lib/resp.c:45–63). -/
def urlquote (text : Bytes) : Bytes := text.flatMap urlquoteChar

/-- The characters without a meaning of their own in a URL: letters, digits and some marks. -/
def isunreserved (c : UInt8) : Bool := isalnum c || c ∈ bytes "-_.!~*'()"

/-- Unreserved characters and escapes. -/
inductive Escaped : Bytes → Prop
  | nil : Escaped []
  | plain {c : UInt8} {s : Bytes} (hc : isunreserved c = true) (hs : Escaped s) : Escaped (c :: s)
  | escape {h l : ℕ} {s : Bytes} (hh : h < 16) (hl : l < 16) (hs : Escaped s) :
      Escaped (37 :: upperDigit h :: upperDigit l :: s)

/-! ## The entities of `htmlquote` -/

/-- The entities, with the characters that they stand for. -/
def entities : List (Bytes × UInt8) :=
  [(bytes "&lt;", 60), (bytes "&gt;", 62), (bytes "&amp;", 38), (bytes "&quot;", 34)]

/-- Replacing the entities of `htmlquote` by what they stand for, as a browser does. -/
def unhtmlquote : Bytes → Bytes
  | [] => []
  | 38 :: 108 :: 116 :: 59 :: s => 60 :: unhtmlquote s
  | 38 :: 103 :: 116 :: 59 :: s => 62 :: unhtmlquote s
  | 38 :: 97 :: 109 :: 112 :: 59 :: s => 38 :: unhtmlquote s
  | 38 :: 113 :: 117 :: 111 :: 116 :: 59 :: s => 34 :: unhtmlquote s
  | c :: s => c :: unhtmlquote s

/-- A text that can stand in a page, also between double quotes: every ampersand in it begins an
    entity of `htmlquote`. -/
structure HtmlText (text : Bytes) : Prop where
  lt : 60 ∉ text
  gt : 62 ∉ text
  quot : 34 ∉ text
  amp : ∀ pre post, text = pre ++ 38 :: post → ∃ e ∈ entities, e.1 <+: 38 :: post

/-! ## Characters -/

/-- The table holds of unreserved characters, and of the slash. -/
theorem isunreserved_of_issafe {c : UInt8} (h : issafe c = true) :
    c = 47 ∨ isunreserved c = true := by
  have hall : ∀ n : Fin 256, issafe (.ofFin n) = true →
      UInt8.ofFin n = 47 ∨ isunreserved (.ofFin n) = true := by decide +kernel
  exact hall c.toFin h

/-- What is safe in a URL is not looked at by `unquoteurl` and `htmlquote`. -/
theorem ne_of_issafe {c : UInt8} (h : issafe c = true) :
    c ≠ 37 ∧ c ≠ 60 ∧ c ≠ 62 ∧ c ≠ 38 ∧ c ≠ 34 := by
  refine ⟨?_, ?_, ?_, ?_, ?_⟩ <;>
  · rintro rfl
    revert h
    decide

theorem digitVal_upperDigit {d : ℕ} (h : d < 16) : digitVal (upperDigit d) = some d := by
  interval_cases d <;> decide

theorem issafe_upperDigit {d : ℕ} (h : d < 16) : issafe (upperDigit d) = true := by
  interval_cases d <;> decide

theorem htmlquoteChar_safe {c : UInt8} (h : issafe c = true) : htmlquoteChar c = [c] := by
  obtain ⟨-, h1, h2, h3, h4⟩ := ne_of_issafe h
  rw [htmlquoteChar, if_neg h1, if_neg h2, if_neg h3, if_neg h4]

theorem toNat_div_lt (c : UInt8) : c.toNat / 16 < 16 := by
  have := c.toNat_lt
  omega

theorem toNat_mod_lt (c : UInt8) : c.toNat % 16 < 16 := Nat.mod_lt _ (by decide)

/-! ## Links -/

theorem unquoteurl_urlquoteChar (c : UInt8) (s : Bytes) :
    unquoteurl (urlquoteChar c ++ s) = (unquoteurl s).map (c :: ·) := by
  unfold urlquoteChar
  split_ifs with hsafe
  · rw [List.singleton_append]
    conv_lhs => unfold unquoteurl
    rw [if_neg (ne_of_issafe hsafe).1]
  · have hc : UInt8.ofNat (c.toNat / 16 * 16 + c.toNat % 16) = c := by
      rw [Nat.div_add_mod', UInt8.ofNat_toNat]
    simp only [List.cons_append, List.nil_append]
    conv_lhs => unfold unquoteurl
    simp only [if_true, digitVal_upperDigit (toNat_div_lt c), digitVal_upperDigit (toNat_mod_lt c), hc]

theorem unquoteurl_urlquote (name : Bytes) : unquoteurl (urlquote name) = some name := by
  induction name with
  | nil => rfl
  | cons c name ih =>
    rw [urlquote, List.flatMap_cons, unquoteurl_urlquoteChar, ← urlquote, ih, Option.map_some]

theorem escaped_urlquote {name : Bytes} (h : 47 ∉ name) : Escaped (urlquote name) := by
  induction name with
  | nil => exact .nil
  | cons c name ih =>
    rw [List.mem_cons, not_or] at h
    have hname := ih h.2
    rw [urlquote, List.flatMap_cons, ← urlquote, urlquoteChar]
    split_ifs with hsafe
    · exact .plain ((isunreserved_of_issafe hsafe).resolve_left (Ne.symm h.1)) hname
    · exact .escape (toNat_div_lt c) (toNat_mod_lt c) hname

theorem htmlquote_urlquote (name : Bytes) : htmlquote (urlquote name) = urlquote name := by
  have hpercent : htmlquoteChar 37 = [37] := by decide
  rw [urlquote, htmlquote, List.flatMap_assoc]
  refine List.flatMap_congr fun c _ => ?_
  rw [urlquoteChar]
  split_ifs with hsafe
  · rw [List.flatMap_singleton, htmlquoteChar_safe hsafe]
  · simp only [List.flatMap_cons, List.flatMap_nil, hpercent, List.append_nil,
      htmlquoteChar_safe (issafe_upperDigit (toNat_div_lt c)),
      htmlquoteChar_safe (issafe_upperDigit (toNat_mod_lt c)), List.singleton_append]

/-! ## Texts -/

theorem unhtmlquote_htmlquoteChar (c : UInt8) (s : Bytes) :
    unhtmlquote (htmlquoteChar c ++ s) = c :: unhtmlquote s := by
  unfold htmlquoteChar
  split_ifs with h1 h2 h3 h4
  · rw [h1]
    rfl
  · rw [h2]
    rfl
  · rw [h3]
    rfl
  · rw [h4]
    rfl
  · rw [List.singleton_append, unhtmlquote.eq_def]
    split <;> simp_all

theorem unhtmlquote_htmlquote (text : Bytes) : unhtmlquote (htmlquote text) = text := by
  induction text with
  | nil => rfl
  | cons c text ih => rw [htmlquote, List.flatMap_cons, unhtmlquote_htmlquoteChar, ← htmlquote, ih]

/-- A character is replaced by an entity, or is none of those that have one. -/
theorem htmlquoteChar_cases (c : UInt8) :
    (∃ e ∈ entities, htmlquoteChar c = e.1) ∨
      htmlquoteChar c = [c] ∧ c ≠ 60 ∧ c ≠ 62 ∧ c ≠ 38 ∧ c ≠ 34 := by
  unfold htmlquoteChar
  split_ifs with h1 h2 h3 h4
  · exact .inl ⟨(bytes "&lt;", 60), by simp [entities], rfl⟩
  · exact .inl ⟨(bytes "&gt;", 62), by simp [entities], rfl⟩
  · exact .inl ⟨(bytes "&amp;", 38), by simp [entities], rfl⟩
  · exact .inl ⟨(bytes "&quot;", 34), by simp [entities], rfl⟩
  · exact .inr ⟨rfl, h1, h2, h3, h4⟩

/-- The characters that are always replaced. -/
theorem notMem_htmlquote {c : UInt8} (hc : c = 60 ∨ c = 62 ∨ c = 34) (text : Bytes) :
    c ∉ htmlquote text := by
  intro hmem
  obtain ⟨x, -, hx⟩ := List.mem_flatMap.mp hmem
  have hentity : ∀ e ∈ entities, 60 ∉ e.1 ∧ 62 ∉ e.1 ∧ 34 ∉ e.1 := by decide
  obtain ⟨e, he, hw⟩ | ⟨hw, h1, h2, -, h4⟩ := htmlquoteChar_cases x
  · rw [hw] at hx
    obtain ⟨hlt, hgt, hquot⟩ := hentity e he
    rcases hc with rfl | rfl | rfl
    · exact hlt hx
    · exact hgt hx
    · exact hquot hx
  · rw [hw] at hx
    rw [List.mem_singleton.mp hx] at hc
    exact hc.elim h1 (fun hc => hc.elim h2 h4)

/-- An ampersand is the first character of what is put for one. -/
theorem amp_htmlquoteChar {c : UInt8} {pre post : Bytes}
    (h : htmlquoteChar c = pre ++ 38 :: post) : ∃ e ∈ entities, e.1 = 38 :: post := by
  have htail : ∀ e ∈ entities, 38 ∉ e.1.tail := by decide
  obtain ⟨e, he, hw⟩ | ⟨hw, -, -, hc, -⟩ := htmlquoteChar_cases c
  · rw [hw] at h
    cases pre with
    | nil => exact ⟨e, he, h⟩
    | cons b pre =>
      have := htail e he
      rw [h, List.cons_append, List.tail_cons] at this
      exact absurd (List.mem_append_right _ List.mem_cons_self) this
  · have hmem : (38 : UInt8) ∈ htmlquoteChar c := by
      rw [h]
      exact List.mem_append_right _ List.mem_cons_self
    rw [hw, List.mem_singleton] at hmem
    exact absurd hmem.symm hc

theorem amp_htmlquote {text post : Bytes} (pre : Bytes) (h : htmlquote text = pre ++ 38 :: post) :
    ∃ e ∈ entities, e.1 <+: 38 :: post := by
  induction text generalizing pre with
  | nil => simp [htmlquote] at h
  | cons c text ih =>
    rw [htmlquote, List.flatMap_cons, ← htmlquote, List.append_eq_append_iff] at h
    obtain ⟨as, -, has⟩ | ⟨bs, hbs, hpost⟩ := h
    · exact ih as has
    · cases bs with
      | nil => exact ih [] hpost.symm
      | cons b bs =>
        obtain ⟨rfl, hpost⟩ := List.cons.inj hpost
        obtain ⟨e, he, hw⟩ := amp_htmlquoteChar hbs
        refine ⟨e, he, ?_⟩
        rw [hw, hpost]
        exact List.prefix_append (38 :: bs) (htmlquote text)

theorem htmlText_htmlquote (text : Bytes) : HtmlText (htmlquote text) :=
  ⟨notMem_htmlquote (.inl rfl) text, notMem_htmlquote (.inr (.inl rfl)) text,
    notMem_htmlquote (.inr (.inr rfl)) text, fun pre _ => amp_htmlquote pre⟩

/-- For every name and every text: `unquoteurl` gives back the name from what `urlquote` makes of
    it; that consists of unreserved characters and escapes, the name of a file having no slash in
    it, and `htmlquote` leaves it as it is. What `htmlquote` makes of the text can stand in a page,
    and is the text again once its entities are replaced. -/
theorem quoting_roundtrip (name text : Bytes) (hname : NulFree name) :
    ((unquoteurl (urlquote name)).map cstr = some name ∧ (47 ∉ name → Escaped (urlquote name)) ∧
        htmlquote (urlquote name) = urlquote name) ∧
      HtmlText (htmlquote text) ∧ unhtmlquote (htmlquote text) = text := by
  refine ⟨⟨?_, escaped_urlquote, htmlquote_urlquote name⟩, htmlText_htmlquote text,
    unhtmlquote_htmlquote text⟩
  rw [unquoteurl_urlquote, Option.map_some, cstr_eq_self hname]

/-- A name with a blank and a byte that is not ASCII. -/
theorem quoting_roundtrip_name :
    ((unquoteurl (urlquote [97, 32, 229])).map cstr = some [97, 32, 229] ∧
        (47 ∉ ([97, 32, 229] : Bytes) → Escaped (urlquote [97, 32, 229])) ∧
        htmlquote (urlquote [97, 32, 229]) = urlquote [97, 32, 229]) ∧
      HtmlText (htmlquote (bytes "a<b")) ∧ unhtmlquote (htmlquote (bytes "a<b")) = bytes "a<b" :=
  quoting_roundtrip [97, 32, 229] (bytes "a<b") (by decide)

example : urlquote [97, 32, 229] = bytes "a%20%E5" := by decide

end Ashd
