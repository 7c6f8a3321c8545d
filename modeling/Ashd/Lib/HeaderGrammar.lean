import Ashd.Lib.ReqHeaders

/-!
# The grammar of headers

What `parseheaders` accepts, as a grammar: lines with a colon and then an empty one, where
carriage returns do not count. One header is made of each line, and what follows the empty line
is left unread.

Main results:
* `headerLines_iff`: what is read line by line is what the grammar says.
* `parseheaders_iff`: so does `parseheaders`, and `parseheadersb`.
-/

namespace Ashd

/-! ## The grammar -/

/-- The white space at both ends is removed. -/
def strip (s : Bytes) : Bytes := (s.dropWhile isspace).rdropWhile isspace

/-- The name and the value of a line: what is before and after the first colon, without carriage
    returns, stripped, and up to a NUL. -/
def lineField (l : Bytes) : Bytes × Bytes :=
  let l := l.filter (· ≠ 13)
  (cstr (strip (l.takeWhile (· ≠ 58))), cstr (strip (l.dropWhile (· ≠ 58)).tail))

/-- The text of a header, with its lines. A line that holds a colon is not empty. -/
inductive HeaderText : List Bytes → Bytes → Prop
  | last {cr : Bytes} : (∀ c ∈ cr, c = 13) → HeaderText [] (cr ++ [10])
  | line {l : Bytes} {lines : List Bytes} {text : Bytes} : (10 : UInt8) ∉ l → (58 : UInt8) ∈ l →
      HeaderText lines text → HeaderText (l :: lines) (l ++ 10 :: text)

/-- The stream `s` starts with a header of at most 65535 bytes, which makes `r` of `head` and is
    followed by `rest`. -/
def HeaderRead (head : Hthead) (s : Bytes) (r : Hthead) (rest : Bytes) : Prop :=
  ∃ lines text, HeaderText lines text ∧ text.length ≤ 65535 ∧ s = text ++ rest ∧
    r = { head with headers := head.headers ++ lines.map lineField }

/-! ## Lines -/

theorem rdropWhile_cons {p : UInt8 → Bool} {c : UInt8} (hc : p c = false) (s : Bytes) :
    (c :: s).rdropWhile p = c :: s.rdropWhile p := by
  induction s using List.reverseRecOn with
  | nil =>
    rw [List.rdropWhile_singleton, hc]
    rfl
  | append_singleton s d ih =>
    by_cases hd : p d = true
    · rw [← List.cons_append, List.rdropWhile_concat_pos _ _ _ hd, List.rdropWhile_concat_pos _ _ _ hd, ih]
    · rw [← List.cons_append, List.rdropWhile_concat_neg _ _ _ hd, List.rdropWhile_concat_neg _ _ _ hd]
      rfl

/-- That `trim` spares the first byte at the end makes no difference. -/
theorem trim_eq_strip (s : Bytes) : trim s = strip s := by
  unfold trim strip
  cases hs : s.dropWhile isspace with
  | nil => rfl
  | cons c t =>
    have hc := List.head_dropWhile_not isspace (show s.dropWhile isspace ≠ [] by simp [hs])
    rw [rdropWhile_cons (by simpa [hs] using hc)]

theorem headerOf_eq_some {l : Bytes} (h : (58 : UInt8) ∈ l) :
    headerOf (l.filter (· ≠ 13)) = some (lineField l) := by
  have hmem : (58 : UInt8) ∈ l.filter (· ≠ 13) := List.mem_filter.mpr ⟨h, by decide⟩
  unfold headerOf lineField
  simp only
  cases hd : (l.filter (· ≠ 13)).dropWhile (· ≠ 58) with
  | nil =>
    have := List.dropWhile_eq_nil_iff.mp hd 58 hmem
    simp at this
  | cons c val => simp only [trim_eq_strip, List.tail_cons]

theorem headerOf_colon {l : Bytes} {f : Bytes × Bytes} (h : headerOf (l.filter (· ≠ 13)) = some f) :
    (58 : UInt8) ∈ l := by
  by_contra hno
  have hall : ∀ c ∈ l.filter (· ≠ 13), decide (c ≠ 58) = true := by
    intro c hc
    simpa using fun h0 : c = 58 => hno (h0 ▸ (List.mem_filter.mp hc).1)
  unfold headerOf at h
  rw [List.dropWhile_eq_nil_iff.mpr hall] at h
  cases h

theorem filter_cr_eq_nil {l : Bytes} : l.filter (· ≠ 13) = [] ↔ ∀ c ∈ l, c = 13 := by
  simp [List.filter_eq_nil_iff]

theorem headerLines_sound {fuel : ℕ} {s rest : Bytes} {hs : List (Bytes × Bytes)}
    (h : headerLines fuel s = some (hs, rest)) :
    ∃ lines text, HeaderText lines text ∧ s = text ++ rest ∧ hs = lines.map lineField := by
  induction fuel generalizing s hs with
  | zero => simp [headerLines] at h
  | succ fuel ih =>
    by_cases hlf : (10 : UInt8) ∈ s
    · obtain ⟨l, s', rfl, hl⟩ := List.eq_append_cons_of_mem hlf
      obtain ⟨hcr, rfl, rfl⟩ | ⟨f, fs, hf, hr, rfl⟩ := headerLines_cons hl h
      · exact ⟨[], l ++ [10], .last (filter_cr_eq_nil.mp hcr), by simp, rfl⟩
      · obtain ⟨lines, text, ht, rfl, rfl⟩ := ih hr
        have hcolon := headerOf_colon hf
        rw [headerOf_eq_some hcolon, Option.some_inj] at hf
        exact ⟨l :: lines, l ++ 10 :: text, .line hl hcolon ht, by simp, by rw [List.map_cons, hf]⟩
    · rw [headerLines_unended hlf] at h
      cases h

theorem headerLines_complete {lines : List Bytes} {text : Bytes} (h : HeaderText lines text) (rest : Bytes) :
    ∀ fuel, text.length < fuel → headerLines fuel (text ++ rest) = some (lines.map lineField, rest) := by
  induction h with
  | @last cr hcr =>
    intro fuel hf
    obtain ⟨n, rfl⟩ : ∃ n, fuel = n + 1 := ⟨fuel - 1, by omega⟩
    have hlf : (10 : UInt8) ∉ cr := fun h0 => absurd (hcr 10 h0) (by decide)
    rw [List.append_assoc, List.singleton_append, headerLines_line hlf, if_pos (filter_cr_eq_nil.mpr hcr)]
    rfl
  | @line l lines text hlf hcolon _ ih =>
    intro fuel hf
    rw [List.length_append, List.length_cons] at hf
    obtain ⟨n, rfl⟩ : ∃ n, fuel = n + 1 := ⟨fuel - 1, by omega⟩
    have hne : l.filter (· ≠ 13) ≠ [] := List.ne_nil_of_mem (List.mem_filter.mpr ⟨hcolon, by decide⟩)
    rw [List.append_assoc, List.cons_append, headerLines_line hlf, if_neg hne, headerOf_eq_some hcolon]
    simp only
    rw [ih n (by omega)]
    rfl

/-- The loop over a list of bytes reads what the grammar says. -/
theorem scanList_headerRead {head r : Hthead} {s rest : Bytes} :
    scanList headerStep { head := head } s = some (r, rest) ↔ HeaderRead head s r rest := by
  rw [scanList_headerStep (s.length + 1) s head 0 (Nat.lt_succ_self _)]
  constructor
  · intro h
    cases hh : headerLines (s.length + 1) s with
    | none =>
      rw [hh] at h
      cases h
    | some p =>
      obtain ⟨hs, rest'⟩ := p
      rw [hh] at h
      simp only [zero_add] at h
      split_ifs at h with hlen
      cases h
      obtain ⟨lines, text, ht, heq, rfl⟩ := headerLines_sound hh
      refine ⟨lines, text, ht, ?_, heq, rfl⟩
      rw [heq, List.length_append] at hlen
      omega
  · rintro ⟨lines, text, ht, hlen, rfl, rfl⟩
    have hfuel : text.length < (text ++ rest).length + 1 := by
      rw [List.length_append]
      omega
    rw [headerLines_complete ht rest _ hfuel]
    simp only [zero_add]
    rw [if_pos]
    rw [List.length_append]
    omega

/-! ## Sources of bytes -/

section Source

variable {α : Type*} {getc : α → Option UInt8 × α} {unread : α → Bytes} {Ok : α → Prop}

/-- What `parseheaders` accepts from a source of bytes follows the grammar. -/
theorem parseheaders_sound (hg : IsReader getc unread Ok) {head r : Hthead} {a a' : α} (ha : Ok a)
    (h : parseheaders getc head a = (some r, a')) : HeaderRead head (unread a) r (unread a') :=
  scanList_headerRead.mp (scan_eq_some hg ha h)

/-- A source that delivers all its bytes is accepted if it follows the grammar. -/
theorem parseheaders_complete (hg : IsReader getc unread Ok)
    (hgood : ∀ a, Ok a → unread a ≠ [] → (getc a).1 ≠ none) {head r : Hthead} {a : α} {rest : Bytes}
    (ha : Ok a) (h : HeaderRead head (unread a) r rest) :
    ∃ a', parseheaders getc head a = (some r, a') ∧ unread a' = rest := by
  have hfuel : (unread a).length ≤ 65536 + rest.length := by
    obtain ⟨lines, text, -, hlen, heq, -⟩ := h
    rw [heq, List.length_append]
    omega
  obtain ⟨a', hres, -, hrest⟩ := scan_of_scanList hg hgood ha hfuel (scanList_headerRead.mpr h)
  exact ⟨a', hres, hrest⟩

end Source

/-- `fgetc` on a stream that does not fail. -/
theorem getcList_isReader : IsReader getcList id fun _ => True where
  some := by
    rintro (_ | ⟨c, s⟩) d s' - h <;> cases h
    exact ⟨trivial, rfl⟩
  none := by
    rintro (_ | ⟨c, s⟩) s' - h <;> cases h
    exact ⟨trivial, rfl⟩

/-- On a list of bytes, `parseheaders` is the loop over the list, and accepts what the grammar
    does. -/
theorem parseheaders_list {head r : Hthead} {s rest : Bytes} :
    parseheaders getcList head s = (some r, rest) ↔ HeaderRead head s r rest := by
  refine ⟨parseheaders_sound getcList_isReader trivial, fun h => ?_⟩
  obtain ⟨s', hres, rfl⟩ := parseheaders_complete getcList_isReader
    (fun s _ hne => by cases s <;> simp_all [getcList]) trivial h
  exact hres

/-- **The grammar of headers.** A stream is accepted by `parseheaders`, and by `parseheadersb` from
    a buffer in any state whose reads do not fail, if and only if it starts with lines that hold a
    colon and an empty line, all within 65535 bytes. One header has then been appended for each
    line, in order, and the text up to the empty line has been read. -/
theorem parseheaders_iff (head r : Hthead) (rest : Bytes) :
    (∀ s, parseheaders getcList head s = (some r, rest) ↔ HeaderRead head s r rest) ∧
      ∀ inb : Bufio, inb.ROk →
        (∀ b, parseheadersb head inb = (some r, b) → HeaderRead head inb.unread r b.unread) ∧
          (NoErr inb.src.sched → HeaderRead head inb.unread r rest →
            ∃ b, parseheadersb head inb = (some r, b) ∧ b.unread = rest) := by
  refine ⟨fun s => parseheaders_list, fun inb hi => ⟨fun b => ?_, ?_⟩⟩
  · exact parseheaders_sound (biogetc_isReader inb) ⟨[], .refl hi⟩
  · intro hne h
    exact parseheaders_complete (biogetc_isReader inb)
      (fun b ⟨_, hb⟩ hn => biogetc_some hb.ok (hb.noErr hne) hn) ⟨[], .refl hi⟩ h

/-- One header, and a body of one byte, which are read in pieces. -/
theorem parseheaders_iff_one :
    ∃ b, parseheadersb {} (bioopen { avail := bytes "A :\t1:2\r\n\r\nx", sched := [.upto 3, .upto 1] } {}) =
        (some { headers := [(bytes "A", bytes "1:2")] }, b) ∧ b.unread = bytes "x" := by
  have h := (parseheaders_iff {} { headers := [(bytes "A", bytes "1:2")] } (bytes "x")).2
    (bioopen { avail := bytes "A :\t1:2\r\n\r\nx", sched := [.upto 3, .upto 1] } {})
    (bioopen_rok _ (by simp) _)
  refine h.2 (by simp [NoErr, bioopen]) ⟨[bytes "A :\t1:2\r"], bytes "A :\t1:2\r\n\r\n", ?_, by decide, rfl, rfl⟩
  exact @HeaderText.line _ [] (bytes "\r\n") (by decide) (by decide) (@HeaderText.last [13] (by simp))

end Ashd
