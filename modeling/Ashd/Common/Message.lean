import Mathlib.Data.List.DropRight
import Ashd.Common.Bytes

/-!
# Reading HTTP/1.1 responses

How a client reads a response from a stream of bytes, by the rules of RFC 2616: the
status line, the fields, and the length of the body (section 4.4). It is written as a
reader that takes a response off the front of a byte string.

* `readHead`: the status line and the fields.
* `chunkedBody`: the chunked coding (section 3.6.1), with extensions and a trailer.
* `messageBody`: which bytes are the body.

Main results:
* `readFields_append`, `chunkedBody_append`: what follows does not matter.
* `readHead_write`: a head that is written field by field is read back.
* `chunkedBody_write`: so is a sequence of chunks.
-/

namespace Ashd.Message

open Ashd

/-- `CR LF`. -/
def CRLF : Bytes := [13, 10]

/-- Linear white space within a line. -/
def isLws (c : UInt8) : Bool := c == 32 || c == 9

/-- The bytes before the first `CRLF`, and those after it. -/
def readLine : Bytes → Option (Bytes × Bytes)
  | [] => none
  | c :: s =>
    if c = 13 ∧ s.head? = some 10 then some ([], s.tail)
    else (readLine s).map fun r => (c :: r.1, r.2)

/-- A status line and fields. -/
structure Head where
  ver : Bytes
  code : ℕ
  reason : Bytes
  fields : List (Bytes × Bytes)

/-- `HTTP-Version SP Status-Code SP Reason-Phrase`. -/
def readStatus (l : Bytes) : Option (Bytes × ℕ × Bytes) :=
  match l.dropWhile (· ≠ 32) with
  | [] => none
  | _ :: s =>
    match s.dropWhile (· ≠ 32) with
    | [] => none
    | _ :: reason =>
      if IsDecimal (s.takeWhile (· ≠ 32)) then
        some (l.takeWhile (· ≠ 32), numeralValue 10 (s.takeWhile (· ≠ 32)), reason)
      else none

/-- `field-name ":" field-value`, on one line. White space before the value is dropped. -/
def readField (l : Bytes) : Option (Bytes × Bytes) :=
  match l.dropWhile (· ≠ 58) with
  | [] => none
  | _ :: v =>
    if l.head?.any isLws then none else some (l.takeWhile (· ≠ 58), v.dropWhile isLws)

/-- Fields up to an empty line, at most `fuel` of them. -/
def readFields : ℕ → Bytes → Option (List (Bytes × Bytes) × Bytes)
  | 0, _ => none
  | fuel + 1, s =>
    match readLine s with
    | none => none
    | some ([], s) => some ([], s)
    | some (l, s) =>
      match readField l with
      | none => none
      | some f => (readFields fuel s).map fun r => (f :: r.1, r.2)

/-- The head of a response, and what follows it. -/
def readHead (s : Bytes) : Option (Head × Bytes) :=
  match readLine s with
  | none => none
  | some (l, s) =>
    match readStatus l with
    | none => none
    | some (ver, code, reason) =>
      (readFields (s.length + 1) s).map fun r =>
        ({ ver := ver, code := code, reason := reason, fields := r.1 }, r.2)

/-- The value of the first field of a name. -/
def field (fs : List (Bytes × Bytes)) (name : Bytes) : Option Bytes :=
  (fs.find? fun f => strcaseeq f.1 name).map Prod.snd

/-- A value without the white space at its end, which is not part of it. -/
def content (v : Bytes) : Bytes := v.rdropWhile isLws

/-- `Transfer-Encoding: chunked`. -/
def isChunked (fs : List (Bytes × Bytes)) : Bool :=
  match field fs (bytes "transfer-encoding") with
  | none => false
  | some v => strcaseeq (content v) (bytes "chunked")

/-- The number in a `Content-Length`. -/
def lengthField (v : Bytes) : Option ℕ :=
  if IsDecimal (content v) then some (numeralValue 10 (content v)) else none

/-- Chunks up to one of size 0, with the trailer after it, at most `fuel` of them. -/
def readChunks : ℕ → Bytes → Option (Bytes × Bytes)
  | 0, _ => none
  | fuel + 1, s =>
    match readLine s with
    | none => none
    | some (l, s) =>
      let size := l.takeWhile fun c => (digitVal c).isSome
      let ext := l.dropWhile fun c => (digitVal c).isSome
      if size = [] ∨ (ext ≠ [] ∧ ext.head? ≠ some 59) then none
      else if numeralValue 16 size = 0 then
        (readFields (s.length + 1) s).map fun r => ([], r.2)
      else if s.length < numeralValue 16 size then none
      else
        match readLine (s.drop (numeralValue 16 size)) with
        | some ([], s') =>
          (readChunks fuel s').map fun r => (s.take (numeralValue 16 size) ++ r.1, r.2)
        | _ => none

/-- A body in the chunked coding, and what follows it. -/
def chunkedBody (s : Bytes) : Option (Bytes × Bytes) := readChunks (s.length + 1) s

/-- Responses that have no body whatever their fields say. -/
def noBody (head : Bool) (code : ℕ) : Bool :=
  head || (100 ≤ code && code < 200) || code = 204 || code = 304

/-- The body of a response and what follows it, by the rules of section 4.4; `head` is
    whether the request was a `HEAD`. Without any indication the body goes on to the end. -/
def messageBody (head : Bool) (code : ℕ) (fs : List (Bytes × Bytes)) (s : Bytes) :
    Option (Bytes × Bytes) :=
  if noBody head code then some ([], s)
  else if isChunked fs then chunkedBody s
  else
    match field fs (bytes "content-length") with
    | none => some (s, [])
    | some v =>
      match lengthField v with
      | none => none
      | some n => if n ≤ s.length then some (s.take n, s.drop n) else none

/-- A whole response, and what follows it. -/
def readResponse (head : Bool) (s : Bytes) : Option ((Head × Bytes) × Bytes) :=
  match readHead s with
  | none => none
  | some (h, s) => (messageBody head h.code h.fields s).map fun r => ((h, r.1), r.2)

/-! ## What follows does not matter -/

theorem readLine_append {s l r : Bytes} (h : readLine s = some (l, r)) (t : Bytes) :
    readLine (s ++ t) = some (l, r ++ t) := by
  induction s generalizing l with
  | nil => simp [readLine] at h
  | cons c s ih =>
    rw [List.cons_append, readLine]
    rw [readLine] at h
    by_cases hc : c = 13 ∧ s.head? = some 10
    · rw [if_pos hc] at h
      cases h
      obtain ⟨d, s, rfl⟩ : ∃ d s', s = d :: s' := by
        cases s with
        | nil => simp at hc
        | cons d s => exact ⟨d, s, rfl⟩
      rw [if_pos (by simpa using hc)]
      rfl
    · rw [if_neg hc] at h
      obtain ⟨⟨l', r'⟩, hr, he⟩ := Option.map_eq_some_iff.mp h
      cases he
      have hc' : ¬ (c = 13 ∧ (s ++ t).head? = some 10) := by
        rintro ⟨rfl, h10⟩
        cases s with
        | nil => simp [readLine] at hr
        | cons d s => exact hc ⟨rfl, by simpa using h10⟩
      rw [if_neg hc', ih hr]
      rfl

theorem readFields_append {fuel fuel' : ℕ} {s r : Bytes} {fs : List (Bytes × Bytes)}
    (h : readFields fuel s = some (fs, r)) (hf : fuel ≤ fuel') (t : Bytes) :
    readFields fuel' (s ++ t) = some (fs, r ++ t) := by
  induction fuel generalizing fuel' s fs with
  | zero => simp [readFields] at h
  | succ fuel ih =>
    obtain ⟨n, rfl⟩ : ∃ n, fuel' = n + 1 := ⟨fuel' - 1, by omega⟩
    rw [readFields] at h ⊢
    cases hl : readLine s with
    | none => simp [hl] at h
    | some ls =>
    obtain ⟨l, s'⟩ := ls
    rw [hl] at h
    rw [readLine_append hl]
    cases l with
    | nil => cases h; rfl
    | cons c l =>
      simp only at h ⊢
      cases hfd : readField (c :: l) with
      | none => simp [hfd] at h
      | some f =>
        simp only [hfd] at h ⊢
        obtain ⟨⟨fs', r'⟩, hr, he⟩ := Option.map_eq_some_iff.mp h
        cases he
        rw [ih hr (by omega)]
        rfl

theorem readChunks_append {fuel fuel' : ℕ} {s b r : Bytes} (h : readChunks fuel s = some (b, r))
    (hf : fuel ≤ fuel') (t : Bytes) : readChunks fuel' (s ++ t) = some (b, r ++ t) := by
  induction fuel generalizing fuel' s b with
  | zero => simp [readChunks] at h
  | succ fuel ih =>
    obtain ⟨n, rfl⟩ : ∃ n, fuel' = n + 1 := ⟨fuel' - 1, by omega⟩
    rw [readChunks] at h ⊢
    cases hl : readLine s with
    | none => simp [hl] at h
    | some ls =>
    obtain ⟨l, s'⟩ := ls
    rw [hl] at h
    rw [readLine_append hl]
    simp only at h ⊢
    generalize l.takeWhile (fun c => (digitVal c).isSome) = size at h ⊢
    split_ifs at h ⊢ with h1 h2 h3 h4 h5
    · obtain ⟨⟨fs, r'⟩, hr, he⟩ := Option.map_eq_some_iff.mp h
      cases he
      rw [readFields_append hr (by simp)]
      rfl
    · simp only [List.length_append] at h3
      omega
    · rw [List.drop_append_of_le_length (by omega), List.take_append_of_le_length (by omega)]
      cases hl2 : readLine (s'.drop (numeralValue 16 size)) with
      | none => simp [hl2] at h
      | some ls =>
        obtain ⟨l2, s2⟩ := ls
        rw [hl2] at h
        rw [readLine_append hl2]
        cases l2 with
        | cons c l2 => simp at h
        | nil =>
          obtain ⟨⟨b', r'⟩, hr, he⟩ := Option.map_eq_some_iff.mp h
          cases he
          show (readChunks n (s2 ++ t)).map _ = _
          rw [ih hr (by omega)]
          rfl

theorem chunkedBody_append {s b r : Bytes} (h : chunkedBody s = some (b, r)) (t : Bytes) :
    chunkedBody (s ++ t) = some (b, r ++ t) :=
  readChunks_append h (by simp) t

/-! ## Reading what was written -/

theorem readLine_write {l : Bytes} (h : (13 : UInt8) ∉ l) (r : Bytes) :
    readLine (l ++ CRLF ++ r) = some (l, r) := by
  induction l with
  | nil => simp [CRLF, readLine]
  | cons c l ih =>
    have hc : c ≠ 13 := fun h0 => h (by simp [h0])
    have hl : (13 : UInt8) ∉ l := fun h0 => h (by simp [h0])
    rw [List.cons_append, List.cons_append, readLine, if_neg (fun h0 => hc h0.1), ih hl]
    rfl

theorem split_write {d : UInt8} {a : Bytes} (h : d ∉ a) (b : Bytes) :
    (a ++ d :: b).takeWhile (· ≠ d) = a ∧ (a ++ d :: b).dropWhile (· ≠ d) = d :: b :=
  ⟨takeWhile_sep h b, dropWhile_sep h b⟩

theorem isDecimal_numeral (n : ℕ) : IsDecimal (numeral 10 n) := by
  refine ⟨numeral_ne_nil 10 n, fun c hc => ?_⟩
  obtain ⟨d, hd, rfl⟩ := numeral_digits (by norm_num) c hc
  interval_cases d <;> decide

theorem notMem_numeral {c : UInt8} (h : isdigit c = false) (n : ℕ) : c ∉ numeral 10 n := by
  intro hc
  rw [(isDecimal_numeral n).2 c hc] at h
  cases h

/-- A status line, written with a number as it is printed. -/
theorem readStatus_write {ver : Bytes} (h : (32 : UInt8) ∉ ver) (code : ℕ) (reason : Bytes) :
    readStatus (ver ++ 32 :: (numeral 10 code ++ 32 :: reason)) = some (ver, code, reason) := by
  unfold readStatus
  obtain ⟨ht, hd⟩ := split_write h (numeral 10 code ++ 32 :: reason)
  obtain ⟨ht', hd'⟩ := split_write (notMem_numeral (by decide) code : (32 : UInt8) ∉ _) reason
  have hv : numeralValue 10 (numeral 10 code) = code := numeralValue_numeral (by norm_num) (by norm_num) code
  rw [hd]
  simp only [hd', ht', ht, if_pos (isDecimal_numeral code), hv]

/-- What a field can be written with: a name without a colon, nothing that ends a line, and
    no white space at the start of either part. -/
structure Writable (f : Bytes × Bytes) : Prop where
  name : (58 : UInt8) ∉ f.1 ∧ (13 : UInt8) ∉ f.1
  val : (13 : UInt8) ∉ f.2
  nameLws : ∀ c ∈ f.1.head?, isLws c = false
  valLws : ∀ c ∈ f.2.head?, isLws c = false

/-- `name: value` and a line end. -/
def writeField (f : Bytes × Bytes) : Bytes := f.1 ++ [58, 32] ++ f.2 ++ CRLF

theorem readField_write {f : Bytes × Bytes} (h : Writable f) :
    readField (f.1 ++ 58 :: 32 :: f.2) = some f := by
  unfold readField
  obtain ⟨ht, hd⟩ := split_write h.name.1 (32 :: f.2)
  have hlws : ((f.1 ++ 58 :: 32 :: f.2).head?.any isLws) = false := by
    cases hn : f.1 with
    | nil => rfl
    | cons c n => simpa using h.nameLws c (by simp [hn])
  have hv : (32 :: f.2).dropWhile isLws = f.2 := by
    rw [List.dropWhile_cons_of_pos (by decide)]
    cases hf : f.2 with
    | nil => rfl
    | cons c v => rw [List.dropWhile_cons_of_neg (by simpa using h.valLws c (by simp [hf]))]
  rw [hd]
  simp only [hlws, ht, hv, Bool.false_eq_true, if_false]

theorem readFields_write {fs : List (Bytes × Bytes)} (h : ∀ f ∈ fs, Writable f) (r : Bytes) :
    ∀ fuel, fs.length < fuel →
      readFields fuel (fs.flatMap writeField ++ CRLF ++ r) = some (fs, r) := by
  induction fs with
  | nil =>
    intro fuel hf
    obtain ⟨n, rfl⟩ : ∃ n, fuel = n + 1 := ⟨fuel - 1, by simp at hf; omega⟩
    rw [readFields, List.flatMap_nil, readLine_write (by simp)]
  | cons f fs ih =>
    intro fuel hf
    obtain ⟨n, rfl⟩ : ∃ n, fuel = n + 1 := ⟨fuel - 1, by simp at hf; omega⟩
    have hw := h f (by simp)
    have hline : (f :: fs).flatMap writeField ++ CRLF ++ r =
        (f.1 ++ 58 :: 32 :: f.2) ++ CRLF ++ (fs.flatMap writeField ++ CRLF ++ r) := by
      simp [writeField]
    have hcr : (13 : UInt8) ∉ f.1 ++ 58 :: 32 :: f.2 := by
      simp [hw.name.2, hw.val]
    rw [readFields, hline, readLine_write hcr]
    have hread := readField_write hw
    cases hl : f.1 ++ 58 :: 32 :: f.2 with
    | nil => simp at hl
    | cons c l =>
      rw [hl] at hread
      simp only [hread]
      rw [ih (fun f hf => h f (List.mem_cons_of_mem _ hf)) n (by simp at hf; omega)]
      rfl

theorem length_le_writeFields (fs : List (Bytes × Bytes)) :
    fs.length ≤ (fs.flatMap writeField).length := by
  induction fs with
  | nil => simp
  | cons f fs ih =>
    simp only [List.flatMap_cons, List.length_append, List.length_cons, writeField] at ih ⊢
    omega

/-- A head is read back, and the rest left. -/
theorem readHead_write {ver reason : Bytes} {fs : List (Bytes × Bytes)} (hv : (32 : UInt8) ∉ ver)
    (hv' : (13 : UInt8) ∉ ver) (hr : (13 : UInt8) ∉ reason) (hfs : ∀ f ∈ fs, Writable f) (code : ℕ)
    (r : Bytes) :
    readHead (ver ++ 32 :: (numeral 10 code ++ 32 :: reason) ++ CRLF ++
      (fs.flatMap writeField ++ CRLF ++ r)) =
      some ({ ver := ver, code := code, reason := reason, fields := fs }, r) := by
  have hcr : (13 : UInt8) ∉ ver ++ 32 :: (numeral 10 code ++ 32 :: reason) := by
    have := notMem_numeral (c := 13) (by decide) code
    simp [hv', hr, this]
  unfold readHead
  rw [readLine_write hcr]
  simp only [readStatus_write hv]
  rw [readFields_write hfs r _ (by
    have := length_le_writeFields fs
    simp only [List.length_append]
    omega)]
  rfl

/-- A chunk and the line end after it. -/
def writeChunk (c : Bytes) : Bytes := numeral 16 c.length ++ CRLF ++ c ++ CRLF

/-- Chunks, the last one and an empty trailer. -/
def writeChunks (cs : List Bytes) : Bytes := cs.flatMap writeChunk ++ (48 :: CRLF ++ CRLF)

/-- The size line of a chunk. -/
theorem size_write (n : ℕ) :
    (numeral 16 n).takeWhile (fun c => (digitVal c).isSome) = numeral 16 n ∧
      (numeral 16 n).dropWhile (fun c => (digitVal c).isSome) = [] ∧ (13 : UInt8) ∉ numeral 16 n := by
  have hall : ∀ c ∈ numeral 16 n, (digitVal c).isSome = true := by
    intro c hc
    obtain ⟨d, hd, rfl⟩ := numeral_digits (by norm_num) c hc
    rw [digitVal_digitChar hd]
    rfl
  refine ⟨List.takeWhile_eq_self_iff.mpr hall, List.dropWhile_eq_nil_iff.mpr hall, fun h => ?_⟩
  exact absurd (hall 13 h) (by decide)

theorem readChunks_write {cs : List Bytes} (h : ∀ c ∈ cs, c ≠ []) (r : Bytes) :
    ∀ fuel, cs.length < fuel → readChunks fuel (writeChunks cs ++ r) = some (cs.flatten, r) := by
  induction cs with
  | nil =>
    intro fuel hf
    obtain ⟨n, rfl⟩ : ∃ n, fuel = n + 1 := ⟨fuel - 1, by simp at hf; omega⟩
    simp [writeChunks, CRLF, readChunks, readLine, digitVal, numeralValue, readFields]
  | cons c cs ih =>
    intro fuel hf
    obtain ⟨n, rfl⟩ : ∃ n, fuel = n + 1 := ⟨fuel - 1, by simp at hf; omega⟩
    obtain ⟨ht, hd, hcr⟩ := size_write c.length
    have hv : numeralValue 16 (numeral 16 c.length) = c.length :=
      numeralValue_numeral (by norm_num) (by norm_num) c.length
    have hc0 : c.length ≠ 0 := by
      have := List.length_pos_iff.mpr (h c (by simp))
      omega
    have hline : writeChunks (c :: cs) ++ r =
        numeral 16 c.length ++ CRLF ++ (c ++ ([] ++ CRLF ++ (writeChunks cs ++ r))) := by
      simp [writeChunks, writeChunk]
    rw [readChunks, hline, readLine_write hcr]
    simp only [ht, hd, hv, if_neg hc0, numeral_ne_nil, ne_eq, not_true_eq_false, false_and, or_self,
      if_false]
    rw [if_neg (by simp), List.drop_left, List.take_left, readLine_write (by simp)]
    simp only
    rw [ih (fun c hc => h c (List.mem_cons_of_mem _ hc)) n (by simp at hf; omega)]
    rfl

theorem length_le_writeChunks (cs : List Bytes) : cs.length ≤ (writeChunks cs).length := by
  induction cs with
  | nil => simp
  | cons c cs ih =>
    simp only [writeChunks, writeChunk, List.flatMap_cons, List.length_append, List.length_cons,
      CRLF] at ih ⊢
    omega

/-- A sequence of chunks is read to its end, and the rest left. -/
theorem chunkedBody_write {cs : List Bytes} (h : ∀ c ∈ cs, c ≠ []) (r : Bytes) :
    chunkedBody (writeChunks cs ++ r) = some (cs.flatten, r) := by
  refine readChunks_write h r _ ?_
  have := length_le_writeChunks cs
  rw [List.length_append]
  omega

end Ashd.Message
