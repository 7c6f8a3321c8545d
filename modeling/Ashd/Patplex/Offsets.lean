import Ashd.Patplex.Model

/-!
# Offsets in quoted strings

`qoffsets` once more, on a string of which it reads one character after another, and what its
offsets are: a text with escapes can be cut at each of them, as the decoded text is. An `int` is
a natural number here.

Main results:
* `qoffsetsAt_eq`: no character after the final NUL is read.
* `unquoteLoop_cut`: the text can be cut at the offsets.
* `qoffsets_spec`: both, with the order of the offsets.
-/

namespace Ashd.Patplex

/-! ## Escapes -/

/-- The byte that an escape at the start of a text stands for. -/
def escape : Bytes → Option UInt8
  | c :: x1 :: x2 :: _ =>
    if c = 37 then
      match hexdigit x1, hexdigit x2 with
      | some d1, some d2 => some (UInt8.ofNat (d1 * 16 + d2))
      | _, _ => none
    else none
  | _ => none

/-- A text without its escapes. A percent sign that does not start one stands for itself. -/
def decode : Bytes → Bytes
  | [] => []
  | c :: s =>
    match escape (c :: s) with
    | some b => b :: decode (s.drop 2)
    | none => c :: decode s
termination_by s => s.length

/-- What a pattern is compared with. -/
def decodeIf (unquote : Bool) (pstr : Bytes) : Bytes := if unquote then decode pstr else pstr

/-! ## Reading characters -/

/-- `pstr[i]`, which may be the final NUL; `none` is a read after it. -/
def charAt (pstr : Bytes) (i : ℕ) : Option UInt8 := (pstr ++ [0])[i]?

/-- The condition of the `if` (src/patplex.c:390), with the byte of the escape. -/
def escapeAt (pstr : Bytes) (i : ℕ) : Option (Option UInt8) := do
  let c ← charAt pstr i
  if c = 37 then
    let x1 ← charAt pstr (i + 1)
    match hexdigit x1 with
    | none => some none
    | some d1 =>
      let x2 ← charAt pstr (i + 2)
      match hexdigit x2 with
      | none => some none
      | some d2 => some (some (UInt8.ofNat (d1 <<< 4 ||| d2)))
  else some none

/-- The loop that unquotes, for at most `fuel` rounds. -/
def unquoteAt (pstr : Bytes) : ℕ → ℕ → Bytes → List ℕ → Option (Bytes × List ℕ)
  | 0, _, _, _ => none
  | fuel + 1, i, buf, obuf => do
    let c ← charAt pstr i
    if c = 0 then some (buf, obuf ++ [i])
    else
      match ← escapeAt pstr i with
      | some b => unquoteAt pstr fuel (i + 3) (buf ++ [b]) (obuf ++ [i])
      | none => unquoteAt pstr fuel (i + 1) (buf ++ [c]) (obuf ++ [i])

/-- The loop that copies. -/
def copyAt (pstr : Bytes) : ℕ → ℕ → Bytes → List ℕ → Option (Bytes × List ℕ)
  | 0, _, _, _ => none
  | fuel + 1, i, buf, obuf => do
    let c ← charAt pstr i
    if c = 0 then some (buf, obuf ++ [i])
    else copyAt pstr fuel (i + 1) (buf ++ [c]) (obuf ++ [i])

/-- `qoffsets` (src/patplex.c:382–409): `buf` without its NUL, and `obuf`. The loops go round at
    most once for each character and once more. -/
def qoffsetsAt (pstr : Bytes) (unquote : Bool) : Option (Bytes × List ℕ) :=
  if unquote then unquoteAt pstr (pstr.length + 1) 0 [] [] else copyAt pstr (pstr.length + 1) 0 [] []

/-! ## The escape at an offset -/

theorem charAt_append (pre s : Bytes) (i : ℕ) : charAt (pre ++ s) (pre.length + i) = charAt s i := by
  unfold charAt
  rw [List.append_assoc, List.getElem?_append_right (by omega), Nat.add_sub_cancel_left]

theorem escapeAt_append (pre s : Bytes) : escapeAt (pre ++ s) pre.length = escapeAt s 0 := by
  have h0 := charAt_append pre s 0
  rw [Nat.add_zero] at h0
  unfold escapeAt
  rw [h0, charAt_append, charAt_append]

theorem shiftLeft_or {d1 d2 : ℕ} (h : d2 < 16) : d1 <<< 4 ||| d2 = d1 * 16 + d2 := by
  rw [← Nat.shiftLeft_add_eq_or_of_lt (i := 4) h, Nat.shiftLeft_eq]

theorem hexdigit_zero : hexdigit 0 = none := rfl

/-- The character after a digit is read only if the digit is not the final NUL. -/
theorem escapeAt_zero (c : UInt8) (s : Bytes) : escapeAt (c :: s) 0 = some (escape (c :: s)) := by
  match s with
  | [] => simp [escapeAt, charAt, escape, hexdigit_zero]
  | [x1] =>
    cases hx : hexdigit x1 <;> simp [escapeAt, charAt, escape, hexdigit_zero, hx]
  | x1 :: x2 :: s =>
    cases hx1 : hexdigit x1 with
    | none => by_cases hc : c = 37 <;> simp [escapeAt, charAt, escape, hx1, hc]
    | some d1 =>
      cases hx2 : hexdigit x2 with
      | none => by_cases hc : c = 37 <;> simp [escapeAt, charAt, escape, hx1, hx2, hc]
      | some d2 =>
        have hor := congrArg UInt8.ofNat (@shiftLeft_or d1 _ (digitVal_lt hx2))
        by_cases hc : c = 37
        · simpa [escapeAt, charAt, escape, hx1, hx2, hc] using hor
        · simp [escapeAt, charAt, escape, hc]

/-! ## The loops -/

theorem escape_some {c b : UInt8} {s : Bytes} (h : escape (c :: s) = some b) :
    ∃ x1 x2 rest, s = x1 :: x2 :: rest := by
  match s with
  | [] => cases h
  | [_] => cases h
  | x1 :: x2 :: rest => exact ⟨x1, x2, rest, rfl⟩

theorem unquoteLoop_escape {c b : UInt8} {s : Bytes} (h : escape (c :: s) = some b) (i : ℕ) :
    unquoteLoop i (c :: s) =
      (b :: (unquoteLoop (i + 3) (s.drop 2)).1, i :: (unquoteLoop (i + 3) (s.drop 2)).2) := by
  obtain ⟨x1, x2, rest, rfl⟩ := escape_some h
  rw [escape] at h
  rw [unquoteLoop]
  split_ifs at h ⊢ with hc
  cases hx1 : hexdigit x1 with
  | none =>
    rw [hx1] at h
    cases h
  | some d1 =>
    cases hx2 : hexdigit x2 with
    | none =>
      rw [hx1, hx2] at h
      cases h
    | some d2 =>
      rw [hx1, hx2] at h
      cases h
      rfl

theorem unquoteLoop_plain {c : UInt8} {s : Bytes} (h : escape (c :: s) = none) (i : ℕ) :
    unquoteLoop i (c :: s) = (c :: (unquoteLoop (i + 1) s).1, i :: (unquoteLoop (i + 1) s).2) := by
  match s with
  | [] => rfl
  | [_] => rfl
  | x1 :: x2 :: rest =>
    rw [escape] at h
    rw [unquoteLoop]
    split_ifs at h ⊢ with hc
    · cases hx1 : hexdigit x1 with
      | none => rfl
      | some d1 =>
        cases hx2 : hexdigit x2 with
        | none => rfl
        | some d2 =>
          rw [hx1, hx2] at h
          cases h
    · rfl

/-- The loop that unquotes reads no more than the text and its NUL. -/
theorem unquoteAt_eq : ∀ fuel (pre s buf : Bytes) (obuf : List ℕ), s.length < fuel → NulFree s →
    unquoteAt (pre ++ s) fuel pre.length buf obuf =
      some (buf ++ (unquoteLoop pre.length s).1, obuf ++ (unquoteLoop pre.length s).2) := by
  intro fuel
  induction fuel with
  | zero => intro pre s buf obuf hf; omega
  | succ fuel ih =>
    intro pre s buf obuf hf hnul
    have hchar := charAt_append pre s 0
    rw [Nat.add_zero] at hchar
    rw [unquoteAt, hchar]
    match s with
    | [] => simp [charAt, unquoteLoop]
    | c :: s =>
      rw [List.length_cons] at hf
      simp only [NulFree, List.mem_cons, not_or] at hnul
      rw [escapeAt_append, escapeAt_zero, show charAt (c :: s) 0 = some c from rfl]
      simp only [Option.bind_eq_bind, Option.bind_some]
      rw [if_neg (Ne.symm hnul.1)]
      cases he : escape (c :: s) with
      | some b =>
        obtain ⟨x1, x2, rest, rfl⟩ := escape_some he
        have hstep := ih (pre ++ [c, x1, x2]) rest (buf ++ [b]) (obuf ++ [pre.length])
          (by simp only [List.length_cons] at hf; omega) fun h => hnul.2 (by simp [h])
        rw [unquoteLoop_escape he]
        simpa using hstep
      | none =>
        have hstep := ih (pre ++ [c]) s (buf ++ [c]) (obuf ++ [pre.length]) (by omega) hnul.2
        rw [unquoteLoop_plain he]
        simpa using hstep

/-- So does the one that copies. -/
theorem copyAt_eq : ∀ fuel (pre s buf : Bytes) (obuf : List ℕ), s.length < fuel → NulFree s →
    copyAt (pre ++ s) fuel pre.length buf obuf =
      some (buf ++ s, obuf ++ List.range' pre.length (s.length + 1)) := by
  intro fuel
  induction fuel with
  | zero => intro pre s buf obuf hf; omega
  | succ fuel ih =>
    intro pre s buf obuf hf hnul
    have hchar := charAt_append pre s 0
    rw [Nat.add_zero] at hchar
    rw [copyAt, hchar]
    match s with
    | [] => simp [charAt]
    | c :: s =>
      rw [List.length_cons] at hf
      simp only [NulFree, List.mem_cons, not_or] at hnul
      have hstep := ih (pre ++ [c]) s (buf ++ [c]) (obuf ++ [pre.length]) (by omega) hnul.2
      rw [show charAt (c :: s) 0 = some c from rfl]
      simp only [Option.bind_eq_bind, Option.bind_some]
      rw [if_neg (Ne.symm hnul.1), List.length_cons, List.range'_succ]
      simpa using hstep

/-- What is computed by reading one character after another is what is computed from the text. -/
theorem qoffsetsAt_eq {pstr : Bytes} (h : NulFree pstr) (unquote : Bool) :
    qoffsetsAt pstr unquote = some (qoffsets pstr unquote) := by
  unfold qoffsetsAt qoffsets
  cases unquote with
  | true => simpa using unquoteAt_eq (pstr.length + 1) [] pstr [] [] (Nat.lt_succ_self _) h
  | false =>
    rw [List.range_eq_range']
    simpa using copyAt_eq (pstr.length + 1) [] pstr [] [] (Nat.lt_succ_self _) h

/-! ## Cutting at the offsets -/

theorem decode_escape {c b : UInt8} {s : Bytes} (h : escape (c :: s) = some b) :
    decode (c :: s) = b :: decode (s.drop 2) := by
  rw [decode, h]

theorem decode_plain {c : UInt8} {s : Bytes} (h : escape (c :: s) = none) : decode (c :: s) = c :: decode s := by
  rw [decode, h]

/-- An escape that is cut is none, and none comes about by cutting. -/
theorem escape_take (s : Bytes) (n : ℕ) : escape (s.take n) = if 3 ≤ n then escape s else none := by
  match s, n with
  | [], n => simp [escape]
  | [_], 0 => rfl
  | [_], n + 1 => simp [escape]
  | [_, _], 0 => rfl
  | [_, _], 1 => rfl
  | [_, _], n + 2 => simp [escape]
  | _ :: _ :: _ :: _, 0 => rfl
  | _ :: _ :: _ :: _, 1 => rfl
  | _ :: _ :: _ :: _, 2 => rfl
  | _ :: _ :: _ :: _, n + 3 =>
    rw [if_pos (by omega)]
    rfl

theorem decode_take_escape {c b : UInt8} {s : Bytes} (h : escape (c :: s) = some b) (n : ℕ) :
    decode ((c :: s).take (n + 3)) = b :: decode ((s.drop 2).take n) := by
  have htake := escape_take (c :: s) (n + 3)
  rw [if_pos (by omega), h, List.take_succ_cons] at htake
  rw [List.take_succ_cons, decode_escape htake, List.drop_take, Nat.add_sub_cancel]

theorem decode_take_plain {c : UInt8} {s : Bytes} (h : escape (c :: s) = none) (n : ℕ) :
    decode ((c :: s).take (n + 1)) = c :: decode (s.take n) := by
  have htake := escape_take (c :: s) (n + 1)
  rw [h, ite_self, List.take_succ_cons] at htake
  rw [List.take_succ_cons, decode_plain htake]

/-- What the offsets of a text are, if they start at `i`: as many as there are positions in the
    decoded text, in order, and the text can be cut at each of them. -/
structure Offsets (s d : Bytes) (i : ℕ) (obuf : List ℕ) (dec : Bytes → Bytes) : Prop where
  length : obuf.length = d.length + 1
  sorted : obuf.Pairwise (· < ·)
  cut : ∀ k, k ≤ d.length → ∃ n, obuf[k]? = some (i + n) ∧ n ≤ s.length ∧
    dec (s.take n) = d.take k ∧ dec (s.drop n) = d.drop k

theorem Offsets.nil (i : ℕ) {dec : Bytes → Bytes} (hdec : dec [] = []) : Offsets [] [] i [i] dec where
  length := rfl
  sorted := List.pairwise_singleton _ _
  cut := fun k hk => ⟨0, by simp [Nat.le_zero.mp hk], le_rfl, by simpa using hdec, by simpa using hdec⟩

/-- One more byte, which the first `w` characters stand for. -/
theorem Offsets.cons {s d : Bytes} {obuf : List ℕ} {i w : ℕ} {b : UInt8} {dec : Bytes → Bytes}
    (h : Offsets (s.drop w) d (i + w) obuf dec) (hw : 0 < w) (hle : w ≤ s.length) (hdec : dec [] = [])
    (hs : dec s = b :: d) (htake : ∀ n, dec (s.take (n + w)) = b :: dec ((s.drop w).take n)) :
    Offsets s (b :: d) i (i :: obuf) dec where
  length := by rw [List.length_cons, h.length, List.length_cons]
  sorted := by
    refine List.pairwise_cons.mpr ⟨fun x hx => ?_, h.sorted⟩
    obtain ⟨k, hk, rfl⟩ := List.mem_iff_getElem.mp hx
    obtain ⟨n, hn, -⟩ := h.cut k (by rw [h.length] at hk; omega)
    rw [List.getElem?_eq_getElem hk, Option.some_inj] at hn
    omega
  cut := by
    intro k hk
    cases k with
    | zero => exact ⟨0, rfl, Nat.zero_le _, by simpa using hdec, by simpa using hs⟩
    | succ k =>
      obtain ⟨n, hn, hnle, hpre, hpost⟩ := h.cut k (by simpa using hk)
      rw [List.length_drop] at hnle
      refine ⟨n + w, ?_, by omega, ?_, ?_⟩
      · rw [List.getElem?_cons_succ, hn, Nat.add_assoc, Nat.add_comm w]
      · rw [htake, hpre, List.take_succ_cons]
      · rw [Nat.add_comm, ← List.drop_drop, hpost, List.drop_succ_cons]

/-- The loop that unquotes decodes the text, and its offsets are right. -/
theorem unquoteLoop_decode : ∀ m (s : Bytes), s.length < m → ∀ i,
    (unquoteLoop i s).1 = decode s ∧ Offsets s (decode s) i (unquoteLoop i s).2 decode := by
  have hnil : decode [] = [] := by rw [decode]
  intro m
  induction m with
  | zero => intro s hm; omega
  | succ m ih =>
    intro s hm i
    match s with
    | [] =>
      rw [hnil]
      exact ⟨rfl, .nil i hnil⟩
    | c :: s =>
      rw [List.length_cons] at hm
      cases he : escape (c :: s) with
      | some b =>
        have hlen : 3 ≤ (c :: s).length := by
          obtain ⟨x1, x2, rest, rfl⟩ := escape_some he
          simp
        obtain ⟨hbuf, hobuf⟩ := ih (s.drop 2) (by rw [List.length_drop]; omega) (i + 3)
        rw [unquoteLoop_escape he, decode_escape he]
        exact ⟨by rw [hbuf], .cons hobuf (by omega) hlen hnil (decode_escape he) (decode_take_escape he)⟩
      | none =>
        obtain ⟨hbuf, hobuf⟩ := ih s (by omega) (i + 1)
        rw [unquoteLoop_plain he, decode_plain he]
        exact ⟨by rw [hbuf], .cons (w := 1) hobuf (by omega) (by simp) hnil (decode_plain he) (decode_take_plain he)⟩

theorem range_offsets (s : Bytes) : Offsets s s 0 (List.range (s.length + 1)) id where
  length := List.length_range
  sorted := List.pairwise_lt_range
  cut := fun k hk => ⟨k, by rw [List.getElem?_range (by omega), Nat.zero_add], hk, rfl, rfl⟩

/-- **Offsets between decoded and raw strings.** For any string, `qoffsets` reads no character
    after the NUL. It gives the decoded text and one offset for each position in it up to its
    end, in increasing order, none of them behind the end of the string, such that what is before
    and after an offset decodes to what is before and after its position. -/
theorem qoffsets_spec (pstr : Bytes) (h : NulFree pstr) (unquote : Bool) :
    ∃ obuf, qoffsetsAt pstr unquote = some (decodeIf unquote pstr, obuf) ∧
      obuf.length = (decodeIf unquote pstr).length + 1 ∧ obuf.Pairwise (· < ·) ∧
        ∀ k, k ≤ (decodeIf unquote pstr).length → ∃ n, obuf[k]? = some n ∧ n ≤ pstr.length ∧
          decodeIf unquote (pstr.take n) = (decodeIf unquote pstr).take k ∧
            decodeIf unquote (pstr.drop n) = (decodeIf unquote pstr).drop k := by
  rw [qoffsetsAt_eq h]
  cases unquote with
  | true =>
    obtain ⟨hbuf, hobuf⟩ := unquoteLoop_decode _ pstr (Nat.lt_succ_self _) 0
    refine ⟨(unquoteLoop 0 pstr).2, congrArg some (Prod.ext hbuf rfl), hobuf.length, hobuf.sorted, fun k hk => ?_⟩
    obtain ⟨n, hn, hcut⟩ := hobuf.cut k hk
    exact ⟨n, by rw [hn, Nat.zero_add], hcut⟩
  | false =>
    have hobuf := range_offsets pstr
    refine ⟨List.range (pstr.length + 1), rfl, hobuf.length, hobuf.sorted, fun k hk => ?_⟩
    obtain ⟨n, hn, hcut⟩ := hobuf.cut k hk
    exact ⟨n, by rw [hn, Nat.zero_add], hcut⟩

/-- A string that ends in an incomplete escape. -/
theorem qoffsets_spec_incomplete :
    ∃ obuf, qoffsetsAt (bytes "%41%4") true = some (decodeIf true (bytes "%41%4"), obuf) ∧
      obuf.length = (decodeIf true (bytes "%41%4")).length + 1 := by
  obtain ⟨obuf, heq, hlen, -⟩ := qoffsets_spec (bytes "%41%4") (by decide) true
  exact ⟨obuf, heq, hlen⟩

end Ashd.Patplex
