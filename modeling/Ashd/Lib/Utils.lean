import Ashd.Common.Block

/-!
# `lib/utils.c`, `lib/utils.h`

* `Charbuf` and `sizebuf`: growable buffers (`_sizebuf`, lib/utils.c:50–66).
* `decstr`: taking a NUL-terminated string off a datagram (lib/utils.c:68–83).
* `atoo`: `strtoll` in base 10 (lib/utils.c:125–128).
* `tokenize`: the words of a line (lib/utils.c:130–181).
* `base64decode` (lib/utils.c:274–309).

`size_t` values are modelled in `ℕ`: all of them are sizes of memory blocks.
`malloc` and `realloc` do not fail (`smalloc` and `srealloc` abort when they do).
-/

namespace Ashd

/-! ## Buffers -/

/-- `struct charbuf` (lib/utils.h:61–64): `s` bytes are allocated at `b`, of which
    `d` are in use. `b` lists the bytes that have been written. -/
structure Charbuf where
  b : Bytes := []
  s : ℕ := 0
  d : ℕ := 0

/-- Every byte in use has been written, inside the allocated block. -/
structure Charbuf.Ok (buf : Charbuf) : Prop where
  d_le : buf.d ≤ buf.b.length
  b_le : buf.b.length ≤ buf.s

/-- `buf->b = srealloc(buf->b, buf->s = n)`. -/
def Charbuf.realloc (buf : Charbuf) (n : ℕ) : Charbuf := { buf with b := buf.b.take n, s := n }

/-- `while(n < wanted) n <<= 1`, at most `fuel` times. -/
def growTo (wanted : ℕ) : ℕ → ℕ → ℕ
  | 0, n => n
  | fuel + 1, n => if n < wanted then growTo wanted fuel (n * 2) else n

/-- `sizebuf(buf, wanted)`, that is `_sizebuf` (lib/utils.c:50–66). -/
def sizebuf (buf : Charbuf) (wanted : ℕ) : Charbuf :=
  let n := growTo wanted wanted (if buf.s = 0 then 1 else buf.s)
  if n ≤ buf.s then buf else buf.realloc n

/-- `memcpy(buf.b + buf.d, data, len); buf.d += len`. -/
def Charbuf.put (buf : Charbuf) (data : Bytes) : Charbuf :=
  { buf with b := poke buf.b buf.d data, d := buf.d + data.length }

/-- `memmove(buf.b, buf.b + h, buf.d -= h)`. -/
def Charbuf.shift (buf : Charbuf) (h : ℕ) : Charbuf :=
  { buf with b := poke buf.b 0 (peek buf.b h (buf.d - h)), d := buf.d - h }

/-- The bytes from head index `h` on that are in use. -/
def Charbuf.window (buf : Charbuf) (h : ℕ) : Bytes := peek buf.b h (buf.d - h)

theorem growTo_spec (wanted : ℕ) :
    ∀ fuel n, 0 < n → wanted ≤ n * 2 ^ fuel → wanted ≤ growTo wanted fuel n := by
  intro fuel
  induction fuel with
  | zero => intro n _ h; simpa [growTo] using h
  | succ fuel ih =>
    intro n hn h
    rw [growTo]
    split_ifs with hlt
    · exact ih (n * 2) (by omega) (by rw [pow_succ] at h; linarith)
    · omega

/-- `_sizebuf` gives at least the size asked for. -/
theorem le_sizebuf_s (buf : Charbuf) (wanted : ℕ) : wanted ≤ (sizebuf buf wanted).s := by
  unfold sizebuf
  simp only
  generalize hn : (if buf.s = 0 then 1 else buf.s) = n
  have hpos : 0 < n := by rw [← hn]; split_ifs <;> omega
  have h : wanted ≤ growTo wanted wanted n := by
    refine growTo_spec _ _ _ hpos ?_
    calc wanted ≤ 2 ^ wanted := (Nat.lt_two_pow_self).le
      _ ≤ n * 2 ^ wanted := Nat.le_mul_of_pos_left _ hpos
  by_cases hs : growTo wanted wanted n ≤ buf.s
  · rw [if_pos hs]; omega
  · rw [if_neg hs]; exact h

theorem growTo_le (wanted : ℕ) : ∀ fuel n, growTo wanted fuel n ≤ max n (2 * wanted) := by
  intro fuel
  induction fuel with
  | zero => intro n; exact le_max_left _ _
  | succ fuel ih =>
    intro n
    rw [growTo]
    split_ifs
    · have := ih (n * 2)
      omega
    · exact le_max_left _ _

/-- `_sizebuf` gives less than twice the size asked for. -/
theorem sizebuf_le (buf : Charbuf) (wanted : ℕ) :
    (sizebuf buf wanted).s ≤ max (max buf.s 1) (2 * wanted) := by
  unfold sizebuf
  simp only
  have := growTo_le wanted wanted (if buf.s = 0 then 1 else buf.s)
  generalize hn : (if buf.s = 0 then 1 else buf.s) = n at this
  have hle : n ≤ max buf.s 1 := by rw [← hn]; split_ifs <;> omega
  split_ifs
  · omega
  · simp only [Charbuf.realloc]; omega

/-- `_sizebuf` never shrinks a buffer, so nothing in it is lost. -/
theorem sizebuf_eq {buf : Charbuf} (h : buf.Ok) (wanted : ℕ) :
    (sizebuf buf wanted).b = buf.b ∧ (sizebuf buf wanted).d = buf.d ∧
      buf.s ≤ (sizebuf buf wanted).s := by
  unfold sizebuf
  simp only
  generalize growTo wanted wanted (if buf.s = 0 then 1 else buf.s) = n
  by_cases hs : n ≤ buf.s
  · rw [if_pos hs]; exact ⟨rfl, rfl, le_rfl⟩
  · rw [if_neg hs]
    have hb := h.b_le
    exact ⟨List.take_of_length_le (by omega), rfl, by simp only [Charbuf.realloc]; omega⟩

theorem Charbuf.Ok.sizebuf {buf : Charbuf} (h : buf.Ok) (wanted : ℕ) :
    (sizebuf buf wanted).Ok := by
  obtain ⟨hb, hd, hs⟩ := sizebuf_eq h wanted
  exact ⟨by rw [hb, hd]; exact h.d_le, by rw [hb]; exact h.b_le.trans hs⟩

theorem window_sizebuf {buf : Charbuf} (h : buf.Ok) (wanted i : ℕ) :
    (sizebuf buf wanted).window i = buf.window i := by
  obtain ⟨hb, hd, -⟩ := sizebuf_eq h wanted
  simp only [Charbuf.window, hb, hd]

theorem Charbuf.Ok.realloc {buf : Charbuf} (h : buf.Ok) {n : ℕ} (hn : buf.d ≤ n) :
    (buf.realloc n).Ok :=
  ⟨by have := h.d_le; simp [Charbuf.realloc]; omega, by simp [Charbuf.realloc]⟩

theorem window_realloc {buf : Charbuf} {n : ℕ} (hn : buf.d ≤ n) (i : ℕ) :
    (buf.realloc n).window i = buf.window i :=
  peek_take hn

theorem Charbuf.Ok.put {buf : Charbuf} (h : buf.Ok) {data : Bytes}
    (hs : buf.d + data.length ≤ buf.s) : (buf.put data).Ok := by
  have hd := h.d_le
  have hb := h.b_le
  constructor <;> simp only [Charbuf.put, length_poke hd] <;> omega

theorem window_put {buf : Charbuf} (h : buf.Ok) {i : ℕ} (hi : i ≤ buf.d) (data : Bytes) :
    (buf.put data).window i = buf.window i ++ data :=
  peek_poke_end hi h.d_le data

/-- Taking back what was put restores the window. -/
theorem window_put_undo {buf : Charbuf} (h : buf.Ok) (data : Bytes) (i : ℕ) :
    ({ buf.put data with d := buf.d } : Charbuf).window i = buf.window i :=
  peek_poke_of_le le_rfl h.d_le data

theorem Charbuf.Ok.shift {buf : Charbuf} (h : buf.Ok) {i : ℕ} (hi : i ≤ buf.d) :
    (buf.shift i).Ok := by
  have hd := h.d_le
  have hb := h.b_le
  have hl : (peek buf.b i (buf.d - i)).length = buf.d - i := length_peek (by omega)
  constructor <;> simp only [Charbuf.shift, length_poke (Nat.zero_le _), hl] <;> omega

theorem window_shift {buf : Charbuf} (h : buf.Ok) {i : ℕ} (hi : i ≤ buf.d) :
    (buf.shift i).window 0 = buf.window i := by
  have hd := h.d_le
  have hl : (peek buf.b i (buf.d - i)).length = buf.d - i := length_peek (by omega)
  have := peek_poke_zero buf.b (peek buf.b i (buf.d - i))
  rw [hl] at this
  simpa [Charbuf.window, Charbuf.shift] using this

theorem length_window {buf : Charbuf} (h : buf.Ok) {i : ℕ} (hi : i ≤ buf.d) :
    (buf.window i).length = buf.d - i := by
  have hd := h.d_le
  exact length_peek (by omega)

/-! ## `decstr` -/

/-- `decstr(&p, &len)` on the `len` bytes at `p`: the string and what follows its
    NUL, or `none` (`NULL`) if there is no NUL. -/
def decstr (l : Bytes) : Option (Bytes × Bytes) :=
  let ret := cstr l
  if ret.length = l.length then none else some (ret, l.drop (ret.length + 1))

@[simp] theorem decstr_cstring {s : Bytes} (h : NulFree s) (t : Bytes) :
    decstr (s ++ 0 :: t) = some (s, t) := by
  simp [decstr, cstr_append h]

theorem decstr_eq_some {l s t : Bytes} (h : decstr l = some (s, t)) :
    NulFree s ∧ l = s ++ 0 :: t := by
  unfold decstr at h
  simp only at h
  split_ifs at h with hl
  obtain ⟨rfl, rfl⟩ := Prod.mk.inj (Option.some.inj h)
  exact ⟨nulFree_cstr l, cstr_split fun hn => hl (by rw [cstr_eq_self hn])⟩

/-! ## `atoo` -/

/-- `atoo` (lib/utils.c:125–128), `strtoll(n, NULL, 10)`: white space, a sign and
    digits, clamped to the 64-bit range. -/
def atoo (n : Bytes) : ℤ :=
  match n.dropWhile isspace with
  | 45 :: s => max (-(numeralValue 10 (s.takeWhile isdigit) : ℤ)) (-2 ^ 63)
  | 43 :: s => min (numeralValue 10 (s.takeWhile isdigit) : ℤ) (2 ^ 63 - 1)
  | s => min (numeralValue 10 (s.takeWhile isdigit) : ℤ) (2 ^ 63 - 1)

theorem takeWhile_isdigit {n : Bytes} (h : IsDecimal n) {t : Bytes}
    (ht : t.takeWhile isdigit = []) : (n ++ t).takeWhile isdigit = n := by
  rw [List.takeWhile_append_of_pos h.2, ht, List.append_nil]

/-- Digits, and then anything that is not one. -/
theorem atoo_decimal {n : Bytes} (h : IsDecimal n) {t : Bytes} (ht : t.takeWhile isdigit = []) :
    atoo (n ++ t) = min (numeralValue 10 n : ℤ) (2 ^ 63 - 1) := by
  have htake := takeWhile_isdigit h ht
  obtain ⟨hne, hd⟩ := h
  obtain ⟨c, s, rfl⟩ := List.exists_cons_of_ne_nil hne
  obtain ⟨hsp, h43, h45, -⟩ := isdigit_ne (hd c (by simp))
  have hdrop : (c :: s ++ t).dropWhile isspace = c :: s ++ t := by simp [hsp]
  unfold atoo
  rw [hdrop]
  split
  · rename_i heq; exact absurd (List.cons.inj heq).1 h45
  · rename_i heq; exact absurd (List.cons.inj heq).1 h43
  · rw [htake]

/-! ## `tokenize` -/

/-- The inner loop of `tokenize` (lib/utils.c:146–161), which goes to the end of a word; `q` tells
    that it is between quotes. There is none if the loop passes the end of the string. -/
def scanWord : Bool → Bytes → Option (Bytes × Bytes)
  | true, [] => none
  | false, [] => some ([], [])
  | q, c :: s =>
    if c = 34 then (scanWord (!q) s).map fun (w, p) => (c :: w, p)
    else if c = 92 then
      match s with
      | [] => none
      | d :: s => (scanWord q s).map fun (w, p) => (c :: d :: w, p)
    else if q = false ∧ isspace c = true then some ([], c :: s)
    else (scanWord q s).map fun (w, p) => (c :: w, p)

/-- A word without its quotes and backslashes (lib/utils.c:165–174). -/
def unquote : Bytes → Bytes
  | [] => []
  | [c] => if c = 92 ∨ c = 34 then [] else [c]
  | c :: d :: s =>
    if c = 92 then d :: unquote s
    else if c = 34 then unquote (d :: s)
    else c :: unquote (d :: s)

/-- The outer loop of `tokenize`. Every word takes up a byte of the string. -/
def tokenizeLoop : ℕ → Bytes → Option (List Bytes)
  | 0, _ => some []
  | fuel + 1, src =>
    match src.dropWhile isspace with
    | [] => some []
    | p =>
      match scanWord false p with
      | none => none
      | some (w, p) => (tokenizeLoop fuel p).map (unquote w :: ·)

/-- `tokenize` (lib/utils.c:130–181). There is none if a quote is not closed, or the last byte is
    a backslash: what is behind the string in memory is then taken for a part of it. -/
def tokenize (src : Bytes) : Option (List Bytes) := tokenizeLoop (src.length + 1) src

example : tokenize (bytes "env \"a b\"\\\\ c") = some [bytes "env", bytes "a b\\", bytes "c"] := by
  decide +kernel

/-! ## `base64decode` -/

/-- `base64rev` (lib/utils.c:31–48), with `none` for -1. -/
def base64rev (c : UInt8) : Option ℕ :=
  if c = 43 then some 62
  else if c = 47 then some 63
  else if 48 ≤ c && c ≤ 57 then some (c.toNat - 48 + 52)
  else if 65 ≤ c && c ≤ 90 then some (c.toNat - 65)
  else if 97 ≤ c && c ≤ 122 then some (c.toNat - 97 + 26)
  else none

/-- The loop of `base64decode`, with the bits that are left of the last character in `cur`,
    and `8 - b` of them. A `char` above 127 is negative. -/
def base64loop : Bytes → UInt8 → ℕ → Bytes → Option Bytes
  | [], _, _, buf => some buf
  | c :: data, cur, b, buf =>
    if c = 0 ∨ 128 ≤ c then some buf
    else if c = 61 then some buf
    else if c = 10 then base64loop data cur b buf
    else
      match base64rev c with
      | none => none
      | some v =>
        if b ≤ 6 then
          base64loop data (UInt8.ofNat (v * 2 ^ (b + 2))) (b + 2)
            (buf ++ [cur ||| UInt8.ofNat (v / 2 ^ (6 - b))])
        else base64loop data (cur ||| UInt8.ofNat (v * 2 ^ (b - 6))) (b - 6) buf

/-- `base64decode` (lib/utils.c:274–309): the `datalen` bytes that are followed by a NUL. -/
def base64decode (data : Bytes) : Option Bytes := base64loop data 0 8 []

example : base64decode (bytes "dXNlcjpwYXNz") = some (bytes "user:pass") := by decide

end Ashd
