import Ashd.Lib.Req

/-!
# Log records of `src/accesslog.c`

`logreq` writes a line for a request, as its format string says. Everything in it that a client
or a handler has sent goes through `qputs`.

The output is modelled as the bytes that are written. What `strftime` makes of a time is given by
a `Clock`; a duration, which is printed as a floating-point number, is a number of microseconds,
as which it is exact for 200 years.

Main results:
* `readField_qputs`: a field that stands between quotes can be read back.
* `escaped_logitem`: no item writes a string as it is.
* `logreq_record`: a record is a line, in which strings are escaped.
-/

namespace Ashd.Accesslog

/-! ## Escaping -/

/-- The body of the loop of `qputs`. -/
def qbyte (c : UInt8) : Bytes :=
  if c = 34 then [92, 34]
  else if c = 92 then [92, 92]
  else if c = 10 then [92, 110]
  else if c = 9 then [92, 116]
  else if c < 32 ∨ c ≥ 128 then [92, 120, digitChar (c.toNat / 16), digitChar (c.toNat % 16)]
  else [c]

/-- `qputs` (src/accesslog.c:62–81). -/
def qputs (s : Bytes) : Bytes := (cstr s).flatMap qbyte

example : qputs (bytes "a\"\n\r") = bytes "a\\\"\\n\\x0d" := by decide

/-! ## Items -/

/-- `struct timeval`. -/
structure Timeval where
  sec : ℤ := 0
  usec : ℤ := 0
  deriving DecidableEq

/-- `struct logdata` (src/accesslog.c:48–52). -/
structure Logdata where
  req : Hthead
  resp : Option Hthead := none
  start : Timeval
  stop : Timeval := {}
  bytesin : ℤ := -1
  bytesout : ℤ := -1

/-- What `strftime` writes to `buf`, for a format and the `localtime` or the `gmtime` of a time. -/
structure Clock where
  localtime : Bytes → ℤ → Bytes
  gmtime : Bytes → ℤ → Bytes

/-- `"%i"` and `"%ji"`. -/
def printi (n : ℤ) : Bytes := if n < 0 then 45 :: numeral 10 n.natAbs else numeral 10 n.natAbs

/-- A numeral with zeros in front. -/
def zeros (width n : ℕ) : Bytes :=
  List.replicate (width - (numeral 10 n).length) 48 ++ numeral 10 n

/-- `"%06i"`. -/
def print06i (n : ℤ) : Bytes := if n < 0 then 45 :: zeros 5 n.natAbs else zeros 6 n.natAbs

/-- `"%.6f"` of a number of seconds, given in microseconds. -/
def printf6 (n : ℤ) : Bytes :=
  (if n < 0 then [45] else []) ++ numeral 10 (n.natAbs / 1000000) ++ 46 :: zeros 6 (n.natAbs % 1000000)

section Format

variable (clock : Clock)

/-- Case `'h'` of `logitem`. -/
def logh (data : Logdata) (d : Bytes) : Bytes :=
  match getheader data.req d with
  | none => [45]
  | some h => qputs h

/-- Case `'p'` of `logitem`. -/
def logp (data : Logdata) (d : Bytes) : Bytes :=
  match data.resp with
  | none => [45]
  | some resp =>
    match getheader resp d with
    | none => [45]
    | some h => qputs h

/-- The format of a time if none is given. -/
def timeFormat (d : Bytes) : Bytes := if d = [] then bytes "%a, %d %b %Y %H:%M:%S %z" else d

/-- `logitem` (src/accesslog.c:83–180). -/
def logitem (data : Logdata) (o : UInt8) (d : Bytes) : Bytes :=
  match Char.ofNat o.toNat with
  | '%' => [37]
  | 'h' => logh data d
  | 'p' => logp data d
  | 'P' => logp data (bytes "X-Ash-" ++ d)
  | 'u' => qputs data.req.url
  | 'U' => qputs ((data.req.url.take 1023).takeWhile (· ≠ 63))
  | 'm' => qputs data.req.method
  | 'r' => qputs data.req.rest
  | 'v' => qputs data.req.ver
  | 't' => qputs (clock.localtime (timeFormat d) data.start.sec)
  | 'T' => qputs (clock.gmtime (timeFormat d) data.start.sec)
  | 's' => print06i data.start.usec
  | 'c' => match data.resp with
    | none => [45]
    | some resp => printi resp.code
  | 'i' => if data.bytesin < 0 then [45] else printi data.bytesin
  | 'o' => if data.bytesout < 0 then [45] else printi data.bytesout
  | 'd' =>
    if data.stop.sec = 0 ∧ data.stop.usec = 0 then [45]
    else printf6 ((data.stop.sec - data.start.sec) * 1000000 + (data.stop.usec - data.start.usec))
  | 'A' => logh data (bytes "X-Ash-Address")
  | 'H' => logh data (bytes "Host")
  | 'R' => logh data (bytes "Referer")
  | 'G' => logh data (bytes "User-Agent")
  | _ => []

/-! ## Records -/

/-- The loop of `logreq`: what is written from the format `p` on. -/
def logreqLoop (data : Logdata) : ℕ → Bytes → Bytes
  | 0, _ => []
  | _, [] => []
  | fuel + 1, c :: p =>
    if c = 37 then
      match p with
      | 123 :: p =>
        match p.dropWhile (· ≠ 125) with
        | [] => logreqLoop data fuel p
        | _ :: [] => []
        | _ :: o :: p2 => logitem clock data o (p.takeWhile (· ≠ 125)) ++ logreqLoop data fuel p2
      | [] => []
      | o :: p => logitem clock data o [] ++ logreqLoop data fuel p
    else c :: logreqLoop data fuel p

/-- `logreq` (src/accesslog.c:182–213). -/
def logreq (format : Bytes) (data : Logdata) : Bytes :=
  logreqLoop clock data (format.length + 1) format ++ [10]

end Format

/-! ## What `qputs` writes -/

/-- A string in which quotes, backslashes and bytes outside of ASCII are escaped. -/
inductive Escaped : Bytes → Prop
  | nil : Escaped []
  | plain {c : UInt8} {t : Bytes} (h : 32 ≤ c ∧ c < 128) (hquote : c ≠ 34) (hback : c ≠ 92)
      (ht : Escaped t) : Escaped (c :: t)
  | char {c : UInt8} {t : Bytes} (h : c ∈ bytes "\"\\nt") (ht : Escaped t) : Escaped (92 :: c :: t)
  | hex {a b : UInt8} {t : Bytes} (ha : (digitVal a).isSome = true) (hb : (digitVal b).isSome = true)
      (ht : Escaped t) : Escaped (92 :: 120 :: a :: b :: t)

theorem Escaped.append {s t : Bytes} (hs : Escaped s) (ht : Escaped t) : Escaped (s ++ t) := by
  induction hs with
  | nil => exact ht
  | plain h hquote hback _ ih => exact .plain h hquote hback ih
  | char h _ ih => exact .char h ih
  | hex ha hb _ ih => exact .hex ha hb ih

theorem digitVal_range {c : UInt8} (h : (digitVal c).isSome = true) : 32 ≤ c ∧ c < 128 := by
  unfold digitVal at h
  simp only [UInt8.le_iff_toNat_le, UInt8.lt_iff_toNat_lt, Bool.and_eq_true, decide_eq_true_eq,
    UInt8.reduceToNat] at h ⊢
  split_ifs at h with h1 h2 h3
  · omega
  · omega
  · omega
  · cases h

/-- There are only printable bytes, and DEL. -/
theorem Escaped.range {s : Bytes} (h : Escaped s) : ∀ c ∈ s, 32 ≤ c ∧ c < 128 := by
  induction h with
  | nil => simp
  | plain h _ _ _ ih => exact List.forall_mem_cons.mpr ⟨h, ih⟩
  | char h _ ih =>
    have hc : ∀ c ∈ bytes "\"\\nt", 32 ≤ c ∧ c < 128 := by decide +kernel
    exact List.forall_mem_cons.mpr ⟨by decide, List.forall_mem_cons.mpr ⟨hc _ h, ih⟩⟩
  | hex ha hb _ ih =>
    exact List.forall_mem_cons.mpr ⟨by decide, List.forall_mem_cons.mpr ⟨by decide,
      List.forall_mem_cons.mpr ⟨digitVal_range ha, List.forall_mem_cons.mpr ⟨digitVal_range hb, ih⟩⟩⟩⟩

theorem Escaped.notMem_lf {s : Bytes} (h : Escaped s) : (10 : UInt8) ∉ s :=
  fun h10 => absurd (h.range 10 h10).1 (by decide)

/-- The digits of a byte. -/
theorem byte_digits (c : UInt8) :
    digitVal (digitChar (c.toNat / 16)) = some (c.toNat / 16) ∧
      digitVal (digitChar (c.toNat % 16)) = some (c.toNat % 16) := by
  have hc := c.toNat_lt
  exact ⟨digitVal_digitChar (by omega), digitVal_digitChar (by omega)⟩

theorem escaped_qbyte (c : UInt8) : Escaped (qbyte c) := by
  unfold qbyte
  split_ifs with h34 h92 h10 h9 hrange
  · exact .char (by decide) .nil
  · exact .char (by decide) .nil
  · exact .char (by decide) .nil
  · exact .char (by decide) .nil
  · obtain ⟨h1, h2⟩ := byte_digits c
    exact .hex (by rw [h1]; rfl) (by rw [h2]; rfl) .nil
  · rw [not_or] at hrange
    exact .plain ⟨UInt8.not_lt.mp hrange.1, UInt8.not_le.mp hrange.2⟩ h34 h92 .nil

theorem escaped_qputs (s : Bytes) : Escaped (qputs s) := by
  unfold qputs
  induction cstr s with
  | nil => exact .nil
  | cons c s ih =>
    rw [List.flatMap_cons]
    exact (escaped_qbyte c).append ih

/-! ## Reading a field -/

/-- The field up to the next quote, and what follows that. -/
def readField : Bytes → Option (Bytes × Bytes)
  | [] => none
  | 34 :: t => some ([], t)
  | 92 :: 120 :: a :: b :: t =>
    match digitVal a, digitVal b with
    | some x, some y => (readField t).map fun r => (UInt8.ofNat (x * 16 + y) :: r.1, r.2)
    | _, _ => none
  | 92 :: c :: t =>
    (readField t).map fun r =>
      ((if c = 110 then 10 else if c = 116 then 9 else c) :: r.1, r.2)
  | c :: t => (readField t).map fun r => (c :: r.1, r.2)

theorem readField_qbyte (c : UInt8) (t : Bytes) :
    readField (qbyte c ++ t) = (readField t).map fun r => (c :: r.1, r.2) := by
  unfold qbyte
  split_ifs with h34 h92 h10 h9 hrange
  · rw [h34]
    rfl
  · rw [h92]
    rfl
  · rw [h10]
    rfl
  · rw [h9]
    rfl
  · obtain ⟨h1, h2⟩ := byte_digits c
    have hval : UInt8.ofNat (c.toNat / 16 * 16 + c.toNat % 16) = c := by
      rw [Nat.div_add_mod', UInt8.ofNat_toNat]
    show readField (92 :: 120 :: digitChar (c.toNat / 16) :: digitChar (c.toNat % 16) :: t) = _
    rw [readField, h1, h2]
    simp only [hval]
  · show readField (c :: t) = _
    rw [readField]
    · exact h34
    · intro a b t' h
      exact absurd h h92
    · intro a t' h
      exact absurd h h92

/-- A field that stands between quotes is read back, with what follows it. -/
theorem readField_qputs {s : Bytes} (h : NulFree s) (t : Bytes) :
    readField (qputs s ++ 34 :: t) = some (s, t) := by
  unfold qputs
  rw [cstr_eq_self h]
  clear h
  induction s with
  | nil => rfl
  | cons c s ih =>
    rw [List.flatMap_cons, List.append_assoc, readField_qbyte, ih]
    rfl

theorem qputs_injective {a b : Bytes} (ha : NulFree a) (hb : NulFree b) (h : qputs a = qputs b) :
    a = b := by
  have hra := readField_qputs ha []
  rw [h, readField_qputs hb] at hra
  exact (Prod.mk.inj (Option.some.inj hra)).1.symm

/-! ## What the items write -/

/-- Bytes that need no escape. -/
def Plain (t : Bytes) : Prop := ∀ c ∈ t, (32 ≤ c ∧ c < 128) ∧ c ≠ 34 ∧ c ≠ 92

theorem Plain.escaped {t : Bytes} (h : Plain t) : Escaped t := by
  induction t with
  | nil => exact .nil
  | cons c t ih =>
    obtain ⟨hc, ht⟩ := List.forall_mem_cons.mp h
    exact .plain hc.1 hc.2.1 hc.2.2 (ih ht)

theorem Plain.append {s t : Bytes} (hs : Plain s) (ht : Plain t) : Plain (s ++ t) := by
  intro c hc
  rcases List.mem_append.mp hc with hc | hc
  · exact hs c hc
  · exact ht c hc

theorem plain_numeral (n : ℕ) : Plain (numeral 10 n) := by
  intro c hc
  obtain ⟨d, hd, rfl⟩ := numeral_digits (by norm_num) c hc
  interval_cases d <;> decide

theorem plain_zeros (width n : ℕ) : Plain (zeros width n) := by
  refine Plain.append (fun c hc => ?_) (plain_numeral n)
  rw [(List.mem_replicate.mp hc).2]
  decide

theorem plain_minus : Plain [45] := by
  intro c hc
  rw [List.mem_singleton.mp hc]
  decide

theorem plain_printi (n : ℤ) : Plain (printi n) := by
  unfold printi
  split_ifs
  · exact plain_minus.append (plain_numeral _)
  · exact plain_numeral _

theorem plain_print06i (n : ℤ) : Plain (print06i n) := by
  unfold print06i
  split_ifs
  · exact plain_minus.append (plain_zeros _ _)
  · exact plain_zeros _ _

theorem plain_printf6 (n : ℤ) : Plain (printf6 n) := by
  have hdot : Plain [46] := by
    intro c hc
    rw [List.mem_singleton.mp hc]
    decide
  unfold printf6
  refine Plain.append (Plain.append ?_ (plain_numeral _)) (hdot.append (plain_zeros _ _))
  split_ifs
  · exact plain_minus
  · intro c hc
    cases hc

theorem escaped_logh (data : Logdata) (d : Bytes) : Escaped (logh data d) := by
  unfold logh
  split
  · exact plain_minus.escaped
  · exact escaped_qputs _

theorem escaped_logp (data : Logdata) (d : Bytes) : Escaped (logp data d) := by
  unfold logp
  split
  · exact plain_minus.escaped
  · split
    · exact plain_minus.escaped
    · exact escaped_qputs _

theorem escaped_logitem (clock : Clock) (data : Logdata) (o : UInt8) (d : Bytes) :
    Escaped (logitem clock data o d) := by
  unfold logitem
  split
  case h_1 =>
    refine Plain.escaped fun c hc => ?_
    rw [List.mem_singleton.mp hc]
    decide
  case h_2 => exact escaped_logh _ _
  case h_3 => exact escaped_logp _ _
  case h_4 => exact escaped_logp _ _
  case h_12 => exact (plain_print06i _).escaped
  case h_13 =>
    split
    · exact plain_minus.escaped
    · exact (plain_printi _).escaped
  case h_14 =>
    split_ifs
    · exact plain_minus.escaped
    · exact (plain_printi _).escaped
  case h_15 =>
    split_ifs
    · exact plain_minus.escaped
    · exact (plain_printi _).escaped
  case h_16 =>
    split_ifs
    · exact plain_minus.escaped
    · exact (plain_printf6 _).escaped
  case h_17 => exact escaped_logh _ _
  case h_18 => exact escaped_logh _ _
  case h_19 => exact escaped_logh _ _
  case h_20 => exact escaped_logh _ _
  case h_21 => exact .nil
  all_goals exact escaped_qputs _

/-! ## Records as lines -/

/-- What a format consists of: bytes that are copied, and items. -/
inductive Piece
  | lit (c : UInt8)
  | item (o : UInt8) (d : Bytes)

/-- What is written for it. -/
def Piece.text (clock : Clock) (data : Logdata) : Piece → Bytes
  | .lit c => [c]
  | .item o d => logitem clock data o d

/-- The pieces of a format, as the loop of `logreq` takes it apart. -/
def pieces : ℕ → Bytes → List Piece
  | 0, _ => []
  | _, [] => []
  | fuel + 1, c :: p =>
    if c = 37 then
      match p with
      | 123 :: p =>
        match p.dropWhile (· ≠ 125) with
        | [] => pieces fuel p
        | _ :: [] => []
        | _ :: o :: p2 => .item o (p.takeWhile (· ≠ 125)) :: pieces fuel p2
      | [] => []
      | o :: p => .item o [] :: pieces fuel p
    else .lit c :: pieces fuel p

/-- What is written depends on the request only in the items. -/
theorem logreqLoop_pieces (clock : Clock) (data : Logdata) :
    ∀ fuel p, logreqLoop clock data fuel p = (pieces fuel p).flatMap (Piece.text clock data) := by
  intro fuel
  induction fuel with
  | zero => intro p; rfl
  | succ fuel ih =>
    intro p
    cases p with
    | nil => rfl
    | cons c p =>
      rw [logreqLoop.eq_def, pieces.eq_def]
      simp only
      by_cases hc : c = 37
      · rw [if_pos hc, if_pos hc]
        split
        · split
          · exact ih _
          · rfl
          · rw [ih, List.flatMap_cons]
            rfl
        · rfl
        · rw [ih, List.flatMap_cons]
          rfl
      · rw [if_neg hc, if_neg hc, ih, List.flatMap_cons]
        rfl

/-- The bytes that are copied are those of the format. -/
theorem lit_pieces : ∀ fuel p c, Piece.lit c ∈ pieces fuel p → c ∈ p := by
  intro fuel
  induction fuel with
  | zero => intro p c h; cases h
  | succ fuel ih =>
    intro p c h
    cases p with
    | nil => cases h
    | cons x p =>
      rw [pieces.eq_def] at h
      simp only at h
      by_cases hx : x = 37
      · rw [if_pos hx] at h
        apply List.mem_cons_of_mem
        split at h
        · rename_i q
          apply List.mem_cons_of_mem
          split at h
          · exact ih _ _ h
          · cases h
          · rename_i y o p2 hd
            have hsub : y :: o :: p2 ⊆ q := by
              rw [← hd]
              exact (List.dropWhile_sublist _).subset
            rcases List.mem_cons.mp h with h | h
            · cases h
            · exact hsub (List.mem_cons_of_mem _ (List.mem_cons_of_mem _ (ih _ _ h)))
        · cases h
        · rcases List.mem_cons.mp h with h | h
          · cases h
          · exact List.mem_cons_of_mem _ (ih _ _ h)
      · rw [if_neg hx] at h
        rcases List.mem_cons.mp h with h | h
        · cases h
          exact List.mem_cons_self
        · exact List.mem_cons_of_mem _ (ih _ _ h)

/-- **Log records cannot be forged.** Of a format without newlines, `logreq` makes a line: bytes
    of the format and items, in an order that is the same for every request. What an item writes
    is escaped, from which the string can be recovered. -/
theorem logreq_record (clock : Clock) (format : Bytes) (h : (10 : UInt8) ∉ format) :
    (∃ ps : List Piece, (∀ c, Piece.lit c ∈ ps → c ∈ format) ∧ ∀ data,
      logreq clock format data = ps.flatMap (Piece.text clock data) ++ [10] ∧
        (10 : UInt8) ∉ ps.flatMap (Piece.text clock data) ∧
        ∀ o d, Piece.item o d ∈ ps → Escaped (logitem clock data o d)) ∧
      ∀ a b, NulFree a → NulFree b → qputs a = qputs b → a = b := by
  refine ⟨⟨pieces (format.length + 1) format, lit_pieces _ _, fun data => ⟨?_, ?_, ?_⟩⟩, ?_⟩
  · rw [logreq, logreqLoop_pieces]
  · intro h10
    obtain ⟨x, hx, h10⟩ := List.mem_flatMap.mp h10
    cases x with
    | lit c =>
      apply h
      rw [List.mem_singleton.mp h10]
      exact lit_pieces _ _ _ hx
    | item o d => exact (escaped_logitem clock data o d).notMem_lf h10
  · intro o d _
    exact escaped_logitem clock data o d
  · intro a b ha hb hab
    exact qputs_injective ha hb hab

/-- A clock whose texts are empty. -/
def noClock : Clock := ⟨fun _ _ => [], fun _ _ => []⟩

theorem logreq_record_default :
    (∃ ps : List Piece, (∀ c, Piece.lit c ∈ ps → c ∈ bytes "%m %u %A \"%G\"") ∧ ∀ data,
      logreq noClock (bytes "%m %u %A \"%G\"") data = ps.flatMap (Piece.text noClock data) ++ [10] ∧
        (10 : UInt8) ∉ ps.flatMap (Piece.text noClock data) ∧
        ∀ o d, Piece.item o d ∈ ps → Escaped (logitem noClock data o d)) ∧
      ∀ a b, NulFree a → NulFree b → qputs a = qputs b → a = b :=
  logreq_record noClock (bytes "%m %u %A \"%G\"") (by decide)

end Ashd.Accesslog
