import Ashd.Sendfile.Agreement

/-!
# Byte ranges

The text of `sendrange` up to what it writes is the same in `sendfile.c` and in `psendfile.c`. It
reads the positions with `strtoll`, which stays within 64 bits, and works on them in an `off_t`.
`results` lists what this arithmetic comes to without the bound. One is added to the last position
before anything else is looked at, and that goes past the largest `off_t` when the position is the
largest itself, as it is for every number from there on.

Main results:
* `ranges_exact_iff`: both programs answer exactly, and without overflow, in all other cases.
* `range_to_maximum`: a range up to `2 ^ 63 - 1`, for which they do not.
-/

namespace Ashd.Sendfile

/-! ## Numbers in a string -/

/-- `s` begins with the number `n`: white space, a sign or none, and digits. `rest` follows it. -/
def Numeral (s : Bytes) (n : ℤ) (rest : Bytes) : Prop :=
  ∃ space sign digits, s = space ++ (sign ++ (digits ++ rest)) ∧
    (∀ c ∈ space, isspace c = true) ∧ IsDecimal digits ∧ rest.takeWhile isdigit = [] ∧
    (sign = [45] ∧ n = -numeralValue 10 digits ∨
      (sign = [] ∨ sign = [43]) ∧ n = numeralValue 10 digits)

theorem numeral_decimal {s : Bytes} (h : IsDecimal s) : Numeral s (numeralValue 10 s) [] :=
  ⟨[], [], s, by simp, by simp, h, rfl, .inr ⟨.inl rfl, rfl⟩⟩

theorem Numeral.ne_nil {s rest : Bytes} {n : ℤ} (h : Numeral s n rest) : s ≠ [] := by
  obtain ⟨space, sign, digits, rfl, -, hdigits, -⟩ := h
  simp [hdigits.1]

theorem dropWhile_isdigit {digits rest : Bytes} (h : IsDecimal digits)
    (hrest : rest.takeWhile isdigit = []) : (digits ++ rest).dropWhile isdigit = rest := by
  have hsplit := List.takeWhile_append_dropWhile (p := isdigit) (l := digits ++ rest)
  rw [takeWhile_isdigit h hrest] at hsplit
  exact List.append_cancel_left hsplit

/-- `strtoll` gives the number that the string begins with, clamped, and what follows it. -/
theorem strtoll_numeral {s rest : Bytes} {n : ℤ} (h : Numeral s n rest) :
    strtoll s = (max (min n (2 ^ 63 - 1)) (-2 ^ 63), rest) := by
  obtain ⟨space, sign, digits, rfl, hspace, hdigits, hrest, hn⟩ := h
  have htake := takeWhile_isdigit hdigits hrest
  have hdrop := dropWhile_isdigit hdigits hrest
  have hatoo : atoo (space ++ (sign ++ (digits ++ rest))) = atoo (sign ++ (digits ++ rest)) := by
    unfold atoo
    rw [List.dropWhile_append_of_pos hspace]
  unfold strtoll
  rw [hatoo, List.dropWhile_append_of_pos hspace]
  rcases hn with ⟨rfl, rfl⟩ | ⟨rfl | rfl, rfl⟩
  · have hminus : ([45] ++ (digits ++ rest)).dropWhile isspace = 45 :: (digits ++ rest) := by
      simp [isspace]
    simp only [atoo, hminus, List.head?_cons, true_or, if_true, List.drop_one, List.tail_cons,
      htake, if_neg hdigits.1, hdrop, Prod.mk.injEq, and_true]
    omega
  · obtain ⟨c, ds, rfl⟩ := List.exists_cons_of_ne_nil hdigits.1
    obtain ⟨hsp, h43, h45, -⟩ := isdigit_ne (hdigits.2 c (by simp))
    have hskip : (c :: ds ++ rest).dropWhile isspace = c :: ds ++ rest := by simp [hsp]
    have hsign : ¬ ((c :: ds ++ rest).head? = some 45 ∨ (c :: ds ++ rest).head? = some 43) := by
      simp [h43, h45]
    simp only [List.nil_append, hskip, atoo_decimal hdigits hrest, if_neg hsign, htake, hdrop,
      if_neg hdigits.1, Prod.mk.injEq, and_true]
    omega
  · have hplus : ([43] ++ (digits ++ rest)).dropWhile isspace = 43 :: (digits ++ rest) := by
      simp [isspace]
    simp only [atoo, hplus, List.head?_cons, or_true, if_true, List.drop_one, List.tail_cons,
      htake, if_neg hdigits.1, hdrop, Prod.mk.injEq, and_true]
    omega

theorem strtoll_decimal {s : Bytes} (h : IsDecimal s) :
    strtoll s = (min (numeralValue 10 s : ℤ) (2 ^ 63 - 1), []) := by
  rw [strtoll_numeral (numeral_decimal h), max_eq_left (by omega)]

theorem takeWhile_dropWhile (p : UInt8 → Bool) (s : Bytes) :
    (s.dropWhile p).takeWhile p = [] := by
  have hhead := List.head?_dropWhile_not p s
  cases hs : s.dropWhile p with
  | nil => rfl
  | cons c t =>
    rw [hs] at hhead
    simp only [List.head?_cons] at hhead
    simp [hhead]

/-- What `strtoll` skips of a sign is one. -/
theorem sign_cases (t : Bytes) :
    ∃ sign, t = sign ++ (if t.head? = some 45 ∨ t.head? = some 43 then t.drop 1 else t) ∧
      (sign = [45] ∨ sign = [] ∨ sign = [43]) := by
  cases t with
  | nil => exact ⟨[], by simp, .inr (.inl rfl)⟩
  | cons c t =>
    split_ifs with hhead
    · rcases hhead with hc | hc
      · exact ⟨[45], by rw [Option.some.inj hc]; rfl, .inl rfl⟩
      · exact ⟨[43], by rw [Option.some.inj hc]; rfl, .inr (.inr rfl)⟩
    · exact ⟨[], rfl, .inr (.inl rfl)⟩

/-- Without digits after the white space and the sign, the number is 0. -/
theorem atoo_eq_zero {s t : Bytes} (ht : t = s.dropWhile isspace)
    (h : (if t.head? = some 45 ∨ t.head? = some 43 then t.drop 1 else t).takeWhile isdigit = []) :
    atoo s = 0 := by
  unfold atoo
  rw [← ht]
  split
  · rw [if_pos (.inl rfl), List.drop_one, List.tail_cons] at h
    rw [h]
    rfl
  · rw [if_pos (.inr rfl), List.drop_one, List.tail_cons] at h
    rw [h]
    rfl
  · rename_i h45 h43
    rw [if_neg] at h
    · rw [h]
      rfl
    · rintro (hhead | hhead)
      · exact h45 _ (List.eq_cons_of_mem_head? hhead)
      · exact h43 _ (List.eq_cons_of_mem_head? hhead)

/-- A string that begins with no number is not read at all. -/
theorem strtoll_cases (s : Bytes) : strtoll s = (0, s) ∨ ∃ n rest, Numeral s n rest := by
  obtain ⟨t, ht⟩ : ∃ t, t = s.dropWhile isspace := ⟨_, rfl⟩
  obtain ⟨u, hu⟩ : ∃ u, u = if t.head? = some 45 ∨ t.head? = some 43 then t.drop 1 else t :=
    ⟨_, rfl⟩
  by_cases hdigits : u.takeWhile isdigit = []
  · left
    have hatoo : atoo s = 0 := atoo_eq_zero ht (by rw [← hu]; exact hdigits)
    unfold strtoll
    simp only [hatoo, ← ht, ← hu, if_pos hdigits]
  · right
    obtain ⟨sign, htu, hsign⟩ := sign_cases t
    rw [← hu] at htu
    have hspace : ∀ c ∈ s.takeWhile isspace, isspace c = true := fun c hc =>
      List.mem_takeWhile_imp hc
    have hdec : IsDecimal (u.takeWhile isdigit) :=
      ⟨hdigits, fun c hc => List.mem_takeWhile_imp hc⟩
    have hrest := takeWhile_dropWhile isdigit u
    have heq : s = s.takeWhile isspace ++
        (sign ++ (u.takeWhile isdigit ++ u.dropWhile isdigit)) := by
      rw [List.takeWhile_append_dropWhile, ← htu, ht, List.takeWhile_append_dropWhile]
    rcases hsign with hs | hs
    · exact ⟨_, _, _, sign, _, heq, hspace, hdec, hrest, .inl ⟨hs, rfl⟩⟩
    · exact ⟨_, _, _, sign, _, heq, hspace, hdec, hrest, .inr ⟨hs, rfl⟩⟩

/-! ## The arithmetic of `sendrange` -/

/-- What `sendrange` adds to a position or takes from one before it compares them, with the exact
    results (sendfile.c:167–193, psendfile.c:163–189). -/
def adjustments (size : ℤ) (spec : Bytes) : List ℤ :=
  if ¬ bytes "bytes=" <+: spec then []
  else
    let buf := spec.drop 6
    if (45 : UInt8) ∉ buf then []
    else
      let first := buf.takeWhile (· ≠ 45)
      let p := buf.drop (first.length + 1)
      if first = [] then
        if p = [] then [] else [size - (strtoll p).1]
      else if (strtoll first).2 ≠ [] then []
      else if p = [] then []
      else [(strtoll p).1 + 1]

/-- The exact results of all the arithmetic in `sendrange` (sendfile.c:161–229,
    psendfile.c:157–222). -/
def results (size : ℤ) (spec : Bytes) : List ℤ :=
  adjustments size spec ++
    match rangespec size spec with
    | .slice start stop => [stop - 1, stop - start]
    | _ => []

/-- An `off_t` holds what the arithmetic comes to. -/
def NoOverflow (size : ℤ) (spec : Bytes) : Prop :=
  ∀ n ∈ results size spec, -2 ^ 63 ≤ n ∧ n < 2 ^ 63

/-- The numbers that the positions are computed from: the last position is not the largest `off_t`
    or beyond, and the length of a suffix is not so far below 0 that the file has no such start. -/
structure Bounded (size : ℤ) (spec : Bytes) : Prop where
  last : ∀ first p a b rest, spec = bytes "bytes=" ++ (first ++ 45 :: p) → 45 ∉ first →
    Numeral first a [] → Numeral p b rest → b < 2 ^ 63 - 1
  suffix : ∀ p n rest, spec = bytes "bytes=" ++ 45 :: p → Numeral p n rest → size - n < 2 ^ 63

theorem wrap_eq {n : ℤ} (h1 : -2 ^ 63 ≤ n) (h2 : n < 2 ^ 63) : wrap n = n := by
  unfold wrap
  rw [Int.bmod_eq_of_le] <;> omega

theorem drop_bytes (s : Bytes) : (bytes "bytes=" ++ s).drop 6 = s :=
  List.drop_left' (by decide)

theorem drop_dash (first p : Bytes) : (first ++ 45 :: p).drop (first.length + 1) = p := by
  rw [List.drop_append]
  simp

/-- What comes after `bytes=` and has a dash, divided at the first one. -/
theorem rangespec_dash (size : ℤ) {first : Bytes} (h : (45 : UInt8) ∉ first) (p : Bytes) :
    rangespec size (bytes "bytes=" ++ (first ++ 45 :: p)) =
      if first = [] then
        if p = [] then .whole
        else if (strtoll p).2 ≠ [] then .whole
        else
          let start := wrap (size - (strtoll p).1)
          rangeof size (if start < 0 then 0 else start) size
      else if (strtoll first).2 ≠ [] then .whole
      else if p = [] then rangeof size (strtoll first).1 size
      else if (strtoll p).2 ≠ [] then .whole
      else rangeof size (strtoll first).1 (wrap ((strtoll p).1 + 1)) := by
  unfold rangespec
  simp only [drop_bytes, takeWhile_sep h, drop_dash]
  rw [if_neg (not_not.mpr (List.prefix_append _ _)), if_neg (by simp)]

theorem adjustments_dash (size : ℤ) {first : Bytes} (h : (45 : UInt8) ∉ first) (p : Bytes) :
    adjustments size (bytes "bytes=" ++ (first ++ 45 :: p)) =
      if first = [] then
        if p = [] then [] else [size - (strtoll p).1]
      else if (strtoll first).2 ≠ [] then []
      else if p = [] then []
      else [(strtoll p).1 + 1] := by
  unfold adjustments
  simp only [drop_bytes, takeWhile_sep h, drop_dash]
  rw [if_neg (not_not.mpr (List.prefix_append _ _)), if_neg (by simp)]

/-- Anything else is not looked at. -/
theorem dash_cases (size : ℤ) (spec : Bytes) :
    adjustments size spec = [] ∨
      ∃ first p, (45 : UInt8) ∉ first ∧ spec = bytes "bytes=" ++ (first ++ 45 :: p) := by
  by_cases hpre : bytes "bytes=" <+: spec
  swap
  · left
    unfold adjustments
    rw [if_pos hpre]
  obtain ⟨buf, rfl⟩ := hpre
  by_cases hdash : (45 : UInt8) ∈ buf
  · right
    obtain ⟨first, p, rfl, hfirst⟩ := List.eq_append_cons_of_mem hdash
    exact ⟨first, p, hfirst, rfl⟩
  · left
    unfold adjustments
    rw [if_neg (not_not.mpr (List.prefix_append _ _))]
    exact if_pos hdash

/-- `strtoll` reads all of a string only if that is a number. -/
theorem numeral_of_strtoll {s : Bytes} (hs : s ≠ []) (h : (strtoll s).2 = []) :
    ∃ n, Numeral s n [] := by
  rcases strtoll_cases s with hcase | ⟨n, rest, hn⟩
  · rw [hcase] at h
    exact absurd h hs
  · rw [strtoll_numeral hn] at h
    obtain rfl : rest = [] := h
    exact ⟨n, hn⟩

section Size

variable {size : ℤ} {spec : Bytes}

/-- What is computed from the clamped numbers is too large when the numbers are. -/
theorem Bounded.of_adjustments (h0 : 0 ≤ size)
    (h : ∀ n ∈ adjustments size spec, n < 2 ^ 63) : Bounded size spec := by
  constructor
  · rintro first p a b rest rfl hdash ha hb
    rw [adjustments_dash _ hdash, if_neg ha.ne_nil, strtoll_numeral ha, if_neg (by simp),
      if_neg hb.ne_nil, strtoll_numeral hb] at h
    have := h _ (List.mem_singleton_self _)
    omega
  · rintro p n rest rfl hn
    have heq := adjustments_dash size List.not_mem_nil p
    rw [if_pos rfl, if_neg hn.ne_nil, strtoll_numeral hn] at heq
    have := h _ (by rw [← List.nil_append (45 :: p), heq]; exact List.mem_singleton_self _)
    omega

/-- The other bound is always kept. -/
theorem Bounded.adjustments (h : Bounded size spec) (h0 : 0 ≤ size) (h1 : size < 2 ^ 63) :
    ∀ n ∈ adjustments size spec, -2 ^ 63 ≤ n ∧ n < 2 ^ 63 := by
  intro n hn
  rcases dash_cases size spec with hnil | ⟨first, p, hdash, rfl⟩
  · rw [hnil] at hn
    exact absurd hn List.not_mem_nil
  rw [adjustments_dash _ hdash] at hn
  split_ifs at hn with hfirst hp hrest hp
  · exact absurd hn List.not_mem_nil
  · -- a suffix
    obtain rfl := List.mem_singleton.mp hn
    subst hfirst
    rcases strtoll_cases p with hcase | ⟨b, rest, hb⟩
    · rw [hcase]
      simp only
      omega
    · have := h.suffix p b rest rfl hb
      rw [strtoll_numeral hb]
      simp only
      omega
  · exact absurd hn List.not_mem_nil
  · exact absurd hn List.not_mem_nil
  · -- the end of a range
    obtain rfl := List.mem_singleton.mp hn
    obtain ⟨a, ha⟩ := numeral_of_strtoll hfirst (not_not.mp hrest)
    rcases strtoll_cases p with hcase | ⟨b, rest, hb⟩
    · rw [hcase]
      simp only
      omega
    · have := h.last first p a b rest rfl hdash ha hb
      rw [strtoll_numeral hb]
      simp only
      omega

/-- The ends of a part are within the file. -/
theorem part_bounds (h1 : size < 2 ^ 63) {start stop : ℤ}
    (hspec : rangespec size spec = .slice start stop) :
    ∀ n ∈ [stop - 1, stop - start], -2 ^ 63 ≤ n ∧ n < 2 ^ 63 := by
  obtain ⟨hstart, hlt, hstop⟩ := rangespec_slice hspec
  intro n hn
  rcases List.mem_pair.mp hn with rfl | rfl
  · omega
  · omega

/-- The arithmetic stays within an `off_t` iff the numbers in the header are bounded. -/
theorem noOverflow_iff (h0 : 0 ≤ size) (h1 : size < 2 ^ 63) :
    NoOverflow size spec ↔ Bounded size spec := by
  constructor
  · intro h
    exact Bounded.of_adjustments h0 fun n hn => (h n (List.mem_append_left _ hn)).2
  · intro h n hn
    rcases List.mem_append.mp hn with hn | hn
    · exact h.adjustments h0 h1 n hn
    · cases hspec : rangespec size spec with
      | whole =>
        rw [hspec] at hn
        exact absurd hn List.not_mem_nil
      | unsatisfiable =>
        rw [hspec] at hn
        exact absurd hn List.not_mem_nil
      | slice start stop =>
        rw [hspec] at hn
        exact part_bounds h1 hspec n hn

end Size

/-! ## The answers -/

/-- A file that stays as `fstat` tells it is, of a size that an `off_t` holds. -/
structure File.Regular (sb : File) : Prop where
  length : (sb.content.length : ℤ) = sb.size
  lt : sb.size < 2 ^ 63
  seekable : sb.seekable = true

/-- The answer that there are no such bytes. -/
structure Refuses (sb : File) (resp : Response) : Prop where
  status : resp.status = bytes "HTTP/1.1 416 Not satisfiable"
  range : (bytes "Content-Range", bytes "*/" ++ intmax sb.size) ∈ resp.headers
  length : ∀ v, (bytes "Content-Length", v) ∈ resp.headers ↔ v = intmax 0
  body : resp.body = []

/-- The answer with the bytes from `start` on that are before `stop`. -/
structure Sends (sb : File) (head : Bool) (start stop : ℤ) (resp : Response) : Prop where
  status : resp.status = bytes "HTTP/1.1 206 Partial content"
  bounds : 0 ≤ start ∧ start < stop ∧ stop ≤ sb.size
  range : (bytes "Content-Range", bytes "bytes " ++ intmax start ++ 45 :: intmax (stop - 1) ++
    47 :: intmax sb.size) ∈ resp.headers
  length : ∀ v, (bytes "Content-Length", v) ∈ resp.headers ↔ v = intmax (stop - start)
  sent : head = false → (resp.body.length : ℤ) = stop - start
  body : resp.body =
    if head then [] else (sb.content.drop start.toNat).take (stop - start).toNat

/-- The answer for the bytes from `start` on that are before `stop`: there are some, or none. -/
def Serves (sb : File) (head : Bool) (start stop : ℤ) (resp : Response) : Prop :=
  if sb.size ≤ start then Refuses sb resp else Sends sb head start stop resp

/-- The answer for each of the three forms of a range. -/
structure Exact (sb : File) (head : Bool) (spec : Bytes) (resp : Response) : Prop where
  closed : ∀ a b, IsDecimal a → IsDecimal b → spec = bytes "bytes=" ++ (a ++ 45 :: b) →
    numeralValue 10 a ≤ numeralValue 10 b →
    Serves sb head (numeralValue 10 a) (min (numeralValue 10 b : ℤ) (sb.size - 1) + 1) resp
  unended : ∀ a, IsDecimal a → spec = bytes "bytes=" ++ (a ++ [45]) →
    Serves sb head (numeralValue 10 a) sb.size resp
  suffix : ∀ n, IsDecimal n → spec = bytes "bytes=" ++ 45 :: n → 0 < numeralValue 10 n →
    0 < sb.size →
    Sends sb head (sb.size - min (numeralValue 10 n : ℤ) sb.size) sb.size resp

/-- What `sendrange` writes when it does not send the whole file. -/
def Answers (sb : File) (head : Bool) (spec : Bytes) (resp : Response) : Prop :=
  match rangespec sb.size spec with
  | .whole => True
  | .unsatisfiable => Refuses sb resp
  | .slice start stop => Sends sb head start stop resp

section Programs

variable (w : World) {sb : File} (contype : Bytes) (enctype : Option Bytes) (spec : Bytes)
  (head : Bool)

/-- The bytes of a part are all there. -/
theorem length_part (hsb : sb.Regular) {start stop : ℤ} (h0 : 0 ≤ start) (h1 : start < stop)
    (h2 : stop ≤ sb.size) :
    (((sb.content.drop start.toNat).take (stop - start).toNat).length : ℤ) = stop - start := by
  have := hsb.length
  rw [List.length_take, List.length_drop]
  omega

/-- None of the other headers is the `Content-Length`. -/
theorem contentLength_ne : ∀ n ∈ [bytes "Content-Range", bytes "Content-Type",
    bytes "Content-Encoding", bytes "Last-Modified", bytes "Date"],
    bytes "Content-Length" ≠ n := by
  decide

theorem intmax_zero : bytes "0" = intmax 0 := by decide

theorem answers_sendrange (hsb : sb.Regular) :
    Answers sb head spec (sendrange w sb contype enctype spec head) := by
  have hne := contentLength_ne
  simp only [List.forall_mem_cons] at hne
  obtain ⟨hrange, htype, henc, hmod, hdate, -⟩ := hne
  unfold Answers sendrange
  cases hspec : rangespec sb.size spec with
  | whole => trivial
  | unsatisfiable =>
    refine ⟨rfl, by simp, ?_, rfl⟩
    intro v
    simp [hrange, hmod, hdate, intmax_zero]
  | slice start stop =>
    obtain ⟨h0, h1, h2⟩ := rangespec_slice hspec
    have hlen : (sb.content.drop start.toNat).length < sb.content.length + 1 := by
      have := List.length_drop (i := start.toNat) (l := sb.content)
      omega
    simp only [hsb.seekable, not_true, if_false]
    rw [passdata_eq hlen, if_pos (show 0 < stop - start by omega)]
    refine ⟨rfl, ⟨h0, h1, h2⟩, by simp, ?_, ?_, rfl⟩
    · intro v
      simp [hrange, htype, henc.symm, hmod, hdate, encoding]
    · rintro rfl
      exact length_part hsb h0 h1 h2

/-- `psendfile` answers as `sendfile` does for a file that is not compressed. -/
theorem answers_psendfile (hsb : sb.Regular) :
    Answers sb head spec (Psendfile.sendrange w sb contype enctype spec head) := by
  have hans := answers_sendrange w contype none spec head hsb
  rw [sendrange_eq (by simp)] at hans
  unfold Answers Psendfile.sendrange at hans ⊢
  cases hspec : rangespec sb.size spec with
  | whole => trivial
  | unsatisfiable =>
    rw [hspec] at hans
    exact hans
  | slice start stop =>
    rw [hspec] at hans
    exact hans

end Programs

theorem rangeof_eq_slice {size start stop : ℤ} (h0 : 0 ≤ start) (h1 : start < size)
    (h2 : start < stop) : rangeof size start stop = .slice start (min stop size) := by
  unfold rangeof
  rw [if_neg (by omega), if_neg (by omega)]
  split_ifs with h
  · rw [min_eq_right (by omega)]
  · rw [min_eq_left (by omega)]

section Forms

variable {sb : File} {head : Bool} {spec : Bytes} {resp : Response}

theorem serves_of_rangeof {start stop : ℤ} (hans : Answers sb head spec resp)
    (hspec : rangespec sb.size spec = rangeof sb.size start stop) (h0 : 0 ≤ start)
    (h1 : start < sb.size → start < stop) : Serves sb head start (min stop sb.size) resp := by
  unfold Answers at hans
  rw [hspec] at hans
  unfold Serves
  split_ifs with h
  · rw [rangeof, if_pos h] at hans
    exact hans
  · rw [rangeof_eq_slice h0 (by omega) (h1 (by omega))] at hans
    exact hans

theorem dash_notMem {a : Bytes} (h : IsDecimal a) : (45 : UInt8) ∉ a := fun hmem =>
  (isdigit_ne (h.2 45 hmem)).2.2.1 rfl

/-- Within the bounds, each of the three forms gets its answer. -/
theorem exact_of_bounded (hsb : sb.Regular) (hans : Answers sb head spec resp)
    (h : Bounded sb.size spec) : Exact sb head spec resp := by
  have hlt := hsb.lt
  have h0 : 0 ≤ sb.size := by
    rw [← hsb.length]
    exact Int.natCast_nonneg _
  constructor
  · rintro a b ha hb rfl hab
    have hlast := h.last a b _ _ [] rfl (dash_notMem ha) (numeral_decimal ha) (numeral_decimal hb)
    have hspec := rangespec_dash sb.size (dash_notMem ha) b
    rw [if_neg ha.1, strtoll_decimal ha, if_neg (by simp), if_neg hb.1, strtoll_decimal hb,
      if_neg (by simp), min_eq_left (by omega), min_eq_left (by omega),
      wrap_eq (by simp only; omega) (by simp only; omega)] at hspec
    have hserves := serves_of_rangeof hans hspec (Int.natCast_nonneg _) fun _ => by
      simp only
      omega
    have : min ((numeralValue 10 b : ℤ) + 1) sb.size =
        min (numeralValue 10 b : ℤ) (sb.size - 1) + 1 := by omega
    rwa [this] at hserves
  · rintro a ha rfl
    have hspec := rangespec_dash sb.size (dash_notMem ha) []
    rw [if_neg ha.1, strtoll_decimal ha, if_neg (by simp), if_pos rfl] at hspec
    have hserves := serves_of_rangeof hans hspec (by simp only; omega) id
    rw [min_self] at hserves
    by_cases hin : (numeralValue 10 a : ℤ) < sb.size
    · rwa [min_eq_left (by omega)] at hserves
    · -- the number may have been clamped
      unfold Serves at hserves ⊢
      rw [if_pos (by simp only; omega)] at hserves
      rwa [if_pos (by omega)]
  · rintro n hn rfl hpos hsize
    have hspec := rangespec_dash sb.size List.not_mem_nil n
    rw [if_pos rfl, if_neg hn.1, strtoll_decimal hn, if_neg (by simp),
      wrap_eq (by simp only; omega) (by simp only; omega)] at hspec
    have hstart : (if sb.size - min (numeralValue 10 n : ℤ) (2 ^ 63 - 1) < 0 then 0
        else sb.size - min (numeralValue 10 n : ℤ) (2 ^ 63 - 1)) =
        sb.size - min (numeralValue 10 n : ℤ) sb.size := by
      split_ifs <;> omega
    simp only [hstart] at hspec
    have hserves := serves_of_rangeof hans hspec (by omega) id
    rw [min_self] at hserves
    unfold Serves at hserves
    rwa [if_neg (by omega)] at hserves

end Forms

/-- Both programs answer a range exactly, without overflow, iff the numbers in it are bounded. -/
theorem ranges_exact_iff (w : World) {sb : File} (hsb : sb.Regular) (contype : Bytes)
    (enctype : Option Bytes) (spec : Bytes) (head : Bool) :
    (Exact sb head spec (sendrange w sb contype enctype spec head) ∧
      Exact sb head spec (Psendfile.sendrange w sb contype enctype spec head) ∧
      NoOverflow sb.size spec) ↔ Bounded sb.size spec := by
  have h0 : 0 ≤ sb.size := by
    rw [← hsb.length]
    exact Int.natCast_nonneg _
  rw [← noOverflow_iff h0 hsb.lt]
  constructor
  · rintro ⟨-, -, h⟩
    exact h
  · intro h
    have hbounded := (noOverflow_iff h0 hsb.lt).mp h
    exact ⟨exact_of_bounded hsb (answers_sendrange w contype enctype spec head hsb) hbounded,
      exact_of_bounded hsb (answers_psendfile w contype enctype spec head hsb) hbounded, h⟩

/-- A file of four bytes. -/
def small : File := { content := bytes "abcd", size := 4, mtime := 0, seekable := true }

theorem ranges_exact_small :
    small.Regular ∧
      ((Exact small false (bytes "bytes=1-2")
          (sendrange letters small (bytes "text/plain") none (bytes "bytes=1-2") false) ∧
        Exact small false (bytes "bytes=1-2")
          (Psendfile.sendrange letters small (bytes "text/plain") none (bytes "bytes=1-2") false) ∧
        NoOverflow small.size (bytes "bytes=1-2")) ↔ Bounded small.size (bytes "bytes=1-2")) := by
  have h : small.Regular := ⟨by decide, by decide, rfl⟩
  exact ⟨h, ranges_exact_iff letters h _ none _ false⟩

/-- Both programs send the whole file for a range up to the largest `off_t`, as one more than that
    is not after its start. -/
theorem range_to_maximum :
    ¬ NoOverflow small.size (bytes "bytes=0-9223372036854775807") ∧
      ¬ Exact small false (bytes "bytes=0-9223372036854775807")
        (sendrange letters small (bytes "text/plain") none
          (bytes "bytes=0-9223372036854775807") false) ∧
      ¬ Exact small false (bytes "bytes=0-9223372036854775807")
        (Psendfile.sendrange letters small (bytes "text/plain") none
          (bytes "bytes=0-9223372036854775807") false) := by
  have hspec : bytes "bytes=0-9223372036854775807" =
      bytes "bytes=" ++ (bytes "0" ++ 45 :: bytes "9223372036854775807") := by decide
  have hzero : (numeralValue 10 (bytes "0") : ℤ) = 0 := by decide
  have hstatus : ∀ resp, Exact small false (bytes "bytes=0-9223372036854775807") resp →
      resp.status = bytes "HTTP/1.1 206 Partial content" := by
    intro resp h
    have hserves := h.closed _ _ (by decide +kernel) (by decide +kernel) hspec (by decide)
    rw [hzero] at hserves
    unfold Serves at hserves
    rw [if_neg (by decide)] at hserves
    exact hserves.status
  refine ⟨?_, ?_, ?_⟩
  · intro h
    have hmem : 2 ^ 63 ∈ results small.size (bytes "bytes=0-9223372036854775807") := by
      decide +kernel
    exact absurd (h _ hmem).2 (by decide)
  · intro h
    exact absurd (hstatus _ h) (by decide +kernel)
  · intro h
    exact absurd (hstatus _ h) (by decide +kernel)

end Ashd.Sendfile
