import Ashd.Lib.HeaderGrammar

/-!
# `src/callcgi.c`: the headers of a CGI program

`callcgi` has a header parser of its own, with a `trim` of its own, which looks for the end of
the text even if the buffer has never been allocated. Addresses are numbers, and a pointer is
computed modulo their number; `none` is an access outside the characters that are in the buffer.

Main results:
* `trim_allocated`, `trim_null`: what `trim` does.
* `parsecgiheaders_filled`, `parsecgiheaders_unfilled`: what the parser does.
* `cgiheaders_agree_iff`: when it agrees with the library.
-/

namespace Ashd.Callcgi

/-! ## Buffers -/

/-- `struct charbuf`: the address, which is 0 for `NULL`, and the bytes `b[0..d)`. -/
structure Charbuf where
  b : ℕ := 0
  data : Bytes := []

/-- How many addresses there are, and where `_sizebuf` puts a buffer for some text: never at
    `NULL`, and within the address space. -/
structure Heap where
  addresses : ℕ
  place : Bytes → ℕ
  pos : ∀ text, 0 < place text
  fits : ∀ text, text.length < 65536 → place text + text.length < addresses

/-- `*p`. -/
def Charbuf.read (buf : Charbuf) (p : ℕ) : Option UInt8 :=
  if buf.b ≤ p then buf.data[p - buf.b]? else none

/-- `bufadd(buf, c)`. -/
def bufadd (heap : Heap) (buf : Charbuf) (c : UInt8) : Charbuf :=
  ⟨heap.place (buf.data ++ [c]), buf.data ++ [c]⟩

/-- The first loop of `trim`, for at most `n` rounds: `p` at the end. -/
def trimStart (buf : Charbuf) : ℕ → ℕ → Option ℕ
  | 0, p => some p
  | n + 1, p =>
    if p - buf.b < buf.data.length then do
      let c ← buf.read p
      if isspace c then trimStart buf n (p + 1) else some p
    else some p

/-- The second loop of `trim`, for at most `n` rounds: `buf->d` at the end. -/
def trimEnd (buf : Charbuf) : ℕ → ℕ → ℕ → Option ℕ
  | 0, _, d => some d
  | n + 1, p, d =>
    if p > buf.b then do
      let c ← buf.read p
      if isspace c then trimEnd buf n (p - 1) (d - 1) else some d
    else some d

/-- `p - 1`. -/
def before (heap : Heap) (p : ℕ) : ℕ :=
  (p + (heap.addresses - 1)) % heap.addresses

/-- `trim` (src/callcgi.c:187–194). The loops go round at most as often as there are characters,
    and once more. -/
def Charbuf.trim (heap : Heap) (buf : Charbuf) : Option Charbuf := do
  let p ← trimStart buf buf.data.length buf.b
  let buf : Charbuf := { buf with data := buf.data.drop (p - buf.b) }
  let d ← trimEnd buf (buf.data.length + 1) (before heap (buf.b + buf.data.length)) buf.data.length
  some { buf with data := buf.data.take d }

/-! ## The parser -/

/-- The variables of `parsecgiheaders`. -/
structure CgiState where
  state : LineState := .start
  buf : Charbuf := {}
  hbuf : List Bytes := []

/-- The end of a name or a value: it is trimmed, terminated and put into `hbuf`. -/
def bufdone (heap : Heap) (s : CgiState) (state : LineState) : Next CgiState (Option (List Bytes)) :=
  match s.buf.trim heap with
  | none => .stop none
  | some buf => .more { state := state, buf := {}, hbuf := s.hbuf ++ [cstr (bufadd heap buf 0).data] }

/-- The body of the loop of `parsecgiheaders` after a byte was read (src/callcgi.c:206–246). The
    loop stops with `none` at an access outside the buffer. -/
def cgiStep (heap : Heap) (s : CgiState) (c : UInt8) : Next CgiState (Option (List Bytes)) :=
  let inName (s : CgiState) : Next CgiState (Option (List Bytes)) :=
    if c = 58 then bufdone heap s .value
    else if c = 13 then .more s
    else if c = 10 then .fail
    else .more { s with buf := bufadd heap s.buf c }
  match s.state with
  | .start =>
    if c = 13 then .more s
    else if c = 10 then .stop (some s.hbuf)
    else inName { s with state := .name }
  | .name => inName s
  | .value =>
    if c = 13 then .more s
    else if c = 10 then bufdone heap s .start
    else .more { s with buf := bufadd heap s.buf c }

/-- `parsecgiheaders` (src/callcgi.c:196–255) on what a program has written: the names and values,
    and what is left to be read. -/
def parsecgiheaders (heap : Heap) (s : Bytes) : Option (Option (List Bytes) × Bytes) :=
  scanList (cgiStep heap) {} s

/-- What is expected of it: it stays within its buffers, it fails exactly when `parseheaders` does,
    and otherwise gives the same names and values. -/
structure Agrees (heap : Heap) (s : Bytes) : Prop where
  inside : ∀ rest, parsecgiheaders heap s ≠ some (none, rest)
  fails : parsecgiheaders heap s = none ↔ ∀ head r rest, parseheaders getcList head s ≠ (some r, rest)
  same : ∀ hbuf rest, parsecgiheaders heap s = some (some hbuf, rest) →
    ∃ hs : List (Bytes × Bytes), hbuf = hs.flatMap (fun h => [h.1, h.2]) ∧
      ∀ head : Hthead, parseheaders getcList head s = (some { head with headers := head.headers ++ hs }, rest)

/-- Every line that is reached starts with a name, and has a value if it ends. -/
def Filled (s : Bytes) : Prop :=
  ∀ (lines : List Bytes) t, (∀ l ∈ lines, (10 : UInt8) ∉ l ∧ (58 : UInt8) ∈ l) → s = lines.flatMap (· ++ [10]) ++ t →
    (t.filter (· ≠ 13)).head? ≠ some 58 ∧
      ∀ l rest, t = l ++ 10 :: rest → (10 : UInt8) ∉ l → (58 : UInt8) ∈ l →
        ((l.filter (· ≠ 13)).dropWhile (· ≠ 58)).tail ≠ []

/-! ## Trimming -/

theorem trimStart_eq (buf : Charbuf) : ∀ n k, k + n = buf.data.length →
    trimStart buf n (buf.b + k) = some (buf.b + k + ((buf.data.drop k).takeWhile isspace).length) := by
  intro n
  induction n with
  | zero =>
    intro k hk
    rw [trimStart, List.drop_eq_nil_of_le (by omega)]
    rfl
  | succ n ih =>
    intro k hk
    have hlt : k < buf.data.length := by omega
    have hread : buf.read (buf.b + k) = some buf.data[k] := by
      unfold Charbuf.read
      rw [if_pos (by omega), Nat.add_sub_cancel_left, List.getElem?_eq_getElem hlt]
    rw [trimStart, if_pos (by omega), hread, List.drop_eq_getElem_cons hlt, List.takeWhile_cons]
    simp only [Option.bind_eq_bind, Option.bind_some]
    split_ifs with hc
    · rw [show buf.b + k + 1 = buf.b + (k + 1) by omega, ih (k + 1) (by omega), List.length_cons]
      congr 1
      omega
    · rfl

theorem trimEnd_eq {buf : Charbuf} {c : UInt8} {s : Bytes} (hbuf : buf.data = c :: s) :
    ∀ k n, k ≤ s.length → k < n →
      trimEnd buf n (buf.b + k) (k + 1) = some (((s.take k).rdropWhile isspace).length + 1) := by
  intro k
  induction k with
  | zero =>
    intro n _ hn
    obtain ⟨m, rfl⟩ : ∃ m, n = m + 1 := ⟨n - 1, by omega⟩
    rw [trimEnd, if_neg (by omega)]
    rfl
  | succ k ih =>
    intro n hk hn
    obtain ⟨m, rfl⟩ : ∃ m, n = m + 1 := ⟨n - 1, by omega⟩
    have hread : buf.read (buf.b + (k + 1)) = some s[k] := by
      unfold Charbuf.read
      rw [if_pos (by omega), Nat.add_sub_cancel_left, hbuf, List.getElem?_cons_succ, List.getElem?_eq_getElem]
    rw [trimEnd, if_pos (by omega), hread, List.take_succ_eq_append_getElem (by omega)]
    simp only [Option.bind_eq_bind, Option.bind_some]
    split_ifs with hc
    · rw [List.rdropWhile_concat_pos _ _ _ hc]
      exact ih m (by omega) (by omega)
    · rw [List.rdropWhile_concat_neg _ _ _ hc, List.length_append, List.length_take, Nat.min_eq_left (by omega)]
      rfl

theorem Heap.one_lt_addresses (heap : Heap) : 1 < heap.addresses := by
  have hpos := heap.pos []
  have hfits := heap.fits [] (by simp)
  rw [List.length_nil] at hfits
  omega

theorem before_eq {heap : Heap} {p : ℕ} (hpos : 0 < p) (hp : p ≤ heap.addresses) : before heap p = p - 1 := by
  have h := heap.one_lt_addresses
  unfold before
  rw [show p + (heap.addresses - 1) = p - 1 + heap.addresses by omega, Nat.add_mod_right, Nat.mod_eq_of_lt (by omega)]

/-- A buffer that has been allocated is trimmed as by the library, if there is anything in it or
    not. -/
theorem trim_allocated {heap : Heap} {buf : Charbuf} (hpos : 0 < buf.b)
    (hfits : buf.b + buf.data.length ≤ heap.addresses) :
    buf.trim heap = some { buf with data := trim buf.data } := by
  have hstart := trimStart_eq buf buf.data.length 0 (Nat.zero_add _)
  rw [Nat.add_zero, List.drop_zero] at hstart
  have hdrop : buf.data.drop (buf.b + (buf.data.takeWhile isspace).length - buf.b) = buf.data.dropWhile isspace := by
    have hsplit := List.takeWhile_append_dropWhile (p := isspace) (l := buf.data)
    rw [Nat.add_sub_cancel_left]
    calc buf.data.drop (buf.data.takeWhile isspace).length
        = (buf.data.takeWhile isspace ++ buf.data.dropWhile isspace).drop (buf.data.takeWhile isspace).length := by
          rw [hsplit]
      _ = buf.data.dropWhile isspace := List.drop_left
  have hle := (List.dropWhile_suffix (l := buf.data) isspace).length_le
  unfold Charbuf.trim trim
  rw [hstart]
  simp only [Option.bind_eq_bind, Option.bind_some, hdrop]
  cases hs : buf.data.dropWhile isspace with
  | nil =>
    -- everything is white space: the end is looked for at the byte before
    rw [List.length_nil, before_eq (by omega) (by omega), trimEnd, if_neg (show ¬ buf.b + 0 - 1 > buf.b by omega)]
    rfl
  | cons c s =>
    rw [hs, List.length_cons] at hle
    have hend := @trimEnd_eq { buf with data := c :: s } c s rfl s.length (s.length + 2) le_rfl (by omega)
    rw [List.take_length] at hend
    have hpre := List.prefix_iff_eq_take.mp (List.rdropWhile_prefix isspace s)
    rw [List.length_cons, before_eq (by omega) (by omega), show buf.b + (s.length + 1) - 1 = buf.b + s.length by omega,
      hend]
    simp only [Option.bind_some, List.take_succ_cons]
    rw [← hpre]

/-- One that has not is read at the address before it. -/
theorem trim_null (heap : Heap) : ({} : Charbuf).trim heap = none := by
  have h := heap.one_lt_addresses
  have hp : before heap 0 = heap.addresses - 1 := by
    unfold before
    rw [Nat.zero_add, Nat.mod_eq_of_lt (by omega)]
  have hread : ({} : Charbuf).read (heap.addresses - 1) = none := rfl
  have hend : trimEnd {} 1 (before heap 0) 0 = none := by
    rw [hp, trimEnd, if_pos (show heap.addresses - 1 > 0 by omega), hread]
    rfl
  unfold Charbuf.trim
  simp only [List.length_nil, trimStart, Option.bind_eq_bind, Option.bind_some, List.drop_nil, Nat.zero_add]
  rw [hend]
  rfl

/-! ## Lines -/

/-- The buffer after some text has been put into it. -/
def bufOf (heap : Heap) (text : Bytes) : Charbuf :=
  if text = [] then {} else ⟨heap.place text, text⟩

theorem bufadd_bufOf (heap : Heap) (text : Bytes) (c : UInt8) :
    bufadd heap (bufOf heap text) c = bufOf heap (text ++ [c]) := by
  unfold bufadd bufOf
  by_cases h : text = []
  · rw [if_pos h, if_neg (by simp), h]
  · rw [if_neg h, if_neg (by simp)]

theorem cstr_append_nul (s : Bytes) : cstr (s ++ [0]) = cstr s := by
  by_cases h : NulFree s
  · rw [cstr_append h, cstr_eq_self h]
  · rw [cstr_split h, List.append_assoc, List.cons_append, cstr_append (nulFree_cstr s),
      cstr_append (nulFree_cstr s)]

theorem bufdone_nil (heap : Heap) (st state : LineState) (hbuf : List Bytes) :
    bufdone heap ⟨st, bufOf heap [], hbuf⟩ state = .stop none := by
  unfold bufdone bufOf
  rw [if_pos rfl]
  simp only
  rw [trim_null]

theorem bufdone_bufOf {heap : Heap} {text : Bytes} (hne : text ≠ []) (hlen : text.length < 65536)
    (st state : LineState) (hbuf : List Bytes) :
    bufdone heap ⟨st, bufOf heap text, hbuf⟩ state = .more ⟨state, {}, hbuf ++ [cstr (trim text)]⟩ := by
  have hfits := heap.fits text hlen
  unfold bufdone bufOf
  rw [if_neg hne]
  simp only
  rw [trim_allocated (heap.pos text) hfits.le]
  simp only [bufadd]
  rw [cstr_append_nul]

theorem cgi_feed_value {l : Bytes} (hl : (10 : UInt8) ∉ l) (heap : Heap) (hbuf : List Bytes) (val : Bytes) :
    feed (cgiStep heap) ⟨.value, bufOf heap val, hbuf⟩ l =
      some ⟨.value, bufOf heap (val ++ l.filter (· ≠ 13)), hbuf⟩ := by
  induction l generalizing val with
  | nil => simp [feed]
  | cons c l ih =>
    simp only [List.mem_cons, not_or] at hl
    have hstep : cgiStep heap ⟨.value, bufOf heap val, hbuf⟩ c =
        .more ⟨.value, bufOf heap (val ++ [c].filter (· ≠ 13)), hbuf⟩ := by
      unfold cgiStep
      simp only [if_neg (Ne.symm hl.1), bufadd_bufOf]
      by_cases h13 : c = 13
      · simp [h13]
      · simp [h13]
    rw [feed, hstep]
    simp only
    rw [ih hl.2, List.append_assoc, ← List.filter_append, List.singleton_append]

theorem cgi_feed_name {l : Bytes} (hl : (10 : UInt8) ∉ l) (hcolon : (58 : UInt8) ∉ l) (heap : Heap)
    (hbuf : List Bytes) (state : LineState) (hstate : state ≠ .value) (name : Bytes) :
    feed (cgiStep heap) ⟨state, bufOf heap name, hbuf⟩ l =
      some ⟨if l.filter (· ≠ 13) = [] then state else .name, bufOf heap (name ++ l.filter (· ≠ 13)), hbuf⟩ := by
  induction l generalizing state name with
  | nil => simp [feed]
  | cons c l ih =>
    simp only [List.mem_cons, not_or] at hl hcolon
    by_cases h13 : c = 13
    · have hstep : cgiStep heap ⟨state, bufOf heap name, hbuf⟩ c = .more ⟨state, bufOf heap name, hbuf⟩ := by
        unfold cgiStep
        cases state with
        | start => simp [h13]
        | name => simp [h13]
        | value => exact absurd rfl hstate
      rw [feed, hstep]
      simp only
      rw [ih hl.2 hcolon.2 state hstate, List.filter_cons_of_neg (by simp [h13])]
    · have hstep : cgiStep heap ⟨state, bufOf heap name, hbuf⟩ c =
          .more ⟨.name, bufOf heap (name ++ [c]), hbuf⟩ := by
        unfold cgiStep
        simp only [if_neg (Ne.symm hl.1), if_neg h13, if_neg (Ne.symm hcolon.1), bufadd_bufOf]
        cases state with
        | start => rfl
        | name => rfl
        | value => exact absurd rfl hstate
      rw [feed, hstep]
      simp only
      rw [ih hl.2 hcolon.2 .name (by simp), List.filter_cons_of_pos (by simpa using h13)]
      simp only [List.append_assoc, List.singleton_append, reduceCtorEq, if_false, ite_self]

theorem cgiStep_colon (heap : Heap) {state : LineState} (hstate : state ≠ .value) (buf : Charbuf)
    (hbuf : List Bytes) : cgiStep heap ⟨state, buf, hbuf⟩ 58 = bufdone heap ⟨.name, buf, hbuf⟩ .value := by
  unfold cgiStep
  cases state with
  | start => simp
  | name => simp
  | value => exact absurd rfl hstate

/-- A line that starts with a colon. -/
theorem scanList_noname {name : Bytes} (hname : name.filter (· ≠ 13) = []) (heap : Heap) (hbuf : List Bytes)
    (s : Bytes) : scanList (cgiStep heap) ⟨.start, {}, hbuf⟩ (name ++ 58 :: s) = some (none, s) := by
  have hcr := filter_cr_eq_nil.mp hname
  have hfeed := cgi_feed_name (fun h => absurd (hcr 10 h) (by decide)) (fun h => absurd (hcr 58 h) (by decide))
    heap hbuf .start (by simp) []
  rw [List.nil_append, if_pos hname, hname] at hfeed
  rw [show ({} : Charbuf) = bufOf heap [] from rfl, scanList_feed hfeed, scanList, cgiStep_colon heap (by simp),
    bufdone_nil]

/-- A line that has a name and a colon. -/
theorem scanList_name {name : Bytes} (hl : (10 : UInt8) ∉ name) (hcolon : (58 : UInt8) ∉ name)
    (hname : name.filter (· ≠ 13) ≠ []) (hlen : name.length < 65536) (heap : Heap) (hbuf : List Bytes) (s : Bytes) :
    scanList (cgiStep heap) ⟨.start, {}, hbuf⟩ (name ++ 58 :: s) =
      scanList (cgiStep heap) ⟨.value, bufOf heap [], hbuf ++ [cstr (trim (name.filter (· ≠ 13)))]⟩ s := by
  have hfeed := cgi_feed_name hl hcolon heap hbuf .start (by simp) []
  have hle := List.length_filter_le (fun c : UInt8 => decide (c ≠ 13)) name
  rw [List.nil_append, if_neg hname] at hfeed
  rw [show ({} : Charbuf) = bufOf heap [] from rfl, scanList_feed hfeed, scanList, cgiStep_colon heap (by simp),
    bufdone_bufOf hname (by omega)]
  rfl

theorem scanList_value {val : Bytes} (hl : (10 : UInt8) ∉ val) (hlen : val.length < 65536) (heap : Heap)
    (hbuf : List Bytes) (s : Bytes) :
    scanList (cgiStep heap) ⟨.value, bufOf heap [], hbuf⟩ (val ++ 10 :: s) =
      if val.filter (· ≠ 13) = [] then some (none, s)
      else scanList (cgiStep heap) ⟨.start, {}, hbuf ++ [cstr (trim (val.filter (· ≠ 13)))]⟩ s := by
  have hfeed := cgi_feed_value hl heap hbuf []
  have hle := List.length_filter_le (fun c : UInt8 => decide (c ≠ 13)) val
  have hstep : ∀ buf, cgiStep heap ⟨.value, buf, hbuf⟩ 10 = bufdone heap ⟨.value, buf, hbuf⟩ .start := by
    intro buf
    unfold cgiStep
    simp
  rw [List.nil_append] at hfeed
  rw [scanList_feed hfeed, scanList, hstep]
  split_ifs with hval
  · rw [hval, bufdone_nil]
  · rw [bufdone_bufOf hval (by omega)]

/-- A line without a colon. -/
theorem scanList_nocolon {l : Bytes} (hl : (10 : UInt8) ∉ l) (hcolon : (58 : UInt8) ∉ l) (heap : Heap)
    (hbuf : List Bytes) (s : Bytes) :
    scanList (cgiStep heap) ⟨.start, {}, hbuf⟩ (l ++ 10 :: s) =
      if l.filter (· ≠ 13) = [] then some (some hbuf, s) else none := by
  have hfeed := cgi_feed_name hl hcolon heap hbuf .start (by simp) []
  rw [List.nil_append] at hfeed
  rw [show ({} : Charbuf) = bufOf heap [] from rfl, scanList_feed hfeed, scanList]
  split_ifs with hnil
  · rfl
  · rfl

/-- The output ends within a line. -/
theorem scanList_eof {s : Bytes} (hl : (10 : UInt8) ∉ s) (hhead : (s.filter (· ≠ 13)).head? ≠ some 58)
    (hlen : s.length < 65536) (heap : Heap) (hbuf : List Bytes) :
    scanList (cgiStep heap) ⟨.start, {}, hbuf⟩ s = none := by
  by_cases hcolon : (58 : UInt8) ∈ s
  · obtain ⟨name, val, rfl, hname⟩ := List.eq_append_cons_of_mem hcolon
    simp only [List.mem_append, List.mem_cons, not_or] at hl
    rw [List.length_append, List.length_cons] at hlen
    rw [List.filter_append, List.filter_cons_of_pos (by decide)] at hhead
    have hne : name.filter (· ≠ 13) ≠ [] := by
      intro h0
      rw [h0] at hhead
      exact hhead rfl
    have hend := scanList_feed (cgi_feed_value hl.2.2 heap (hbuf ++ [cstr (trim (name.filter (· ≠ 13)))]) []) []
    rw [scanList_name hl.1 hname hne (by omega)]
    rwa [List.append_nil] at hend
  · have hend := scanList_feed (cgi_feed_name hl hcolon heap hbuf .start (by simp) []) []
    rwa [List.append_nil] at hend

/-! ## Which lines are filled -/

theorem head?_filter_append {l : Bytes} {c : UInt8} (h : c ∈ l) (hc : c ≠ 13) (t : Bytes) :
    ((l ++ t).filter (· ≠ 13)).head? = (l.filter (· ≠ 13)).head? := by
  have hmem : c ∈ l.filter (· ≠ 13) := List.mem_filter.mpr ⟨h, by simpa using hc⟩
  rw [List.filter_append]
  exact List.head?_append_of_ne_nil _ (List.ne_nil_of_mem hmem)

theorem head?_ne_colon {l : Bytes} (h : (58 : UInt8) ∉ l) : (l.filter (· ≠ 13)).head? ≠ some 58 :=
  fun h0 => h (List.mem_filter.mp (List.mem_of_head? h0)).1

/-- A text has only one first line. -/
theorem line_inj {l l' s s' : Bytes} (hl : (10 : UInt8) ∉ l) (hl' : (10 : UInt8) ∉ l')
    (h : l ++ 10 :: s = l' ++ 10 :: s') : l = l' ∧ s = s' := by
  obtain ⟨htake, hdrop⟩ := Message.split_write hl s
  obtain ⟨htake', hdrop'⟩ := Message.split_write hl' s'
  rw [h, htake'] at htake
  rw [h, hdrop', List.cons.injEq] at hdrop
  exact ⟨htake.symm, hdrop.2.symm⟩

/-- A line that has a colon, and what follows it. -/
theorem filled_line {l : Bytes} (hl : (10 : UInt8) ∉ l) (hcolon : (58 : UInt8) ∈ l) (s : Bytes) :
    Filled (l ++ 10 :: s) ↔ (l.filter (· ≠ 13)).head? ≠ some 58 ∧
      ((l.filter (· ≠ 13)).dropWhile (· ≠ 58)).tail ≠ [] ∧ Filled s := by
  constructor
  · intro h
    obtain ⟨hhead, hval⟩ := h [] (l ++ 10 :: s) (by simp) rfl
    rw [head?_filter_append hcolon (by decide)] at hhead
    refine ⟨hhead, hval l s rfl hl hcolon, fun lines t hlines hs => ?_⟩
    exact h (l :: lines) t (List.forall_mem_cons.mpr ⟨⟨hl, hcolon⟩, hlines⟩) (by simp [hs])
  · rintro ⟨hhead, hval, h⟩ lines t hlines hs
    cases lines with
    | nil =>
      rw [List.flatMap_nil, List.nil_append] at hs
      subst hs
      refine ⟨by rwa [head?_filter_append hcolon (by decide)], fun l' rest heq hl' _ => ?_⟩
      obtain ⟨rfl, -⟩ := line_inj hl hl' heq
      exact hval
    | cons l' lines =>
      obtain ⟨⟨hl', -⟩, hlines⟩ := List.forall_mem_cons.mp hlines
      rw [List.flatMap_cons, List.append_assoc, List.append_assoc, List.singleton_append] at hs
      exact h lines t hlines (line_inj hl hl' hs).2

theorem filled_nocolon {l : Bytes} (hl : (10 : UInt8) ∉ l) (hcolon : (58 : UInt8) ∉ l) (s : Bytes) :
    Filled (l ++ 10 :: s) := by
  intro lines t hlines hs
  cases lines with
  | nil =>
    rw [List.flatMap_nil, List.nil_append] at hs
    subst hs
    refine ⟨?_, fun l' rest heq hl' hc => ?_⟩
    · rw [List.append_cons, head?_filter_append (show (10 : UInt8) ∈ l ++ [10] by simp) (by decide)]
      exact head?_ne_colon (by simpa using hcolon)
    · obtain ⟨rfl, -⟩ := line_inj hl hl' heq
      exact absurd hc hcolon
  | cons l' lines =>
    obtain ⟨⟨hl', hc⟩, hlines⟩ := List.forall_mem_cons.mp hlines
    rw [List.flatMap_cons, List.append_assoc, List.append_assoc, List.singleton_append] at hs
    obtain ⟨rfl, -⟩ := line_inj hl hl' hs
    exact absurd hc hcolon

theorem filled_unended {s : Bytes} (hl : (10 : UInt8) ∉ s) :
    Filled s ↔ (s.filter (· ≠ 13)).head? ≠ some 58 := by
  refine ⟨fun h => (h [] s (by simp) rfl).1, fun h lines t _ hs => ?_⟩
  cases lines with
  | nil =>
    rw [List.flatMap_nil, List.nil_append] at hs
    subst hs
    exact ⟨h, fun l rest heq => absurd (by simp [heq]) hl⟩
  | cons l lines => exact absurd (by simp [hs]) hl

/-! ## The parser on an output -/

theorem tail_split {name : Bytes} (hname : (58 : UInt8) ∉ name) (val : Bytes) :
    (((name ++ 58 :: val).filter (· ≠ 13)).dropWhile (· ≠ 58)).tail = val.filter (· ≠ 13) := by
  have hnf : (58 : UInt8) ∉ name.filter (· ≠ 13) := fun h0 => hname (List.mem_filter.mp h0).1
  rw [List.filter_append, List.filter_cons_of_pos (by decide), (Message.split_write hnf _).2]
  rfl

theorem head?_split {name : Bytes} (hname : (58 : UInt8) ∉ name) (val : Bytes) :
    ((name ++ 58 :: val).filter (· ≠ 13)).head? = some 58 ↔ name.filter (· ≠ 13) = [] := by
  rw [List.filter_append, List.filter_cons_of_pos (by decide)]
  cases hn : name.filter (· ≠ 13) with
  | nil => simp
  | cons c n =>
    have hc : c ∈ name := (List.mem_filter.mp (hn ▸ List.mem_cons_self)).1
    simpa using fun h0 : c = 58 => hname (h0 ▸ hc)

/-- If all lines are filled, the headers are read line by line. -/
theorem parsecgiheaders_filled (heap : Heap) : ∀ fuel s hbuf, s.length < fuel → s.length < 65536 → Filled s →
    scanList (cgiStep heap) ⟨.start, {}, hbuf⟩ s =
      (headerLines fuel s).map fun r => (some (hbuf ++ r.1.flatMap fun h => [h.1, h.2]), r.2) := by
  intro fuel
  induction fuel with
  | zero => intro s hbuf hf; omega
  | succ fuel ih =>
    intro s hbuf hf hlen hfill
    by_cases hlf : (10 : UInt8) ∈ s
    swap
    · rw [headerLines_unended hlf, scanList_eof hlf ((filled_unended hlf).mp hfill) hlen]
      rfl
    obtain ⟨l, s', rfl, hl⟩ := List.eq_append_cons_of_mem hlf
    rw [List.length_append, List.length_cons] at hf hlen
    rw [headerLines_line hl]
    by_cases hcolon : (58 : UInt8) ∈ l
    · obtain ⟨hhead, hval, hrest⟩ := (filled_line hl hcolon s').mp hfill
      have hne : l.filter (· ≠ 13) ≠ [] := List.ne_nil_of_mem (List.mem_filter.mpr ⟨hcolon, by decide⟩)
      obtain ⟨name, val, rfl, hname⟩ := List.eq_append_cons_of_mem hcolon
      simp only [List.mem_append, List.mem_cons, not_or] at hl
      rw [List.length_append, List.length_cons] at hf hlen
      rw [tail_split hname] at hval
      rw [if_neg hne, headerOf_split hname, List.append_assoc, List.cons_append,
        scanList_name hl.1 hname (fun h0 => hhead ((head?_split hname val).mpr h0)) (by omega),
        scanList_value hl.2.2 (by omega), if_neg hval, ih s' _ (by omega) (by omega) hrest]
      cases headerLines fuel s' with
      | none => rfl
      | some r => simp
    · rw [scanList_nocolon hl hcolon]
      split_ifs with hnil
      · simp
      · cases hof : headerOf (l.filter (· ≠ 13)) with
        | none => rfl
        | some f => exact absurd (headerOf_colon hof) hcolon

/-- If a line is not, the parser leaves its buffer. -/
theorem parsecgiheaders_unfilled (heap : Heap) : ∀ n (s : Bytes) hbuf, s.length < n → s.length < 65536 → ¬ Filled s →
    ∃ rest, scanList (cgiStep heap) ⟨.start, {}, hbuf⟩ s = some (none, rest) := by
  intro n
  induction n with
  | zero => intro s hbuf hn; omega
  | succ n ih =>
    intro s hbuf hn hlen hfill
    by_cases hlf : (10 : UInt8) ∈ s
    swap
    · rw [filled_unended hlf, not_not] at hfill
      have hcolon : (58 : UInt8) ∈ s := (List.mem_filter.mp (List.mem_of_head? hfill)).1
      obtain ⟨name, s', rfl, hname⟩ := List.eq_append_cons_of_mem hcolon
      exact ⟨s', scanList_noname ((head?_split hname s').mp hfill) heap hbuf s'⟩
    obtain ⟨l, s', rfl, hl⟩ := List.eq_append_cons_of_mem hlf
    by_cases hcolon : (58 : UInt8) ∈ l
    swap
    · exact absurd (filled_nocolon hl hcolon s') hfill
    rw [filled_line hl hcolon] at hfill
    obtain ⟨name, val, rfl, hname⟩ := List.eq_append_cons_of_mem hcolon
    simp only [List.mem_append, List.mem_cons, not_or] at hl
    simp only [List.length_append, List.length_cons] at hn hlen
    rw [ne_eq, head?_split hname, tail_split hname] at hfill
    rw [List.append_assoc, List.cons_append]
    by_cases hnil : name.filter (· ≠ 13) = []
    · exact ⟨_, scanList_noname hnil heap hbuf _⟩
    rw [scanList_name hl.1 hname hnil (by omega), scanList_value hl.2.2 (by omega)]
    split_ifs with hval
    · exact ⟨_, rfl⟩
    · exact ih s' _ (by omega) (by omega) fun h => hfill ⟨hnil, hval, h⟩

/-- What is read by the library, from the same output. -/
theorem parseheaders_short {s : Bytes} (hlen : s.length < 65536) (head r : Hthead) (rest : Bytes) :
    parseheaders getcList head s = (some r, rest) ↔
      ∃ hs, headerLines (s.length + 1) s = some (hs, rest) ∧ r = { head with headers := head.headers ++ hs } := by
  rw [parseheaders_list, ← scanList_headerRead, scanList_headerStep (s.length + 1) s head 0 (Nat.lt_succ_self _)]
  cases headerLines (s.length + 1) s with
  | none => simp
  | some p =>
    obtain ⟨hs, rest'⟩ := p
    simp only
    rw [if_pos (by omega)]
    simp only [Option.some.injEq, Prod.mk.injEq]
    constructor
    · rintro ⟨rfl, rfl⟩
      exact ⟨hs, ⟨rfl, rfl⟩, rfl⟩
    · rintro ⟨_, ⟨rfl, rfl⟩, rfl⟩
      exact ⟨rfl, rfl⟩

/-- **The two parsers of headers.** On an output of less than 65536 bytes, `parsecgiheaders` does
    what `parseheaders` does, and stays within its buffers, if and only if no line that it reaches
    starts with a colon, and none that has an end ends right after its first colon. -/
theorem cgiheaders_agree_iff (heap : Heap) (s : Bytes) (hlen : s.length < 65536) :
    Agrees heap s ↔ Filled s := by
  constructor
  · intro h
    by_contra hfill
    obtain ⟨rest, hrest⟩ := parsecgiheaders_unfilled heap _ s [] (Nat.lt_succ_self _) hlen hfill
    exact h.inside rest hrest
  · intro hfill
    have hparse := parsecgiheaders_filled heap _ s [] (Nat.lt_succ_self _) hlen hfill
    change parsecgiheaders heap s = _ at hparse
    refine ⟨fun rest h => ?_, ?_, fun hbuf rest h => ?_⟩
    · obtain ⟨r, -, hr⟩ := Option.map_eq_some_iff.mp (hparse ▸ h)
      cases hr
    · rw [hparse, Option.map_eq_none_iff]
      constructor
      · intro hnone head r rest hr
        obtain ⟨hs, hh, -⟩ := (parseheaders_short hlen head r rest).mp hr
        rw [hnone] at hh
        cases hh
      · intro hnone
        cases hh : headerLines (s.length + 1) s with
        | none => rfl
        | some r => exact absurd ((parseheaders_short hlen {} _ r.2).mpr ⟨r.1, hh, rfl⟩) (hnone _ _ _)
    · obtain ⟨⟨hs, rest'⟩, hh, hr⟩ := Option.map_eq_some_iff.mp (hparse ▸ h)
      cases hr
      exact ⟨hs, rfl, fun head => (parseheaders_short hlen head _ rest').mpr ⟨hs, hh, rfl⟩⟩

/-- Every buffer is put at the first address. -/
def lowHeap : Heap where
  addresses := 65537
  place := fun _ => 1
  pos := fun _ => Nat.one_pos
  fits := fun text h => by omega

/-- A header with a name and a value. -/
theorem cgiheaders_agree_iff_one : Agrees lowHeap (bytes "A: b\r\n\r\n") := by
  refine (cgiheaders_agree_iff lowHeap (bytes "A: b\r\n\r\n") (by decide)).mpr ?_
  rw [show bytes "A: b\r\n\r\n" = bytes "A: b\r" ++ 10 :: (bytes "\r" ++ 10 :: []) from rfl,
    filled_line (by decide) (by decide)]
  exact ⟨by decide, by decide, filled_nocolon (by decide) (by decide) []⟩

/-- A header whose value is empty. -/
theorem cgiheaders_disagree :
    ∃ (heap : Heap) (s : Bytes), s.length < 65536 ∧ parsecgiheaders heap s = some (none, bytes "\n") ∧
      ¬ Agrees heap s := by
  have h : parsecgiheaders lowHeap (bytes "A:\n\n") = some (none, bytes "\n") := by decide
  exact ⟨lowHeap, bytes "A:\n\n", by decide, h, fun ha => ha.inside _ h⟩

end Ashd.Callcgi
