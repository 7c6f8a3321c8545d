import Mathlib.Data.List.Infix
import Mathlib.Tactic.Cases

/-!
# Server-side includes in ashd/ssi.py

`parse` takes the directives out of a text, which `parsecmd` reads from behind each `<!--#` on. An
index that is not in the text ends `parsecmd` with an `IndexError`. The text is a list of
characters, and which of them are letters or digits is a parameter.

Main results:
* `ssi_parse`: what comes out as text is the text between the directives, in order, and a
  directive that is written as it should be is read as it is written, up to its end.
* `turn_again`: no turn of the loop in `parsecmd` stays where it is.
-/

namespace Ashd.Ssi

/-! ## Characters -/

/-- `str.isspace`, of one character. -/
def isspace (c : Char) : Bool :=
  let n := c.toNat
  (0x9 ≤ n && n ≤ 0xd) || (0x1c ≤ n && n ≤ 0x20) || n == 0x85 || n == 0xa0 || n == 0x1680 ||
    (0x2000 ≤ n && n ≤ 0x200a) || n == 0x2028 || n == 0x2029 || n == 0x202f || n == 0x205f ||
    n == 0x3000

/-- `str.isalnum`, of one character: neither spaces nor punctuation are letters or digits. -/
structure Alnum where
  isalnum : Char → Bool
  space : ∀ c, isspace c = true → isalnum c = false
  hyphen : isalnum '-' = false
  equals : isalnum '=' = false

/-- `str.isalnum` for the characters of ASCII. -/
def Alnum.ascii : Alnum where
  isalnum c :=
    let n := c.toNat
    (48 ≤ n && n ≤ 57) || (65 ≤ n && n ≤ 90) || (97 ≤ n && n ≤ 122)
  space := by
    intro c hc
    simp only [isspace, Bool.or_eq_true, Bool.and_eq_true, decide_eq_true_eq, beq_iff_eq] at hc
    simp only [Bool.or_eq_false_iff, Bool.and_eq_false_iff, decide_eq_false_iff_not]
    omega
  hyphen := by decide
  equals := by decide

/-- The characters that a value can stand between. -/
def quotes : List Char := ['\x22', '\x27', '\x60']

/-- `<!--#` -/
def marker : List Char := ['<', '!', '-', '-', '#']

/-- `-->` -/
def close : List Char := ['-', '-', '>']

/-- `text[p:q]` -/
def slice (text : List Char) (p q : ℕ) : List Char := (text.drop p).take (q - p)

/-- `text.find(sub, p)`, with no index for `-1`. -/
def find (sub text : List Char) (p : ℕ) : Option ℕ :=
  (List.range' p (text.length + 1 - p)).find? fun i => sub.isPrefixOf (text.drop i)

/-! ## `parsecmd` -/

/-- `while pred(text[p]): s += text[p]; p += 1`, from an empty `s` on: `s` and `p` after it. -/
def passwhile (pred : Char → Bool) (text : List Char) (p : ℕ) : Option (List Char × ℕ) :=
  match _h : text[p]? with
  | none => none
  | some c =>
    if pred c then (passwhile pred text (p + 1)).map fun (s, p) => (c :: s, p) else some ([], p)
termination_by text.length - p
decreasing_by
  have := (List.getElem?_eq_some_iff.mp _h).1
  omega

/-- The parameters of a directive. The last value that was put for a key comes first. -/
abbrev Params : Type := List (List Char × List Char)

/-- How a turn of the loop in `parsecmd` ends: with another, `return cmd, pars, p` or
    `return None, {}, p`. -/
inductive Turn
  | again (pars : Params) (p : ℕ)
  | done (p : ℕ)
  | bad (p : ℕ)

/-- A turn of the loop (ssi.py:22–45). There is none for an `IndexError`. -/
def turn (u : Alnum) (text : List Char) (pars : Params) (p : ℕ) : Option Turn := do
  let (_, p) ← passwhile isspace text p
  if slice text p (p + 3) = close then
    return .done (p + 3)
  let (key, p) ← passwhile u.isalnum text p
  if key = [] then
    return .bad p
  let (_, p) ← passwhile isspace text p
  let c ← text[p]?
  if c ≠ '=' then
    return .again pars p
  let (_, p) ← passwhile isspace text (p + 1)
  let q ← text[p]?
  if q ∉ quotes then
    return .again pars p
  let (val, p) ← passwhile (· ≠ q) text (p + 1)
  return .again ((key, val) :: pars) (p + 1)

theorem passwhile_eq_some {pred : Char → Bool} {text s : List Char} {p p' : ℕ}
    (h : passwhile pred text p = some (s, p')) :
    p' = p + s.length ∧ p' < text.length ∧ ∀ c ∈ s, pred c = true := by
  fun_induction passwhile pred text p generalizing s p' with
  | case1 => cases h
  | case2 p c hc hpred ih =>
    obtain ⟨⟨s, p'⟩, hr, heq⟩ := Option.map_eq_some_iff.mp h
    cases heq
    obtain ⟨rfl, hlt, hs⟩ := ih hr
    refine ⟨by rw [List.length_cons]; omega, hlt, ?_⟩
    intro d hd
    rcases List.mem_cons.mp hd with rfl | hd
    · exact hpred
    · exact hs d hd
  | case3 p c hc hpred =>
    cases h
    exact ⟨rfl, (List.getElem?_eq_some_iff.mp hc).1, by simp⟩

theorem passwhile_eq (pred : Char → Bool) {text s rest : List Char} {d : Char} {p : ℕ}
    (h : text.drop p = s ++ d :: rest) (hs : ∀ c ∈ s, pred c = true) (hd : pred d = false) :
    passwhile pred text p = some (s, p + s.length) := by
  induction s generalizing p with
  | nil =>
    have hp : text[p]? = some d := by
      rw [← List.head?_drop, h]
      rfl
    unfold passwhile
    split <;> simp_all
  | cons c s ih =>
    have hp : text[p]? = some c := by
      rw [← List.head?_drop, h]
      rfl
    have hdrop : text.drop (p + 1) = s ++ d :: rest := by
      rw [← List.drop_drop, h]
      rfl
    have hrest := ih hdrop fun c' hc' => hs c' (List.mem_cons_of_mem c hc')
    unfold passwhile
    split
    · simp_all
    · simp_all
      omega

theorem close_le {text : List Char} {p : ℕ} (h : slice text p (p + 3) = close) :
    p + 3 ≤ text.length := by
  have hlen := congrArg List.length h
  rw [slice, List.length_take, List.length_drop] at hlen
  have hclose : close.length = 3 := rfl
  omega

/-- Where a turn ends. -/
def Turn.pos : Turn → ℕ
  | again _ p => p
  | done p => p
  | bad p => p

theorem range_of_lt {t : Turn} {p n : ℕ} (hlt : p < t.pos) (hle : t.pos ≤ n) :
    p ≤ t.pos ∧ t.pos ≤ n ∧ ((∀ p', t ≠ .bad p') → p < t.pos) := ⟨hlt.le, hle, fun _ => hlt⟩

/-- A turn ends in the text, and further on unless it finds no key. -/
theorem turn_range {u : Alnum} {text : List Char} {pars : Params} {p : ℕ} {t : Turn}
    (h : turn u text pars p = some t) :
    p ≤ t.pos ∧ t.pos ≤ text.length ∧ ((∀ p', t ≠ .bad p') → p < t.pos) := by
  unfold turn at h
  simp only [Option.bind_eq_bind, Option.bind_eq_some_iff, Option.pure_def] at h
  obtain ⟨⟨s, p₁⟩, h₁, h⟩ := h
  obtain ⟨hp₁, hlt₁, -⟩ := passwhile_eq_some h₁
  split_ifs at h with hclose
  · cases h
    exact range_of_lt (show p < p₁ + 3 by omega) (close_le hclose)
  obtain ⟨⟨key, p₂⟩, h₂, h⟩ := Option.bind_eq_some_iff.mp h
  obtain ⟨hp₂, hlt₂, -⟩ := passwhile_eq_some h₂
  split_ifs at h with hkey
  · cases h
    exact ⟨show p ≤ p₂ by omega, hlt₂.le, fun hbad => absurd rfl (hbad p₂)⟩
  -- A key has a character, so that the turn does not stay where it is.
  have hlen : 0 < key.length := List.length_pos_iff.mpr hkey
  obtain ⟨⟨s, p₃⟩, h₃, h⟩ := Option.bind_eq_some_iff.mp h
  obtain ⟨hp₃, hlt₃, -⟩ := passwhile_eq_some h₃
  obtain ⟨c, -, h⟩ := Option.bind_eq_some_iff.mp h
  split_ifs at h with hc
  · cases h
    exact range_of_lt (show p < p₃ by omega) hlt₃.le
  obtain ⟨⟨s, p₄⟩, h₄, h⟩ := Option.bind_eq_some_iff.mp h
  obtain ⟨hp₄, hlt₄, -⟩ := passwhile_eq_some h₄
  obtain ⟨q, -, h⟩ := Option.bind_eq_some_iff.mp h
  by_cases hq : q ∉ quotes
  · rw [if_pos hq] at h
    cases h
    exact range_of_lt (show p < p₄ by omega) hlt₄.le
  rw [if_neg hq] at h
  obtain ⟨⟨val, p₅⟩, h₅, h⟩ := Option.bind_eq_some_iff.mp h
  obtain ⟨hp₅, hlt₅, -⟩ := passwhile_eq_some h₅
  cases h
  exact range_of_lt (show p < p₅ + 1 by omega) hlt₅

theorem turn_again {u : Alnum} {text : List Char} {pars pars' : Params} {p p' : ℕ}
    (h : turn u text pars p = some (.again pars' p')) : p < p' ∧ p' ≤ text.length :=
  have ⟨_, hle, hlt⟩ := turn_range h
  ⟨hlt (by simp), hle⟩

/-- What `parsecmd` returns: the command, if there is one, its parameters and a position. -/
structure Parsed where
  cmd : Option (List Char)
  pars : Params
  pos : ℕ

/-- The loop `while True` (ssi.py:21–45), with what ends it. -/
def paramloop (u : Alnum) (text cmd : List Char) (pars : Params) (p : ℕ) : Parsed :=
  match _h : turn u text pars p with
  | none => ⟨none, [], text.length⟩
  | some (.again pars p) => paramloop u text cmd pars p
  | some (.done p) => ⟨some cmd, pars, p⟩
  | some (.bad p) => ⟨none, [], p⟩
termination_by text.length - p
decreasing_by
  have := turn_again _h
  omega

/-- `parsecmd` (ssi.py:13–47). -/
def parsecmd (u : Alnum) (text : List Char) (p : ℕ) : Parsed :=
  match passwhile isspace text p with
  | none => ⟨none, [], text.length⟩
  | some (_, p) =>
    match passwhile (fun c => !isspace c) text p with
    | none => ⟨none, [], text.length⟩
    | some (cmd, p) => paramloop u text cmd [] p

theorem paramloop_range (u : Alnum) (text cmd : List Char) (pars : Params) {p : ℕ}
    (hp : p ≤ text.length) :
    p ≤ (paramloop u text cmd pars p).pos ∧ (paramloop u text cmd pars p).pos ≤ text.length := by
  fun_induction paramloop u text cmd pars p with
  | case1 => exact ⟨hp, le_rfl⟩
  | case2 pars p pars' p' h ih =>
    have hturn := turn_again h
    have := ih hturn.2
    exact ⟨by omega, this.2⟩
  | case3 pars p p' h =>
    have hturn := turn_range h
    exact ⟨hturn.1, hturn.2.1⟩
  | case4 pars p p' h =>
    have hturn := turn_range h
    exact ⟨hturn.1, hturn.2.1⟩

theorem parsecmd_range (u : Alnum) {text : List Char} {p : ℕ} (hp : p ≤ text.length) :
    p ≤ (parsecmd u text p).pos ∧ (parsecmd u text p).pos ≤ text.length := by
  unfold parsecmd
  cases h₁ : passwhile isspace text p with
  | none => exact ⟨hp, le_rfl⟩
  | some r₁ =>
    obtain ⟨hp₁, hlt₁, -⟩ := passwhile_eq_some h₁
    simp only
    cases h₂ : passwhile (fun c => !isspace c) text r₁.2 with
    | none => exact ⟨hp, le_rfl⟩
    | some r₂ =>
      obtain ⟨hp₂, hlt₂, -⟩ := passwhile_eq_some h₂
      have := paramloop_range u text r₂.1 [] hlt₂.le
      exact ⟨by simp only; omega, this.2⟩

/-! ## `parse` -/

theorem find_eq_some {sub text : List Char} {p i : ℕ} (h : find sub text p = some i) :
    p ≤ i ∧ sub <+: text.drop i ∧ ∀ j, p ≤ j → j < i → ¬ sub <+: text.drop j := by
  obtain ⟨hsub, hi, hnot⟩ := List.find?_range'_eq_some.mp h
  refine ⟨(List.mem_range'_1.mp hi).1, List.isPrefixOf_iff_prefix.mp hsub, ?_⟩
  intro j hj hji hprefix
  have := hnot j hj hji
  rw [List.isPrefixOf_iff_prefix.mpr hprefix] at this
  cases this

theorem find_eq_none {sub text : List Char} {p : ℕ} (hsub : sub ≠ [])
    (h : find sub text p = none) : ∀ j, p ≤ j → ¬ sub <+: text.drop j := by
  intro j hj hprefix
  have hlen := hprefix.length_le
  have hpos := List.length_pos_iff.mpr hsub
  rw [List.length_drop] at hlen
  have := List.find?_eq_none.mp h j (List.mem_range'_1.mpr ⟨hj, by omega⟩)
  exact this (List.isPrefixOf_iff_prefix.mpr hprefix)

theorem marker_le {text : List Char} {i : ℕ} (h : marker <+: text.drop i) :
    i + 5 ≤ text.length := by
  have hlen := h.length_le
  rw [List.length_drop] at hlen
  have hmarker : marker.length = 5 := rfl
  omega

/-- The parts of a file: `functools.partial` objects. -/
inductive Part
  | text (s : List Char)
  | incl (path : List Char)
  | echo (var : List Char)
  deriving DecidableEq

/-- `resolvecmd` (ssi.py:87–109), with the warning where it returns `None`. The only way of
    quoting what is echoed is `htmlquote`. -/
def resolvecmd (path cmd : List Char) (pars : Params) : Except (List Char) Part :=
  if cmd = "include".toList then
    match pars.lookup "file".toList with
    | some file => .ok (.incl file)
    | none =>
      match pars.lookup "virtual".toList with
      | some file => .ok (.incl file)
      | none => .error (path ++ ": invalid `include' directive".toList)
  else if cmd = "echo".toList then
    match pars.lookup "var".toList with
    | some var => .ok (.echo var)
    | none => .error (path ++ ": invalid `echo' directive".toList)
  else .error (path ++ ": unknown SSI command `".toList ++ cmd ++ "'".toList)

/-- What a turn of the loop in `parse` appends after the text (ssi.py:121–124). -/
def command (path : List Char) (r : Parsed) : List Part :=
  match r.cmd with
  | none => []
  | some cmd => (resolvecmd path cmd r.pars).toOption.toList

/-- The loop of `parse` (ssi.py:114–124), from `p` on: what it appends to `ret`. -/
def parsefrom (u : Alnum) (path text : List Char) (p : ℕ) : List Part :=
  match _h : find marker text p with
  | none => [.text (text.drop p)]
  | some p2 =>
    .text (slice text p p2) :: command path (parsecmd u text (p2 + 5)) ++
      parsefrom u path text (parsecmd u text (p2 + 5)).pos
termination_by text.length - p
decreasing_by
  have hfind := find_eq_some _h
  have hle := marker_le hfind.2.1
  have := parsecmd_range u hle
  omega

/-- `ssifile.parse` (ssi.py:111–124). -/
def parse (u : Alnum) (path text : List Char) : List Part := parsefrom u path text 0

/-! ## Directives as they should be written -/

/-- Only spaces. -/
def Spaces (s : List Char) : Prop := ∀ c ∈ s, isspace c = true

/-- A parameter, as it is written with spaces around its `=`. -/
structure Param (u : Alnum) where
  before : List Char
  key : List Char
  left : List Char
  right : List Char
  quote : Char
  val : List Char
  before_spaces : Spaces before
  key_ne_nil : key ≠ []
  key_alnum : ∀ c ∈ key, u.isalnum c = true
  left_spaces : Spaces left
  right_spaces : Spaces right
  quote_mem : quote ∈ quotes
  quote_notMem : quote ∉ val

/-- A parameter in a text. -/
def Param.written {u : Alnum} (a : Param u) : List Char :=
  a.before ++ (a.key ++ (a.left ++ '=' :: (a.right ++ a.quote :: (a.val ++ [a.quote]))))

/-- What a parameter says. -/
def Param.pair {u : Alnum} (a : Param u) : List Char × List Char := (a.key, a.val)

/-- A command, a space and parameters, up to `-->`. -/
structure Directive (u : Alnum) where
  before : List Char
  cmd : List Char
  space : Char
  params : List (Param u)
  after : List Char
  before_spaces : Spaces before
  cmd_ne_nil : cmd ≠ []
  cmd_plain : ∀ c ∈ cmd, isspace c = false
  space_isspace : isspace space = true
  after_spaces : Spaces after

/-- A directive in a text, behind its marker. -/
def Directive.written {u : Alnum} (d : Directive u) : List Char :=
  d.before ++ (d.cmd ++ d.space :: (d.params.flatMap Param.written ++ (d.after ++ close)))

theorem drop_add {text s rest : List Char} {p : ℕ} (h : text.drop p = s ++ rest) :
    text.drop (p + s.length) = rest := by
  rw [← List.drop_drop, h, List.drop_left]

theorem getElem?_of_drop {text rest : List Char} {c : Char} {p : ℕ}
    (h : text.drop p = c :: rest) : text[p]? = some c := by
  rw [← List.head?_drop, h]
  rfl

theorem Alnum.not_space (u : Alnum) {c : Char} (h : u.isalnum c = true) : isspace c = false := by
  by_contra hc
  have := u.space c (by simpa using hc)
  rw [h] at this
  cases this

/-- What comes after a key that has spaces and `c` after it. -/
theorem Spaces.next {s : List Char} (hs : Spaces s) (c : Char) (rest : List Char) :
    ∃ d r, s ++ c :: rest = d :: r ∧ (d = c ∨ isspace d = true) := by
  cases s with
  | nil => exact ⟨c, rest, rfl, .inl rfl⟩
  | cons d s => exact ⟨d, s ++ c :: rest, rfl, .inr (hs d (List.mem_cons_self ..))⟩

theorem isspace_quote {q : Char} (h : q ∈ quotes) : isspace q = false := by
  have : q = '\x22' ∨ q = '\x27' ∨ q = '\x60' := by simpa [quotes] using h
  rcases this with rfl | rfl | rfl <;> decide

/-- A turn reads a parameter. -/
theorem turn_param {u : Alnum} {text rest : List Char} (a : Param u) (pars : Params) {p : ℕ}
    (h : text.drop p = a.written ++ rest) :
    turn u text pars p = some (.again (a.pair :: pars) (p + a.written.length)) := by
  obtain ⟨k, ks, hkey⟩ := List.exists_cons_of_ne_nil a.key_ne_nil
  have hk : u.isalnum k = true := a.key_alnum k (by rw [hkey]; exact List.mem_cons_self ..)
  have h₀ : text.drop p = a.before ++ (a.key ++ (a.left ++ '=' ::
      (a.right ++ a.quote :: (a.val ++ a.quote :: rest)))) := by
    rw [h, Param.written]
    simp only [List.append_assoc, List.cons_append, List.nil_append]
  have h₁ := drop_add h₀
  have h₂ := drop_add h₁
  have h₃ := drop_add h₂
  have h₄ : text.drop (p + a.before.length + a.key.length + a.left.length + 1) = _ :=
    drop_add (s := ['=']) h₃
  have h₅ := drop_add h₄
  have h₆ : text.drop (_ + 1) = _ := drop_add (s := [a.quote]) h₅
  have hskip₁ := passwhile_eq isspace (by rw [h₀, hkey]; rfl) a.before_spaces (u.not_space hk)
  have hclose : slice text (p + a.before.length) (p + a.before.length + 3) ≠ close := by
    rw [slice, h₁, hkey, show p + a.before.length + 3 - (p + a.before.length) = 3 by omega]
    intro heq
    have hhyphen := u.hyphen
    rw [← (List.cons.inj heq).1, hk] at hhyphen
    cases hhyphen
  obtain ⟨d, r, hd, hnext⟩ :=
    a.left_spaces.next '=' (a.right ++ a.quote :: (a.val ++ a.quote :: rest))
  have hdkey : u.isalnum d = false := by
    rcases hnext with rfl | hspace
    · exact u.equals
    · exact u.space d hspace
  have hpass := passwhile_eq u.isalnum (by rw [h₁, hd]) a.key_alnum hdkey
  have hskip₂ := passwhile_eq isspace h₂ a.left_spaces (by decide)
  have hskip₃ := passwhile_eq isspace h₄ a.right_spaces (isspace_quote a.quote_mem)
  have hval := passwhile_eq (fun c => decide (c ≠ a.quote)) h₆
    (fun c hc => decide_eq_true fun heq => a.quote_notMem (heq ▸ hc)) (by simp)
  unfold turn
  simp only [hskip₁, hpass, hskip₂, hskip₃, hval, Option.bind_eq_bind, Option.bind_some,
    getElem?_of_drop h₃, getElem?_of_drop h₅]
  rw [if_neg hclose, if_neg a.key_ne_nil, if_neg (by simp), if_neg (by simpa using a.quote_mem)]
  simp only [Param.written, Param.pair, List.length_append, List.length_cons, List.length_nil,
    Option.pure_def, Option.some.injEq, Turn.again.injEq, true_and]
  omega

/-- A turn reads the end of a directive. -/
theorem turn_close {u : Alnum} {text s rest : List Char} (hs : Spaces s) (pars : Params) {p : ℕ}
    (h : text.drop p = s ++ (close ++ rest)) :
    turn u text pars p = some (.done (p + s.length + 3)) := by
  have hskip := passwhile_eq isspace h hs (by decide)
  have hslice : slice text (p + s.length) (p + s.length + 3) = close := by
    rw [slice, drop_add h, Nat.add_sub_cancel_left]
    rfl
  unfold turn
  simp only [hskip, Option.bind_eq_bind, Option.bind_some]
  rw [if_pos hslice]
  rfl

theorem paramloop_again {u : Alnum} {text cmd : List Char} {pars pars' : Params} {p p' : ℕ}
    (h : turn u text pars p = some (.again pars' p')) :
    paramloop u text cmd pars p = paramloop u text cmd pars' p' := by
  rw [paramloop]
  split <;> rename_i ht <;> rw [h] at ht <;> cases ht
  rfl

theorem paramloop_done {u : Alnum} {text cmd : List Char} {pars : Params} {p p' : ℕ}
    (h : turn u text pars p = some (.done p')) :
    paramloop u text cmd pars p = ⟨some cmd, pars, p'⟩ := by
  rw [paramloop]
  split <;> rename_i ht <;> rw [h] at ht <;> cases ht
  rfl

/-- The loop reads the parameters and the end. -/
theorem paramloop_eq {u : Alnum} {text after rest : List Char} (cmd : List Char)
    (hafter : Spaces after) (params : List (Param u)) (pars : Params) {p : ℕ}
    (h : text.drop p = params.flatMap Param.written ++ (after ++ (close ++ rest))) :
    paramloop u text cmd pars p =
      ⟨some cmd, (params.map Param.pair).reverse ++ pars,
        p + (params.flatMap Param.written ++ (after ++ close)).length⟩ := by
  induction params generalizing pars p with
  | nil =>
    rw [paramloop_done (turn_close hafter pars h)]
    simp only [List.flatMap_nil, List.map_nil, List.reverse_nil, List.nil_append,
      List.length_append]
    rfl
  | cons a params ih =>
    rw [List.flatMap_cons, List.append_assoc] at h
    rw [paramloop_again (turn_param a pars h), ih (a.pair :: pars) (drop_add h)]
    simp only [List.map_cons, List.reverse_cons, List.append_assoc, List.singleton_append,
      List.flatMap_cons, List.length_append, Nat.add_assoc]

theorem Spaces.cons {c : Char} {s : List Char} (hc : isspace c = true) (hs : Spaces s) :
    Spaces (c :: s) := by
  intro d hd
  rcases List.mem_cons.mp hd with rfl | hd
  · exact hc
  · exact hs d hd

/-- A directive is read as it is written. -/
theorem parsecmd_written {u : Alnum} (d : Directive u) {text rest : List Char} {p : ℕ}
    (h : text.drop p = d.written ++ rest) :
    parsecmd u text p =
      ⟨some d.cmd, (d.params.map Param.pair).reverse, p + d.written.length⟩ := by
  obtain ⟨c, cs, hcmd⟩ := List.exists_cons_of_ne_nil d.cmd_ne_nil
  have hc : isspace c = false := d.cmd_plain c (by rw [hcmd]; exact List.mem_cons_self ..)
  have h₀ : text.drop p = d.before ++ (d.cmd ++ d.space ::
      (d.params.flatMap Param.written ++ (d.after ++ (close ++ rest)))) := by
    rw [h, Directive.written]
    simp only [List.append_assoc, List.cons_append]
  have h₁ := drop_add h₀
  have h₂ := drop_add h₁
  have hskip := passwhile_eq isspace (by rw [h₀, hcmd]; rfl) d.before_spaces hc
  have hpass := passwhile_eq (fun c => !isspace c) h₁
    (fun c hc => by rw [d.cmd_plain c hc]; rfl) (by rw [d.space_isspace]; rfl)
  unfold parsecmd
  simp only [hskip, hpass]
  -- The space behind the command goes with what comes next.
  cases hparams : d.params with
  | nil =>
    rw [hparams] at h₂
    rw [paramloop_eq d.cmd (d.after_spaces.cons d.space_isspace) [] [] h₂, Directive.written,
      hparams]
    simp only [List.map_nil, List.reverse_nil, List.flatMap_nil, List.nil_append,
      List.length_append, List.length_cons, Parsed.mk.injEq, true_and]
    omega
  | cons a params =>
    let a' : Param u :=
      { a with
        before := d.space :: a.before
        before_spaces := a.before_spaces.cons d.space_isspace }
    rw [hparams] at h₂
    rw [paramloop_eq d.cmd d.after_spaces (a' :: params) [] h₂, Directive.written, hparams]
    simp only [List.map_cons, List.append_nil, List.flatMap_cons, Param.written, Param.pair, a',
      List.length_append, List.length_cons, List.cons_append, Parsed.mk.injEq, true_and]
    omega

/-! ## The text between the directives -/

/-- What a turn of the loop in `parse` leaves out of the text. -/
structure Cut where
  start : ℕ
  stop : ℕ

/-- `parse` leaves `c` out when it is at `p`: from the next marker to where `parsecmd` came to. -/
structure IsCut (u : Alnum) (text : List Char) (p : ℕ) (c : Cut) : Prop where
  le_start : p ≤ c.start
  marker : marker <+: text.drop c.start
  next : ∀ i, p ≤ i → i < c.start → ¬ Ssi.marker <+: text.drop i
  stop_eq : c.stop = (parsecmd u text (c.start + 5)).pos
  lt_stop : c.start + 5 ≤ c.stop
  stop_le : c.stop ≤ text.length

/-- What `parse` leaves out from `p` on, where no marker is left at the end. -/
def IsCuts (u : Alnum) (text : List Char) : ℕ → List Cut → Prop
  | p, [] => p ≤ text.length ∧ ∀ i, p ≤ i → ¬ marker <+: text.drop i
  | p, c :: cuts => IsCut u text p c ∧ IsCuts u text c.stop cuts

/-- What is not left out. -/
def gaps (text : List Char) : ℕ → List Cut → List (List Char)
  | p, [] => [slice text p text.length]
  | p, c :: cuts => slice text p c.start :: gaps text c.stop cuts

/-- The text, with what is left out put back. -/
def restored (text : List Char) : ℕ → List Cut → List Char
  | p, [] => slice text p text.length
  | p, c :: cuts => slice text p c.start ++ (slice text c.start c.stop ++ restored text c.stop cuts)

/-- The literal parts. -/
def literals (parts : List Part) : List (List Char) :=
  parts.filterMap fun
    | .text s => some s
    | _ => none

/-- A directive is no literal part. -/
theorem resolvecmd_ne_text {path cmd s : List Char} {pars : Params} :
    resolvecmd path cmd pars ≠ .ok (.text s) := by
  unfold resolvecmd
  split_ifs
  · cases pars.lookup "file".toList with
    | some file => simp
    | none => cases pars.lookup "virtual".toList <;> simp
  · cases pars.lookup "var".toList <;> simp
  · simp

theorem literals_command (path : List Char) (r : Parsed) : literals (command path r) = [] := by
  unfold command
  cases r.cmd with
  | none => rfl
  | some cmd =>
    simp only
    cases hpart : resolvecmd path cmd r.pars with
    | error => rfl
    | ok part =>
      cases part with
      | text s => exact absurd hpart resolvecmd_ne_text
      | incl => rfl
      | echo => rfl

theorem slice_end (text : List Char) (p : ℕ) : slice text p text.length = text.drop p := by
  rw [slice, ← List.length_drop, List.take_length]

theorem slice_append {text : List Char} {p q : ℕ} (h : p ≤ q) :
    slice text p q ++ text.drop q = text.drop p := by
  have hq : text.drop q = (text.drop p).drop (q - p) := by
    rw [List.drop_drop, Nat.add_sub_cancel' h]
  rw [hq, slice, List.take_append_drop]

theorem exists_cuts (u : Alnum) (path text : List Char) {p : ℕ} (hp : p ≤ text.length) :
    ∃ cuts, IsCuts u text p cuts ∧ literals (parsefrom u path text p) = gaps text p cuts := by
  fun_induction parsefrom u path text p with
  | case1 p h =>
    refine ⟨[], ⟨hp, find_eq_none (by decide) h⟩, ?_⟩
    rw [gaps, slice_end]
    rfl
  | case2 p p2 h ih =>
    obtain ⟨hle, hmarker, hnext⟩ := find_eq_some h
    have hrange := parsecmd_range u (marker_le hmarker)
    obtain ⟨cuts, hcuts, hgaps⟩ := ih hrange.2
    refine ⟨⟨p2, (parsecmd u text (p2 + 5)).pos⟩ :: cuts, ⟨?_, hcuts⟩, ?_⟩
    · exact ⟨hle, hmarker, hnext, rfl, hrange.1, hrange.2⟩
    · have hcommand := literals_command path (parsecmd u text (p2 + 5))
      unfold literals at hcommand hgaps ⊢
      rw [List.cons_append, List.filterMap_cons, List.filterMap_append, hcommand, hgaps]
      rfl

theorem IsCuts.pairwise {u : Alnum} {text : List Char} {p : ℕ} {cuts : List Cut}
    (h : IsCuts u text p cuts) : (p :: cuts.map Cut.stop).Pairwise (· < ·) := by
  induction cuts generalizing p with
  | nil => exact List.pairwise_singleton ..
  | cons c cuts ih =>
    obtain ⟨hc, hcuts⟩ := h
    have hlt : p < c.stop := by
      have := hc.le_start
      have := hc.lt_stop
      omega
    have hrest := ih hcuts
    refine List.pairwise_cons.mpr ⟨?_, hrest⟩
    intro q hq
    rcases List.mem_cons.mp hq with rfl | hq
    · exact hlt
    · exact hlt.trans ((List.pairwise_cons.mp hrest).1 q hq)

theorem IsCuts.restored_eq {u : Alnum} {text : List Char} {p : ℕ} {cuts : List Cut}
    (h : IsCuts u text p cuts) : restored text p cuts = text.drop p := by
  induction cuts generalizing p with
  | nil => exact slice_end text p
  | cons c cuts ih =>
    obtain ⟨hc, hcuts⟩ := h
    have := hc.lt_stop
    rw [restored, ih hcuts, slice_append (by omega), slice_append hc.le_start]

/-- Without a marker there is nothing to leave out. -/
theorem parsefrom_plain (u : Alnum) (path : List Char) {text : List Char}
    (h : ¬ marker <:+: text) : parsefrom u path text 0 = [.text text] := by
  rw [parsefrom]
  split
  · rfl
  · rename_i p2 hfind
    exact absurd ((find_eq_some hfind).2.1.isInfix.trans (List.drop_suffix p2 text).isInfix) h

/-- `parse` comes to an end at every text, and goes on in it with every turn. The literal parts are
    what lies between the cuts, each from a marker to where `parsecmd` came to. A directive that is
    written as it should be is read as it is written, and left behind at its end. -/
theorem ssi_parse (u : Alnum) (path text : List Char) :
    ∃ cuts, IsCuts u text 0 cuts ∧ (0 :: cuts.map Cut.stop).Pairwise (· < ·) ∧
      literals (parse u path text) = gaps text 0 cuts ∧ restored text 0 cuts = text ∧
      (¬ marker <:+: text → parse u path text = [.text text]) ∧
      ∀ (d : Directive u) (before rest : List Char),
        text = before ++ (marker ++ (d.written ++ rest)) →
        parsecmd u text (before ++ marker).length =
          ⟨some d.cmd, (d.params.map Param.pair).reverse,
            (before ++ (marker ++ d.written)).length⟩ := by
  obtain ⟨cuts, hcuts, hgaps⟩ := exists_cuts u path text (Nat.zero_le _)
  refine ⟨cuts, hcuts, hcuts.pairwise, hgaps, hcuts.restored_eq, parsefrom_plain u path, ?_⟩
  intro d before rest htext
  have hdrop : text.drop (before ++ marker).length = d.written ++ rest := by
    rw [htext, ← List.append_assoc, List.drop_left]
  rw [parsecmd_written d hdrop, ← List.append_assoc, ← List.length_append]

/-- `echo var="X" -->` -/
def echoX : Directive .ascii where
  before := []
  cmd := ['e', 'c', 'h', 'o']
  space := ' '
  params := [{
    before := []
    key := ['v', 'a', 'r']
    left := []
    right := []
    quote := '\x22'
    val := ['X']
    before_spaces := by simp [Spaces]
    key_ne_nil := by simp
    key_alnum := List.all_eq_true.mp rfl
    left_spaces := by simp [Spaces]
    right_spaces := by simp [Spaces]
    quote_mem := by decide
    quote_notMem := by decide }]
  after := [' ']
  before_spaces := by simp [Spaces]
  cmd_ne_nil := by simp
  cmd_plain := by
    have hall : ['e', 'c', 'h', 'o'].all (fun c => !isspace c) = true := rfl
    simpa using hall
  space_isspace := by decide
  after_spaces := by simp [Spaces]; decide

theorem ssi_parse_echo :
    parsecmd .ascii (['a'] ++ (marker ++ (echoX.written ++ ['b']))) 6 =
      ⟨some ['e', 'c', 'h', 'o'], [(['v', 'a', 'r'], ['X'])], 22⟩ :=
  have ⟨_, _, _, _, _, _, hwritten⟩ :=
    ssi_parse .ascii [] (['a'] ++ (marker ++ (echoX.written ++ ['b'])))
  hwritten echoX ['a'] ['b'] rfl

end Ashd.Ssi
