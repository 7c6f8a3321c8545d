import Ashd.Lib.CfNesting
import Ashd.Lib.Tokenize

/-!
# The indentation stack of `parsefile` (lib/cf.c:93–192)

In `Ashd.Cf` the stack of columns is a list, and a run that is to put an 81st
column on it is cut off. Here it is `int indst[80], indl`, and an access
outside of the array is a `Halt`, as is a loop that is not done within the
given number of rounds; `goto reindent` is one more round. The array is not
initialised, and begins with anything in it.

A column on the stack belongs to a line that is less indented than all lines
after it, so how high the stack gets can be told from the columns alone.

Main results:
* `parsefile_eq`: within the array, the parser does what `Cf.parselines` says.
* `parsefile_safe_iff`: exactly when it stays within the array.
-/

namespace Ashd.Cf.Stack

open Tokenize (Halt)

/-! ## Model -/

/-- `int indst[80], indl`. -/
structure Indst where
  indst : ℤ → ℕ
  indl : ℤ

/-- `indst[indl = 0] = 0`, with `mem` in the array before. -/
def Indst.init (mem : ℤ → ℕ) : Indst := ⟨Function.update mem 0 0, 0⟩

/-- `indst[indl]`. -/
def Indst.get (st : Indst) : Except Halt ℕ :=
  if 0 ≤ st.indl ∧ st.indl < 80 then .ok (st.indst st.indl) else .error .beyond

/-- `indst[++indl] = ind`. -/
def Indst.push (ind : ℕ) (st : Indst) : Except Halt Indst :=
  let indl := st.indl + 1
  if 0 ≤ indl ∧ indl < 80 then .ok ⟨Function.update st.indst indl ind, indl⟩ else .error .beyond

/-- The columns on the stack grow from 0 upwards. -/
def Indst.Increasing (st : Indst) : Prop :=
  st.indst 0 = 0 ∧ ∀ i j : ℤ, 0 ≤ i → i < j → j ≤ st.indl → st.indst i < st.indst j

section Parser

variable (consumer : Consumer)

/-- The loop over the blocks that end (lib/cf.c:147–152). -/
def dedent (ind : ℕ) : ℕ → Indst × State → Except Halt (Indst × State)
  | 0, _ => .error .rounds
  | fuel + 1, (st, s) => do
    let top ← st.get
    if ind < top then dedent ind fuel ({ st with indl := st.indl - 1 }, s.emit consumer .stop)
    else pure (st, s)

/-- The part at `reindent` (lib/cf.c:130–157). -/
def reindent (ind : ℕ) : ℕ → Indst × State → Except Halt (Indst × State)
  | 0, _ => .error .rounds
  | fuel + 1, (st, s) => do
    let top ← st.get
    if ind > top then
      let st ← st.push ind
      if s.expstart = false then pure (st, s.emit consumer .start)
      else pure (st, { s with expstart := false })
    else
      let (st, s) ← dedent consumer ind fuel (st, expired consumer s)
      let top ← st.get
      if ind > top then reindent ind fuel (st, s) else pure (st, s)

/-- The body of the loop of `parsefile` for a line that is read, `doinclude` being given. -/
def parseline (files : Files) (doinclude : Bytes → State → State) (fuel : ℕ) (line : Bytes)
    (st : Indst × State) : Except Halt (Indst × State) :=
  let line := (cstr line).rdropWhile isspace
  let (ind, p) := indent 0 line
  if p = [] ∨ p.head? = some 35 then .ok st
  else do
    let (st, s) ← reindent consumer ind fuel st
    let w := (tokenize line).getD (files.stray s.trace line)
    if w.length < 1 then pure (st, s)
    else if st.indl = 0 ∧ w.head? = some (bytes "include") then
      pure (st, w.tail.foldl (fun s spec => doinclude spec s) s)
    else if w.head? = some (bytes "start") ∨ w.head? = some (bytes "end") ∨
        w.head? = some (bytes "eof") then pure (st, s)
    else pure (st, s.emit consumer (.words w ind))

/-- The loop of `parsefile`, for these lines. -/
def parselines (files : Files) (doinclude : Bytes → State → State) (fuel : ℕ) (lines : List Bytes)
    (st : Indst × State) : Except Halt (Indst × State) :=
  lines.foldlM (fun st line => parseline consumer files doinclude fuel line st) st

/-- `parsefile` (lib/cf.c:93–192), up to its return when the end of the text is reached. -/
def parsefile (files : Files) (doinclude : Bytes → State → State) (mem : ℤ → ℕ) (fuel : ℕ)
    (text : Bytes) (s : State) : Except Halt State := do
  let st ← parselines consumer files doinclude fuel (fgetsLines [] text) (.init mem, s)
  let (_, s) ← reindent consumer 0 fuel st
  pure s

/-- `parsefile` returns, no access on the way is outside of the array, and the stack is increasing
    whenever a line has been read. -/
def Safe (files : Files) (doinclude : Bytes → State → State) (mem : ℤ → ℕ) (text : Bytes)
    (s : State) : Prop :=
  ∃ n, ∀ fuel, n ≤ fuel →
    (∃ s', parsefile consumer files doinclude mem fuel text s = .ok s') ∧
    ∀ lines, lines <+: fgetsLines [] text →
      ∃ st, parselines consumer files doinclude fuel lines (.init mem, s) = .ok st ∧
        st.1.Increasing

end Parser

/-! ## Columns -/

/-- The column of a line, unless it is empty or a comment. -/
def column (line : Bytes) : Option ℕ :=
  let (ind, p) := indent 0 ((cstr line).rdropWhile isspace)
  if p = [] ∨ p.head? = some 35 then none else some ind

/-- The columns of the lines of a file. -/
def columns (text : Bytes) : List ℕ := (fgetsLines [] text).filterMap column

/-- How many lines enclose what comes after the lines with these columns: those that are indented,
    and less than all lines after them. -/
def enclosing : List ℕ → ℕ
  | [] => 0
  | c :: later => (if 0 < c ∧ ∀ d ∈ later, c < d then 1 else 0) + enclosing later

/-- The stack of columns after a line in column `ind`. -/
def settle (indst : List ℕ) (ind : ℕ) : List ℕ := ind :: indst.filter (· < ind)

theorem length_foldl_settle (cols : List ℕ) : ∀ indst : List ℕ,
    (cols.foldl settle indst).length =
      (if cols.all (0 < ·) then 0 else 1) + enclosing cols +
        indst.countP fun x => cols.all (x < ·) := by
  induction cols with
  | nil => intro indst; simp [enclosing]
  | cons c cols ih =>
    intro indst
    have hall : (∀ d ∈ cols, c < d) ↔ cols.all (c < ·) = true := by simp
    simp only [List.foldl_cons, ih, settle, List.countP_cons, List.countP_filter, enclosing,
      List.all_cons, hall]
    rw [List.countP_congr fun x _ => by rw [Bool.and_comm]]
    rcases Nat.eq_zero_or_pos c with rfl | hc
    · cases cols.all (0 < ·)
      · simp
      · simp; omega
    · simp only [hc, decide_true, Bool.true_and, true_and]
      omega

/-- The height of the stack when the lines with these columns have been read. -/
theorem length_settled (cols : List ℕ) : (cols.foldl settle [0]).length = enclosing cols + 1 := by
  rw [length_foldl_settle]
  cases h : cols.all (0 < ·) <;> simp [h]
  omega

variable {indst : List ℕ} {ind : ℕ}

theorem settle_of_lt (h : Columns indst) (hind : indst.headD 0 < ind) :
    settle indst ind = ind :: indst := by
  have hall : ∀ x ∈ indst, x < ind := by
    have := h.cons hind
    exact (List.pairwise_cons.mp this.desc).1
  rw [settle, List.filter_eq_self.mpr fun x hx => by simpa using hall x hx]

theorem settle_of_gt {top : ℕ} (htop : ind < top) :
    settle (top :: indst) ind = settle indst ind := by
  rw [settle, List.filter_cons_of_neg (by simp; omega), ← settle]

theorem settle_of_eq (h : Columns indst) (hind : indst.headD 0 = ind) :
    settle indst ind = indst := by
  cases indst with
  | nil => cases h.bottom
  | cons top indst =>
    obtain rfl : top = ind := hind
    have hall := (List.pairwise_cons.mp h.desc).1
    rw [settle, List.filter_cons_of_neg (by simp),
      List.filter_eq_self.mpr fun x hx => by simpa using hall x hx]

theorem columns_settle (h : Columns indst) (ind : ℕ) : Columns (settle indst ind) := by
  induction indst with
  | nil => cases h.bottom
  | cons top indst ih =>
    rcases lt_trichotomy ind top with hlt | heq | hgt
    · rw [settle_of_gt hlt]
      exact ih (h.tail (by omega))
    · rw [settle_of_eq h heq.symm]
      exact h
    · rw [settle_of_lt h hgt]
      exact h.cons hgt

/-- The stack of columns after a line. -/
def next (indst : List ℕ) (line : Bytes) : List ℕ := (column line).elim indst (settle indst)

theorem columns_next (h : Columns indst) (line : Bytes) : Columns (next indst line) := by
  unfold next
  cases column line with
  | none => exact h
  | some ind => exact columns_settle h ind

theorem columns_foldl_next (lines : List Bytes) (h : Columns indst) :
    Columns (lines.foldl next indst) := by
  induction lines generalizing indst with
  | nil => exact h
  | cons line lines ih => exact ih (columns_next h line)

theorem foldl_next (lines : List Bytes) (indst : List ℕ) :
    lines.foldl next indst = (lines.filterMap column).foldl settle indst := by
  rw [List.foldl_filterMap]
  congr 1
  funext l line
  unfold next
  cases column line <;> rfl

/-! ## The array -/

/-- The elements of the array up to `indl`, from there downwards. -/
def Holds (indst : ℤ → ℕ) : ℤ → List ℕ → Prop
  | indl, [] => indl = -1
  | indl, c :: l => indst indl = c ∧ Holds indst (indl - 1) l

theorem Holds.length {mem : ℤ → ℕ} {l : List ℕ} : ∀ {indl : ℤ}, Holds mem indl l →
    indl + 1 = l.length := by
  induction l with
  | nil => rintro indl h; rw [show indl = -1 from h]; rfl
  | cons c l ih =>
    rintro indl ⟨-, h⟩
    have := ih h
    rw [List.length_cons]
    push_cast
    omega

/-- What is on the stack is left when an element behind it is set. -/
theorem Holds.update {mem : ℤ → ℕ} {l : List ℕ} {i : ℤ} (c : ℕ) : ∀ {indl : ℤ}, indl < i →
    Holds mem indl l → Holds (Function.update mem i c) indl l := by
  induction l with
  | nil => exact fun _ h => h
  | cons d l ih =>
    rintro indl hlt ⟨hd, h⟩
    exact ⟨by rw [Function.update_of_ne (by omega), hd], ih (by omega) h⟩

theorem holds_init (mem : ℤ → ℕ) : Holds (Indst.init mem).indst (Indst.init mem).indl [0] :=
  ⟨by simp [Indst.init], rfl⟩

theorem Holds.mem {mem : ℤ → ℕ} {l : List ℕ} {i : ℤ} (hi : 0 ≤ i) : ∀ {indl : ℤ}, i ≤ indl →
    Holds mem indl l → mem i ∈ l := by
  induction l with
  | nil =>
    intro indl hle h
    have : indl = -1 := h
    omega
  | cons c l ih =>
    rintro indl hle ⟨hc, h⟩
    rcases hle.lt_or_eq with hlt | rfl
    · exact List.mem_cons_of_mem _ (ih (by omega) h)
    · rw [hc]
      exact List.mem_cons_self

theorem Holds.increasing {st : Indst} (h : Holds st.indst st.indl indst) (hcol : Columns indst) :
    st.Increasing := by
  obtain ⟨mem, indl⟩ := st
  induction indst generalizing indl with
  | nil => cases hcol.bottom
  | cons c l ih =>
    have hlen := h.length
    obtain ⟨hc, h⟩ := h
    have hdesc := List.pairwise_cons.mp hcol.desc
    simp only at hc h hlen
    cases l with
    | nil =>
      obtain rfl : indl = 0 := by simpa using hlen
      obtain rfl : c = 0 := by simpa using hcol.bottom
      refine ⟨hc, fun i j hi hij hj => ?_⟩
      simp only at hj
      omega
    | cons d l =>
      have hd := hdesc.1 d List.mem_cons_self
      have hrest := ih (hcol.tail (by omega)) (indl - 1) h
      refine ⟨hrest.1, fun i j hi hij hj => ?_⟩
      rcases hj.lt_or_eq with hlt | rfl
      · exact hrest.2 i j hi hij (Int.le_sub_one_of_lt hlt)
      · have hmem := h.mem hi (Int.le_sub_one_of_lt hij)
        exact lt_of_lt_of_eq (hdesc.1 _ hmem) hc.symm

theorem Holds.get {st : Indst} (h : Holds st.indst st.indl indst) (hcol : Columns indst)
    (hlen : indst.length ≤ 80) : st.get = .ok (indst.headD 0) := by
  have hl := h.length
  have := hcol.pos
  unfold Indst.get
  rw [if_pos (by omega)]
  cases indst with
  | nil => cases hcol.bottom
  | cons top l => rw [h.1]; rfl

theorem Holds.push {st : Indst} (h : Holds st.indst st.indl indst) (hlen : indst.length < 80)
    (ind : ℕ) : ∃ st', st.push ind = .ok st' ∧ Holds st'.indst st'.indl (ind :: indst) := by
  have hl := h.length
  unfold Indst.push
  refine ⟨_, if_pos (by omega), Function.update_self _ _ _, ?_⟩
  rw [add_sub_cancel_right]
  exact h.update ind (lt_add_one _)

theorem Holds.push_full {st : Indst} (h : Holds st.indst st.indl indst) (hlen : indst.length = 80)
    (ind : ℕ) : st.push ind = .error .beyond := by
  have hl := h.length
  unfold Indst.push
  exact if_neg (by omega)

/-! ## The steps -/

/-- The result of a step on the array, against that of the step on the list: they do the same as
    long as the columns `l` that are on the stack after it have room in the array. -/
def Agrees (l : List ℕ) (out : List ℕ × State) (res : Except Halt (Indst × State)) : Prop :=
  if l.length ≤ 80 then
    out.1 = l ∧ ∃ st : Indst, res = .ok (st, out.2) ∧ Holds st.indst st.indl l
  else res = .error .beyond

variable {consumer : Consumer} {st : Indst} {s : State} {fuel : ℕ}

/-- A line that is further to the right. -/
theorem reindent_push (h : Holds st.indst st.indl indst) (hcol : Columns indst)
    (hlen : indst.length ≤ 80) (hind : indst.headD 0 < ind) :
    Agrees (settle indst ind) (push consumer ind indst s)
      (reindent consumer ind (fuel + 1) (st, s)) := by
  rw [settle_of_lt hcol hind, reindent, h.get hcol hlen]
  simp only [bind, Except.bind, if_pos hind]
  unfold Agrees push
  rcases hlen.lt_or_eq with hlt | heq
  · obtain ⟨st', hst, hh⟩ := h.push hlt ind
    rw [if_pos (by simp; omega), if_neg (by omega), hst]
    simp only
    by_cases hexp : s.expstart = false
    · rw [if_pos hexp, if_pos hexp]
      exact ⟨rfl, st', rfl, hh⟩
    · rw [if_neg hexp, if_neg hexp]
      exact ⟨rfl, st', rfl, hh⟩
  · rw [if_neg (by simp; omega), h.push_full heq]

/-- The loop over the blocks that end stops within the array, at the first column that is not
    further to the right. -/
theorem dedent_eq (consumer : Consumer) (ind : ℕ) (hcol : Columns indst) :
    ∀ {st : Indst} (s : State) {fuel : ℕ}, Holds st.indst st.indl indst → indst.length ≤ 80 →
      indst.length ≤ fuel →
    ∃ st' : Indst,
      dedent consumer ind fuel (st, s) = .ok (st', (Cf.dedent consumer ind indst s).2) ∧
      Holds st'.indst st'.indl (Cf.dedent consumer ind indst s).1 := by
  induction indst with
  | nil => cases hcol.bottom
  | cons top indst ih =>
    intro st s fuel h hlen hf
    obtain ⟨fuel, rfl⟩ := Nat.exists_eq_succ_of_ne_zero (Nat.ne_zero_of_lt hf)
    have hget : st.get = .ok top := h.get hcol hlen
    rw [dedent, hget, Cf.dedent]
    simp only [bind, Except.bind]
    by_cases hlt : ind < top
    · rw [if_pos hlt, if_pos hlt]
      exact @ih (hcol.tail (by omega)) { st with indl := st.indl - 1 } (s.emit consumer .stop) fuel
        h.2 (by simp at hlen; omega) (by simp at hf; omega)
    · rw [if_neg hlt, if_neg hlt]
      exact ⟨st, rfl, h⟩

/-- What the loop leaves on the stack. -/
theorem dedent_settle (consumer : Consumer) (ind : ℕ) (hcol : Columns indst) : ∀ s : State,
    Columns (Cf.dedent consumer ind indst s).1 ∧
      (Cf.dedent consumer ind indst s).1.length ≤ indst.length ∧
      (Cf.dedent consumer ind indst s).1.headD 0 ≤ ind ∧
      settle (Cf.dedent consumer ind indst s).1 ind = settle indst ind := by
  induction indst with
  | nil => cases hcol.bottom
  | cons top indst ih =>
    intro s
    rw [Cf.dedent]
    split_ifs with hlt
    · obtain ⟨hc, hl, hh, hs⟩ := ih (hcol.tail (by omega)) (s.emit consumer .stop)
      exact ⟨hc, hl.trans (by simp), hh, hs.trans (settle_of_gt hlt).symm⟩
    · exact ⟨hcol, le_rfl, not_lt.mp hlt, rfl⟩

/-- The part at `reindent` is gone through at most twice. -/
theorem reindent_agrees (h : Holds st.indst st.indl indst) (hcol : Columns indst)
    (hlen : indst.length ≤ 80) (hf : 82 ≤ fuel) :
    Agrees (settle indst ind) (Cf.reindent consumer ind indst s)
      (reindent consumer ind fuel (st, s)) := by
  obtain ⟨fuel, rfl⟩ := Nat.exists_eq_add_of_le' (le_trans (by omega) hf : 1 ≤ fuel)
  by_cases hind : indst.headD 0 < ind
  · rw [Cf.reindent, if_pos hind]
    exact reindent_push h hcol hlen hind
  · obtain ⟨st', hded, hh⟩ := dedent_eq consumer ind hcol (expired consumer s) h hlen
      (by omega : indst.length ≤ fuel)
    obtain ⟨hc', hl', hle, hset⟩ := dedent_settle consumer ind hcol (expired consumer s)
    rw [reindent, h.get hcol hlen, Cf.reindent, if_neg hind]
    simp only [bind, Except.bind, if_neg hind, hded, ← hset]
    generalize Cf.dedent consumer ind indst (expired consumer s) = out at *
    obtain ⟨l, s'⟩ := out
    simp only [hh.get hc' (hl'.trans hlen)]
    by_cases hind' : l.headD 0 < ind
    · rw [if_pos hind', if_pos hind']
      obtain ⟨fuel, rfl⟩ := Nat.exists_eq_add_of_le' (by omega : 1 ≤ fuel)
      exact reindent_push hh hc' (hl'.trans hlen) hind'
    · have heq : l.headD 0 = ind := le_antisymm hle (not_lt.mp hind')
      rw [if_neg hind', if_neg hind', settle_of_eq hc' heq]
      unfold Agrees
      rw [if_pos (hl'.trans hlen)]
      exact ⟨rfl, st', rfl, hh⟩

/-- A line of a file. -/
theorem parseline_agrees {files : Files} {doinclude : Bytes → State → State} (line : Bytes)
    (h : Holds st.indst st.indl indst) (hcol : Columns indst) (hlen : indst.length ≤ 80)
    (hf : 82 ≤ fuel) :
    Agrees (next indst line)
      (Cf.parseline consumer files doinclude line (indst, s))
      (parseline consumer files doinclude fuel line (st, s)) := by
  unfold parseline Cf.parseline next column
  simp only
  generalize (cstr line).rdropWhile isspace = line
  obtain ⟨ind, p⟩ := indent 0 line
  simp only
  by_cases hblank : p = [] ∨ p.head? = some 35
  · rw [if_pos hblank, if_pos hblank, if_pos hblank]
    unfold Agrees
    rw [Option.elim_none, if_pos hlen]
    exact ⟨rfl, st, rfl, h⟩
  · rw [if_neg hblank, if_neg hblank, if_neg hblank, Option.elim_some]
    have hre : Agrees (settle indst ind) (Cf.reindent consumer ind indst s) _ :=
      reindent_agrees h hcol hlen hf
    unfold Agrees at hre ⊢
    by_cases hroom : (settle indst ind).length ≤ 80
    · rw [if_pos hroom] at hre ⊢
      obtain ⟨hl, st', hok, hh⟩ := hre
      rw [hok]
      generalize Cf.reindent consumer ind indst s = out at *
      obtain ⟨l, s'⟩ := out
      subst hl
      have hbottom : st'.indl = 0 ↔ (settle indst ind).length = 1 := by
        have := hh.length
        omega
      simp only [bind, Except.bind, hbottom]
      split_ifs
      all_goals exact ⟨rfl, st', rfl, hh⟩
    · rw [if_neg hroom] at hre ⊢
      rw [hre]
      rfl

/-! ## Runs -/

section Runs

variable (consumer) (files : Files) (doinclude : Bytes → State → State)

/-- A run over lines, as long as their columns have room on the stack. -/
theorem parselines_eq (hf : 82 ≤ fuel) (lines : List Bytes) :
    ∀ {indst : List ℕ} {st : Indst} (s : State), Holds st.indst st.indl indst → Columns indst →
    (∀ pre, pre <+: lines → (pre.foldl next indst).length ≤ 80) →
    ∃ st' s', parselines consumer files doinclude fuel lines (st, s) = .ok (st', s') ∧
      lines.foldl (fun st line => Cf.parseline consumer files doinclude line st) (indst, s) =
        (lines.foldl next indst, s') ∧
      Holds st'.indst st'.indl (lines.foldl next indst) := by
  induction lines with
  | nil => exact fun _ h _ _ => ⟨_, _, rfl, rfl, h⟩
  | cons line lines ih =>
    intro indst st s h hcol hroom
    have hstep : Agrees (next indst line)
        (Cf.parseline consumer files doinclude line (indst, s)) _ :=
      parseline_agrees line h hcol (hroom [] List.nil_prefix) hf
    unfold Agrees at hstep
    have hle : (next indst line).length ≤ 80 := hroom [line] ⟨lines, rfl⟩
    rw [if_pos hle] at hstep
    obtain ⟨hl, st', hok, hh⟩ := hstep
    obtain ⟨st'', s'', hok', hfold, hh'⟩ := ih _ hh (columns_next hcol line)
      fun pre hpre => hroom (line :: pre) (List.cons_prefix_cons.mpr ⟨rfl, hpre⟩)
    refine ⟨st'', s'', ?_, ?_, hh'⟩
    · unfold parselines at hok' ⊢
      rw [List.foldlM_cons, hok]
      exact hok'
    · rw [List.foldl_cons, List.foldl_cons, ← hfold, ← hl]

/-- A run in which they do not. -/
theorem parselines_beyond (hf : 82 ≤ fuel) (lines : List Bytes) :
    ∀ {indst : List ℕ} {st : Indst} {s : State}, Holds st.indst st.indl indst → Columns indst →
    indst.length ≤ 80 → (∃ pre, pre <+: lines ∧ 80 < (pre.foldl next indst).length) →
    parselines consumer files doinclude fuel lines (st, s) = .error .beyond := by
  induction lines with
  | nil =>
    rintro indst st s - - hlen ⟨pre, hpre, hroom⟩
    rw [List.prefix_nil.mp hpre] at hroom
    exact absurd hlen (not_le.mpr hroom)
  | cons line lines ih =>
    rintro indst st s h hcol hlen ⟨pre, hpre, hroom⟩
    have hstep : Agrees (next indst line)
        (Cf.parseline consumer files doinclude line (indst, s)) _ :=
      parseline_agrees line h hcol hlen hf
    unfold parselines
    rw [List.foldlM_cons]
    unfold Agrees at hstep
    by_cases hle : (next indst line).length ≤ 80
    · rw [if_pos hle] at hstep
      obtain ⟨-, st', hok, hh⟩ := hstep
      cases pre with
      | nil => exact absurd hlen (not_le.mpr hroom)
      | cons line' pre =>
        obtain ⟨rfl, hpre'⟩ := List.cons_prefix_cons.mp hpre
        rw [hok]
        exact ih hh (columns_next hcol line') hle ⟨pre, hpre', hroom⟩
    · rw [if_neg hle] at hstep
      rw [hstep]
      rfl

/-- The files whose lines do not enclose each other too deep. -/
def Shallow (text : Bytes) : Prop :=
  ∀ cols, cols <+: columns text → enclosing cols < 80

theorem shallow_iff (text : Bytes) :
    Shallow text ↔ ∀ pre, pre <+: fgetsLines [] text → (pre.foldl next [0]).length ≤ 80 := by
  have hlen : ∀ pre : List Bytes,
      (pre.foldl next [0]).length = enclosing (pre.filterMap column) + 1 := fun pre => by
    rw [foldl_next, length_settled]
  constructor
  · intro h pre hpre
    have := h _ (hpre.filterMap column)
    rw [hlen]
    omega
  · intro h cols hcols
    obtain ⟨pre, hpre, rfl⟩ := List.prefix_filterMap_iff.mp hcols
    have := h pre hpre
    rw [hlen] at this
    omega

variable (mem : ℤ → ℕ) (text : Bytes)

/-- Within the array, `parsefile` does what it does on a list of columns. -/
theorem parsefile_eq (h : Shallow text) (hf : 82 ≤ fuel) :
    parsefile consumer files doinclude mem fuel text s =
      .ok (Cf.parselines consumer files doinclude text s) := by
  have hroom := (shallow_iff text).mp h
  have hcol := columns_foldl_next (fgetsLines [] text) columns_bottom
  have hlen := hroom _ (List.prefix_refl _)
  obtain ⟨st, s', hok, hfold, hh⟩ := parselines_eq consumer files doinclude hf _ s
    (holds_init mem) columns_bottom hroom
  have hend : Agrees _ (Cf.reindent consumer 0 _ s') _ := reindent_agrees hh hcol hlen hf
  have hbottom : settle ((fgetsLines [] text).foldl next [0]) 0 = [0] := by
    rw [settle, List.filter_eq_nil_iff.mpr (by simp)]
  rw [hbottom] at hend
  unfold Agrees at hend
  rw [if_pos (by simp)] at hend
  obtain ⟨-, st', hok', -⟩ := hend
  unfold parsefile Cf.parselines
  rw [hok, hfold]
  simp only [bind, Except.bind, hok']
  rfl

variable {consumer files doinclude mem text}

theorem Safe.shallow (h : Safe consumer files doinclude mem text s) : Shallow text := by
  obtain ⟨n, hn⟩ := h
  rw [shallow_iff]
  intro pre hpre
  by_contra hroom
  obtain ⟨-, hlines⟩ := hn (n + 82) (by omega)
  obtain ⟨st, hok, -⟩ := hlines pre hpre
  rw [parselines_beyond consumer files doinclude (by omega) pre (holds_init mem) columns_bottom
    (by simp) ⟨pre, List.prefix_refl _, not_le.mp hroom⟩] at hok
  cases hok

theorem Shallow.safe (h : Shallow text) : Safe consumer files doinclude mem text s := by
  refine ⟨82, fun fuel hf => ⟨⟨_, parsefile_eq consumer files doinclude mem text h hf⟩, ?_⟩⟩
  intro pre hpre
  have hroom := (shallow_iff text).mp h
  obtain ⟨st, s', hok, -, hh⟩ := parselines_eq consumer files doinclude hf pre s (holds_init mem)
    columns_bottom fun pre' hpre' => hroom pre' (hpre'.trans hpre)
  exact ⟨(st, s'), hok, hh.increasing (columns_foldl_next pre columns_bottom)⟩

end Runs

/-- The stack stays within the array, and is increasing, iff there are at every line of the file
    less than 80 lines that enclose what comes after it. -/
theorem parsefile_safe_iff (consumer : Consumer) (files : Files)
    (doinclude : Bytes → State → State) (mem : ℤ → ℕ) (text : Bytes) (s : State) :
    Safe consumer files doinclude mem text s ↔ Shallow text :=
  ⟨Safe.shallow, Shallow.safe⟩

/-- Of 81 lines, each is in a column further to the right, and `indst[80]` is set for the last. -/
theorem parsefile_deep : ¬ Safe (fun _ => false) ⟨fun _ => [], fun _ => none, fun _ _ => []⟩
    (fun _ s => s) (fun _ => 0)
    ((List.range 81).flatMap fun n => List.replicate n 32 ++ bytes "x\n") {} := by
  intro h
  have hcols : columns ((List.range 81).flatMap fun n => List.replicate n 32 ++ bytes "x\n") =
      List.range 81 := by decide +kernel
  have henc : enclosing (List.range 81) = 80 := by decide +kernel
  have := h.shallow _ (List.prefix_refl _)
  rw [hcols, henc] at this
  omega

end Ashd.Cf.Stack
