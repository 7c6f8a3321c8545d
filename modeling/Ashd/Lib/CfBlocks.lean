import Ashd.Lib.CfInclude

/-!
# Reading the blocks of a configuration file

`patplex` and `dirplex` read their configurations in the same way. A line starts a block, or says
something by itself; in a block each line says something about it, up to the first `end`. A `Reader`
says what the program makes of the lines, and receives them from the parser of lib/cf.c, which it
tells by `expstart` that it expects a block.

Main results:
* `readconfig_written`: what is read of a file that has been written as a sequence of blocks and
  lines, in whatever way the words are quoted, and with blank lines and comments between them.
* `written_write`: one way to write them.
* `readconfig_inv`: what holds of everything that is read.
-/

namespace Ashd.Cf.Blocks

open Include
open Stack (column columns)
open Tokenize (Spells)

/-! ## Reading -/

/-- What a program makes of the lines that it receives: `opens` says whether a line starts a
    block. -/
structure Reader (σ β : Type*) where
  init : σ
  opens : List Bytes → Option β
  inside : β → List Bytes → β
  closes : β → σ → σ
  outside : List Bytes → σ → σ
  opens_legal : ∀ w b, opens w = some b → Legal w
  outside_eof : ∀ c, outside [bytes "eof"] c = c

/-- What has been read, the block that is read, and whether `expstart` has been set when the last
    line was received. -/
structure Reading (σ β : Type*) where
  conf : σ
  block : Option β := none
  expstart : Bool := false

variable {σ β : Type*} (R : Reader σ β) {files : Files}

/-- A line is received, in a block or outside of one. -/
def Reader.accept (r : Reading σ β) (w : List Bytes) : Reading σ β :=
  match r.block with
  | none =>
    match R.opens w with
    | some b => { conf := r.conf, block := some b, expstart := true }
    | none => { conf := R.outside w r.conf }
  | some b =>
    if w.head? = some (bytes "end") ∨ w.head? = some (bytes "eof") then
      { conf := R.closes b r.conf }
    else { conf := r.conf, block := some (R.inside b w) }

def Reader.read (received : List (List Bytes)) : Reading σ β :=
  received.foldl R.accept { conf := R.init }

def Reader.consumer : Consumer := fun received => (R.read received).expstart

/-- The loop of `readconfig`, which ends at the first `eof`. -/
def Reader.readconfig (files : Files) (fuel : ℕ) (file text : Bytes) : σ :=
  (R.read (parsefn R.consumer files fuel 1 file text).received).conf

/-! ## Documents -/

/-- A line by itself, or a block. -/
inductive Item
  | line (w : List Bytes)
  | block (head : List Bytes) (body : List (List Bytes))

/-- What the program receives of it. -/
def Item.lines : Item → List (List Bytes)
  | .line w => [w]
  | .block head body => head :: body ++ [[bytes "end"]]

/-- What it makes of it. -/
def Reader.item (c : σ) : Item → σ
  | .line w => R.outside w c
  | .block head body => ((R.opens head).map fun b => R.closes (body.foldl R.inside b) c).getD c

/-- The line is not one that the parser understands. -/
def Ordinary (w : List Bytes) : Prop := Legal w ∧ w.head? ≠ some (bytes "include")

instance (w : List Bytes) : Decidable (Ordinary w) := inferInstanceAs (Decidable (_ ∧ _))

/-- A line that does not start a block, or a block with a line that does. -/
def Reader.Proper : Item → Prop
  | .line w => w ≠ [] ∧ Ordinary w ∧ R.opens w = none
  | .block head body => head ≠ [] ∧ Ordinary head ∧ (R.opens head).isSome ∧
      ∀ w ∈ body, w ≠ [] ∧ Legal w

/-- An empty line or a comment. -/
structure Blank (line : Bytes) : Prop where
  single : fgetsLines [] line = [line]
  whole : Whole line
  column : column line = none

theorem blank_of {l : Bytes}
    (h : fgetsLines [] l = [l] ∧ l.getLast? = some 10 ∧ Stack.column l = none) : Blank l :=
  ⟨h.1, .inr h.2.1, h.2.2⟩

theorem spelled_of {k : ℕ} {w : List Bytes} {l : Bytes}
    (h : fgetsLines [] l = [l] ∧ l.getLast? = some 10 ∧ Stack.column l = some k ∧
      tokenize ((cstr l).rdropWhile isspace) = some w) : Spelled k w l :=
  ⟨h.1, .inr h.2.1, h.2.2.1, h.2.2.2⟩

/-- The lines of a block in column `k`. -/
inductive WrittenBody (k : ℕ) : List (List Bytes) → Bytes → Prop
  | nil : WrittenBody k [] []
  | blank {body l t} : Blank l → WrittenBody k body t → WrittenBody k body (l ++ t)
  | cons {w body l t} : Spelled k w l → WrittenBody k body t → WrittenBody k (w :: body) (l ++ t)

/-- The text is a way to write the document. -/
inductive Written : List Item → Bytes → Prop
  | nil : Written [] []
  | blank {items l t} : Blank l → Written items t → Written items (l ++ t)
  | line {w items l t} : Spelled 0 w l → Written items t → Written (.line w :: items) (l ++ t)
  | block {head body items l k b t} : Spelled 0 head l → 0 < k → WrittenBody k body b →
      Written items t → Written (.block head body :: items) (l ++ (b ++ t))

/-! ## The consumer -/

variable {R}

theorem read_concat (received : List (List Bytes)) (w : List Bytes) :
    R.read (received ++ [w]) = R.accept (R.read received) w := List.foldl_concat ..

theorem consumer_concat (received : List (List Bytes)) (w : List Bytes) :
    R.consumer (received ++ [w]) = (R.accept (R.read received) w).expstart := by
  rw [Reader.consumer, read_concat]

theorem accept_expstart {r : Reading σ β} {w : List Bytes} (h : ¬ Legal w) :
    (R.accept r w).expstart = false := by
  unfold Reader.accept
  split
  · cases ho : R.opens w with
    | none => rfl
    | some b => exact absurd (R.opens_legal w b ho) h
  · split_ifs <;> rfl

theorem consumer_modest (R : Reader σ β) : R.consumer.Modest := by
  refine ⟨fun received => ?_, fun received => ?_, fun received => ?_⟩
  all_goals
    rw [consumer_concat]
    exact accept_expstart (by decide)

/-! ## Lines -/

section

variable {c : σ} {b : β} {k : ℕ} {s : State} {st : List ℕ × State} {w : List Bytes} {l : Bytes}
  {d : Bytes → State → State}

/-- Between two items. -/
structure Outside (R : Reader σ β) (c : σ) (s : State) : Prop where
  halted : s.halted = false
  expstart : s.expstart = false
  reading : R.read s.received = { conf := c }

/-- In a block in column `k`, where there may not have been a line yet. -/
structure Inside (R : Reader σ β) (c : σ) (b : β) (k : ℕ) (st : List ℕ × State) : Prop where
  halted : st.2.halted = false
  conf : (R.read st.2.received).conf = c
  block : (R.read st.2.received).block = some b
  indst : st.1 = [0] ∧ st.2.expstart = true ∨ st.1 = [k, 0] ∧ st.2.expstart = false

theorem emit_read (h : s.halted = false) (line : Line) :
    R.read (s.emit R.consumer line).received = R.accept (R.read s.received) line.argv := by
  rw [State.emit, h, if_neg Bool.false_ne_true, read_concat]

theorem emit_expstart (h : s.halted = false) (line : Line) :
    (s.emit R.consumer line).expstart =
      (s.expstart || (R.accept (R.read s.received) line.argv).expstart) := by
  rw [State.emit, h, if_neg Bool.false_ne_true, ← consumer_concat]

/-- A line is passed on if the parser does not understand it. -/
theorem dispatch_words (h : Spelled k w l) (hw : w ≠ []) (hlegal : Legal w)
    (hinc : st.1.length = 1 → w.head? ≠ some (bytes "include")) :
    dispatch R.consumer files d k ((cstr l).rdropWhile isspace) st =
      (st.1, st.2.emit R.consumer (.words w k)) := by
  have hlen : ¬ w.length < 1 := by
    have := List.length_pos_of_ne_nil hw
    omega
  unfold dispatch
  simp only [h.words, Option.getD_some]
  rw [if_neg hlen, if_neg fun h => hinc h.1 h.2, if_neg]
  rintro (h | h | h)
  · exact hlegal.1 h
  · exact hlegal.2.1 h
  · exact hlegal.2.2 h

variable (files d) in
theorem Outside.line (h : Outside R c s) (hl : Spelled 0 w l) (hw : R.Proper (.line w)) :
    ∃ s', parseline R.consumer files d l ([0], s) = ([0], s') ∧ Outside R (R.outside w c) s' := by
  obtain ⟨hne, hord, hopens⟩ := hw
  have hacc : R.accept (R.read s.received) w = { conf := R.outside w c } := by
    unfold Reader.accept
    simp only [h.reading, hopens]
  refine ⟨s.emit R.consumer (.words w 0), ?_, emit_halted.trans h.halted, ?_, ?_⟩
  · rw [parseline_eq hl.column, reindent_idle h.expstart]
    exact dispatch_words hl hne hord.1 fun _ => hord.2
  · rw [emit_expstart h.halted, h.expstart, Line.argv, hacc]
    rfl
  · rw [emit_read h.halted, Line.argv, hacc]

variable (files d) in
theorem Outside.head (h : Outside R c s) (hl : Spelled 0 w l) (hne : w ≠ []) (hord : Ordinary w)
    (hopens : R.opens w = some b) (k : ℕ) :
    Inside R c b k (parseline R.consumer files d l ([0], s)) := by
  have hacc : R.accept (R.read s.received) w =
      { conf := c, block := some b, expstart := true } := by
    unfold Reader.accept
    simp only [h.reading, hopens]
  rw [parseline_eq hl.column, reindent_idle h.expstart,
    dispatch_words hl hne hord.1 fun _ => hord.2]
  refine ⟨emit_halted.trans h.halted, ?_, ?_, .inl ⟨rfl, ?_⟩⟩
  · rw [emit_read h.halted, Line.argv, hacc]
  · rw [emit_read h.halted, Line.argv, hacc]
  · rw [emit_expstart h.halted, Line.argv, hacc, Bool.or_true]

/-- A line in a block is in the column of the block. -/
theorem Inside.reindent (h : Inside R c b k st) (hk : 0 < k) :
    ∃ s', Cf.reindent R.consumer k st.1 st.2 = ([k, 0], s') ∧ s'.halted = false ∧
      s'.expstart = false ∧ s'.received = st.2.received := by
  rcases h.indst with ⟨hst, hexp⟩ | ⟨hst, hexp⟩
  · refine ⟨{ st.2 with expstart := false }, ?_, h.halted, rfl, rfl⟩
    rw [hst]
    simp [Cf.reindent, push, hk, hexp]
  · refine ⟨st.2, ?_, h.halted, hexp, rfl⟩
    rw [hst]
    simp [Cf.reindent, expired, dedent, hexp]

theorem Inside.line (h : Inside R c b k st) (hk : 0 < k) (hl : Spelled k w l) (hne : w ≠ [])
    (hlegal : Legal w) : Inside R c (R.inside b w) k (parseline R.consumer files d l st) := by
  obtain ⟨s', hs', hhalt, hexp, hrec⟩ := h.reindent hk
  have hacc : R.accept (R.read s'.received) w = { conf := c, block := some (R.inside b w) } := by
    unfold Reader.accept
    simp only [hrec, h.block, h.conf]
    rw [if_neg (not_or_intro hlegal.2.1 hlegal.2.2)]
  rw [parseline_eq hl.column, hs', dispatch_words hl hne hlegal (by simp)]
  refine ⟨emit_halted.trans hhalt, ?_, ?_, .inr ⟨rfl, ?_⟩⟩
  · rw [emit_read hhalt, Line.argv, hacc]
  · rw [emit_read hhalt, Line.argv, hacc]
  · rw [emit_expstart hhalt, Line.argv, hacc, hexp]
    rfl

theorem Inside.stop (h : Inside R c b k st) :
    R.read (st.2.emit R.consumer .stop).received = { conf := R.closes b c } := by
  rw [emit_read h.halted, Reader.accept]
  simp only [h.block, h.conf]
  rfl

theorem Inside.settled (h : Inside R c b k st) (hk : 0 < k) :
    ∃ s', Include.settled R.consumer st = ([0], s') ∧ Outside R (R.closes b c) s' := by
  rcases h.indst with ⟨hst, hexp⟩ | ⟨hst, hexp⟩
  · refine ⟨{ st.2.emit R.consumer .stop with expstart := false }, ?_, emit_halted.trans h.halted,
      rfl, h.stop⟩
    rw [Include.settled, hst]
    simp [Cf.reindent, expired, dedent, hexp]
  · refine ⟨st.2.emit R.consumer .stop, ?_, emit_halted.trans h.halted, ?_, h.stop⟩
    · rw [Include.settled, hst]
      simp [Cf.reindent, expired, dedent, hexp, hk]
    · rw [emit_expstart h.halted, hexp, ← emit_read h.halted, h.stop]
      rfl

/-! ## Texts -/

theorem parsetext_append {t : Bytes} (hl : Whole l) (st : List ℕ × State) :
    parsetext R.consumer files d (l ++ t) st =
      parsetext R.consumer files d t (parsetext R.consumer files d l st) := by
  rw [parsetext, hl.fgetsLines, List.foldl_append]
  rfl

theorem parsetext_single (hl : fgetsLines [] l = [l]) (st : List ℕ × State) :
    parsetext R.consumer files d l st = parseline R.consumer files d l st := by
  rw [parsetext, hl]
  rfl

variable (files d) in
theorem Inside.body (h : Inside R c b k st) (hk : 0 < k) {body : List (List Bytes)} {t : Bytes}
    (ht : WrittenBody k body t) (hbody : ∀ w ∈ body, w ≠ [] ∧ Legal w) :
    Inside R c (body.foldl R.inside b) k (parsetext R.consumer files d t st) := by
  induction ht generalizing b st with
  | nil => exact h
  | blank hl _ ih =>
    rw [parsetext_append hl.whole, parsetext_single hl.single, parseline_blank hl.column]
    exact ih h hbody
  | cons hl _ ih =>
    rw [parsetext_append hl.whole, parsetext_single hl.single]
    have hw := hbody _ List.mem_cons_self
    exact ih (h.line hk hl hw.1 hw.2) fun v hv => hbody v (List.mem_cons_of_mem _ hv)

theorem WrittenBody.whole {body : List (List Bytes)} {t : Bytes} (h : WrittenBody k body t) :
    Whole t := by
  induction h with
  | nil => exact .inl rfl
  | blank hl _ ih => exact hl.whole.append ih
  | cons hl _ ih => exact hl.whole.append ih

theorem Blank.flush (h : Blank l) : Flush l := by
  intro c hc
  rw [columns, h.single, List.filterMap_cons_none h.column] at hc
  cases hc

theorem flush_head (h : Spelled 0 w l) (t : Bytes) : Flush (l ++ t) := by
  intro c hc
  rw [columns_append h.whole, columns, h.single, List.filterMap_cons_some h.column] at hc
  exact (Option.some.inj hc).symm

theorem Written.flush {items : List Item} {t : Bytes} (h : Written items t) : Flush t := by
  induction h with
  | nil => exact fun c hc => nomatch hc
  | blank hl _ ih => exact hl.flush.append hl.whole ih
  | line hl _ _ => exact flush_head hl _
  | block hl _ _ _ _ => exact flush_head hl _

theorem Outside.text (h : Outside R c s) {items : List Item} {t : Bytes} (ht : Written items t)
    (hitems : ∀ i ∈ items, R.Proper i) :
    Outside R (items.foldl R.item c) (parselines R.consumer files d t s) := by
  induction ht generalizing c s with
  | nil => rwa [parselines_nil h.expstart]
  | @blank items l t hl ht ih =>
    rw [parselines_append (consumer_modest R) hl.whole ht.flush]
    refine ih ?_ hitems
    rwa [parselines_eq, parsetext_single hl.single, parseline_blank hl.column, Include.settled,
      reindent_idle h.expstart]
  | @line w items l t hl ht ih =>
    obtain ⟨s', hs', h'⟩ := h.line files d hl (hitems _ List.mem_cons_self)
    rw [parselines_append (consumer_modest R) hl.whole ht.flush]
    refine ih ?_ fun i hi => hitems i (List.mem_cons_of_mem _ hi)
    rwa [parselines_eq, parsetext_single hl.single, hs', Include.settled, reindent_idle h'.expstart]
  | @block head body items l k b t hl hk hb ht ih =>
    obtain ⟨hne, hord, hopens, hbody⟩ := hitems _ List.mem_cons_self
    obtain ⟨blk, hblk⟩ := Option.isSome_iff_exists.mp hopens
    have hin := (h.head files d hl hne hord hblk k).body files d hk hb hbody
    obtain ⟨s', hs', h'⟩ := hin.settled hk
    have hwhole := hl.whole.append hb.whole
    rw [← List.append_assoc, parselines_append (consumer_modest R) hwhole ht.flush]
    refine ih ?_ fun i hi => hitems i (List.mem_cons_of_mem _ hi)
    rw [parselines_eq, parsetext_append hl.whole, parsetext_single hl.single, hs', Reader.item,
      hblk]
    exact h'

/-- What is read of a file does not depend on how it is written. -/
theorem readconfig_written {items : List Item} {text : Bytes} (h : Written items text)
    (hitems : ∀ i ∈ items, R.Proper i) (fuel : ℕ) (file : Bytes) :
    R.readconfig files (fuel + 1) file text = items.foldl R.item R.init := by
  have hstart : Outside R R.init {} := ⟨rfl, rfl, rfl⟩
  have hout : Outside R (items.foldl R.item R.init)
      (parsefile R.consumer files (fuel + 1) file text {}) := hstart.text h hitems
  have heof : R.opens [bytes "eof"] = none := by
    cases ho : R.opens [bytes "eof"] with
    | none => rfl
    | some b => exact absurd (R.opens_legal _ b ho) (by decide)
  rw [Reader.readconfig, parsefn, Function.iterate_one, emit_read hout.halted, hout.reading,
    Reader.accept]
  simp only [Line.argv, heof, R.outside_eof]

/-! ## Whatever is read -/

/-- What holds of what has been read, and of each block, is kept. -/
structure Reader.Keeps (R : Reader σ β) (P : σ → Prop) (Q : β → Prop) : Prop where
  init : P R.init
  opens : ∀ w b, R.opens w = some b → Q b
  inside : ∀ b w, Q b → Q (R.inside b w)
  closes : ∀ b c, Q b → P c → P (R.closes b c)
  outside : ∀ w c, P c → P (R.outside w c)

theorem Reader.Keeps.accept {P : σ → Prop} {Q : β → Prop} (h : R.Keeps P Q) {r : Reading σ β}
    (hconf : P r.conf) (hblock : ∀ b ∈ r.block, Q b) (w : List Bytes) :
    P (R.accept r w).conf ∧ ∀ b ∈ (R.accept r w).block, Q b := by
  unfold Reader.accept
  split
  · split
    · rename_i ho
      exact ⟨hconf, fun b hb => Option.mem_some_iff.mp hb ▸ h.opens w _ ho⟩
    · exact ⟨h.outside w _ hconf, nofun⟩
  · rename_i b hb
    split_ifs
    · exact ⟨h.closes b _ (hblock b hb) hconf, nofun⟩
    · exact ⟨hconf, fun b' hb' => Option.mem_some_iff.mp hb' ▸ h.inside b w (hblock b hb)⟩

/-- It holds of what is read of any file. -/
theorem readconfig_inv {P : σ → Prop} {Q : β → Prop} (h : R.Keeps P Q) (files : Files) (fuel : ℕ)
    (file text : Bytes) : P (R.readconfig files fuel file text) := by
  have hread : ∀ (received : List (List Bytes)) (r : Reading σ β), P r.conf →
      (∀ b ∈ r.block, Q b) → P (received.foldl R.accept r).conf := by
    intro received
    induction received with
    | nil => exact fun r hconf _ => hconf
    | cons w received ih =>
      intro r hconf hblock
      obtain ⟨hconf, hblock⟩ := h.accept hconf hblock w
      exact ih _ hconf hblock
  exact hread _ _ h.init nofun

/-! ## Writing -/

/-- A word between quotes. -/
def quote (w : Bytes) : Bytes :=
  34 :: (w.flatMap fun c => if c = 34 ∨ c = 92 then [92, c] else [c]) ++ [34]

def spellWords : List Bytes → Bytes
  | [] => []
  | [w] => quote w
  | w :: v :: ws => quote w ++ ([32] ++ spellWords (v :: ws))

/-- The words `w` in column `k`. -/
def spell (k : ℕ) (w : List Bytes) : Bytes := List.replicate k 32 ++ spellWords w ++ [10]

def Item.write : Item → Bytes
  | .line w => spell 0 w
  | .block head body => spell 0 head ++ (body.map (spell 4)).flatten

def write (items : List Item) : Bytes := (items.map Item.write).flatten

/-- The words can be written in a line, which `fgets` reads as a whole. -/
structure Printable (w : List Bytes) : Prop where
  ne : w ≠ []
  words : ∀ x ∈ w, NulFree x ∧ 10 ∉ x
  length : (spell 4 w).length ≤ 1023

theorem spells_quote (w : Bytes) : Spells false w (quote w) := by
  refine .opening ?_
  induction w with
  | nil => exact .closing .done
  | cons c w ih =>
    rw [List.flatMap_cons]
    split_ifs with hc
    · exact .escaped ih
    · rw [not_or] at hc
      exact .quoted hc.1 hc.2 ih

theorem line_spellWords (w : List Bytes) : ∀ sep : Bytes, (∀ c ∈ sep, isspace c = true) →
    Tokenize.Line w (sep ++ spellWords w) := by
  induction w with
  | nil =>
    intro sep hsep
    rw [spellWords, List.append_nil]
    exact .blank hsep
  | cons w ws ih =>
    intro sep hsep
    cases ws with
    | nil =>
      have hline := Tokenize.Line.word hsep (spells_quote w) (by simp [quote])
        (@Tokenize.Line.blank [] (by simp)) rfl
      simpa [spellWords] using hline
    | cons v ws =>
      exact .word hsep (spells_quote w) (by simp [quote])
        (ih [32] (List.forall_mem_singleton.mpr rfl)) rfl

theorem mem_quote {c : UInt8} {w : Bytes} (h : c ∈ quote w) : c = 34 ∨ c = 92 ∨ c ∈ w := by
  have hmem : ∀ x ∈ w, c ∈ (if x = 34 ∨ x = 92 then [92, x] else [x]) → c = 92 ∨ c ∈ w := by
    intro x hx hc
    split_ifs at hc
    · rcases List.mem_cons.mp hc with rfl | hc
      · exact .inl rfl
      · exact .inr (List.mem_singleton.mp hc ▸ hx)
    · exact .inr (List.mem_singleton.mp hc ▸ hx)
  rw [quote, List.cons_append, List.mem_cons, List.mem_append, List.mem_flatMap,
    List.mem_singleton] at h
  rcases h with h | ⟨x, hx, hc⟩ | h
  · exact .inl h
  · exact .inr (hmem x hx hc)
  · exact .inl h

theorem mem_spellWords {c : UInt8} {w : List Bytes} (h : c ∈ spellWords w) :
    c = 32 ∨ c = 34 ∨ c = 92 ∨ ∃ x ∈ w, c ∈ x := by
  fun_induction spellWords w with
  | case1 => cases h
  | case2 x =>
    rcases mem_quote h with h | h | h
    · exact .inr (.inl h)
    · exact .inr (.inr (.inl h))
    · exact .inr (.inr (.inr ⟨x, List.mem_singleton_self x, h⟩))
  | case3 x v ws ih =>
    rcases List.mem_append.mp h with h | h
    · rcases mem_quote h with h | h | h
      · exact .inr (.inl h)
      · exact .inr (.inr (.inl h))
      · exact .inr (.inr (.inr ⟨x, List.mem_cons_self, h⟩))
    · rcases List.mem_append.mp h with h | h
      · exact .inl (List.mem_singleton.mp h)
      · rcases ih h with h | h | h | ⟨y, hy, h⟩
        · exact .inl h
        · exact .inr (.inl h)
        · exact .inr (.inr (.inl h))
        · exact .inr (.inr (.inr ⟨y, List.mem_cons_of_mem x hy, h⟩))

theorem spellWords_head {w : List Bytes} (h : w ≠ []) : ∃ r, spellWords w = 34 :: r := by
  fun_cases spellWords w with
  | case1 => exact absurd rfl h
  | case2 x => exact ⟨_, rfl⟩
  | case3 x v ws => exact ⟨_, rfl⟩

theorem spellWords_last {w : List Bytes} (h : w ≠ []) : ∃ r, spellWords w = r ++ [34] := by
  fun_induction spellWords w with
  | case1 => exact absurd rfl h
  | case2 x => exact ⟨_, rfl⟩
  | case3 x v ws ih =>
    obtain ⟨r, hr⟩ := ih (List.cons_ne_nil v ws)
    exact ⟨quote x ++ ([32] ++ r), by rw [hr, List.append_assoc, List.append_assoc]⟩

theorem fgetsLines_single {l : Bytes} (h10 : 10 ∉ l) : ∀ line : Bytes,
    line.length + l.length + 1 ≤ 1023 → fgetsLines line (l ++ [10]) = [line ++ l ++ [10]] := by
  induction l with
  | nil =>
    intro line _
    simp [fgetsLines]
  | cons c l ih =>
    intro line hlen
    rw [List.length_cons] at hlen
    rw [List.mem_cons, not_or] at h10
    have hline : (line ++ [c]).length = line.length + 1 := by simp
    rw [List.cons_append, fgetsLines, if_neg, ih h10.2 _ (by omega)]
    · simp only [List.append_assoc, List.cons_append, List.nil_append]
    · rintro (h | h)
      · exact h10.1 h.symm
      · omega

theorem indent_spaces (k n : ℕ) (r : Bytes) :
    indent n (List.replicate k 32 ++ 34 :: r) = (n + k, 34 :: r) := by
  induction k generalizing n with
  | zero => rfl
  | succ k ih =>
    rw [List.replicate_succ, List.cons_append, indent, if_pos rfl, ih]
    rw [show n + 1 + k = n + (k + 1) by omega]

/-- The line without its newline. -/
theorem stripped_spell {w : List Bytes} (hw : Printable w) (k : ℕ) :
    NulFree (spell k w) ∧ 10 ∉ List.replicate k 32 ++ spellWords w ∧
      (cstr (spell k w)).rdropWhile isspace = List.replicate k 32 ++ spellWords w := by
  have hmem : ∀ c ∈ List.replicate k 32 ++ spellWords w, c ≠ 0 ∧ c ≠ 10 := by
    intro c hc
    rcases List.mem_append.mp hc with hc | hc
    · rw [List.eq_of_mem_replicate hc]
      decide
    · rcases mem_spellWords hc with rfl | rfl | rfl | ⟨x, hx, hc⟩
      · decide
      · decide
      · decide
      · obtain ⟨h0, h10⟩ := hw.words x hx
        exact ⟨fun h => h0 (h ▸ hc), fun h => h10 (h ▸ hc)⟩
  have hnul : NulFree (spell k w) :=
    nulFree_append.mpr ⟨fun h0 => (hmem 0 h0).1 rfl, by decide⟩
  refine ⟨hnul, fun h10 => (hmem 10 h10).2 rfl, ?_⟩
  obtain ⟨r, hr⟩ := spellWords_last hw.ne
  rw [cstr_eq_self hnul, spell, hr, List.rdropWhile_concat_pos _ _ _ rfl, ← List.append_assoc,
    List.rdropWhile_concat_neg _ _ _ (by decide)]

theorem spelled_spell {w : List Bytes} (hw : Printable w) {k : ℕ} (hk : k ≤ 4) :
    Spelled k w (spell k w) := by
  obtain ⟨-, h10, hstrip⟩ := stripped_spell hw k
  have hlen := hw.length
  simp only [spell, List.length_append, List.length_replicate, List.length_singleton] at hlen
  refine ⟨?_, .inr List.getLast?_concat, ?_, ?_⟩
  · refine fgetsLines_single h10 [] ?_
    simp only [List.length_nil, List.length_append, List.length_replicate]
    omega
  · obtain ⟨r, hr⟩ := spellWords_head hw.ne
    rw [column, hstrip, hr, indent_spaces]
    simp
  · rw [hstrip, tokenize]
    exact (line_spellWords w _ fun c hc => List.eq_of_mem_replicate hc ▸ rfl).tokenizeLoop _
      (by omega)

/-- All lines of the document can be written. -/
def Item.Printable : Item → Prop
  | .line w => Blocks.Printable w
  | .block head body => Blocks.Printable head ∧ ∀ w ∈ body, Blocks.Printable w

/-- This is a way to write a document. -/
theorem written_write {items : List Item} (h : ∀ i ∈ items, i.Printable) :
    Written items (write items) := by
  have hbody : ∀ body : List (List Bytes), (∀ w ∈ body, Printable w) →
      WrittenBody 4 body (body.map (spell 4)).flatten := by
    intro body hw
    induction body with
    | nil => exact .nil
    | cons w body ih =>
      exact .cons (spelled_spell (hw w List.mem_cons_self) (by omega))
        (ih fun v hv => hw v (List.mem_cons_of_mem w hv))
  induction items with
  | nil => exact .nil
  | cons i items ih =>
    have hrest := ih fun j hj => h j (List.mem_cons_of_mem i hj)
    have hi := h i List.mem_cons_self
    rw [write, List.map_cons, List.flatten_cons]
    cases i with
    | line w => exact .line (spelled_spell hi (Nat.zero_le 4)) hrest
    | block head body =>
      rw [Item.write, List.append_assoc]
      exact .block (spelled_spell hi.1 (Nat.zero_le 4)) (by omega) (hbody body hi.2) hrest

end

end Ashd.Cf.Blocks
