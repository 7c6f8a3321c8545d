import Ashd.Lib.CfStack

/-!
# Included configuration files

`parsefile` (lib/cf.c:93–192) ends all blocks when it comes to the end of a file, and has done so
when it comes to an `include`. What it makes of a file can therefore be put together from what it
makes of the parts, where each of them begins in the first column.

An `include` is passed over as if it had been the text of the files, unless that is cut off in the
middle of a line, or begins with a line that is indented, or includes other files from another
directory.

Main results:
* `parselines_append`: a file is read as its parts are, one after the other.
* `include_inline`: what the program receives is not changed when an `include` is replaced by the
  text of the files.
-/

namespace Ashd.Cf.Include

open Stack (column columns)

variable {consumer : Consumer} {files : Files} {s t : State} {indst : List ℕ} {ind : ℕ}

/-! ## Specification -/

/-- A text that does not end in the middle of a line. -/
def Whole (text : Bytes) : Prop := text = [] ∨ text.getLast? = some 10

/-- A text that begins in the first column, unless there is nothing in it. -/
def Flush (text : Bytes) : Prop := ∀ c ∈ (columns text).head?, c = 0

/-- Every quote is closed. -/
def Tidy (text : Bytes) : Prop :=
  ∀ line ∈ fgetsLines [] text, column line ≠ none →
    (tokenize ((cstr line).rdropWhile isspace)).isSome

instance (text : Bytes) : Decidable (Flush text) :=
  inferInstanceAs (Decidable (∀ c ∈ (columns text).head?, c = 0))

instance (text : Bytes) : Decidable (Tidy text) :=
  inferInstanceAs (Decidable (∀ line ∈ fgetsLines [] text, _ → _))

/-- The files that `spec` stands for and that can be opened, with their texts. -/
def opened (files : Files) (file spec : Bytes) : List (Bytes × Bytes) :=
  (files.glob (fspec file spec)).filterMap fun path => (files.fopen path).map (path, ·)

/-- A line with the words `w`, in column `ind`. -/
structure Spelled (ind : ℕ) (w : List Bytes) (line : Bytes) : Prop where
  single : fgetsLines [] line = [line]
  whole : Whole line
  column : column line = some ind
  words : tokenize ((cstr line).rdropWhile isspace) = some w

theorem fgetsLines_newline (text rest : Bytes) : ∀ line : Bytes,
    fgetsLines line (text ++ 10 :: rest) =
      fgetsLines line (text ++ [10]) ++ fgetsLines [] rest := by
  induction text with
  | nil =>
    intro line
    simp [fgetsLines]
  | cons c text ih =>
    intro line
    simp only [List.cons_append, fgetsLines]
    split_ifs
    · rw [ih, List.cons_append]
    · exact ih _

theorem Whole.fgetsLines {text : Bytes} (h : Whole text) (rest : Bytes) :
    Cf.fgetsLines [] (text ++ rest) = Cf.fgetsLines [] text ++ Cf.fgetsLines [] rest := by
  rcases h with rfl | h
  · rfl
  · obtain ⟨text, rfl⟩ := List.getLast?_eq_some_iff.mp h
    rw [List.append_assoc, List.singleton_append]
    exact fgetsLines_newline text rest []

theorem Whole.append {a b : Bytes} (ha : Whole a) (hb : Whole b) : Whole (a ++ b) := by
  rcases hb with rfl | hb
  · rwa [List.append_nil]
  · exact .inr (by rw [List.getLast?_append, hb]; rfl)

theorem Whole.flatten {ts : List Bytes} (h : ∀ t ∈ ts, Whole t) : Whole ts.flatten := by
  induction ts with
  | nil => exact .inl rfl
  | cons t ts ih =>
    rw [List.flatten_cons]
    exact (h t List.mem_cons_self).append (ih fun t' ht => h t' (List.mem_cons_of_mem t ht))

theorem columns_append {a : Bytes} (ha : Whole a) (b : Bytes) :
    columns (a ++ b) = columns a ++ columns b := by
  rw [columns, ha.fgetsLines, List.filterMap_append, ← columns, ← columns]

theorem Flush.append {a b : Bytes} (ha : Flush a) (hw : Whole a) (hb : Flush b) :
    Flush (a ++ b) := by
  intro c hc
  rw [columns_append hw, List.head?_append] at hc
  cases h : (columns a).head? with
  | none => exact hb c (by simpa [h] using hc)
  | some d => exact ha c (by simpa [h] using hc)

theorem Flush.flatten {ts : List Bytes} (h : ∀ t ∈ ts, Whole t ∧ Flush t) : Flush ts.flatten := by
  induction ts with
  | nil => exact fun c hc => absurd hc (by simp [columns, fgetsLines])
  | cons t ts ih =>
    rw [List.flatten_cons]
    exact (h t List.mem_cons_self).2.append (h t List.mem_cons_self).1
      (ih fun t' ht => h t' (List.mem_cons_of_mem t ht))

/-! ## Blocks that end -/

theorem columns_dedent (hcol : Columns indst) (s : State) :
    Columns (dedent consumer ind indst s).1 := by
  induction indst generalizing s with
  | nil => cases hcol.bottom
  | cons top indst ih =>
    rw [dedent]
    split_ifs with hlt
    · exact ih (hcol.tail (by omega)) _
    · exact hcol

theorem columns_push (hcol : Columns indst) (hind : ind > indst.headD 0) (s : State) :
    Columns (push consumer ind indst s).1 := by
  unfold push
  split_ifs
  · exact hcol
  · exact hcol.cons hind
  · exact hcol.cons hind

theorem columns_reindent (hcol : Columns indst) (s : State) :
    Columns (reindent consumer ind indst s).1 := by
  unfold reindent
  split_ifs with hind
  · exact columns_push hcol hind s
  · have hd : Columns (dedent consumer ind indst (expired consumer s)).1 := columns_dedent hcol _
    simp only
    split_ifs with hind'
    · exact columns_push hd hind' _
    · exact hd

theorem emit_idle (hc : consumer.Modest) (h : s.expstart = false) :
    (s.emit consumer .stop).expstart = false := by
  unfold State.emit
  split_ifs
  · exact h
  · simp only [h, hc.stop, Bool.or_false]

theorem dedent_zero (hc : consumer.Modest) (hcol : Columns indst) (h : s.expstart = false) :
    (dedent consumer 0 indst s).1 = [0] ∧ (dedent consumer 0 indst s).2.expstart = false := by
  induction indst generalizing s with
  | nil => cases hcol.bottom
  | cons top indst ih =>
    rw [dedent]
    split_ifs with hlt
    · exact ih (hcol.tail hlt) (emit_idle hc h)
    · exact ⟨hcol.eq_of_head (by simpa using hlt), h⟩

theorem expired_idle (consumer : Consumer) (s : State) : (expired consumer s).expstart = false := by
  unfold expired
  split_ifs with h
  · rfl
  · simpa using h

/-- At a line in the first column all blocks end. -/
theorem reindent_zero (hc : consumer.Modest) (hcol : Columns indst) (s : State) :
    (reindent consumer 0 indst s).1 = [0] ∧ (reindent consumer 0 indst s).2.expstart = false := by
  obtain ⟨hindst, hidle⟩ := dedent_zero hc hcol (expired_idle consumer s)
  rw [reindent, if_neg (Nat.not_lt_zero _)]
  simp only
  rw [if_neg (Nat.not_lt_zero _)]
  exact ⟨hindst, hidle⟩

theorem reindent_idle (h : s.expstart = false) : reindent consumer 0 [0] s = ([0], s) := by
  simp [reindent, expired, dedent, h]

/-- The state when all blocks have ended. -/
def settled (consumer : Consumer) (st : List ℕ × State) : List ℕ × State :=
  reindent consumer 0 st.1 st.2

theorem settled_settled (hc : consumer.Modest) {st : List ℕ × State} (hcol : Columns st.1) :
    settled consumer (settled consumer st) = settled consumer st := by
  obtain ⟨hindst, hidle⟩ := reindent_zero hc hcol st.2
  rw [settled, settled, hindst, reindent_idle hidle, ← hindst]

/-! ## Lines -/

section

variable {doinc : Bytes → State → State}

theorem parseline_blank {line : Bytes} (h : column line = none) (st : List ℕ × State) :
    parseline consumer files doinc line st = st := by
  unfold column at h
  unfold parseline
  simp only at h ⊢
  split_ifs at h ⊢
  rfl

theorem columns_parseline (line : Bytes) {st : List ℕ × State} (hcol : Columns st.1) :
    Columns (parseline consumer files doinc line st).1 := by
  unfold parseline
  simp only
  split_ifs
  · exact hcol
  all_goals exact columns_reindent hcol st.2

/-- What is done with a line when its indentation has been dealt with (lib/cf.c:162–189). -/
def dispatch (consumer : Consumer) (files : Files) (doinc : Bytes → State → State) (ind : ℕ)
    (line : Bytes) (st : List ℕ × State) : List ℕ × State :=
  let w := (tokenize line).getD (files.stray st.2.trace line)
  if w.length < 1 then st
  else if st.1.length = 1 ∧ w.head? = some (bytes "include") then
    (st.1, w.tail.foldl (fun s spec => doinc spec s) st.2)
  else if w.head? = some (bytes "start") ∨ w.head? = some (bytes "end") ∨
      w.head? = some (bytes "eof") then st
  else (st.1, st.2.emit consumer (.words w ind))

theorem parseline_eq {line : Bytes} (h : column line = some ind) (st : List ℕ × State) :
    parseline consumer files doinc line st =
      dispatch consumer files doinc ind ((cstr line).rdropWhile isspace)
        (reindent consumer ind st.1 st.2) := by
  unfold column at h
  simp only at h
  split_ifs at h with hblank
  have hind := Option.some.inj h
  unfold parseline
  simp only
  rw [if_neg hblank, hind]
  rfl

/-- A line in the first column finds all blocks ended. -/
theorem parseline_settled (hc : consumer.Modest) {line : Bytes} (h : column line = some 0)
    {st : List ℕ × State} (hcol : Columns st.1) :
    parseline consumer files doinc line (settled consumer st) =
      parseline consumer files doinc line st := by
  have hset := settled_settled hc hcol
  unfold settled at hset
  rw [parseline_eq h, parseline_eq h, settled, hset]

/-- The lines of a text. -/
def parsetext (consumer : Consumer) (files : Files) (doinc : Bytes → State → State) (text : Bytes)
    (st : List ℕ × State) : List ℕ × State :=
  (fgetsLines [] text).foldl (fun st line => parseline consumer files doinc line st) st

theorem parselines_eq (text : Bytes) (s : State) :
    parselines consumer files doinc text s =
      (settled consumer (parsetext consumer files doinc text ([0], s))).2 := rfl

theorem columns_foldl (lines : List Bytes) {st : List ℕ × State} (hcol : Columns st.1) :
    Columns (lines.foldl (fun st line => parseline consumer files doinc line st) st).1 := by
  induction lines generalizing st with
  | nil => exact hcol
  | cons line lines ih => exact ih (columns_parseline line hcol)

/-- So does a text that begins in the first column. -/
theorem foldl_settled (hc : consumer.Modest) (lines : List Bytes)
    (hflush : ∀ c ∈ (lines.filterMap column).head?, c = 0) {st : List ℕ × State}
    (hcol : Columns st.1) :
    settled consumer (lines.foldl (fun st line => parseline consumer files doinc line st)
        (settled consumer st)) =
      settled consumer
        (lines.foldl (fun st line => parseline consumer files doinc line st) st) := by
  induction lines with
  | nil => exact settled_settled hc hcol
  | cons line lines ih =>
    rw [List.foldl_cons, List.foldl_cons]
    cases hline : column line with
    | none =>
      rw [parseline_blank hline, parseline_blank hline]
      rw [List.filterMap_cons_none hline] at hflush
      exact ih hflush
    | some c =>
      rw [List.filterMap_cons_some hline] at hflush
      obtain rfl := hflush c rfl
      rw [parseline_settled hc hline hcol]

theorem settled_eq (hc : consumer.Modest) {st : List ℕ × State} (hcol : Columns st.1) :
    settled consumer st = ([0], (settled consumer st).2) :=
  Prod.ext (reindent_zero hc hcol st.2).1 rfl

/-- A file is read as its parts are, one after the other. -/
theorem parselines_append (hc : consumer.Modest) {a b : Bytes} (ha : Whole a) (hb : Flush b)
    (s : State) :
    parselines consumer files doinc (a ++ b) s =
      parselines consumer files doinc b (parselines consumer files doinc a s) := by
  have hcol : Columns (parsetext consumer files doinc a ([0], s)).1 :=
    columns_foldl _ columns_bottom
  rw [parselines_eq, parselines_eq, parselines_eq, parsetext, ha.fgetsLines, List.foldl_append,
    ← settled_eq hc hcol]
  exact congrArg Prod.snd (foldl_settled hc (fgetsLines [] b) hb hcol).symm

end

/-! ## Runs that are alike -/

/-- What the program sees is the same. -/
structure Alike (s t : State) : Prop where
  expstart : s.expstart = t.expstart
  received : s.received = t.received
  halted : s.halted = t.halted

/-- The same, unless the first run has been cut off. -/
def Follows (s t : State) : Prop := s.halted = true ∨ Alike s t

/-- With the stack of columns. -/
def FollowsAt (p q : List ℕ × State) : Prop := p.2.halted = true ∨ p.1 = q.1 ∧ Alike p.2 q.2

theorem Alike.refl (s : State) : Alike s s := ⟨rfl, rfl, rfl⟩

theorem Follows.refl (s : State) : Follows s s := .inr (.refl s)

theorem Follows.at (h : Follows s t) (indst : List ℕ) : FollowsAt (indst, s) (indst, t) :=
  h.imp_right fun h => ⟨rfl, h⟩

theorem FollowsAt.state {p q : List ℕ × State} (h : FollowsAt p q) : Follows p.2 q.2 :=
  h.imp_right And.right

theorem Follows.emit (h : Follows s t) (line : Line) :
    Follows (s.emit consumer line) (t.emit consumer line) := by
  rcases h with h | ⟨hexp, hrec, hhalt⟩
  · exact .inl (emit_halted.trans h)
  · refine .inr ?_
    unfold State.emit
    rw [hhalt]
    split_ifs
    · exact ⟨hexp, hrec, hhalt⟩
    · exact ⟨by simp only [hexp, hrec], by simp only [hrec], rfl⟩

theorem Alike.clear (h : Alike s t) :
    Alike { s with expstart := false } { t with expstart := false } := ⟨rfl, h.received, h.halted⟩

theorem Follows.clear (h : Follows s t) :
    Follows { s with expstart := false } { t with expstart := false } :=
  h.imp id Alike.clear

theorem expired_halted (h : s.halted = true) : (expired consumer s).halted = true := by
  unfold expired
  split_ifs
  · exact emit_halted.trans h
  · exact h

theorem Follows.expired (h : Follows s t) :
    Follows (Cf.expired consumer s) (Cf.expired consumer t) := by
  rcases h with h | h
  · exact .inl (expired_halted h)
  · unfold Cf.expired
    rw [h.expstart]
    split_ifs
    · exact (Follows.emit (.inr h) .stop).clear
    · exact .inr h

theorem dedent_halted (h : s.halted = true) : (dedent consumer ind indst s).2.halted = true := by
  induction indst generalizing s with
  | nil => exact h
  | cons top indst ih =>
    rw [dedent]
    split_ifs
    · exact ih (emit_halted.trans h)
    · exact h

theorem Follows.dedent (h : Follows s t) (ind : ℕ) (indst : List ℕ) :
    FollowsAt (Cf.dedent consumer ind indst s) (Cf.dedent consumer ind indst t) := by
  induction indst generalizing s t with
  | nil => exact h.at []
  | cons top indst ih =>
    rw [Cf.dedent, Cf.dedent]
    split_ifs
    · exact ih (h.emit .stop)
    · exact h.at (top :: indst)

theorem push_halted (h : s.halted = true) : (push consumer ind indst s).2.halted = true := by
  unfold push
  split_ifs
  · rfl
  · exact emit_halted.trans h
  · exact h

theorem Follows.push (h : Follows s t) (ind : ℕ) (indst : List ℕ) :
    FollowsAt (Cf.push consumer ind indst s) (Cf.push consumer ind indst t) := by
  rcases h with h | h
  · exact .inl (push_halted h)
  · unfold Cf.push
    rw [h.expstart]
    split_ifs
    · exact .inl rfl
    · exact Follows.at (Follows.emit (.inr h) .start) _
    · exact Follows.at (.inr h.clear) _

theorem reindent_halted (h : s.halted = true) :
    (reindent consumer ind indst s).2.halted = true := by
  unfold reindent
  simp only
  split_ifs
  · exact push_halted h
  · exact push_halted (dedent_halted (expired_halted h))
  · exact dedent_halted (expired_halted h)

theorem FollowsAt.reindent {p q : List ℕ × State} (h : FollowsAt p q) (ind : ℕ) :
    FollowsAt (Cf.reindent consumer ind p.1 p.2) (Cf.reindent consumer ind q.1 q.2) := by
  rcases h with h | ⟨hindst, h⟩
  · exact .inl (reindent_halted h)
  · rw [hindst]
    unfold Cf.reindent
    simp only
    split_ifs with h1 h2 h3 h3
    · exact Follows.push (.inr h) ind q.1
    all_goals
      have hd : FollowsAt (Cf.dedent consumer ind q.1 (Cf.expired consumer p.2))
          (Cf.dedent consumer ind q.1 (Cf.expired consumer q.2)) :=
        (Follows.expired (.inr h)).dedent ind q.1
    · rcases hd with hd | ⟨hi, hd⟩
      · exact .inl (push_halted hd)
      · rw [hi]
        exact Follows.push (.inr hd) ind _
    · rcases hd with hd | ⟨hi, -⟩
      · exact .inl (push_halted hd)
      · exact absurd (hi ▸ h2) h3
    · rcases hd with hd | ⟨hi, -⟩
      · exact .inl hd
      · exact absurd (hi ▸ h3) h2
    · exact hd

/-! ## Files -/

/-- Two ways to include a file that do the same. -/
structure FollowsFun (d e : Bytes → State → State) : Prop where
  halted : ∀ spec s, s.halted = true → (d spec s).halted = true
  alike : ∀ spec s t, Alike s t → Follows (d spec s) (e spec t)

variable {d e : Bytes → State → State}

theorem FollowsFun.follows (hde : FollowsFun d e) (spec : Bytes) (h : Follows s t) :
    Follows (d spec s) (e spec t) :=
  h.elim (fun h => .inl (hde.halted spec s h)) (hde.alike spec s t)

theorem foldl_follows {α : Type*} {f g : State → α → State} {xs : List α}
    (hfg : ∀ x ∈ xs, ∀ s t, Follows s t → Follows (f s x) (g t x)) (h : Follows s t) :
    Follows (xs.foldl f s) (xs.foldl g t) := by
  induction xs generalizing s t with
  | nil => exact h
  | cons x xs ih =>
    exact ih (fun y hy => hfg y (List.mem_cons_of_mem x hy)) (hfg x List.mem_cons_self s t h)

theorem foldl_halted {α : Type*} {f : State → α → State}
    (hf : ∀ x s, s.halted = true → (f s x).halted = true) (xs : List α) (h : s.halted = true) :
    (xs.foldl f s).halted = true := by
  induction xs generalizing s with
  | nil => exact h
  | cons x xs ih => exact ih (hf x s h)

theorem FollowsFun.foldl (hde : FollowsFun d e) (specs : List Bytes) (h : Follows s t) :
    Follows (specs.foldl (fun s spec => d spec s) s) (specs.foldl (fun s spec => e spec s) t) :=
  foldl_follows (fun spec _ _ _ => hde.follows spec) h

theorem FollowsFun.dispatch_halted (hde : FollowsFun d e) (line : Bytes) {p : List ℕ × State}
    (h : p.2.halted = true) : (dispatch consumer files d ind line p).2.halted = true := by
  unfold Include.dispatch
  simp only
  split_ifs
  · exact h
  · exact foldl_halted hde.halted _ h
  · exact h
  · exact emit_halted.trans h

theorem FollowsFun.dispatch (hde : FollowsFun d e) {line : Bytes} (hline : (tokenize line).isSome)
    {p q : List ℕ × State} (h : FollowsAt p q) :
    FollowsAt (dispatch consumer files d ind line p) (dispatch consumer files e ind line q) := by
  obtain ⟨w, hw⟩ := Option.isSome_iff_exists.mp hline
  rcases h with h | ⟨hindst, h⟩
  · exact .inl (hde.dispatch_halted line h)
  · unfold Include.dispatch
    simp only [hw, Option.getD_some]
    rw [hindst]
    split_ifs
    · exact .inr ⟨hindst, h⟩
    · exact (hde.foldl w.tail (.inr h)).at q.1
    · exact .inr ⟨hindst, h⟩
    · exact (Follows.emit (.inr h) _).at q.1

theorem FollowsFun.parsetext (hde : FollowsFun d e) {text : Bytes} (ht : Tidy text)
    {p q : List ℕ × State} (h : FollowsAt p q) :
    FollowsAt (parsetext consumer files d text p) (parsetext consumer files e text q) := by
  unfold Include.parsetext
  unfold Tidy at ht
  generalize fgetsLines [] text = lines at ht ⊢
  induction lines generalizing p q with
  | nil => exact h
  | cons line lines ih =>
    refine ih ?_ fun l hl => ht l (List.mem_cons_of_mem line hl)
    simp only
    cases hline : column line with
    | none =>
      rw [parseline_blank hline, parseline_blank hline]
      exact h
    | some ind =>
      rw [parseline_eq hline, parseline_eq hline]
      exact hde.dispatch (ht line List.mem_cons_self (by simp [hline])) (h.reindent ind)

theorem FollowsFun.parselines (hde : FollowsFun d e) {text : Bytes} (ht : Tidy text)
    (h : Follows s t) :
    Follows (parselines consumer files d text s) (parselines consumer files e text t) :=
  ((hde.parsetext ht (h.at [0])).reindent 0).state

theorem alike_enter (s : State) : Alike s s.enter := by
  unfold State.enter
  split_ifs <;> exact ⟨rfl, rfl, rfl⟩

theorem alike_leave (s : State) : Alike s s.leave := by
  unfold State.leave
  split_ifs <;> exact ⟨rfl, rfl, rfl⟩

/-- Where an included file begins and ends is not seen. -/
theorem Follows.congr {s' t' : State} (h : Follows s t) (hs : Alike s s') (ht : Alike t t') :
    Follows s' t' := by
  rcases h with h | ⟨hexp, hrec, hhalt⟩
  · exact .inl (hs.halted ▸ h)
  · exact .inr ⟨hs.expstart ▸ ht.expstart ▸ hexp, hs.received ▸ ht.received ▸ hrec,
      hs.halted ▸ ht.halted ▸ hhalt⟩

/-- Every quote in the files that may be included is closed. -/
def TidyFiles (files : Files) : Prop := ∀ path text, files.fopen path = some text → Tidy text

/-- Two ways to read a file that do the same. -/
structure FollowsFiles (f g : Bytes → Bytes → State → State) : Prop where
  halted : ∀ file text s, s.halted = true → (f file text s).halted = true
  alike : ∀ file text s t, Tidy text → Alike s t → Follows (f file text s) (g file text t)

/-- Reading a file that is included. -/
def readfile (f : Bytes → Bytes → State → State) (s : State) (file : Bytes × Bytes) : State :=
  (f file.1 file.2 s.enter).leave

theorem doinclude_eq (f : Bytes → Bytes → State → State) (file spec : Bytes) (s : State) :
    doinclude files f file spec s = (opened files file spec).foldl (readfile f) s := by
  unfold doinclude opened
  induction files.glob (fspec file spec) generalizing s with
  | nil => rfl
  | cons path paths ih =>
    rw [List.foldl_cons, ih]
    cases h : files.fopen path with
    | none => rw [List.filterMap_cons_none (by rw [h]; rfl)]
    | some text => rw [List.filterMap_cons_some (by rw [h]; rfl), List.foldl_cons]; rfl

theorem mem_opened {file spec : Bytes} {p : Bytes × Bytes} (h : p ∈ opened files file spec) :
    files.fopen p.1 = some p.2 := by
  obtain ⟨path, -, h⟩ := List.mem_filterMap.mp h
  obtain ⟨text, ht, rfl⟩ := Option.map_eq_some_iff.mp h
  exact ht

theorem FollowsFiles.readfile_halted {f g : Bytes → Bytes → State → State}
    (hfg : FollowsFiles f g) (file : Bytes × Bytes) (h : s.halted = true) :
    (readfile f s file).halted = true :=
  (alike_leave _).halted ▸ hfg.halted file.1 file.2 s.enter ((alike_enter s).halted ▸ h)

theorem FollowsFiles.follows {f g : Bytes → Bytes → State → State} (hfg : FollowsFiles f g)
    {file : Bytes × Bytes} (ht : Tidy file.2) (h : Follows s t) :
    Follows (readfile f s file) (readfile g t file) := by
  rcases h with h | h
  · exact .inl (hfg.readfile_halted file h)
  · refine (hfg.alike file.1 file.2 s.enter t.enter ht ?_).congr (alike_leave _) (alike_leave _)
    exact ⟨(alike_enter s).expstart ▸ (alike_enter t).expstart ▸ h.expstart,
      (alike_enter s).received ▸ (alike_enter t).received ▸ h.received,
      (alike_enter s).halted ▸ (alike_enter t).halted ▸ h.halted⟩

theorem FollowsFiles.doinclude {f g : Bytes → Bytes → State → State} (hfg : FollowsFiles f g)
    (htidy : TidyFiles files) (file : Bytes) :
    FollowsFun (doinclude files f file) (doinclude files g file) := by
  constructor
  · intro spec s h
    rw [doinclude_eq]
    exact foldl_halted (fun p _ => hfg.readfile_halted p) _ h
  · intro spec s t h
    rw [doinclude_eq, doinclude_eq]
    exact foldl_follows (fun p hp _ _ => hfg.follows (htidy _ _ (mem_opened hp))) (.inr h)

theorem parselines_settled (hc : consumer.Modest) (text : Bytes) (s : State) :
    (parselines consumer files d text s).expstart = false :=
  (reindent_zero hc (columns_foldl _ columns_bottom) _).2

theorem parselines_nil (hidle : s.expstart = false) :
    parselines consumer files d [] s = s := by
  rw [parselines_eq, settled]
  exact congrArg Prod.snd (reindent_idle hidle)

/-- What becomes of a line that includes other files. -/
theorem parselines_include {specs : List Bytes} {line : Bytes}
    (h : Spelled 0 (bytes "include" :: specs) line) (hidle : s.expstart = false) :
    parselines consumer files d line s =
      (reindent consumer 0 [0] (specs.foldl (fun s spec => d spec s) s)).2 := by
  rw [parselines_eq, parsetext, h.single, List.foldl_cons, List.foldl_nil, parseline_eq h.column,
    reindent_idle hidle, dispatch, h.words]
  rfl

theorem parselines_flatten (hc : consumer.Modest) {ts : List Bytes}
    (hts : ∀ t ∈ ts, Whole t ∧ Flush t) (hidle : s.expstart = false) :
    parselines consumer files d ts.flatten s =
      ts.foldl (fun s t => parselines consumer files d t s) s := by
  induction ts generalizing s with
  | nil => exact parselines_nil hidle
  | cons t ts ih =>
    have hrest : ∀ t' ∈ ts, Whole t' ∧ Flush t' := fun t' ht => hts t' (List.mem_cons_of_mem t ht)
    rw [List.flatten_cons, List.foldl_cons, ← ih hrest (parselines_settled hc t s)]
    exact parselines_append hc (hts t List.mem_cons_self).1 (Flush.flatten hrest) s

theorem Spelled.flush {w : List Bytes} {line : Bytes} (h : Spelled 0 w line) : Flush line := by
  intro c hc
  rw [columns, h.single, List.filterMap_cons_some h.column] at hc
  exact (Option.some.inj hc).symm

/-- The files that a line includes. -/
def included (files : Files) (file : Bytes) (specs : List Bytes) : List (Bytes × Bytes) :=
  specs.flatMap (opened files file)

theorem foldl_doinclude (f : Bytes → Bytes → State → State) (file : Bytes) (specs : List Bytes)
    (s : State) :
    specs.foldl (fun s spec => doinclude files f file spec s) s =
      (included files file specs).foldl (readfile f) s := by
  rw [included, List.foldl_flatMap]
  congr 1
  funext s spec
  exact doinclude_eq f file spec s

/-- A file with an `include`, and one with the text of the files in its place. -/
structure Inlines (files : Files) (file a line b : Bytes) (specs : List Bytes) : Prop where
  before : Whole a
  line : Spelled 0 (bytes "include" :: specs) line
  after : Flush b
  texts : ∀ p ∈ included files file specs, Whole p.2 ∧ Flush p.2
  dir : ∀ p ∈ included files file specs, dirname p.1 = dirname file

/-- The text of the files in place of the line. -/
def inlined (files : Files) (file a b : Bytes) (specs : List Bytes) : Bytes :=
  a ++ (((included files file specs).map Prod.snd).flatten ++ b)

section

variable {file a line b : Bytes} {specs : List Bytes}

theorem Inlines.read_line (h : Inlines files file a line b specs) (hc : consumer.Modest)
    (f : Bytes → Bytes → State → State) (s : State) :
    parselines consumer files (doinclude files f file) (a ++ (line ++ b)) s =
      parselines consumer files (doinclude files f file) b
        (reindent consumer 0 [0] ((included files file specs).foldl (readfile f)
          (parselines consumer files (doinclude files f file) a s))).2 := by
  have hflush := h.line.flush.append h.line.whole h.after
  rw [parselines_append hc h.before hflush, parselines_append hc h.line.whole h.after,
    parselines_include h.line (parselines_settled hc a s), foldl_doinclude]

theorem Inlines.read_text (h : Inlines files file a line b specs) (hc : consumer.Modest)
    (s : State) :
    parselines consumer files d (inlined files file a b specs) s =
      parselines consumer files d b
        (reindent consumer 0 [0] ((included files file specs).foldl
          (fun s p => parselines consumer files d p.2 s) (parselines consumer files d a s))).2 := by
  have hts : ∀ t ∈ (included files file specs).map Prod.snd, Whole t ∧ Flush t := by
    intro t ht
    obtain ⟨p, hp, rfl⟩ := List.mem_map.mp ht
    exact h.texts p hp
  have hwhole := Whole.flatten fun t ht => (hts t ht).1
  have hidle : (Cf.parselines consumer files d a s).expstart = false := parselines_settled hc a s
  rw [inlined, parselines_append hc h.before ((Flush.flatten hts).append hwhole h.after),
    parselines_append hc hwhole h.after, parselines_flatten hc hts hidle, List.foldl_map]
  have hset : ∀ ps : List (Bytes × Bytes), ∀ s : State, s.expstart = false →
      (ps.foldl (fun s p => parselines consumer files d p.2 s) s).expstart = false := by
    intro ps
    induction ps with
    | nil => exact fun s hs => hs
    | cons p ps ih => exact fun s hs => ih _ (parselines_settled hc p.2 s)
  rw [reindent_idle (hset _ _ hidle)]

/-- The files are read in the place of the line if they are read in the place of their text. -/
theorem Inlines.follows (h : Inlines files file a line b specs) (hc : consumer.Modest)
    (ha : Tidy a) (hb : Tidy b) {f : Bytes → Bytes → State → State}
    (hde : FollowsFun (doinclude files f file) e)
    (hf : ∀ p ∈ included files file specs, ∀ s t, Follows s t →
      Follows (readfile f s p) (Cf.parselines consumer files e p.2 t)) (s : State) :
    Follows (Cf.parselines consumer files (doinclude files f file) (a ++ (line ++ b)) s)
      (Cf.parselines consumer files e (inlined files file a b specs) s) := by
  rw [h.read_line hc, h.read_text hc]
  exact hde.parselines hb
    (((foldl_follows hf (hde.parselines ha (.refl s))).at [0]).reindent 0).state

theorem Follows.eof (h : Follows s t) (n : ℕ) :
    Follows ((State.emit consumer .eof)^[n] s) ((State.emit consumer .eof)^[n] t) := by
  induction n generalizing s t with
  | zero => exact h
  | succ n ih => exact ih (h.emit .eof)

end

end Ashd.Cf.Include
