import Ashd.Lib.Cf

/-!
# Configuration blocks are well nested

The blocks that are open are those on the stack of columns, and one more while `expstart` is
set. It is to be set for lines of a file: if it is set for an `end`, the block that it opens is
not closed before the line that comes next.

Main result:
* `getcflines_nested`: the lines that `getcfline` returns are well nested.
-/

namespace Ashd.Cf

/-- The consumer sets `expstart` only for lines of a file. -/
structure Consumer.Modest (consumer : Consumer) : Prop where
  start : ∀ received, consumer (received ++ [Line.start.argv]) = false
  stop : ∀ received, consumer (received ++ [Line.stop.argv]) = false
  eof : ∀ received, consumer (received ++ [Line.eof.argv]) = false

/-- A line does not look like what the parser yields of itself. -/
def Legal (w : List Bytes) : Prop :=
  w.head? ≠ some (bytes "start") ∧ w.head? ≠ some (bytes "end") ∧ w.head? ≠ some (bytes "eof")

instance (w : List Bytes) : Decidable (Legal w) := inferInstanceAs (Decidable (_ ∧ _))

/-- What has been yielded is well nested, and its lines are legal. -/
structure Sound (s : State) : Prop where
  nested : Nested (marks s.trace)
  legal : ∀ w ind request, .got (.words w ind) request ∈ s.trace → Legal w

/-- The columns of the blocks that are open. -/
structure Columns (indst : List ℕ) : Prop where
  desc : indst.Pairwise (· > ·)
  bottom : indst.getLast? = some 0

/-- Unless the run has been cut off, there are `d` open blocks in the innermost of `k` included
    files, and none in the others. -/
def Depth (k d : ℕ) (s : State) : Prop :=
  s.halted = false → Nesting.run (marks s.trace) = some (d :: List.replicate k 0)

variable {consumer : Consumer} {files : Files} {s : State} {k d ind : ℕ} {indst : List ℕ}
  {w : List Bytes}

/-! ## The trace -/

theorem marks_concat (trace : List Event) (e : Event) : marks (trace ++ [e]) = marks trace ++ e.marks := by
  simp [marks]

/-- An event that is allowed. -/
theorem Sound.concat {e : Event} {s' : State} (h : Sound s) (ht : s'.trace = s.trace ++ [e])
    {ds : List ℕ} (hrun : Nesting.run (marks s.trace ++ e.marks) = some ds)
    (he : ∀ w ind request, e = .got (.words w ind) request → Legal w) : Sound s' where
  nested := by
    unfold Nested
    rw [ht, marks_concat, hrun]
    rfl
  legal := by
    intro w ind request hmem
    rw [ht, List.mem_append, List.mem_singleton] at hmem
    rcases hmem with hmem | hmem
    · exact h.legal w ind request hmem
    · exact he w ind request hmem.symm

@[simp] theorem emit_of_halted {line : Line} (h : s.halted = true) : s.emit consumer line = s := by
  simp [State.emit, h]

@[simp] theorem emit_halted {line : Line} : (s.emit consumer line).halted = s.halted := by
  unfold State.emit
  split_ifs <;> rfl

/-- The consumer receives a line, and may set `expstart`. -/
theorem emit_trace (consumer : Consumer) (line : Line) (h : s.halted = false) :
    ∃ request, (s.emit consumer line).trace = s.trace ++ [.got line request] ∧
      (s.emit consumer line).expstart = (s.expstart || request) ∧
      request = consumer (s.received ++ [line.argv]) := by
  refine ⟨_, ?_, ?_, rfl⟩ <;> simp [State.emit, h]

/-! ## The steps -/

/-- The state in a file: there are as many open blocks as there are columns above the bottom,
    and one more if there has been a request. -/
structure Parsing (k : ℕ) (indst : List ℕ) (s : State) : Prop where
  sound : Sound s
  columns : Columns indst
  depth : Depth k (indst.length - 1 + if s.expstart then 1 else 0) s

/-- There is no request. -/
def Idle (s : State) : Prop := s.halted = false → s.expstart = false

theorem Parsing.depth_idle (h : Parsing k indst s) (hidle : Idle s) : Depth k (indst.length - 1) s := by
  intro hh
  have := h.depth hh
  rw [hidle hh] at this
  simpa using this

/-- `start` opens a block. -/
theorem emit_start (hc : consumer.Modest) (hs : Sound s) (hd : Depth k d s) (hidle : Idle s) :
    Sound (s.emit consumer .start) ∧ Depth k (d + 1) (s.emit consumer .start) ∧
      Idle (s.emit consumer .start) := by
  cases hh : s.halted with
  | true =>
    rw [emit_of_halted hh]
    exact ⟨hs, fun h => by simp [hh] at h, hidle⟩
  | false =>
    obtain ⟨request, htrace, hexp, hreq⟩ := emit_trace consumer .start hh
    rw [hc.start] at hreq
    subst hreq
    have hrun : Nesting.run (marks s.trace ++ (Event.got .start false).marks) =
        some ((d + 1) :: List.replicate k 0) := by
      rw [Nesting.run_append_of_eq_some (hd hh)]
      rfl
    refine ⟨hs.concat htrace hrun (by simp), fun _ => ?_, fun _ => ?_⟩
    · rw [htrace, marks_concat, hrun]
    · rw [hexp, hidle hh]
      rfl

/-- `end` closes one. -/
theorem emit_stop (hc : consumer.Modest) (hs : Sound s) (hd : Depth k (d + 1) s) :
    Sound (s.emit consumer .stop) ∧ Depth k d (s.emit consumer .stop) ∧
      (s.emit consumer .stop).expstart = s.expstart := by
  cases hh : s.halted with
  | true =>
    rw [emit_of_halted hh]
    exact ⟨hs, fun h => by simp [hh] at h, rfl⟩
  | false =>
    obtain ⟨request, htrace, hexp, hreq⟩ := emit_trace consumer .stop hh
    rw [hc.stop] at hreq
    subst hreq
    have hrun : Nesting.run (marks s.trace ++ (Event.got .stop false).marks) =
        some (d :: List.replicate k 0) := by
      rw [Nesting.run_append_of_eq_some (hd hh)]
      rfl
    refine ⟨hs.concat htrace hrun (by simp), fun _ => ?_, ?_⟩
    · rw [htrace, marks_concat, hrun]
    · rw [hexp, Bool.or_false]

/-- After a line of a file, there may be a request. -/
theorem emit_words (consumer : Consumer) (ind : ℕ) (hs : Sound s) (hd : Depth k d s) (hidle : Idle s) (hw : Legal w)
    (hind : s.halted = false → ind = 0 → d = 0) :
    Sound (s.emit consumer (.words w ind)) ∧
      Depth k (d + if (s.emit consumer (.words w ind)).expstart then 1 else 0)
        (s.emit consumer (.words w ind)) := by
  cases hh : s.halted with
  | true =>
    rw [emit_of_halted hh]
    exact ⟨hs, fun h => by simp [hh] at h⟩
  | false =>
    obtain ⟨request, htrace, hexp, -⟩ := emit_trace consumer (.words w ind) hh
    rw [hidle hh, Bool.false_or] at hexp
    have hflat : (Line.words w ind).marks.foldlM Nesting.step (d :: List.replicate k 0) =
        some (d :: List.replicate k 0) := by
      show (if ind = 0 then [Mark.flat] else []).foldlM Nesting.step _ = _
      split_ifs with h0
      · rw [hind hh h0]
        simp [Nesting.step]
      · rfl
    have hrun : Nesting.run (marks s.trace ++ (Event.got (.words w ind) request).marks) =
        some ((d + if request then 1 else 0) :: List.replicate k 0) := by
      rw [Nesting.run_append_of_eq_some (hd hh), Event.marks, List.foldlM_append, hflat]
      cases request <;> rfl
    refine ⟨hs.concat htrace hrun ?_, fun _ => ?_⟩
    · intro w' ind' request' he
      cases he
      exact hw
    · rw [htrace, marks_concat, hrun, hexp]

/-! ## Indentation -/

theorem Columns.pos (h : Columns indst) : 0 < indst.length := by
  apply List.length_pos_of_ne_nil
  rintro rfl
  cases h.bottom

/-- Without the topmost column, which is not the only one. -/
theorem Columns.tail {top : ℕ} (h : Columns (top :: indst)) (htop : 0 < top) : Columns indst := by
  obtain ⟨-, hdesc⟩ := List.pairwise_cons.mp h.desc
  refine ⟨hdesc, ?_⟩
  cases indst with
  | nil =>
    have : top = 0 := by simpa using h.bottom
    omega
  | cons _ _ => simpa using h.bottom

theorem Columns.cons (h : Columns indst) (hind : ind > indst.headD 0) : Columns (ind :: indst) := by
  obtain ⟨hdesc, hbottom⟩ := h
  cases indst with
  | nil => cases hbottom
  | cons top indst =>
    refine ⟨List.pairwise_cons.mpr ⟨fun x hx => ?_, hdesc⟩, by simpa using hbottom⟩
    have htop : ind > top := hind
    rcases List.mem_cons.mp hx with rfl | hx
    · exact htop
    · exact lt_trans ((List.pairwise_cons.mp hdesc).1 x hx) htop

/-- The only column that can be zero is that at the bottom. -/
theorem Columns.eq_of_head (h : Columns indst) (h0 : indst.headD 0 = 0) : indst = [0] := by
  cases indst with
  | nil => cases h.bottom
  | cons top indst =>
    have htop : top = 0 := h0
    subst htop
    cases indst with
    | nil => rfl
    | cons x indst =>
      have := (List.pairwise_cons.mp h.desc).1 x List.mem_cons_self
      omega

@[simp] theorem columns_bottom : Columns [0] := ⟨List.pairwise_singleton _ _, rfl⟩

/-- A line that is further to the right opens a block, or is in one that has been requested. -/
theorem push_spec (hc : consumer.Modest) (h : Parsing k indst s) (hind : ind > indst.headD 0) :
    Parsing k (push consumer ind indst s).1 (push consumer ind indst s).2 ∧
      Idle (push consumer ind indst s).2 ∧
      ((push consumer ind indst s).2.halted = false → (push consumer ind indst s).1.headD 0 = ind) := by
  have hpos := h.columns.pos
  have hlen : (ind :: indst).length - 1 = indst.length - 1 + 1 := by
    rw [List.length_cons]
    omega
  unfold push
  split_ifs with hfull hexp
  · exact ⟨⟨⟨h.sound.nested, h.sound.legal⟩, h.columns, nofun⟩, nofun, nofun⟩
  · have hidle : Idle s := fun _ => hexp
    obtain ⟨hs, hd, hi⟩ := emit_start hc h.sound (h.depth_idle hidle) hidle
    refine ⟨⟨hs, h.columns.cons hind, fun hh => ?_⟩, hi, fun _ => rfl⟩
    rw [hlen, hi hh, hd hh]
    rfl
  · refine ⟨⟨⟨h.sound.nested, h.sound.legal⟩, h.columns.cons hind, fun hh => ?_⟩, fun _ => rfl, fun _ => rfl⟩
    have := h.depth hh
    rw [if_pos (by simpa using hexp)] at this
    rw [hlen]
    exact this

/-- One that is not ends a block that has been requested, and has no lines. -/
theorem expired_spec (hc : consumer.Modest) (h : Parsing k indst s) :
    Parsing k indst (expired consumer s) ∧ Idle (expired consumer s) := by
  unfold expired
  split_ifs with hexp
  · have hd : Depth k (indst.length - 1 + 1) s := by
      have := h.depth
      rwa [if_pos hexp] at this
    obtain ⟨hs, hd, -⟩ := emit_stop hc h.sound hd
    exact ⟨⟨⟨hs.nested, hs.legal⟩, h.columns, hd⟩, fun _ => rfl⟩
  · exact ⟨h, fun _ => by simpa using hexp⟩

/-- And it ends all blocks that are further to the right. -/
theorem dedent_spec (ind : ℕ) (hc : consumer.Modest) (h : Parsing k indst s) (hidle : Idle s) :
    Parsing k (dedent consumer ind indst s).1 (dedent consumer ind indst s).2 ∧
      Idle (dedent consumer ind indst s).2 ∧ (dedent consumer ind indst s).1.headD 0 ≤ ind := by
  induction indst generalizing s with
  | nil => cases h.columns.bottom
  | cons top indst ih =>
    rw [dedent]
    split_ifs with hlt
    · have hcol := h.columns.tail (by omega)
      have hpos := hcol.pos
      have hd : Depth k (indst.length - 1 + 1) s := by
        have := h.depth_idle hidle
        rwa [List.length_cons, Nat.add_sub_cancel, show indst.length = indst.length - 1 + 1 by omega] at this
      obtain ⟨hs, hd, hexp⟩ := emit_stop hc h.sound hd
      have hidle' : Idle (s.emit consumer .stop) := by
        intro hh
        rw [hexp]
        exact hidle (by simpa using hh)
      refine ih ⟨hs, hcol, fun hh => ?_⟩ hidle'
      rw [hidle' hh, hd hh]
      rfl
    · exact ⟨h, hidle, by simpa using hlt⟩

/-- What has been done when a line is reached. -/
theorem reindent_spec (ind : ℕ) (hc : consumer.Modest) (h : Parsing k indst s) :
    Parsing k (reindent consumer ind indst s).1 (reindent consumer ind indst s).2 ∧
      Idle (reindent consumer ind indst s).2 ∧
      ((reindent consumer ind indst s).2.halted = false →
        (reindent consumer ind indst s).1.headD 0 = ind) := by
  unfold reindent
  split_ifs with hind
  · exact push_spec hc h hind
  · obtain ⟨he, hidle⟩ := expired_spec hc h
    obtain ⟨hp, hidle, hle⟩ := dedent_spec ind hc he hidle
    simp only
    split_ifs with hind'
    · exact push_spec hc hp hind'
    · exact ⟨hp, hidle, fun _ => le_antisymm hle (not_lt.mp hind')⟩

/-! ## Files -/

/-- Nothing is open in the file, and there is no request. -/
def Settled (k : ℕ) (s : State) : Prop := Parsing k [0] s ∧ Idle s

theorem Settled.foldl {α : Type*} {f : State → α → State} (hf : ∀ s x, Settled k s → Settled k (f s x))
    (h : Settled k s) (xs : List α) : Settled k (xs.foldl f s) := by
  induction xs generalizing s with
  | nil => exact h
  | cons x xs ih => exact ih (hf s x h)

theorem parseline_spec {doinclude : Bytes → State → State} (hc : consumer.Modest)
    (hinc : ∀ spec s, Settled k s → Settled k (doinclude spec s)) (line : Bytes)
    {st : List ℕ × State} (h : Parsing k st.1 st.2) :
    Parsing k (parseline consumer files doinclude line st).1
      (parseline consumer files doinclude line st).2 := by
  unfold parseline
  simp only
  generalize (cstr line).rdropWhile isspace = line
  obtain ⟨ind, p⟩ := indent 0 line
  simp only
  split_ifs with hblank hshort hinclude hmark
  · exact h
  · exact (reindent_spec ind hc h).1
  · obtain ⟨hp, hidle, -⟩ := reindent_spec ind hc h
    have hbottom : (reindent consumer ind st.1 st.2).1 = [0] := by
      obtain ⟨x, hx⟩ := List.length_eq_one_iff.mp hinclude.1
      have := hp.columns.bottom
      rw [hx] at this ⊢
      simpa using this
    rw [hbottom] at hp ⊢
    exact (Settled.foldl (fun s spec hs => hinc spec s hs) ⟨hp, hidle⟩ _).1
  · exact (reindent_spec ind hc h).1
  · obtain ⟨hp, hidle, hhead⟩ := reindent_spec ind hc h
    simp only [not_or] at hmark
    obtain ⟨hs, hd⟩ := emit_words consumer ind hp.sound (hp.depth_idle hidle) hidle hmark
      fun hh h0 => by
        rw [hp.columns.eq_of_head (by rw [hhead hh, h0])]
        rfl
    exact ⟨hs, hp.columns, hd⟩

theorem parselines_spec {doinclude : Bytes → State → State} (hc : consumer.Modest)
    (hinc : ∀ spec s, Settled k s → Settled k (doinclude spec s)) (text : Bytes) (h : Settled k s) :
    Settled k (parselines consumer files doinclude text s) := by
  unfold parselines
  have hlines : ∀ (lines : List Bytes) (st : List ℕ × State), Parsing k st.1 st.2 →
      Parsing k (lines.foldl (fun st line => parseline consumer files doinclude line st) st).1
        (lines.foldl (fun st line => parseline consumer files doinclude line st) st).2 := by
    intro lines
    induction lines with
    | nil => exact fun st hst => hst
    | cons line lines ih => exact fun st hst => ih _ (parseline_spec hc hinc line hst)
  obtain ⟨hp, hidle, hhead⟩ := reindent_spec 0 hc (hlines (fgetsLines [] text) ([0], s) h.1)
  simp only
  refine ⟨⟨hp.sound, columns_bottom, fun hh => ?_⟩, hidle⟩
  have := hp.depth hh
  rwa [hp.columns.eq_of_head (hhead hh)] at this

/-- A file is entered, or left. -/
theorem Settled.event {k' : ℕ} {s' : State} (h : Settled k s) (e : Event) (hhalted : s.halted = true → s' = s)
    (hevent : s.halted = false → s'.trace = s.trace ++ [e] ∧ s'.expstart = s.expstart)
    (hrun : e.marks.foldlM Nesting.step (0 :: List.replicate k 0) = some (0 :: List.replicate k' 0))
    (he : ∀ w ind request, e ≠ .got (.words w ind) request) : Settled k' s' := by
  cases hh : s.halted with
  | true =>
    rw [hhalted hh]
    exact ⟨⟨h.1.sound, columns_bottom, fun hh' => by simp [hh] at hh'⟩, h.2⟩
  | false =>
    obtain ⟨htrace, hexp⟩ := hevent hh
    have hrun' : Nesting.run (marks s.trace ++ e.marks) = some (0 :: List.replicate k' 0) := by
      rw [Nesting.run_append_of_eq_some (h.1.depth_idle h.2 hh)]
      exact hrun
    refine ⟨⟨h.1.sound.concat htrace hrun' fun w ind request heq => absurd heq (he w ind request),
      columns_bottom, fun _ => ?_⟩, fun _ => ?_⟩
    · rw [hexp, h.2 hh, htrace, marks_concat, hrun']
      rfl
    · rw [hexp, h.2 hh]

/-- The included file is at a level of its own. -/
theorem Settled.enter (h : Settled k s) : Settled (k + 1) s.enter :=
  h.event .enter (fun hh => by simp [State.enter, hh]) (fun hh => by simp [State.enter, hh]) rfl nofun

theorem Settled.leave (h : Settled (k + 1) s) : Settled k s.leave :=
  h.event .leave (fun hh => by simp [State.leave, hh]) (fun hh => by simp [State.leave, hh]) rfl nofun

theorem parsefile_spec (hc : consumer.Modest) (fuel : ℕ) (file text : Bytes) (h : Settled k s) :
    Settled k (parsefile consumer files fuel file text s) := by
  induction fuel generalizing k file text s with
  | zero => exact ⟨⟨⟨h.1.sound.nested, h.1.sound.legal⟩, columns_bottom, nofun⟩, nofun⟩
  | succ fuel ih =>
    rw [parsefile]
    refine parselines_spec hc (fun spec s hs => Settled.foldl (fun s path hs => ?_) hs _) text h
    cases files.fopen path with
    | none => exact hs
    | some text => exact (ih path text hs.enter).leave

/-! ## The whole -/

/-- After the end there is nothing but `eof`. -/
theorem emit_eof (hc : consumer.Modest) (h : Settled 0 s) : Settled 0 (s.emit consumer .eof) := by
  cases hh : s.halted with
  | true => rwa [emit_of_halted hh]
  | false =>
    obtain ⟨request, htrace, hexp, hreq⟩ := emit_trace consumer .eof hh
    rw [hc.eof] at hreq
    subst hreq
    have hrun : Nesting.run (marks s.trace ++ (Event.got .eof false).marks) = some [0] := by
      rw [Nesting.run_append_of_eq_some (h.1.depth_idle h.2 hh)]
      rfl
    rw [h.2 hh] at hexp
    refine ⟨⟨h.1.sound.concat htrace hrun (by simp), columns_bottom, fun _ => ?_⟩, fun _ => hexp⟩
    rw [hexp, htrace, marks_concat, hrun]
    rfl

theorem parsefn_spec (hc : consumer.Modest) (files : Files) (fuel n : ℕ) (file text : Bytes) :
    Settled 0 (parsefn consumer files fuel n file text) := by
  have h0 : Settled 0 {} := ⟨⟨⟨rfl, by simp⟩, columns_bottom, fun _ => rfl⟩, fun _ => rfl⟩
  unfold parsefn
  induction n with
  | zero => exact parsefile_spec hc fuel file text h0
  | succ n ih =>
    rw [Function.iterate_succ_apply']
    exact emit_eof hc ih

/-- **Configuration blocks are well nested.** If the consumer sets `expstart` only for lines of a
    file, then there is no `end` without an open block, every block has been closed by an `end`
    of the file that it is in before the next line of a file that is not indented, before the end
    of the file, and before `eof`; and no line of a file is a `start`, an `end` or an `eof`. -/
theorem getcflines_nested (hc : consumer.Modest) (files : Files) (fuel n : ℕ) (file text : Bytes) :
    Nested (marks (getcflines consumer files fuel n file text)) ∧
      ∀ w ind request, .got (.words w ind) request ∈ getcflines consumer files fuel n file text → Legal w :=
  have h := (parsefn_spec hc files fuel n file text).1.sound
  ⟨h.nested, h.legal⟩

/-- A program that sets `expstart` when it receives the line `w`. -/
def expects (w : List Bytes) : Consumer := fun received => received.getLast? == some w

/-- There are no files but the one that is parsed. -/
def alone : Files where
  glob := fun _ => []
  fopen := fun _ => none
  stray := fun _ _ => []

theorem expects_modest {w : List Bytes} (h : Legal w) : (expects w).Modest := by
  have hne : ∀ {v : List Bytes} (received : List (List Bytes)), w ≠ v → expects w (received ++ [v]) = false := by
    intro v received hv
    simp [expects, Ne.symm hv]
  refine ⟨fun received => hne received ?_, fun received => hne received ?_, fun received => hne received ?_⟩
  · rintro rfl
    exact h.1 rfl
  · rintro rfl
    exact h.2.1 rfl
  · rintro rfl
    exact h.2.2 rfl

theorem getcflines_nested_child :
    Nested (marks (getcflines (expects [bytes "child"]) alone 1 2 [] (bytes "child\n exec a\nmatch\n  all\n b\n"))) ∧
      ∀ w ind request, .got (.words w ind) request ∈
        getcflines (expects [bytes "child"]) alone 1 2 [] (bytes "child\n exec a\nmatch\n  all\n b\n") → Legal w :=
  getcflines_nested (expects_modest (by decide)) alone 1 2 [] _

/-- If `expstart` is set for an `end`, the line `c`, which is not indented, comes when the block
    is open. -/
theorem getcflines_unnested :
    ¬ ∀ consumer files fuel n file text, Nested (marks (getcflines consumer files fuel n file text)) := by
  intro h
  exact absurd (h (expects [bytes "end"]) alone 1 1 [] (bytes "a\n b\nc\n")) (by decide +kernel)

end Ashd.Cf
