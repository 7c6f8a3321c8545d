import Ashd.Lib.Mtpipe

/-!
# The pipes lose nothing and strand no thread

Each end resumes the other from within its own call, which then reads, writes and closes before
the call returns. What holds at every switch is enough: a thread that is at a `yield` of a call
and runs has just been resumed, so that the thread that resumes never runs already.

Main definitions:
* `Sound`, `Unstranded`: what holds at every switch.
* `Faithful`: what is expected of a pipe.

Main results:
* `pipe_faithful`: whatever the threads do.
-/

namespace Ashd.Mtpipe

/-! ## What holds in every state -/

def Reading.waits : Reading → Bool
  | .parked _ => true
  | _ => false

/-- The reading end is closed. -/
def Reading.ended : Reading → Bool
  | .closing | .closed => true
  | _ => false

def Writing.waits : Writing → Bool
  | .parked _ => true
  | _ => false

def Writing.ended : Writing → Bool
  | .closing | .closed => true
  | _ => false

/-- What `pipewrite` has taken, and is yet to return that it has. -/
def Writing.pending : Writing → Bytes
  | .resuming sent => sent
  | _ => []

/-- What holds whoever runs. A thread that runs, but is at a `yield` of a call, has just been
    resumed, and is `current`. -/
structure Sound (s : Sys) : Prop where
  nodup : s.running.Nodup
  r : s.pipe.r = if s.reader.waits then some .reader else none
  w : s.pipe.w = if s.writer.waits then some .writer else none
  rtop : s.reader.waits → .reader ∈ s.running → s.running.head? = some .reader
  wtop : s.writer.waits → .writer ∈ s.running → s.running.head? = some .writer
  bytes : s.got ++ s.pipe.data = s.reported ++ s.writer.pending
  bounded : s.pipe.data.length ≤ s.pipe.bufmax
  frees : s.frees = if s.reader.ended && s.writer.ended then 1 else 0
  rclosed : s.frees = 0 → s.pipe.rclosed = s.reader.ended
  wclosed : s.frees = 0 → s.pipe.wclosed = s.writer.ended
  busy : s.busy = false
  aborted : s.aborted = false
  stale : s.stale = false

/-- And no thread is left parked that could go on. -/
structure Unstranded (s : Sys) : Prop extends Sound s where
  reader : s.reader.waits → .reader ∉ s.running → s.pipe.data = [] ∧ s.pipe.wclosed = false
  writer : s.writer.waits → .writer ∉ s.running →
    s.pipe.bufmax ≤ s.pipe.data.length ∧ s.pipe.rclosed = false

section Sound

variable {s : Sys} {len : ℕ} {buf : Bytes}

/-- Where one end is open, the pipe is there. -/
theorem Sound.frees_eq (h : Sound s) (hopen : s.reader.ended = false ∨ s.writer.ended = false) : s.frees = 0 := by
  rw [h.frees]
  rcases hopen with hopen | hopen <;> simp [hopen]

theorem Sound.touch (h : Sound s) (hopen : s.reader.ended = false ∨ s.writer.ended = false) : s.touch = s := by
  rw [Sys.touch, if_neg (by rw [h.frees_eq hopen]; omega)]

/-- The writing thread is not at a `yield` if it runs below the reading one. -/
theorem Sound.writer_away (h : Sound s) (hcur : s.running.head? = some .reader) (hw : s.writer.waits) :
    .writer ∉ s.running := by
  intro hmem
  have := h.wtop hw hmem
  rw [hcur] at this
  cases this

theorem Sound.reader_away (h : Sound s) (hcur : s.running.head? = some .writer) (hr : s.reader.waits) :
    .reader ∉ s.running := by
  intro hmem
  have := h.rtop hr hmem
  rw [hcur] at this
  cases this

/-- Who has yielded does not run. -/
theorem Sound.not_mem_tail (h : Sound s) {t : Thread} (hcur : s.running.head? = some t) : t ∉ s.running.tail := by
  have hn := h.nodup
  cases hr : s.running with
  | nil => simp
  | cons u us =>
    rw [hr] at hcur hn
    obtain rfl := Option.some.inj hcur
    exact (List.nodup_cons.mp hn).1

/-- No thread is parked. -/
theorem Sound.unstranded (h : Sound s) (hr : s.reader.waits = false) (hw : s.writer.waits = false) : Unstranded s :=
  { h with
    reader := fun hno => by rw [hr] at hno; cases hno
    writer := fun hno => by rw [hw] at hno; cases hno }

/-- The reading thread yields in `piperead`. -/
theorem Sound.park_reader (h : Sound s) (hs : Unstranded s) (hcur : s.running.head? = some .reader)
    (hr : s.reader = .outside) (hdata : s.pipe.data = []) (hopen : s.pipe.wclosed = false) :
    Unstranded { s with pipe.r := some .reader, reader := .parked len }.yield :=
  have hended : (Reading.parked len).ended = s.reader.ended := by rw [hr]; rfl
  { h with
    nodup := h.nodup.sublist (List.tail_sublist _)
    r := rfl
    rtop := fun _ hmem => absurd hmem (h.not_mem_tail hcur)
    wtop := fun hw hmem => absurd (List.mem_of_mem_tail hmem) (h.writer_away hcur hw)
    frees := h.frees.trans (by rw [← hended]; rfl)
    rclosed := fun hf => (h.rclosed hf).trans hended.symm
    reader := fun _ _ => ⟨hdata, hopen⟩
    writer := fun hw _ => hs.writer hw (h.writer_away hcur hw) }

/-- A call of the reading thread ends with `if(p->w) resume(p->w, 0)`. -/
theorem Sound.resumew (h : Sound s) (hcur : s.running.head? = some .reader) (hr : s.reader.waits = false) :
    Unstranded s.resumew := by
  have hpw := h.w
  unfold Sys.resumew
  split_ifs at hpw with hwaits
  · have haway := h.writer_away hcur hwaits
    simp only [hpw, Sys.resume, if_neg haway]
    exact
      { h with
        nodup := List.nodup_cons.mpr ⟨haway, h.nodup⟩
        rtop := fun hno => by rw [show s.reader.waits = false from hr] at hno; cases hno
        wtop := fun _ _ => rfl
        reader := fun hno => by rw [show s.reader.waits = false from hr] at hno; cases hno
        writer := fun _ hmem => absurd List.mem_cons_self hmem }
  · simp only [hpw]
    exact h.unstranded hr (by simpa using hwaits)

/-- The reading thread is elsewhere, and not in a wait, before and after. -/
theorem Sound.setreader (h : Sound s) (hr : s.reader.waits = false) {x : Reading} (hx : x.waits = false)
    (hended : x.ended = s.reader.ended) : Sound { s with reader := x } :=
  { h with
    r := by rw [show s.pipe.r = _ from h.r, hr, hx]
    rtop := fun hno => by rw [show x.waits = false from hx] at hno; cases hno
    frees := h.frees.trans (by rw [← hended])
    rclosed := fun hf => (h.rclosed hf).trans hended.symm }

theorem readloop_unstranded (h : Unstranded s) (hcur : s.running.head? = some .reader) (hr : s.reader = .outside) :
    Unstranded (readloop s len) := by
  have hwaits : s.reader.waits = false := by rw [hr]; rfl
  have hpr : s.pipe.r = none := by rw [h.r, hwaits]; rfl
  unfold readloop
  simp only
  split_ifs with hempty hclosed hbusy hw
  · exact h
  · rw [hpr] at hbusy
    cases hbusy
  · exact h.toSound.park_reader h hcur hr hempty (by simpa using hclosed)
  all_goals
    have htake : Sound { s with pipe.data := s.pipe.data.drop len, got := s.got ++ s.pipe.data.take len } :=
      { h.toSound with
        bytes := by
          rw [List.append_assoc, List.take_append_drop]
          exact h.bytes
        bounded := by
          have := h.bounded
          simp only [List.length_drop]
          omega }
  · exact (htake.setreader hwaits (x := .resuming) rfl (by rw [show s.reader = _ from hr]; rfl)).resumew hcur rfl
  · refine htake.unstranded hwaits ?_
    by_contra hno
    rw [h.w, if_pos (by simpa using hno)] at hw
    exact hw rfl

/-- The reading end is closed. -/
theorem piperclose_unstranded (h : Unstranded s) (hcur : s.running.head? = some .reader) (hr : s.reader = .outside) :
    Unstranded (piperclose s) := by
  have hwaits : s.reader.waits = false := by rw [hr]; rfl
  have hended : s.reader.ended = false := by rw [hr]; rfl
  have hf := h.frees_eq (.inl hended)
  have hwriter := h.wclosed hf
  have hpr : s.pipe.r = none := by rw [h.r, hwaits]; rfl
  unfold piperclose
  simp only [h.touch (.inl hended)]
  split_ifs with hclosed hw
  · have hboth : s.writer.ended = true := by rw [← hwriter, hclosed]
    have hsound : Sound ({ s with reader := .closed } : Sys).freepipe :=
      { h.toSound with
        r := hpr
        rtop := nofun
        frees := by
          show s.frees + 1 = if Reading.closed.ended && s.writer.ended then 1 else 0
          rw [hf, hboth]
          rfl
        rclosed := fun hno => by cases hno
        wclosed := fun hno => by cases hno }
    exact hsound.unstranded rfl (by cases hx : s.writer <;> rw [hx] at hboth <;> first | rfl | cases hboth)
  all_goals
    have hopen : s.writer.ended = false := by rw [← hwriter]; simpa using hclosed
    have hsound {x : Reading} (hx : x.waits = false) (hxe : x.ended = true) :
        Sound { s with pipe.rclosed := true, reader := x } :=
      { h.toSound with
        r := by rw [show s.pipe.r = _ from hpr, hx]; rfl
        rtop := fun hno => by rw [show x.waits = false from hx] at hno; cases hno
        frees := by
          show s.frees = if x.ended && s.writer.ended then 1 else 0
          rw [hf, hopen, Bool.and_false]
          rfl
        rclosed := fun _ => hxe.symm }
  · exact (hsound (x := .closing) rfl rfl).resumew hcur rfl
  · refine (hsound (x := .closed) rfl rfl).unstranded rfl ?_
    by_contra hno
    rw [h.w, if_pos (by simpa using hno)] at hw
    exact hw rfl

/-- The writing thread yields in `pipewrite`. -/
theorem Sound.park_writer (h : Sound s) (hs : Unstranded s) (hcur : s.running.head? = some .writer)
    (hw : s.writer = .outside) (hfull : s.pipe.bufmax ≤ s.pipe.data.length) (hopen : s.pipe.rclosed = false) :
    Unstranded { s with pipe.w := some .writer, writer := .parked buf }.yield :=
  have hended : (Writing.parked buf).ended = s.writer.ended := by rw [hw]; rfl
  { h with
    nodup := h.nodup.sublist (List.tail_sublist _)
    w := rfl
    rtop := fun hr hmem => absurd (List.mem_of_mem_tail hmem) (h.reader_away hcur hr)
    wtop := fun _ hmem => absurd hmem (h.not_mem_tail hcur)
    bytes := h.bytes.trans (by rw [hw]; rfl)
    frees := h.frees.trans (by rw [← hended]; rfl)
    wclosed := fun hf => (h.wclosed hf).trans hended.symm
    reader := fun hr _ => hs.reader hr (h.reader_away hcur hr)
    writer := fun _ _ => ⟨hfull, hopen⟩ }

/-- A call of the writing thread ends with `if(p->r) resume(p->r, 0)`. -/
theorem Sound.resumer (h : Sound s) (hcur : s.running.head? = some .writer) (hw : s.writer.waits = false) :
    Unstranded s.resumer := by
  have hpr := h.r
  unfold Sys.resumer
  split_ifs at hpr with hwaits
  · have haway := h.reader_away hcur hwaits
    simp only [hpr, Sys.resume, if_neg haway]
    exact
      { h with
        nodup := List.nodup_cons.mpr ⟨haway, h.nodup⟩
        rtop := fun _ _ => rfl
        wtop := fun hno => by rw [show s.writer.waits = false from hw] at hno; cases hno
        reader := fun _ hmem => absurd List.mem_cons_self hmem
        writer := fun hno => by rw [show s.writer.waits = false from hw] at hno; cases hno }
  · simp only [hpr]
    exact h.unstranded (by simpa using hwaits) hw

/-- The writing thread is elsewhere, and not in a wait, before and after; what it returns is no
    longer pending. -/
theorem Sound.setwriter (h : Sound s) (hw : s.writer.waits = false) {x : Writing} (hx : x.waits = false)
    (hended : x.ended = s.writer.ended) {reported : Bytes}
    (hbytes : s.reported ++ s.writer.pending = reported ++ x.pending) :
    Sound { s with reported := reported, writer := x } :=
  { h with
    w := by rw [show s.pipe.w = _ from h.w, hw, hx]
    wtop := fun hno => by rw [show x.waits = false from hx] at hno; cases hno
    bytes := h.bytes.trans hbytes
    frees := h.frees.trans (by rw [← hended])
    wclosed := fun hf => (h.wclosed hf).trans hended.symm }

theorem writeloop_unstranded (h : Unstranded s) (hcur : s.running.head? = some .writer) (hw : s.writer = .outside)
    (hopen : s.pipe.rclosed = false) : Unstranded (writeloop s buf) := by
  have hwaits : s.writer.waits = false := by rw [hw]; rfl
  have hpw : s.pipe.w = none := by rw [h.w, hwaits]; rfl
  have hbytes : s.got ++ s.pipe.data = s.reported := by rw [h.bytes, hw]; exact List.append_nil _
  unfold writeloop
  simp only
  split_ifs with hfull hbusy hr
  · rw [hpw] at hbusy
    cases hbusy
  · exact h.toSound.park_writer h hcur hw hfull hopen
  all_goals
    have hbounded : (s.pipe.data ++ buf.take (s.pipe.bufmax - s.pipe.data.length)).length ≤ s.pipe.bufmax := by
      rw [List.length_append, List.length_take]
      omega
  · have hput : Sound { s with
        pipe.data := s.pipe.data ++ buf.take (s.pipe.bufmax - s.pipe.data.length)
        writer := .resuming (buf.take (s.pipe.bufmax - s.pipe.data.length)) } :=
      { h.toSound with
        w := hpw
        wtop := nofun
        bytes := by
          rw [← List.append_assoc, hbytes]
          rfl
        bounded := hbounded
        frees := h.frees.trans (by rw [show s.writer = _ from hw]; rfl)
        wclosed := fun hf => (h.wclosed hf).trans (by rw [hw]; rfl) }
    exact hput.resumer hcur rfl
  · have hput : Sound { s with
        pipe.data := s.pipe.data ++ buf.take (s.pipe.bufmax - s.pipe.data.length)
        reported := s.reported ++ buf.take (s.pipe.bufmax - s.pipe.data.length) } :=
      { h.toSound with
        bytes := by
          rw [← List.append_assoc, hbytes, hw]
          exact (List.append_nil _).symm
        bounded := hbounded }
    refine hput.unstranded ?_ hwaits
    by_contra hno
    rw [h.r, if_pos (by simpa using hno)] at hr
    exact hr rfl

/-- The writing end is closed. -/
theorem pipewclose_unstranded (h : Unstranded s) (hcur : s.running.head? = some .writer) (hw : s.writer = .outside) :
    Unstranded (pipewclose s) := by
  have hwaits : s.writer.waits = false := by rw [hw]; rfl
  have hended : s.writer.ended = false := by rw [hw]; rfl
  have hf := h.frees_eq (.inr hended)
  have hreader := h.rclosed hf
  have hpw : s.pipe.w = none := by rw [h.w, hwaits]; rfl
  have hbytes : s.got ++ s.pipe.data = s.reported := by rw [h.bytes, hw]; exact List.append_nil _
  unfold pipewclose
  simp only [h.touch (.inr hended)]
  split_ifs with hclosed hr
  · have hboth : s.reader.ended = true := by rw [← hreader, hclosed]
    have hsound : Sound ({ s with writer := .closed } : Sys).freepipe :=
      { h.toSound with
        w := hpw
        wtop := nofun
        bytes := hbytes.trans (List.append_nil _).symm
        frees := by
          show s.frees + 1 = if s.reader.ended && Writing.closed.ended then 1 else 0
          rw [hf, hboth]
          rfl
        rclosed := fun hno => by cases hno
        wclosed := fun hno => by cases hno }
    exact hsound.unstranded (by cases hx : s.reader <;> rw [hx] at hboth <;> first | rfl | cases hboth) rfl
  all_goals
    have hopen : s.reader.ended = false := by rw [← hreader]; simpa using hclosed
    have hsound {x : Writing} (hx : x.waits = false) (hxe : x.ended = true) (hp : x.pending = []) :
        Sound { s with pipe.wclosed := true, writer := x } :=
      { h.toSound with
        w := by rw [show s.pipe.w = _ from hpw, hx]; rfl
        wtop := fun hno => by rw [show x.waits = false from hx] at hno; cases hno
        bytes := hbytes.trans (by rw [hp, List.append_nil])
        frees := by
          show s.frees = if s.reader.ended && x.ended then 1 else 0
          rw [hf, hopen, Bool.false_and]
          rfl
        wclosed := fun _ => hxe.symm }
  · exact (hsound (x := .closing) rfl rfl rfl).resumer hcur rfl
  · refine (hsound (x := .closed) rfl rfl rfl).unstranded ?_ rfl
    by_contra hno
    rw [h.r, if_pos (by simpa using hno)] at hr
    exact hr rfl

/-- The reading thread goes on. -/
theorem readcont_unstranded {s' : Sys} (h : Unstranded s) (hcur : s.running.head? = some .reader)
    (hstep : readcont s = some s') : Unstranded s' := by
  unfold readcont at hstep
  cases hr : s.reader with
  | parked len =>
    simp only [hr, h.touch (.inl (show s.reader.ended = false by rw [hr]; rfl)), Option.some.injEq] at hstep
    subst hstep
    refine readloop_unstranded ?_ hcur rfl
    exact
      { h with
        r := rfl
        rtop := nofun
        frees := h.frees.trans (by rw [hr]; rfl)
        rclosed := fun hf => (h.rclosed hf).trans (by rw [hr]; rfl)
        reader := nofun }
  | resuming =>
    simp only [hr, Option.some.injEq] at hstep
    subst hstep
    exact
      { h.setreader (by rw [hr]; rfl) (x := .outside) rfl (by rw [hr]; rfl) with
        reader := nofun
        writer := h.writer }
  | closing =>
    simp only [hr, Option.some.injEq] at hstep
    subst hstep
    exact
      { h.setreader (by rw [hr]; rfl) (x := .closed) rfl (by rw [hr]; rfl) with
        reader := nofun
        writer := h.writer }
  | _ => simp only [hr, reduceCtorEq] at hstep

/-- The writing thread goes on. -/
theorem writecont_unstranded {s' : Sys} (h : Unstranded s) (hcur : s.running.head? = some .writer)
    (hstep : writecont s = some s') : Unstranded s' := by
  unfold writecont at hstep
  cases hw : s.writer with
  | parked buf =>
    simp only [hw, h.touch (.inr (show s.writer.ended = false by rw [hw]; rfl)), Option.some.injEq] at hstep
    subst hstep
    have hwoken : Unstranded { s with pipe.w := none, writer := .outside } :=
      { h with
        w := rfl
        wtop := nofun
        bytes := h.bytes.trans (by rw [hw]; rfl)
        frees := h.frees.trans (by rw [hw]; rfl)
        wclosed := fun hf => (h.wclosed hf).trans (by rw [hw]; rfl)
        writer := nofun }
    split_ifs with hclosed
    · exact hwoken
    · exact writeloop_unstranded hwoken hcur rfl (by simpa using hclosed)
  | resuming sent =>
    simp only [hw, Option.some.injEq] at hstep
    subst hstep
    have hbytes : s.reported ++ s.writer.pending = s.reported ++ sent ++ [] := by
      rw [hw]
      exact (List.append_nil _).symm
    exact
      { h.setwriter (by rw [hw]; rfl) (x := .outside) rfl (by rw [hw]; rfl) hbytes with
        reader := h.reader
        writer := nofun }
  | closing =>
    simp only [hw, Option.some.injEq] at hstep
    subst hstep
    exact
      { h.setwriter (by rw [hw]; rfl) (x := .closed) rfl (by rw [hw]; rfl) (by rw [hw]; rfl) with
        reader := h.reader
        writer := nofun }
  | _ => simp only [hw, reduceCtorEq] at hstep

/-- A thread that is in none of the calls is at none of their `yield`s. -/
theorem free_reader (hfree : s.free s.running.head?) (hr : s.reader.waits) : s.running.head? ≠ some .reader := by
  intro hcur
  rw [hcur] at hfree
  rcases hfree with hx | hx <;> rw [hx] at hr <;> cases hr

theorem free_writer (hfree : s.free s.running.head?) (hw : s.writer.waits) : s.running.head? ≠ some .writer := by
  intro hcur
  rw [hcur] at hfree
  rcases hfree with hx | hx <;> rw [hx] at hw <;> cases hw

theorem resume_unstranded (h : Unstranded s) (hfree : s.free s.running.head?) {muth : Thread}
    (hmuth : muth ∉ s.running) : Unstranded (s.resume muth) := by
  rw [Sys.resume, if_neg hmuth]
  exact
    { h with
      nodup := List.nodup_cons.mpr ⟨hmuth, h.nodup⟩
      rtop := fun hr hmem => by
        rcases List.mem_cons.mp hmem with heq | hmem
        · rw [heq]
          rfl
        · exact absurd (h.rtop hr hmem) (free_reader hfree hr)
      wtop := fun hw hmem => by
        rcases List.mem_cons.mp hmem with heq | hmem
        · rw [heq]
          rfl
        · exact absurd (h.wtop hw hmem) (free_writer hfree hw)
      reader := fun hr hmem => h.reader hr fun hin => hmem (List.mem_cons_of_mem _ hin)
      writer := fun hw hmem => h.writer hw fun hin => hmem (List.mem_cons_of_mem _ hin) }

theorem yield_unstranded (h : Unstranded s) (hfree : s.free s.running.head?) : Unstranded s.yield :=
  { h with
    nodup := h.nodup.sublist (List.tail_sublist _)
    rtop := fun hr hmem => absurd (h.rtop hr (List.mem_of_mem_tail hmem)) (free_reader hfree hr)
    wtop := fun hw hmem => absurd (h.wtop hw (List.mem_of_mem_tail hmem)) (free_writer hfree hw)
    reader := fun hr _ => h.reader hr fun hin => free_reader hfree hr (h.rtop hr hin)
    writer := fun hw _ => h.writer hw fun hin => free_writer hfree hw (h.wtop hw hin) }

theorem step_unstranded {s' : Sys} (h : Unstranded s) (hstep : Step s s') : Unstranded s' := by
  cases hstep with
  | read len hcur hr =>
    have hopen : s.reader.ended = false := by rw [hr]; rfl
    rw [piperead, h.touch (.inl hopen)]
    exact readloop_unstranded h hcur hr
  | rclose hcur hr => exact piperclose_unstranded h hcur hr
  | write buf hcur hw =>
    have hopen : s.writer.ended = false := by rw [hw]; rfl
    rw [pipewrite]
    simp only [h.touch (.inr hopen)]
    split_ifs with hclosed
    · exact h
    · exact writeloop_unstranded h hcur hw (by simpa using hclosed)
  | wclose hcur hw => exact pipewclose_unstranded h hcur hw
  | readcont _ hcur hcont => exact readcont_unstranded h hcur hcont
  | writecont _ hcur hcont => exact writecont_unstranded h hcur hcont
  | resume muth hfree hmuth => exact resume_unstranded h hfree hmuth
  | yield hfree => exact yield_unstranded h hfree

end Sound

/-! ## Runs -/

theorem reachable_unstranded {bufmax : ℕ} {s : Sys} (h : Reachable bufmax s) : Unstranded s := by
  induction h with
  | init =>
    exact
      { nodup := List.nodup_nil
        r := rfl
        w := rfl
        rtop := nofun
        wtop := nofun
        bytes := rfl
        bounded := Nat.zero_le _
        frees := rfl
        rclosed := fun _ => rfl
        wclosed := fun _ => rfl
        busy := rfl
        aborted := rfl
        stale := rfl
        reader := nofun
        writer := nofun }
  | step _ hstep ih => exact step_unstranded ih hstep

/-- What is expected of a pipe. -/
structure Faithful (s : Sys) : Prop where
  /-- What has been read, and what is to be read, is what has been written, in order. -/
  bytes : s.got ++ s.pipe.data = s.reported ++ s.writer.pending
  bounded : s.pipe.data.length ≤ s.pipe.bufmax
  /-- The reading thread is parked only if there is nothing to read, and may yet be. -/
  reader : ∀ len, s.reader = .parked len → .reader ∉ s.running → s.pipe.data = [] ∧ s.writer.ended = false
  /-- The writing thread is parked only if there is no room, and may yet be. -/
  writer : ∀ buf, s.writer = .parked buf → .writer ∉ s.running →
    s.pipe.bufmax ≤ s.pipe.data.length ∧ s.reader.ended = false
  /-- The pipe is freed when both ends are closed, once, and not used again. -/
  frees : s.frees = if s.reader.ended && s.writer.ended then 1 else 0
  stale : s.stale = false
  aborted : s.aborted = false
  busy : s.busy = false

/-- **The pipe is faithful**, whatever is read and written, and however the two threads, and
    others, resume each other from within their calls. -/
theorem pipe_faithful {bufmax : ℕ} {s : Sys} (h : Reachable bufmax s) : Faithful s := by
  have hs := reachable_unstranded h
  exact
    { bytes := hs.bytes
      bounded := hs.bounded
      reader := fun len hr haway => by
        obtain ⟨hdata, hopen⟩ := hs.reader (by rw [hr]; rfl) haway
        exact ⟨hdata, by rw [← hs.wclosed (hs.frees_eq (.inl (by rw [hr]; rfl))), hopen]⟩
      writer := fun buf hw haway => by
        obtain ⟨hfull, hopen⟩ := hs.writer (by rw [hw]; rfl) haway
        exact ⟨hfull, by rw [← hs.rclosed (hs.frees_eq (.inr (by rw [hw]; rfl))), hopen]⟩
      frees := hs.frees
      stale := hs.stale
      aborted := hs.aborted
      busy := hs.busy }

/-- The reader parks, and is resumed from within `pipewrite`; it reads what has been written, closes
    its end and yields before the writer's call returns. -/
theorem pipe_faithful_nested : ∃ s, Reachable 4096 s ∧ s.got = [1, 2] ∧ s.reported = [] ∧
    s.writer.pending = [1, 2, 3] ∧ Faithful s := by
  have h₁ : Reachable 4096 _ := .step .init (.resume _ .reader trivial (by decide))
  have h₂ : Reachable 4096 _ := .step h₁ (.read _ 2 rfl rfl)
  have h₃ : Reachable 4096 _ := .step h₂ (.resume _ .writer trivial (by decide))
  have h₄ : Reachable 4096 _ := .step h₃ (.write _ [1, 2, 3] rfl rfl)
  have h₅ : Reachable 4096 _ := .step h₄ (.readcont _ _ rfl rfl)
  have h₆ : Reachable 4096 _ := .step h₅ (.rclose _ rfl rfl)
  have h₇ : Reachable 4096 _ := .step h₆ (.yield _ (.inr rfl) (by decide))
  exact ⟨_, h₇, rfl, rfl, rfl, pipe_faithful h₇⟩

end Ashd.Mtpipe
