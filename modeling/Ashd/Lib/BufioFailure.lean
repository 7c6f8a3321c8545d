import Ashd.Lib.BufioWrite

/-!
# What `biowritesome` does when the write fails

`biowritesome` appends the data before it writes. If the write fails, the data is to be taken
back and -1 returned; but the test for this, *should never be false* by its comment
(lib/bufio.c:272), is false if nothing was pending before.

Main results:
* `biowritesome_failed_iff`: a failed write is reported and undone exactly if something was
  pending.
* `failure_taken`: a failed write on a new `bufio`.
-/

namespace Ashd

/-- A state that a `bufio` gets into. -/
inductive Bufio.Reachable : Bufio → Prop
  | opened (avail : Bytes) (reads writes : List Answer) :
      Reachable (bioopen { avail := avail, sched := reads } { sched := writes })
  | read {bio : Bufio} (op : ReadOp) (h : Reachable bio) : Reachable (op.step bio).2
  | write {bio : Bufio} (op : WriteOp) (h : Reachable bio) : Reachable (op.step bio).2

theorem Bufio.Reachable.ok {bio : Bufio} (h : bio.Reachable) : bio.ROk ∧ bio.WOk := by
  induction h with
  | opened avail reads writes => exact ⟨bioopen_rok _ (by simp) _, bioopen_wok _ _⟩
  | read op _ ih =>
    have := op.step_reads ih.1
    exact ⟨this.ok, this.wok ih.2⟩
  | write op _ ih =>
    have := op.step_writes ih.2
    exact ⟨this.rok ih.1, this.ok⟩

/-- The buffer when `biowritesome` calls `bioflushsome`, with `ret`. -/
def Bufio.appended (bio : Bufio) (data : Bytes) : ℕ × Bufio :=
  let bio := bio.wgrow.wdrop.wcompact
  let ret := min data.length (bio.wbuf.s - bio.wbuf.d)
  (ret, bio.wput (data.take ret))

/-- `biowritesome` calls the underlying write, and it fails. -/
def WriteFails (bio : Bufio) (data : Bytes) : Prop :=
  (bio.appended data).2.wh < (bio.appended data).2.wbuf.d ∧
    ∃ e, ((bio.appended data).2.snk.write (bio.appended data).2.wdata).1 = .error e

theorem biowritesome_eq (bio : Bufio) (data : Bytes) :
    biowritesome bio data =
      match bioflushsome (bio.appended data).2 with
      | (fl, b) =>
        if fl < 0 then
          if (bio.appended data).1 = 0 then (-1, b)
          else if (bio.appended data).1 < biowdata b then
            (-1, { b with wbuf := { b.wbuf with d := b.wbuf.d - (bio.appended data).1 } })
          else ((bio.appended data).1, b)
        else ((bio.appended data).1, b) := rfl

theorem wdata_nil_iff {bio : Bufio} (h : bio.WOk) : bio.wdata = [] ↔ bio.wh = bio.wbuf.d := by
  have hle := h.wh_le
  rw [← List.length_eq_zero_iff, h.length_wdata]
  unfold biowdata
  omega

/-- What was pending stays, and the data comes after it. -/
structure Appended (bio : Bufio) (data : Bytes) (ret : ℕ) (b : Bufio) : Prop where
  ok : b.WOk
  snk : b.snk = bio.snk
  ret_le : ret ≤ data.length
  wdata : b.wdata = bio.wdata ++ data.take ret
  undo : ({ b with wbuf := { b.wbuf with d := b.wbuf.d - ret } } : Bufio).wdata = bio.wdata
  room : bio.wdata = [] → data ≠ [] → ret ≠ 0

theorem appended_spec {bio : Bufio} (h : bio.WOk) (data : Bytes) :
    Appended bio data (bio.appended data).1 (bio.appended data).2 := by
  unfold Bufio.appended
  obtain ⟨hw, -, hfull⟩ := biowritesomeRoom_spec h
  have hsnk : bio.wgrow.wdrop.wcompact.snk = bio.snk := by
    obtain ⟨h1, hk1, -⟩ := wgrow_spec h
    obtain ⟨h2, hk2, -⟩ := wdrop_spec h1.ok
    rw [(wcompact_spec h2.ok).2.1, hk2, hk1]
  have hpend : bio.wgrow.wdrop.wcompact.wdata = bio.wdata := by
    have := hw.written
    rw [Bufio.written, Bufio.written, hsnk, List.append_nil] at this
    exact List.append_cancel_left this
  generalize bio.wgrow.wdrop.wcompact = b at hw hfull hsnk hpend
  simp only
  generalize hret : min data.length (b.wbuf.s - b.wbuf.d) = ret
  have hds : b.wbuf.d ≤ b.wbuf.s := hw.ok.buf.d_le.trans hw.ok.buf.b_le
  have hlen : (data.take ret).length = ret := by
    rw [List.length_take]
    omega
  have hput := wput_spec hw.ok (data.take ret) (by omega)
  refine ⟨hput.ok, hsnk, by omega, ?_, ?_, ?_⟩
  · rw [← hpend]
    exact window_put hw.ok.buf hw.ok.wh_le _
  · rw [← hpend]
    have hd : (b.wput (data.take ret)).wbuf.d - ret = b.wbuf.d := by
      show b.wbuf.d + (data.take ret).length - ret = b.wbuf.d
      omega
    rw [hd]
    exact window_put_undo hw.ok.buf _ _
  · intro hnil hne
    have hpos := List.length_pos_of_ne_nil hne
    have hwh := (wdata_nil_iff hw.ok).mp (hpend.trans hnil)
    have : b.wbuf.d ≠ b.wbuf.s := fun h0 => absurd (hfull h0) (by omega)
    omega

/-- The write fails when the next one is to fail and there is something to write. -/
theorem writeFails_iff {bio : Bufio} (h : bio.WOk) (data : Bytes) :
    WriteFails bio data ↔
      (∃ e sched, bio.snk.sched = .err e :: sched) ∧ (bio.wdata ≠ [] ∨ data ≠ []) := by
  have ha := appended_spec h data
  unfold WriteFails
  generalize (bio.appended data).1 = ret at ha
  generalize (bio.appended data).2 = b at ha
  have hlt : b.wh < b.wbuf.d ↔ bio.wdata ≠ [] ∨ data ≠ [] := by
    have hle := ha.ok.wh_le
    have hnil := wdata_nil_iff ha.ok
    rw [ha.wdata, List.append_eq_nil_iff, List.take_eq_nil_iff] at hnil
    constructor
    · intro hlt
      by_contra hno
      push Not at hno
      have := hnil.mp ⟨hno.1, .inr hno.2⟩
      omega
    · intro hor
      have : b.wh ≠ b.wbuf.d := by
        intro heq
        obtain ⟨h1, h2⟩ := hnil.mpr heq
        have hdata := hor.resolve_left (not_not.mpr h1)
        exact ha.room h1 hdata (h2.resolve_right hdata)
      omega
  have herr : (∃ e, (b.snk.write b.wdata).1 = .error e) ↔
      ∃ e sched, bio.snk.sched = .err e :: sched := by
    rw [ha.snk]
    unfold Sink.write
    rcases bio.snk.sched with _ | ⟨_ | e, sched⟩
    · simp
    · simp
    · simp
  rw [hlt, herr, and_comm]

/-- What `biowritesome` does when the write fails: the data is taken back if something was
    pending before it. -/
theorem biowritesome_failed {bio : Bufio} (h : bio.WOk) {data : Bytes} (hf : WriteFails bio data) :
    ((biowritesome bio data).1 = -1 ∧ (biowritesome bio data).2.wdata = bio.wdata) ↔
      bio.wdata ≠ [] := by
  have hor := ((writeFails_iff h data).mp hf).2
  have ha := appended_spec h data
  obtain ⟨hlt, e, herr⟩ := hf
  rw [biowritesome_eq]
  generalize (bio.appended data).1 = ret at ha
  generalize (bio.appended data).2 = b at ha hlt herr
  have hflush : ∃ snk, bioflushsome b = (-1, { b with err := e, snk := snk }) := by
    cases hw : b.snk.write (b.wbuf.window b.wh) with
    | mk res snk =>
      rw [Bufio.wdata, hw] at herr
      simp only at herr
      subst herr
      unfold bioflushsome flushOnce
      rw [if_pos hlt, hw]
      exact ⟨snk, rfl⟩
  obtain ⟨snk, hflush⟩ := hflush
  rw [hflush]
  simp only [show (-1 : ℤ) < 0 by decide, if_true]
  have hlen : b.wdata.length = bio.wdata.length + ret := by
    have := ha.ret_le
    rw [ha.wdata, List.length_append, List.length_take]
    omega
  have hdata : biowdata { b with err := e, snk := snk } = bio.wdata.length + ret := by
    rw [← hlen, ha.ok.length_wdata]
    rfl
  rw [hdata]
  by_cases hret : ret = 0
  · -- nothing was put
    rw [if_pos hret]
    have hsame : b.wdata = bio.wdata := by rw [ha.wdata, hret, List.take_zero, List.append_nil]
    have hne : bio.wdata ≠ [] := by
      intro hnil
      exact ha.room hnil (hor.resolve_left (not_not.mpr hnil)) hret
    exact ⟨fun _ => hne, fun _ => ⟨rfl, hsame⟩⟩
  · rw [if_neg hret]
    by_cases hnil : bio.wdata = []
    · rw [hnil, List.length_nil, if_neg (by omega)]
      constructor
      · rintro ⟨hminus, -⟩
        simp only at hminus
        omega
      · intro hne
        exact absurd rfl hne
    · have := List.length_pos_of_ne_nil hnil
      rw [if_pos (by omega)]
      exact ⟨fun _ => hnil, fun _ => ⟨rfl, ha.undo⟩⟩

/-- In every state that a `bufio` gets into: if the write that `biowritesome` calls fails, -1 is
    returned and what is pending is what was, exactly if something was pending, or the next write
    does not fail, or there is no data. -/
theorem biowritesome_failed_iff (bio : Bufio) (h : bio.Reachable) (data : Bytes) :
    (WriteFails bio data →
        (biowritesome bio data).1 = -1 ∧ (biowritesome bio data).2.wdata = bio.wdata) ↔
      (bio.wdata = [] → data ≠ [] → ∀ e sched, bio.snk.sched ≠ .err e :: sched) := by
  have hok := h.ok.2
  constructor
  · rintro hp hnil hne e sched hsched
    have hf : WriteFails bio data := (writeFails_iff hok data).mpr ⟨⟨e, sched, hsched⟩, .inr hne⟩
    exact (biowritesome_failed hok hf).mp (hp hf) hnil
  · intro hp hf
    apply (biowritesome_failed hok hf).mpr
    intro hnil
    obtain ⟨⟨e, sched, hsched⟩, hor⟩ := (writeFails_iff hok data).mp hf
    exact hp hnil (hor.resolve_left (not_not.mpr hnil)) e sched hsched

/-- A new `bufio` whose first write fails. -/
def failing : Bufio := bioopen { avail := [] } { sched := [.err 32] }

theorem failing_iff :
    (WriteFails failing [104, 105] →
        (biowritesome failing [104, 105]).1 = -1 ∧
          (biowritesome failing [104, 105]).2.wdata = failing.wdata) ↔
      (failing.wdata = [] → ([104, 105] : Bytes) ≠ [] →
        ∀ e sched, failing.snk.sched ≠ .err e :: sched) :=
  biowritesome_failed_iff failing (.opened [] [] [.err 32]) [104, 105]

/-- Its data is reported as written, and stays in the buffer. -/
theorem failure_taken :
    failing.Reachable ∧ WriteFails failing [104, 105] ∧
      (biowritesome failing [104, 105]).1 = 2 ∧
      (biowritesome failing [104, 105]).2.wdata = [104, 105] ∧ failing.wdata = [] := by
  refine ⟨.opened [] [] [.err 32], ⟨by decide +kernel, 32, rfl⟩, by decide +kernel,
    by decide +kernel, rfl⟩

end Ashd
