import Ashd.Common.Run
import Ashd.Lib.BufioRead

/-!
# The write side of `bufio` is a faithful FIFO

`Bufio.WOk` is the invariant of the write side and `Bufio.written` what has been
accepted from writers: what the underlying write has taken, and then
`wbuf[wh..d)`. Every operation keeps the invariant, adds to the end of `written`
what it reports as accepted and leaves the read side alone, also when the
underlying write takes only a part or fails.

Main results:
* `bufio_write_fifo`: for any run of writing operations, the bytes reported as
  accepted are those consumed followed by `wbuf[wh..d)`.
* `biowrite_spec`, `biowritesome_spec`, `bioprintf_spec`: what each reports.
-/

namespace Ashd

/-- The bytes in `wbuf[wh..d)`. -/
def Bufio.wdata (bio : Bufio) : Bytes := bio.wbuf.window bio.wh

/-- The bytes accepted from writers. -/
def Bufio.written (bio : Bufio) : Bytes := bio.snk.consumed ++ bio.wdata

/-- The invariant of the write side. -/
structure Bufio.WOk (bio : Bufio) : Prop where
  hint : 0 < bio.bufhint
  buf : bio.wbuf.Ok
  wh_le : bio.wh ≤ bio.wbuf.d

/-- What the read side consists of. -/
def Bufio.rside (bio : Bufio) : Charbuf × ℕ × Bool × Source × ℕ :=
  (bio.rbuf, bio.rh, bio.eof, bio.src, bio.bufhint)

theorem Bufio.WOk.length_wdata {bio : Bufio} (h : bio.WOk) : bio.wdata.length = biowdata bio :=
  length_window h.buf h.wh_le

/-- `a` becomes `b` while the bytes `accepted` are taken from a writer. -/
structure Bufio.Writes (a : Bufio) (accepted : Bytes) (b : Bufio) : Prop where
  ok : b.WOk
  written : b.written = a.written ++ accepted
  noErr : NoErr a.snk.sched → NoErr b.snk.sched
  rside : b.rside = a.rside

theorem Bufio.Writes.refl {a : Bufio} (h : a.WOk) : a.Writes [] a := ⟨h, by simp, id, rfl⟩

theorem Bufio.Writes.trans {a b c : Bufio} {t t' : Bytes} (h : a.Writes t b) (h' : b.Writes t' c) :
    a.Writes (t ++ t') c :=
  ⟨h'.ok, by rw [h'.written, h.written, List.append_assoc], h'.noErr ∘ h.noErr,
    h'.rside.trans h.rside⟩

theorem Bufio.Writes.bufhint {a b : Bufio} {t : Bytes} (h : a.Writes t b) :
    b.bufhint = a.bufhint :=
  congrArg (fun r => r.2.2.2.2) h.rside

theorem Bufio.Writes.rside_eq {a b : Bufio} {t : Bytes} (h : a.Writes t b) :
    b.rbuf = a.rbuf ∧ b.rh = a.rh ∧ b.eof = a.eof ∧ b.src = a.src ∧ b.bufhint = a.bufhint := by
  have := h.rside
  simpa [Bufio.rside] using this

/-- Writing leaves what is to be read. -/
theorem Bufio.Writes.rok {a b : Bufio} {t : Bytes} (h : a.Writes t b) (ha : a.ROk) : b.ROk := by
  obtain ⟨hb, hrh, he, hs, hh⟩ := h.rside_eq
  exact ⟨hh ▸ ha.hint, hb ▸ ha.buf, by rw [hrh, hb]; exact ha.rh_le, by rw [he, hs]; exact ha.eof,
    hs ▸ ha.lens⟩

theorem Bufio.Writes.unread {a b : Bufio} {t : Bytes} (h : a.Writes t b) : b.unread = a.unread := by
  obtain ⟨hb, hrh, -, hs, -⟩ := h.rside_eq
  simp only [Bufio.unread, Bufio.rdata, hb, hrh, hs]

/-- Reading leaves what has been written. -/
theorem Bufio.Reads.wok {a b : Bufio} {t : Bytes} (h : a.Reads t b) (ha : a.WOk) : b.WOk := by
  obtain ⟨hb, hwh, -, hh⟩ := h.wside_eq
  exact ⟨hh ▸ ha.hint, hb ▸ ha.buf, by rw [hwh, hb]; exact ha.wh_le⟩

theorem Bufio.Reads.written {a b : Bufio} {t : Bytes} (h : a.Reads t b) :
    b.written = a.written := by
  obtain ⟨hb, hwh, hs, -⟩ := h.wside_eq
  simp only [Bufio.written, Bufio.wdata, hb, hwh, hs]

/-! ## The underlying write -/

theorem Sink.write_ok {snk snk' : Sink} {data : Bytes} {n : ℕ}
    (h : snk.write data = (.ok n, snk')) :
    snk'.consumed = snk.consumed ++ data.take n ∧ n ≤ data.length ∧ (data ≠ [] → 0 < n) := by
  unfold Sink.write at h
  split at h
  · cases h
    exact ⟨by simp, le_rfl, fun h0 => List.length_pos_iff.mpr h0⟩
  · cases h
    refine ⟨?_, min_le_right _ _, fun h0 => ?_⟩
    · simp only [← List.take_take, List.take_length]
    · have := List.length_pos_iff.mpr h0
      omega
  · cases h

theorem Sink.write_error {snk snk' : Sink} {data : Bytes} {e : ℤ}
    (h : snk.write data = (.error e, snk')) : snk'.consumed = snk.consumed := by
  unfold Sink.write at h
  split at h <;> cases h
  rfl

theorem Sink.write_noErr {snk : Sink} (h : NoErr snk.sched) (data : Bytes) :
    NoErr (snk.write data).2.sched ∧ ∃ n, (snk.write data).1 = .ok n := by
  unfold Sink.write
  split
  · rename_i heq
    exact ⟨by simp only [heq]; simp [NoErr], _, rfl⟩
  · rename_i heq
    exact ⟨(heq ▸ h).tail, _, rfl⟩
  · rename_i e _ heq
    exact absurd (by rw [heq]; simp) (h e)

/-- A write taken from the front of `data`, with nothing buffered. -/
theorem bypass_spec {bio : Bufio} (h : bio.WOk) (hempty : bio.wdata = []) {data : Bytes}
    {res : Except ℤ ℕ} {snk : Sink} (hw : bio.snk.write data = (res, snk)) :
    match res with
    | .error _ => ∀ err, bio.Writes [] { bio with err := err, snk := snk }
    | .ok n => bio.Writes (data.take n) { bio with snk := snk } := by
  have hne : NoErr bio.snk.sched → NoErr snk.sched := by
    intro h0
    have := (Sink.write_noErr h0 data).1
    rwa [hw] at this
  match res with
  | .error _ =>
    intro err
    refine ⟨⟨h.hint, h.buf, h.wh_le⟩, ?_, hne, rfl⟩
    simp only [Bufio.written, Sink.write_error hw, List.append_nil]
    rfl
  | .ok n =>
    refine ⟨⟨h.hint, h.buf, h.wh_le⟩, ?_, hne, rfl⟩
    have hw' : ({ bio with snk := snk } : Bufio).wdata = [] := hempty
    simp only [Bufio.written, hw', (Sink.write_ok hw).1, hempty, List.append_nil]

/-! ## Flushing -/

/-- One write of what is buffered moves bytes over to the other side. -/
theorem flushOnce_spec {bio : Bufio} (h : bio.WOk) :
    bio.Writes [] (flushOnce bio).2 ∧
      ((flushOnce bio).1 = some (-1) ∧ ¬ NoErr bio.snk.sched ∧
          (∃ e snk, snk.consumed = bio.snk.consumed ∧
            (flushOnce bio).2 = { bio with err := e, snk := snk }) ∨
        (flushOnce bio).1 = none ∧ (flushOnce bio).2.wbuf = bio.wbuf ∧
          (bio.wh < bio.wbuf.d → bio.wh < (flushOnce bio).2.wh)) := by
  unfold flushOnce
  cases hw : bio.snk.write (bio.wbuf.window bio.wh) with
  | mk res snk =>
    have hne : NoErr bio.snk.sched → NoErr snk.sched ∧ ∃ n, res = .ok n := by
      intro h0
      have := Sink.write_noErr h0 (bio.wbuf.window bio.wh)
      rwa [hw] at this
    cases res with
    | error e =>
      refine ⟨⟨⟨h.hint, h.buf, h.wh_le⟩, ?_, fun h0 => (hne h0).1, rfl⟩,
        .inl ⟨rfl, ?_, e, snk, Sink.write_error hw, rfl⟩⟩
      · simp only [Bufio.written, Sink.write_error hw, List.append_nil]
        rfl
      · intro h0
        obtain ⟨-, n, hn⟩ := hne h0
        cases hn
    | ok n =>
      obtain ⟨hc, hn, hpos⟩ := Sink.write_ok hw
      have hlen : (bio.wbuf.window bio.wh).length = bio.wbuf.d - bio.wh :=
        length_window h.buf h.wh_le
      have hle := h.wh_le
      rw [hlen] at hn
      refine ⟨⟨⟨h.hint, h.buf, by simp only; omega⟩, ?_, fun h0 => (hne h0).1, rfl⟩,
        .inr ⟨rfl, rfl, fun hlt => ?_⟩⟩
      · have hsplit : bio.wbuf.window bio.wh =
            peek bio.wbuf.b bio.wh n ++ bio.wbuf.window (bio.wh + n) := peek_eq_append (by omega)
        have htake : (bio.wbuf.window bio.wh).take n = peek bio.wbuf.b bio.wh n := by
          have hl : (peek bio.wbuf.b bio.wh n).length = n := by
            have := h.buf.d_le
            exact length_peek (by omega)
          rw [hsplit, List.take_left' hl]
        simp only [Bufio.written, Bufio.wdata, hc, htake, List.append_nil, List.append_assoc]
        rw [← hsplit]
      · have : 0 < n := hpos (by rw [← List.length_pos_iff, hlen]; omega)
        simp only; omega

theorem flushLoop_spec :
    ∀ fuel (bio : Bufio), bio.WOk → biowdata bio ≤ fuel →
      bio.Writes [] (flushLoop fuel bio).2 ∧
        ((flushLoop fuel bio).1 = 0 ∧ (flushLoop fuel bio).2.wh = (flushLoop fuel bio).2.wbuf.d ∨
          (flushLoop fuel bio).1 = -1 ∧ ¬ NoErr bio.snk.sched) ∧
        (flushLoop fuel bio).2.wbuf = bio.wbuf := by
  intro fuel
  induction fuel with
  | zero =>
    intro bio h hf
    have := h.wh_le
    simp only [biowdata] at hf
    exact ⟨.refl h, .inl ⟨rfl, by simp only [flushLoop]; omega⟩, rfl⟩
  | succ fuel ih =>
    intro bio h hf
    rw [flushLoop]
    by_cases hlt : bio.wh < bio.wbuf.d
    · rw [if_pos hlt]
      obtain ⟨hw, hcase⟩ := flushOnce_spec h
      cases hfo : flushOnce bio with
      | mk res b =>
        rw [hfo] at hw hcase
        obtain ⟨rfl, hne, e, snk, -, hb⟩ | ⟨rfl, hwb, hprog⟩ := hcase
        · simp only at hb
          subst hb
          exact ⟨hw, .inr ⟨rfl, hne⟩, rfl⟩
        · have hb : b.wbuf = bio.wbuf := hwb
          have hp := hprog hlt
          simp only [biowdata] at hf hp
          obtain ⟨hw', hres, hwb'⟩ := ih b hw.ok (by simp only [biowdata, hb]; omega)
          refine ⟨hw.trans hw', ?_, hwb'.trans hb⟩
          rcases hres with hres | ⟨hres, hne⟩
          · exact .inl hres
          · exact .inr ⟨hres, fun h0 => hne (hw.noErr h0)⟩
    · rw [if_neg hlt]
      have := h.wh_le
      exact ⟨.refl h, .inl ⟨rfl, by simp only; omega⟩, rfl⟩

/-- `bioflush` empties the buffer, or reports an error with the rest still buffered. -/
theorem bioflush_spec {bio : Bufio} (h : bio.WOk) :
    bio.Writes [] (bioflush bio).2 ∧
      ((bioflush bio).1 = 0 ∧ (bioflush bio).2.wh = (bioflush bio).2.wbuf.d ∨
        (bioflush bio).1 = -1 ∧ ¬ NoErr bio.snk.sched) ∧
      (bioflush bio).2.wbuf = bio.wbuf :=
  flushLoop_spec _ bio h le_rfl

theorem bioflushsome_spec {bio : Bufio} (h : bio.WOk) :
    bio.Writes [] (bioflushsome bio).2 ∧ (bioflushsome bio).2.wbuf = bio.wbuf ∧
      ((bioflushsome bio).1 = -1 ∧ ¬ NoErr bio.snk.sched ∧
          (∃ e snk, snk.consumed = bio.snk.consumed ∧
            (bioflushsome bio).2 = { bio with err := e, snk := snk }) ∨
        0 ≤ (bioflushsome bio).1 ∧ bio.wh ≤ (bioflushsome bio).2.wh ∧
          (bio.wh < bio.wbuf.d → bio.wh < (bioflushsome bio).2.wh)) := by
  unfold bioflushsome
  by_cases hlt : bio.wh < bio.wbuf.d
  · rw [if_pos hlt]
    obtain ⟨hw, hcase⟩ := flushOnce_spec h
    cases hfo : flushOnce bio with
    | mk res b =>
      rw [hfo] at hw hcase
      obtain ⟨rfl, hne, e, snk, hc, hb⟩ | ⟨rfl, hwb, hprog⟩ := hcase
      · simp only at hb
        subst hb
        exact ⟨hw, rfl, .inl ⟨rfl, hne, e, snk, hc, rfl⟩⟩
      · exact ⟨hw, hwb, .inr ⟨by simp, (hprog hlt).le, hprog⟩⟩
  · rw [if_neg hlt]
    exact ⟨.refl h, rfl, .inr ⟨le_rfl, le_rfl, fun h0 => absurd h0 hlt⟩⟩

/-! ## Making room -/

theorem wdata_eq_nil {bio : Bufio} (h : bio.wh = bio.wbuf.d) : bio.wdata = [] := by
  simp [Bufio.wdata, Charbuf.window, h]

/-- Resetting the indices of an empty buffer. -/
theorem wreset_spec {bio : Bufio} (h : bio.WOk) (he : bio.wh = bio.wbuf.d) :
    bio.Writes [] bio.wreset := by
  refine ⟨⟨h.hint, ⟨Nat.zero_le _, h.buf.b_le⟩, le_rfl⟩, ?_, id, rfl⟩
  have hnew : bio.wreset.wdata = [] := wdata_eq_nil rfl
  simp only [Bufio.written, hnew, wdata_eq_nil he, List.append_nil]
  rfl

theorem wput_spec {bio : Bufio} (h : bio.WOk) (data : Bytes)
    (hs : bio.wbuf.d + data.length ≤ bio.wbuf.s) : bio.Writes data (bio.wput data) := by
  have hle := h.wh_le
  refine ⟨⟨h.hint, h.buf.put hs, by simp only [Bufio.wput, Charbuf.put]; omega⟩, ?_, id, rfl⟩
  simp only [Bufio.written, Bufio.wdata, Bufio.wput, window_put h.buf hle, List.append_assoc]

theorem wsizebuf_spec {bio : Bufio} (h : bio.WOk) (n : ℕ) :
    bio.Writes [] { bio with wbuf := sizebuf bio.wbuf n } := by
  obtain ⟨-, hd, -⟩ := sizebuf_eq h.buf n
  refine ⟨⟨h.hint, h.buf.sizebuf n, by simp only [hd]; exact h.wh_le⟩, ?_, id, rfl⟩
  simp only [Bufio.written, Bufio.wdata, window_sizebuf h.buf, List.append_nil]

/-- `biowensure` leaves room for `bytes` more, or reports the error of the flush. -/
theorem biowensure_spec {bio : Bufio} (h : bio.WOk) (bytes : ℕ) :
    bio.Writes [] (biowensure bio bytes).2 ∧
      ((biowensure bio bytes).1 = 0 ∧
          bytes ≤ (biowensure bio bytes).2.wbuf.s - (biowensure bio bytes).2.wbuf.d ∨
        (biowensure bio bytes).1 = -1 ∧ ¬ NoErr bio.snk.sched) := by
  unfold biowensure
  by_cases hs : bio.wbuf.s - bio.wbuf.d < bytes
  · rw [if_pos hs]
    obtain ⟨hw, hres, -⟩ := bioflush_spec h
    cases hfl : bioflush bio with
    | mk ret b =>
      rw [hfl] at hw hres
      obtain ⟨rfl, he⟩ | ⟨rfl, hne⟩ := hres
      · have hw' := hw.trans (wreset_spec hw.ok he)
        simp only [lt_irrefl, if_false]
        have hd0 : b.wreset.wbuf.d = 0 := rfl
        split_ifs with hshrink hsmall
        · refine ⟨hw'.trans ⟨⟨hw'.ok.hint, hw'.ok.buf.realloc (by rw [hd0]; exact Nat.zero_le _),
            hw'.ok.wh_le⟩, ?_, id, rfl⟩, .inl ⟨rfl, hshrink.2⟩⟩
          simp only [Bufio.written, Bufio.wdata, List.append_nil]
          rw [window_realloc (by rw [hd0]; exact Nat.zero_le _)]
        all_goals
          refine ⟨hw'.trans (wsizebuf_spec hw'.ok _), .inl ⟨rfl, ?_⟩⟩
          obtain ⟨-, hd, -⟩ := sizebuf_eq hw'.ok.buf (if bytes < b.wreset.bufhint then
            b.wreset.bufhint else bytes)
        · have := le_sizebuf_s b.wreset.wbuf b.wreset.bufhint
          simp only [if_pos hsmall] at hd
          simp only [hd, hd0]
          omega
        · have := le_sizebuf_s b.wreset.wbuf bytes
          simp only [if_neg hsmall] at hd
          simp only [hd, hd0]
          omega
      · exact ⟨hw, .inr ⟨rfl, hne⟩⟩
  · rw [if_neg hs]
    exact ⟨.refl h, .inl ⟨rfl, by simp only; omega⟩⟩

/-! ## The writing operations -/

theorem bioputc_spec {bio : Bufio} (h : bio.WOk) (c : UInt8) :
    bio.Writes (if (bioputc bio c).1 = 0 then [c] else []) (bioputc bio c).2 := by
  unfold bioputc
  obtain ⟨hw, hres⟩ := biowensure_spec h 1
  cases hen : biowensure bio 1 with
  | mk ret b =>
    rw [hen] at hw hres
    obtain ⟨rfl, hroom⟩ | ⟨rfl, -⟩ := hres
    · simpa using hw.trans (wput_spec hw.ok [c] (by simp only at hroom; simp; omega))
    · simpa using hw

/-- The loop writes a prefix of the data and reports how long it is; it reports `-1` only
    when nothing has been written at all. -/
theorem biowriteLoop_spec :
    ∀ fuel (data : Bytes) (wb : ℤ) (bio : Bufio), bio.WOk → 0 ≤ wb → data.length ≤ fuel →
      ∃ n ≤ data.length, bio.Writes (data.take n) (biowriteLoop fuel data wb bio).2 ∧
        ((biowriteLoop fuel data wb bio).1 = wb + n ∨
          (biowriteLoop fuel data wb bio).1 = -1 ∧ n = 0 ∧ wb = 0) ∧
        (NoErr bio.snk.sched → n = data.length) := by
  intro fuel
  induction fuel with
  | zero =>
    intro data wb bio h _ hf
    have : data = [] := List.length_eq_zero_iff.mp (Nat.le_zero.mp hf)
    subst this
    exact ⟨0, le_rfl, .refl h, .inl (by simp [biowriteLoop]), fun _ => rfl⟩
  | succ fuel ih =>
    intro data wb bio h hwb hf
    rw [biowriteLoop]
    by_cases hpos : data.length > 0
    swap
    · have : data = [] := List.length_eq_zero_iff.mp (by omega)
      subst this
      exact ⟨0, le_rfl, .refl h, .inl (by simp), fun _ => rfl⟩
    rw [if_pos hpos]
    -- a failure reports what was written before it, if anything was
    have hfail : ∀ b, bio.Writes [] b → ¬ NoErr bio.snk.sched →
        ∃ n ≤ data.length, bio.Writes (data.take n) b ∧
          ((if wb > 0 then wb else -1) = wb + n ∨
            (if wb > 0 then wb else -1) = -1 ∧ n = 0 ∧ wb = 0) ∧
          (NoErr bio.snk.sched → n = data.length) := by
      intro b hb hne
      refine ⟨0, Nat.zero_le _, by simpa using hb, ?_, fun h0 => absurd h0 hne⟩
      by_cases h0 : wb > 0
      · exact .inl (by simp [h0])
      · exact .inr ⟨by simp [h0], rfl, by omega⟩
    obtain ⟨hw, hres⟩ := biowensure_spec h (min data.length bio.bufhint)
    cases hen : biowensure bio (min data.length bio.bufhint) with
    | mk ret b =>
      rw [hen] at hw hres
      obtain ⟨rfl, -⟩ | ⟨rfl, hne⟩ := hres
      swap
      · simpa using hfail b hw hne
      simp only [lt_irrefl, if_false]
      by_cases hsmall : data.length < b.wbuf.s - b.wbuf.d
      · rw [if_pos hsmall]
        have := hw.trans (wput_spec hw.ok data (by simp only; omega))
        exact ⟨data.length, le_rfl, by simpa using this, .inl rfl, fun _ => rfl⟩
      rw [if_neg hsmall]
      obtain ⟨hwf, hresf, -⟩ := bioflush_spec hw.ok
      simp only at hwf hresf
      cases hfl : bioflush b with
      | mk ret b' =>
        rw [hfl] at hwf hresf
        obtain ⟨rfl, he⟩ | ⟨rfl, hne⟩ := hresf
        swap
        · simpa using hfail b' (hw.trans hwf) fun h0 => hne (hw.noErr h0)
        simp only [lt_irrefl, if_false]
        have hwr := (hw.trans hwf).trans (wreset_spec hwf.ok he)
        cases hbw : b'.wreset.snk.write data with
        | mk res snk =>
          have hby := bypass_spec hwr.ok (wdata_eq_nil rfl) hbw
          cases res with
          | error e =>
            have hne : ¬ NoErr bio.snk.sched := by
              intro h0
              obtain ⟨-, n, hn⟩ := Sink.write_noErr (hwr.noErr h0) data
              simp only [hbw] at hn
              cases hn
            by_cases h0 : wb > 0
            · simpa [h0] using hfail _ (hwr.trans (hby b'.wreset.err)) hne
            · simpa [h0] using hfail _ (hwr.trans (hby e)) hne
          | ok n =>
            obtain ⟨-, hn, hn0⟩ := Sink.write_ok hbw
            have hn0 := hn0 (List.length_pos_iff.mp hpos)
            have hstep := hwr.trans hby
            obtain ⟨m, hm, hwm, hrm, hnm⟩ := ih (data.drop n) (wb + n) _ hstep.ok (by omega)
              (by simp; omega)
            rw [List.length_drop] at hm hnm
            refine ⟨n + m, by omega, ?_, .inl ?_, fun h0 => ?_⟩
            · have := hstep.trans hwm
              rwa [List.nil_append, List.nil_append, List.nil_append, ← List.take_add] at this
            · rcases hrm with hr | ⟨-, -, h0⟩
              · simp only [hr]; push_cast; ring
              · omega
            · have := hnm (hstep.noErr h0)
              omega

/-- `biowrite` accepts the prefix whose length it reports. -/
theorem biowrite_spec {bio : Bufio} (h : bio.WOk) (data : Bytes) :
    bio.Writes (data.take (biowrite bio data).1.toNat) (biowrite bio data).2 ∧
      (NoErr bio.snk.sched → (biowrite bio data).1 = data.length) := by
  obtain ⟨n, hn, hw, hr, hne⟩ := biowriteLoop_spec data.length data 0 bio h le_rfl le_rfl
  unfold biowrite
  rcases hr with hr | ⟨hr, rfl, -⟩
  · rw [hr]
    refine ⟨by simpa using hw, fun h0 => ?_⟩
    rw [hne h0]
    simp
  · rw [hr]
    refine ⟨by simpa using hw, fun h0 => ?_⟩
    have : data = [] := List.length_eq_zero_iff.mp (hne h0).symm
    subst this
    simp [biowriteLoop] at hr

theorem wgrow_spec {bio : Bufio} (h : bio.WOk) :
    bio.Writes [] bio.wgrow ∧ bio.wgrow.snk = bio.snk ∧ bio.bufhint ≤ bio.wgrow.wbuf.s :=
  ⟨wsizebuf_spec h _, rfl, le_sizebuf_s _ _⟩

theorem wdrop_spec {bio : Bufio} (h : bio.WOk) :
    bio.Writes [] bio.wdrop ∧ bio.wdrop.snk = bio.snk ∧ bio.wdrop.wbuf.s = bio.wbuf.s := by
  unfold Bufio.wdrop
  split_ifs with he
  · exact ⟨wreset_spec h he, rfl, rfl⟩
  · exact ⟨.refl h, rfl, rfl⟩

/-- After compaction there is room, or the whole buffer is in use. -/
theorem wcompact_spec {bio : Bufio} (h : bio.WOk) :
    bio.Writes [] bio.wcompact ∧ bio.wcompact.snk = bio.snk ∧
      bio.wcompact.wbuf.s = bio.wbuf.s ∧
      (bio.wcompact.wbuf.d = bio.wcompact.wbuf.s → bio.wcompact.wh = 0) := by
  have hle := h.wh_le
  unfold Bufio.wcompact
  split_ifs with hd hwh
  · refine ⟨⟨⟨h.hint, h.buf.shift h.wh_le, Nat.zero_le _⟩, ?_, id, rfl⟩, rfl, rfl, ?_⟩
    · simp only [Bufio.written, Bufio.wdata, window_shift h.buf h.wh_le, List.append_nil]
    · simp
  · exact ⟨.refl h, rfl, rfl, fun _ => by omega⟩
  · exact ⟨.refl h, rfl, rfl, fun h0 => absurd h0 hd⟩

/-- Before it copies, `biowritesome` has room, or a full buffer that starts at 0. -/
theorem biowritesomeRoom_spec {bio : Bufio} (h : bio.WOk) :
    bio.Writes [] bio.wgrow.wdrop.wcompact ∧
      biowdata bio.wgrow.wdrop.wcompact = biowdata bio ∧
      (bio.wgrow.wdrop.wcompact.wbuf.d = bio.wgrow.wdrop.wcompact.wbuf.s →
        bio.wgrow.wdrop.wcompact.wh < bio.wgrow.wdrop.wcompact.wbuf.d) := by
  obtain ⟨h1, hk1, hs1⟩ := wgrow_spec h
  obtain ⟨h2, hk2, hs2⟩ := wdrop_spec h1.ok
  obtain ⟨h3, hk3, hs3, hfull⟩ := wcompact_spec h2.ok
  have hw := (h1.trans h2).trans h3
  have hhint := h.hint
  refine ⟨hw, ?_, fun hd => by rw [hfull hd]; omega⟩
  have := congrArg List.length hw.written
  simp only [Bufio.written, List.length_append, hk3, hk2, hk1, List.length_nil,
    hw.ok.length_wdata, h.length_wdata] at this
  omega

/-- Taking back the bytes put last, after a write that failed. -/
theorem wunput_spec {bio : Bufio} (h : bio.WOk) {data : Bytes}
    (hs : bio.wbuf.d + data.length ≤ bio.wbuf.s) {snk : Sink}
    (hc : snk.consumed = bio.snk.consumed) (hne : NoErr bio.snk.sched → NoErr snk.sched) (e : ℤ) :
    bio.Writes [] { bio.wput data with
      err := e, snk := snk, wbuf := { bio.wbuf.put data with d := bio.wbuf.d } } := by
  have hput := h.buf.put hs
  have hd := hput.d_le
  refine ⟨⟨h.hint, ⟨le_trans (by simp [Charbuf.put]) hd, hput.b_le⟩, h.wh_le⟩, ?_, hne, rfl⟩
  simp only [Bufio.written, Bufio.wdata, hc, List.append_nil, Bufio.wput]
  rw [window_put_undo h.buf]

/-- `biowritesome` accepts the prefix whose length it reports; what is still buffered grows
    by no more than that, and shrinks when nothing could be accepted. -/
theorem biowritesome_spec {bio : Bufio} (h : bio.WOk) (data : Bytes) :
    bio.Writes (data.take (biowritesome bio data).1.toNat) (biowritesome bio data).2 ∧
      ((biowritesome bio data).1 = -1 ∧ ¬ NoErr bio.snk.sched ∨
        0 ≤ (biowritesome bio data).1 ∧
          (biowdata (biowritesome bio data).2 : ℤ) ≤ biowdata bio + (biowritesome bio data).1 ∧
          ((biowritesome bio data).1 = 0 → data ≠ [] →
            biowdata (biowritesome bio data).2 < biowdata bio)) := by
  unfold biowritesome
  obtain ⟨hw, hlen, hfull⟩ := biowritesomeRoom_spec h
  generalize bio.wgrow.wdrop.wcompact = b at hw hlen hfull
  simp only
  generalize hret : min data.length (b.wbuf.s - b.wbuf.d) = ret
  have hds : b.wbuf.d ≤ b.wbuf.s := hw.ok.buf.d_le.trans hw.ok.buf.b_le
  have htl : (data.take ret).length = ret := by rw [List.length_take]; omega
  have hroom : b.wbuf.d + (data.take ret).length ≤ b.wbuf.s := by omega
  have hput := wput_spec hw.ok _ hroom
  have hwp := hw.trans hput
  have hpd : (b.wput (data.take ret)).wbuf.d = b.wbuf.d + ret := by
    simp only [Bufio.wput, Charbuf.put, htl]
  have hpwh : (b.wput (data.take ret)).wh = b.wh := rfl
  have hle := hw.ok.wh_le
  obtain ⟨hwf, hwb, hres⟩ := bioflushsome_spec hput.ok
  cases hfl : bioflushsome (b.wput (data.take ret)) with
  | mk fl b' =>
    rw [hfl] at hwf hwb hres
    simp only at hwf hwb hres
    have hall := hwp.trans hwf
    rw [List.nil_append, List.append_nil] at hall
    have hwd : b'.wbuf.d = b.wbuf.d + ret := by rw [hwb, hpd]
    have hwh' := hwf.ok.wh_le
    obtain ⟨rfl, hne, e, snk, hc, rfl⟩ | ⟨hfl0, hmono, hprog⟩ := hres
    · have hne' : ¬ NoErr bio.snk.sched := fun h0 => hne (hwp.noErr h0)
      rw [if_pos (show (-1 : ℤ) < 0 by decide)]
      by_cases h0 : ret = 0
      · rw [if_pos h0]
        subst h0
        exact ⟨by simpa using hall, .inl ⟨rfl, hne'⟩⟩
      rw [if_neg h0]
      split_ifs with hlt
      · -- the bytes just put are taken back
        have := hw.trans (wunput_spec hw.ok hroom hc hwf.noErr e)
        refine ⟨?_, .inl ⟨rfl, hne'⟩⟩
        simpa [Bufio.wput, Charbuf.put, htl] using this
      · refine ⟨by simpa using hall, .inr ⟨by simp, ?_, fun h1 => absurd h1 (by simpa using h0)⟩⟩
        simp only [biowdata] at *
        omega
    · rw [if_neg (by omega)]
      refine ⟨by simpa using hall, .inr ⟨by simp, ?_, fun h1 hd => ?_⟩⟩
      · simp only [biowdata] at *
        omega
      · have hd0 := List.length_pos_iff.mpr hd
        have hret0 : ret = 0 := by simpa using h1
        have hf := hfull (by omega)
        have hp := hprog (by omega)
        simp only [biowdata] at *
        omega

theorem bioprintfLoop_fit {bio : Bufio} {text : Bytes} (fuel : ℕ)
    (h : text.length < bio.wbuf.s - bio.wbuf.d) :
    bioprintfLoop text (fuel + 1) bio = (0, bio.wput text) := by
  rw [bioprintfLoop, if_pos h]

/-- The second round of the loop of `bioprintf` finds the room it needs. -/
theorem bioprintfLoop_spec {bio : Bufio} (h : bio.WOk) (text : Bytes) :
    ∃ ret b, bioprintfLoop text 2 bio = (ret, b) ∧
      (ret = 0 ∧ bio.Writes text b ∨ ret = -1 ∧ bio.Writes [] b ∧ ¬ NoErr bio.snk.sched) := by
  by_cases hfit : text.length < bio.wbuf.s - bio.wbuf.d
  · exact ⟨0, _, bioprintfLoop_fit 1 hfit, .inl ⟨rfl, wput_spec h text (by omega)⟩⟩
  · obtain ⟨hw, hres⟩ := biowensure_spec h (text.length + 1)
    rw [bioprintfLoop, if_neg hfit]
    cases hen : biowensure bio (text.length + 1) with
    | mk ret b =>
      rw [hen] at hw hres
      obtain ⟨rfl, hroom⟩ | ⟨rfl, hne⟩ := hres
      · simp only at hw hroom
        have := hw.trans (wput_spec hw.ok text (by omega))
        exact ⟨0, _, bioprintfLoop_fit 0 (by omega), .inl ⟨rfl, this⟩⟩
      · exact ⟨-1, b, rfl, .inr ⟨rfl, hw, hne⟩⟩

theorem bioprintf_spec {bio : Bufio} (h : bio.WOk) (flen : ℕ) (text : Bytes) :
    bio.Writes (if (bioprintf bio flen text).1 = 0 then text else []) (bioprintf bio flen text).2 ∧
      ((bioprintf bio flen text).1 = 0 ∨
        (bioprintf bio flen text).1 = -1 ∧ ¬ NoErr bio.snk.sched) := by
  unfold bioprintf
  obtain ⟨hw, hres⟩ := biowensure_spec h flen
  cases hen : biowensure bio flen with
  | mk ret b =>
    rw [hen] at hw hres
    obtain ⟨rfl, -⟩ | ⟨rfl, hne⟩ := hres
    · obtain ⟨ret, b', hloop, hcase⟩ := bioprintfLoop_spec hw.ok text
      simp only [lt_irrefl, if_false, hloop]
      obtain ⟨rfl, hw'⟩ | ⟨rfl, hw', hne⟩ := hcase
      · exact ⟨hw.trans hw', .inl rfl⟩
      · exact ⟨hw.trans hw', .inr ⟨rfl, fun h0 => hne (hw.noErr h0)⟩⟩
    · exact ⟨hw, .inr ⟨rfl, hne⟩⟩

/-! ## Copying into the buffer -/

theorem biocopysome_writes {bio : Bufio} (h : bio.WOk) (src : Bufio) :
    bio.Writes (src.rdata.take (biocopysome bio src).1.toNat) (biocopysome bio src).2.1 := by
  unfold biocopysome
  split_ifs with hrh
  · simpa using Bufio.Writes.refl h
  · have hw := (biowritesome_spec h (src.rbuf.window src.rh)).1
    cases hws : biowritesome bio (src.rbuf.window src.rh) with
    | mk ret b =>
      rw [hws] at hw
      simp only at hw ⊢
      split_ifs with hneg
      · simpa [Int.toNat_of_nonpos hneg.le] using hw
      · exact hw

theorem biocopybuf_writes {bio src : Bufio} (h : bio.WOk) (hs : src.ROk) :
    bio.Writes (src.rdata.take (biocopybuf bio src).1.toNat) (biocopybuf bio src).2.1 := by
  unfold biocopybuf
  obtain ⟨h1, -, -⟩ := wgrow_spec h
  obtain ⟨h2, -, -, -⟩ := wcompact_spec h1.ok
  generalize bio.wgrow.wcompact = b at h2
  have hw := h1.trans h2
  simp only [Int.toNat_natCast]
  generalize hn : min (biordata src) (b.wbuf.s - b.wbuf.d) = n
  have hrh := hs.rh_le
  have hd := hs.buf.d_le
  have hpk : peek src.rbuf.b src.rh n = src.rdata.take n := by
    simp only [biordata] at hn
    unfold Bufio.rdata Charbuf.window peek
    rw [List.take_take, min_eq_left (by omega)]
  have hl : (peek src.rbuf.b src.rh n).length = n := by
    simp only [biordata] at hn
    exact length_peek (by omega)
  have hds : b.wbuf.d ≤ b.wbuf.s := hw.ok.buf.d_le.trans hw.ok.buf.b_le
  rw [← hpk]
  exact hw.trans (wput_spec hw.ok (peek src.rbuf.b src.rh n) (by omega))

/-! ## Runs of writing operations -/

/-- The operations on the write side. `printf` has the length of its format and what it
    expands to; the last two copy from a `bufio` whose read side is in order. -/
inductive WriteOp
  | putc (c : UInt8)
  | write (data : Bytes)
  | writesome (data : Bytes)
  | printf (flen : ℕ) (text : Bytes)
  | copysome (src : Bufio)
  | copybuf (src : { src : Bufio // src.ROk })
  | flush
  | flushsome
  | wensure (bytes : ℕ)

/-- One operation, with the bytes that its return value reports as accepted. -/
def WriteOp.step (bio : Bufio) : WriteOp → Bytes × Bufio
  | .putc c => (if (bioputc bio c).1 = 0 then [c] else [], (bioputc bio c).2)
  | .write data => (data.take (biowrite bio data).1.toNat, (biowrite bio data).2)
  | .writesome data => (data.take (biowritesome bio data).1.toNat, (biowritesome bio data).2)
  | .printf flen text =>
    (if (bioprintf bio flen text).1 = 0 then text else [], (bioprintf bio flen text).2)
  | .copysome src => (src.rdata.take (biocopysome bio src).1.toNat, (biocopysome bio src).2.1)
  | .copybuf src => (src.1.rdata.take (biocopybuf bio src).1.toNat, (biocopybuf bio src).2.1)
  | .flush => ([], (bioflush bio).2)
  | .flushsome => ([], (bioflushsome bio).2)
  | .wensure bytes => ([], (biowensure bio bytes).2)

theorem WriteOp.step_writes {bio : Bufio} (h : bio.WOk) (op : WriteOp) :
    bio.Writes (op.step bio).1 (op.step bio).2 := by
  cases op with
  | putc c => exact bioputc_spec h c
  | write data => exact (biowrite_spec h data).1
  | writesome data => exact (biowritesome_spec h data).1
  | printf flen text => exact (bioprintf_spec h flen text).1
  | copysome src => exact biocopysome_writes h src
  | copybuf src => exact biocopybuf_writes h src.2
  | flush => exact (bioflush_spec h).1
  | flushsome => exact (bioflushsome_spec h).1
  | wensure bytes => exact (biowensure_spec h bytes).1

theorem bioopen_wok (src : Source) (snk : Sink) : (bioopen src snk).WOk :=
  ⟨by simp [bioopen], ⟨by simp [bioopen], by simp [bioopen]⟩, by simp [bioopen]⟩

theorem writeRun_writes {bio : Bufio} (h : bio.WOk) (ops : List WriteOp) :
    bio.Writes (runOps WriteOp.step bio ops).1 (runOps WriteOp.step bio ops).2 :=
  runOps_rel Bufio.WOk Bufio.Writes (fun _ => .refl) (fun _ _ _ _ _ => .trans)
    (fun _ op h => (op.step_writes h).ok) (fun _ op h => op.step_writes h) h ops

/-- **The write side is a faithful FIFO.** For any schedule of the underlying write and any
    run of writing operations on a new `bufio`: the bytes reported as accepted are those the
    underlying write has consumed, followed by `wbuf[wh..d)`; and `wh ≤ d ≤ s`. -/
theorem bufio_write_fifo (src : Source) (sched : List Answer) (ops : List WriteOp) :
    let r := runOps WriteOp.step (bioopen src { sched := sched }) ops
    r.1 = r.2.snk.consumed ++ r.2.wdata ∧ r.2.wh ≤ r.2.wbuf.d ∧ r.2.wbuf.d ≤ r.2.wbuf.s := by
  intro r
  have hr := writeRun_writes (bioopen_wok src { sched := sched }) ops
  exact ⟨hr.written.symm, hr.ok.wh_le, hr.ok.buf.d_le.trans hr.ok.buf.b_le⟩

end Ashd
