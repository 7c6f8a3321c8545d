import Ashd.Common.Run
import Ashd.Common.Scan
import Ashd.Lib.Bufio

/-!
# The read side of `bufio` is a faithful FIFO

`Bufio.ROk` is the invariant of the read side and `Bufio.unread` the bytes a
reader will still get: those in `rbuf[rh..d)` and those that the underlying read
will deliver. Every operation keeps the invariant, takes its bytes from the
front of `unread` and leaves the write side alone.

Main results:
* `biofillRoom_spec`: the rearrangements of `biofill` keep the buffered bytes and
  leave room for the read, whichever of them happen.
* `bufio_read_fifo`: for any run of reading operations, the bytes consumed
  followed by `rbuf[rh..d)` are the bytes delivered.
* `biogetc_isReader`: `biogetc` reads `unread` byte by byte.
-/

namespace Ashd

/-- The bytes in `rbuf[rh..d)`. -/
def Bufio.rdata (bio : Bufio) : Bytes := bio.rbuf.window bio.rh

/-- The bytes a reader will still get before end-of-file. -/
def Bufio.unread (bio : Bufio) : Bytes := bio.rdata ++ bio.src.avail

/-- The invariant of the read side. -/
structure Bufio.ROk (bio : Bufio) : Prop where
  hint : 0 < bio.bufhint
  buf : bio.rbuf.Ok
  rh_le : bio.rh ≤ bio.rbuf.d
  eof : bio.eof = true → bio.src.avail = []
  lens : 0 ∉ bio.src.lens

/-- What the write side consists of. -/
def Bufio.wside (bio : Bufio) : Charbuf × ℕ × Sink × ℕ := (bio.wbuf, bio.wh, bio.snk, bio.bufhint)

theorem Bufio.ROk.length_rdata {bio : Bufio} (h : bio.ROk) : bio.rdata.length = biordata bio :=
  length_window h.buf h.rh_le

/-! ## The underlying read -/

theorem NoErr.tail {a : Answer} {sched : List Answer} (h : NoErr (a :: sched)) : NoErr sched :=
  fun e he => h e (List.mem_cons_of_mem _ he)

/-- A schedule without failures stays one, and then a read does not fail. -/
theorem Source.read_noErr {src : Source} (h : NoErr src.sched) (len : ℕ) :
    NoErr (src.read len).2.sched ∧ ∃ data, (src.read len).1 = .ok data := by
  unfold Source.read
  split
  · exact ⟨by simp [NoErr, Source.deliver], _, rfl⟩
  · rename_i heq
    exact ⟨(heq ▸ h).tail, _, rfl⟩
  · rename_i e _ heq
    exact absurd (by rw [heq]; simp) (h e)

theorem Source.deliver_avail (src : Source) (n len : ℕ) (sched : List Answer) :
    src.avail = src.avail.take n ++ (src.deliver n len sched).avail :=
  (List.take_append_drop n src.avail).symm

/-- A read delivers a prefix of what is to come, of at most the length asked for; it
    delivers nothing only at the end or if nothing was asked for. -/
theorem Source.read_ok {src src' : Source} {len : ℕ} {data : Bytes}
    (h : src.read len = (.ok data, src')) :
    src.avail = data ++ src'.avail ∧ src'.delivered = src.delivered ++ data ∧
      data.length ≤ len ∧ (data = [] → 0 < len → src.avail = []) ∧
      src'.lens = len :: src.lens := by
  unfold Source.read at h
  split at h
  · cases h
    refine ⟨src.deliver_avail _ _ _, rfl, by simp, fun h0 hlen => ?_, rfl⟩
    rcases List.take_eq_nil_iff.mp h0 with h0 | h0
    · omega
    · exact h0
  · cases h
    refine ⟨src.deliver_avail _ _ _, rfl, by simp, fun h0 hlen => ?_, rfl⟩
    rcases List.take_eq_nil_iff.mp h0 with h0 | h0
    · omega
    · exact h0
  · cases h

theorem Source.read_error {src src' : Source} {len : ℕ} {e : ℤ}
    (h : src.read len = (.error e, src')) :
    src'.avail = src.avail ∧ src'.delivered = src.delivered ∧ src'.lens = len :: src.lens := by
  unfold Source.read at h
  split at h <;> cases h
  exact ⟨rfl, rfl, rfl⟩

/-! ## Making room -/

/-- `b` holds the same unread bytes as `a`, and the same write side. -/
structure Bufio.SameRead (a b : Bufio) : Prop where
  rdata : b.rdata = a.rdata
  src : b.src = a.src
  eof : b.eof = a.eof
  wside : b.wside = a.wside

theorem Bufio.SameRead.refl (a : Bufio) : a.SameRead a := ⟨rfl, rfl, rfl, rfl⟩

theorem Bufio.SameRead.trans {a b c : Bufio} (h : a.SameRead b) (h' : b.SameRead c) :
    a.SameRead c :=
  ⟨h'.rdata.trans h.rdata, h'.src.trans h.src, h'.eof.trans h.eof, h'.wside.trans h.wside⟩

theorem Bufio.SameRead.bufhint {a b : Bufio} (h : a.SameRead b) : b.bufhint = a.bufhint :=
  congrArg (fun w => w.2.2.2) h.wside

theorem rreset_spec {bio : Bufio} (h : bio.ROk) :
    bio.rreset.ROk ∧ bio.SameRead bio.rreset ∧ bio.rreset.rbuf.s = bio.rbuf.s := by
  unfold Bufio.rreset
  split_ifs with hd
  · refine ⟨⟨h.hint, ⟨Nat.zero_le _, h.buf.b_le⟩, le_rfl, h.eof, h.lens⟩,
      ⟨?_, rfl, rfl, rfl⟩, rfl⟩
    simp [Bufio.rdata, Charbuf.window, hd]
  · exact ⟨h, Bufio.SameRead.refl _, rfl⟩

theorem rgrow_spec {bio : Bufio} (h : bio.ROk) :
    bio.rgrow.ROk ∧ bio.SameRead bio.rgrow ∧ bio.rgrow.rbuf.d < bio.rgrow.rbuf.s := by
  unfold Bufio.rgrow
  have hds : bio.rbuf.d ≤ bio.rbuf.s := h.buf.d_le.trans h.buf.b_le
  by_cases hd : bio.rbuf.d = bio.rbuf.s
  · rw [if_pos hd]
    by_cases hrh : bio.rh > 0
    · rw [if_pos hrh]
      refine ⟨⟨h.hint, h.buf.shift h.rh_le, Nat.zero_le _, h.eof, h.lens⟩,
        ⟨window_shift h.buf h.rh_le, rfl, rfl, rfl⟩, ?_⟩
      have := h.rh_le
      simp only [Charbuf.shift]
      omega
    · rw [if_neg hrh]
      simp only
      generalize hns : (if bio.rbuf.s * 2 < bio.bufhint then bio.bufhint else bio.rbuf.s * 2) = ns
      obtain ⟨-, hsd, -⟩ := sizebuf_eq h.buf ns
      have hsz := le_sizebuf_s bio.rbuf ns
      have hhint := h.hint
      refine ⟨⟨h.hint, h.buf.sizebuf ns, by simp only [hsd]; exact h.rh_le, h.eof, h.lens⟩,
        ⟨window_sizebuf h.buf ns bio.rh, rfl, rfl, rfl⟩, ?_⟩
      simp only [hsd]
      split_ifs at hns <;> omega
  · rw [if_neg hd]
    exact ⟨h, Bufio.SameRead.refl _, by omega⟩

theorem rshrink_spec {bio : Bufio} (h : bio.ROk) (hd : bio.rbuf.d < bio.rbuf.s) :
    bio.rshrink.ROk ∧ bio.SameRead bio.rshrink ∧ bio.rshrink.rbuf.d < bio.rshrink.rbuf.s := by
  unfold Bufio.rshrink
  split_ifs with hs
  · exact ⟨⟨h.hint, h.buf.realloc hs.2.le, h.rh_le, h.eof, h.lens⟩,
      ⟨window_realloc hs.2.le bio.rh, rfl, rfl, rfl⟩, hs.2⟩
  · exact ⟨h, Bufio.SameRead.refl _, hd⟩

/-- Whichever of its rearrangements `biofill` makes, the buffered bytes stay, and there is
    room for the read. -/
theorem biofillRoom_spec {bio : Bufio} (h : bio.ROk) :
    bio.rreset.rgrow.rshrink.ROk ∧ bio.SameRead bio.rreset.rgrow.rshrink ∧
      bio.rreset.rgrow.rshrink.rbuf.d < bio.rreset.rgrow.rshrink.rbuf.s := by
  obtain ⟨h1, s1, -⟩ := rreset_spec h
  obtain ⟨h2, s2, hd⟩ := rgrow_spec h1
  obtain ⟨h3, s3, hd'⟩ := rshrink_spec h2 hd
  exact ⟨h3, (s1.trans s2).trans s3, hd'⟩

/-- `a` becomes `b` while the bytes `taken` are consumed: what was delivered meanwhile
    went to the end of the buffer, and `taken` was taken from its front. -/
structure Bufio.Reads (a : Bufio) (taken : Bytes) (b : Bufio) : Prop where
  ok : b.ROk
  data : ∃ data, a.rdata ++ data = taken ++ b.rdata ∧ a.src.avail = data ++ b.src.avail ∧
    b.src.delivered = a.src.delivered ++ data
  noErr : NoErr a.src.sched → NoErr b.src.sched
  wside : b.wside = a.wside

theorem Bufio.Reads.refl {a : Bufio} (h : a.ROk) : a.Reads [] a := ⟨h, ⟨[], by simp⟩, id, rfl⟩

theorem Bufio.Reads.trans {a b c : Bufio} {t t' : Bytes} (h : a.Reads t b) (h' : b.Reads t' c) :
    a.Reads (t ++ t') c := by
  obtain ⟨d, hr, ha, hd⟩ := h.data
  obtain ⟨d', hr', ha', hd'⟩ := h'.data
  exact ⟨h'.ok, ⟨d ++ d', by rw [← List.append_assoc, hr, List.append_assoc, hr', List.append_assoc],
    by rw [ha, ha', List.append_assoc], by rw [hd', hd, List.append_assoc]⟩, h'.noErr ∘ h.noErr, h'.wside.trans h.wside⟩

theorem Bufio.Reads.unread {a b : Bufio} {t : Bytes} (h : a.Reads t b) :
    a.unread = t ++ b.unread := by
  obtain ⟨d, hr, ha, -⟩ := h.data
  simp only [Bufio.unread, ha]
  rw [← List.append_assoc, hr, List.append_assoc]

theorem Bufio.Reads.delivered {a b : Bufio} {t : Bytes} (h : a.Reads t b) :
    b.src.delivered ++ b.src.avail = a.src.delivered ++ a.src.avail := by
  obtain ⟨d, -, ha, hd⟩ := h.data
  rw [hd, ha, List.append_assoc]

theorem Bufio.Reads.bufhint {a b : Bufio} {t : Bytes} (h : a.Reads t b) : b.bufhint = a.bufhint :=
  congrArg (fun w => w.2.2.2) h.wside

theorem Bufio.SameRead.reads {a b : Bufio} (h : a.SameRead b) (hb : b.ROk) : a.Reads [] b :=
  ⟨hb, ⟨[], by rw [h.rdata]; simp, by rw [h.src]; simp, by rw [h.src]; simp⟩,
    by rw [h.src]; exact id, h.wside⟩

/-! ## `biofill` -/

/-- The read that `biofill` makes once there is room. -/
theorem biofillRead_spec {bio : Bufio} (h : bio.ROk) (hroom : bio.rbuf.d < bio.rbuf.s)
    {res : Except ℤ Bytes} {src : Source}
    (hr : bio.src.read (bio.rbuf.s - bio.rbuf.d) = (res, src)) :
    match res with
    | .error e => bio.Reads [] { bio with err := e, src := src }
    | .ok [] => bio.Reads [] { bio with eof := true, src := src }
    | .ok data => bio.Reads [] { bio with rbuf := bio.rbuf.put data, src := src } := by
  have hlens : src.lens = (bio.rbuf.s - bio.rbuf.d) :: bio.src.lens → 0 ∉ src.lens := by
    intro hl
    rw [hl]
    simpa [not_or] using ⟨by omega, h.lens⟩
  have hne : NoErr bio.src.sched → NoErr src.sched := by
    intro h0
    have := (Source.read_noErr h0 (bio.rbuf.s - bio.rbuf.d)).1
    rwa [hr] at this
  match res with
  | .error e =>
    obtain ⟨ha, hd, hl⟩ := Source.read_error hr
    exact ⟨⟨h.hint, h.buf, h.rh_le, fun h0 => by rw [ha]; exact h.eof h0, hlens hl⟩,
      ⟨[], List.append_nil _, ha.symm, by rw [hd, List.append_nil]⟩, hne, rfl⟩
  | .ok [] =>
    obtain ⟨ha, hd, -, hnil, hl⟩ := Source.read_ok hr
    have hav : src.avail = [] := by
      have := hnil rfl (by omega)
      rw [ha] at this
      simpa using this
    exact ⟨⟨h.hint, h.buf, h.rh_le, fun _ => hav, hlens hl⟩, ⟨[], List.append_nil _, ha, hd⟩, hne,
      rfl⟩
  | .ok (c :: data) =>
    obtain ⟨ha, hd, hle, -, hl⟩ := Source.read_ok hr
    have hrh := h.rh_le
    refine ⟨⟨h.hint, h.buf.put (by omega), ?_, fun h0 => ?_, hlens hl⟩,
      ⟨c :: data, (window_put h.buf h.rh_le _).symm, ha, hd⟩, hne, rfl⟩
    · simp only [Charbuf.put]; omega
    · have := h.eof h0
      rw [ha] at this
      simp at this

theorem biofill_spec {bio : Bufio} (h : bio.ROk) :
    bio.Reads [] (biofill bio).2 ∧
      (0 < (biofill bio).1 → (biofill bio).1 = biordata (biofill bio).2 ∧
        biordata bio < biordata (biofill bio).2) ∧
      ((biofill bio).1 = 0 → (biofill bio).2.eof = true) ∧
      ((biofill bio).1 ≤ 0 → (biofill bio).2.rdata = bio.rdata) := by
  unfold biofill
  by_cases he : bio.eof = true
  · rw [if_pos he]
    exact ⟨.refl h, by simp, fun _ => he, fun _ => rfl⟩
  rw [if_neg he]
  obtain ⟨hok, hsame, hroom⟩ := biofillRoom_spec h
  generalize bio.rreset.rgrow.rshrink = b at hok hsame hroom
  have hfill := hsame.reads hok
  simp only
  cases hr : b.src.read (b.rbuf.s - b.rbuf.d) with
  | mk res src =>
    have hread := biofillRead_spec hok hroom hr
    match res with
    | .error e => exact ⟨hfill.trans hread, by simp, by simp, fun _ => hsame.rdata⟩
    | .ok [] => exact ⟨hfill.trans hread, by simp, fun _ => rfl, fun _ => hsame.rdata⟩
    | .ok (c :: data) =>
      have hrh := hok.rh_le
      have hlen : biordata bio = biordata b := by
        rw [← h.length_rdata, ← hok.length_rdata, hsame.rdata]
      have hput : biordata { b with rbuf := b.rbuf.put (c :: data), src := src } =
          biordata b + (data.length + 1) := by
        simp only [biordata, Charbuf.put, List.length_cons]; omega
      refine ⟨hfill.trans hread, fun _ => ⟨rfl, ?_⟩, ?_, ?_⟩ <;> simp only [hput, hlen] <;> omega

/-- When `biofill` got nothing, everything to be read is where it was. -/
theorem biofill_nothing {bio : Bufio} (h : bio.ROk) (hret : (biofill bio).1 ≤ 0) :
    (biofill bio).2.rdata = bio.rdata ∧ (biofill bio).2.src.avail = bio.src.avail := by
  obtain ⟨hf, -, -, hnone⟩ := biofill_spec h
  have hr := hnone hret
  refine ⟨hr, ?_⟩
  have hu := hf.unread
  simp only [Bufio.unread, hr, List.nil_append] at hu
  exact (List.append_cancel_left hu).symm

theorem biofill_noErr {bio : Bufio} (h : NoErr bio.src.sched) (hok : bio.ROk) :
    0 ≤ (biofill bio).1 := by
  unfold biofill
  split_ifs
  · exact le_rfl
  · obtain ⟨-, hsame, -⟩ := biofillRoom_spec hok
    generalize bio.rreset.rgrow.rshrink = b at hsame
    obtain ⟨-, data, hd⟩ := Source.read_noErr (hsame.src ▸ h) (b.rbuf.s - b.rbuf.d)
    simp only
    cases hr : b.src.read (b.rbuf.s - b.rbuf.d) with
    | mk res src =>
      rw [hr] at hd
      simp only at hd
      subst hd
      cases data with
      | nil => exact le_rfl
      | cons c data => exact Int.natCast_nonneg _

/-- If no read fails, `biofill` gets something as long as not all of it is buffered. -/
theorem biofill_pos {bio : Bufio} (hok : bio.ROk) (h : NoErr bio.src.sched)
    (hlt : biordata bio < bio.unread.length) : 0 < (biofill bio).1 := by
  by_contra hle
  obtain ⟨hr, -, hzero, -⟩ := biofill_spec hok
  have h0 := biofill_noErr h hok
  obtain ⟨-, hav⟩ := biofill_nothing hok (not_lt.mp hle)
  rw [Bufio.unread, ← hav, hr.ok.eof (hzero (by omega)), List.append_nil, hok.length_rdata] at hlt
  omega

/-- What may still come of the underlying read: bytes, and the end. -/
def Bufio.coming (bio : Bufio) : ℕ := bio.src.avail.length + if bio.eof then 0 else 1

/-- A read that does not fail brings the end nearer. -/
theorem biofill_coming {bio : Bufio} (h : bio.ROk) :
    (biofill bio).2.coming ≤ bio.coming ∧
      (bio.eof = false → 0 ≤ (biofill bio).1 → (biofill bio).2.coming < bio.coming) := by
  by_cases he : bio.eof = true
  · have : biofill bio = (0, bio) := by unfold biofill; rw [if_pos he]
    simp [this, he]
  · obtain ⟨hr, hpos, hzero, -⟩ := biofill_spec h
    obtain ⟨data, hd, ha, -⟩ := hr.data
    have hla := congrArg List.length ha
    have hlr := congrArg List.length hd
    simp only [List.length_append, List.length_nil, h.length_rdata, hr.ok.length_rdata] at hla hlr
    have hflag : ∀ b : Bool, (if b then 0 else 1 : ℕ) ≤ 1 := by decide
    have := hflag (biofill bio).2.eof
    simp only [Bufio.coming, if_neg he]
    refine ⟨by omega, fun _ hret => ?_⟩
    rcases hret.lt_or_eq with hret | hret
    · have := (hpos hret).2
      omega
    · rw [hzero hret.symm]
      simp only [if_true]
      omega

theorem rgrow_size (bio : Bufio) (hspace : biordata bio < bio.bufhint) :
    bio.rgrow.rbuf.s ≤ max bio.rbuf.s (4 * bio.bufhint) := by
  unfold Bufio.rgrow
  by_cases hd : bio.rbuf.d = bio.rbuf.s
  · rw [if_pos hd]
    by_cases hrh : bio.rh > 0
    · rw [if_pos hrh]
      exact le_max_left _ _
    · rw [if_neg hrh]
      simp only [biordata] at hspace ⊢
      generalize hns : (if bio.rbuf.s * 2 < bio.bufhint then bio.bufhint else bio.rbuf.s * 2) = ns
      have := sizebuf_le bio.rbuf ns
      split_ifs at hns <;> omega
  · rw [if_neg hd]
    exact le_max_left _ _

/-- A buffer that is only filled when it holds less than `bufhint` does not grow large. -/
theorem biofill_size {bio : Bufio} (hspace : biordata bio < bio.bufhint) :
    (biofill bio).2.rbuf.s ≤ max bio.rbuf.s (4 * bio.bufhint) := by
  unfold biofill
  split_ifs
  · exact le_max_left _ _
  have hr : biordata bio.rreset ≤ biordata bio ∧ bio.rreset.rbuf.s = bio.rbuf.s ∧
      bio.rreset.bufhint = bio.bufhint := by
    unfold Bufio.rreset
    split_ifs
    · exact ⟨Nat.zero_le _, rfl, rfl⟩
    · exact ⟨le_rfl, rfl, rfl⟩
  have hg := rgrow_size bio.rreset (by omega)
  have hs : bio.rreset.rgrow.rshrink.rbuf.s ≤ bio.rreset.rgrow.rbuf.s := by
    unfold Bufio.rshrink
    split_ifs with hs
    · exact hs.1.le
    · exact le_rfl
  generalize bio.rreset.rgrow.rshrink = b at hs
  have hle : b.rbuf.s ≤ max bio.rbuf.s (4 * bio.bufhint) := by omega
  simp only
  cases b.src.read (b.rbuf.s - b.rbuf.d) with
  | mk res src =>
    match res with
    | .error e => exact hle
    | .ok [] => exact hle
    | .ok (c :: data) => exact hle

/-! ## The reading operations -/

theorem fillLoop_spec (bytes : ℕ) :
    ∀ fuel (bio : Bufio), bio.ROk → bytes ≤ biordata bio + fuel →
      bio.Reads [] (fillLoop bytes fuel bio).2 ∧
        ((fillLoop bytes fuel bio).1 = biordata (fillLoop bytes fuel bio).2 ∧
            bytes ≤ biordata (fillLoop bytes fuel bio).2 ∨
          (fillLoop bytes fuel bio).1 ≤ 0 ∧ biordata (fillLoop bytes fuel bio).2 < bytes) := by
  intro fuel
  induction fuel with
  | zero => intro bio h hb; exact ⟨.refl h, .inl ⟨rfl, by simpa [fillLoop] using hb⟩⟩
  | succ fuel ih =>
    intro bio h hb
    rw [fillLoop]
    by_cases hlt : biordata bio < bytes
    · rw [if_pos hlt]
      obtain ⟨hf, hpos, -, hnone⟩ := biofill_spec h
      cases hbf : biofill bio with
      | mk ret b =>
        rw [hbf] at hf hpos hnone
        by_cases hret : ret ≤ 0
        · simp only [if_pos hret]
          refine ⟨hf, .inr ⟨hret, ?_⟩⟩
          rw [← hf.ok.length_rdata, hnone hret, h.length_rdata]
          exact hlt
        · simp only [if_neg hret]
          obtain ⟨hf', hr⟩ := ih b hf.ok (by have := (hpos (by omega)).2; simp only at this; omega)
          exact ⟨hf.trans hf', hr⟩
    · rw [if_neg hlt]
      exact ⟨.refl h, .inl ⟨rfl, by simp only; omega⟩⟩

/-- The bound on the iterations does not show: `fillLoop` is the `while` loop. -/
theorem fillLoop_fuel (bytes : ℕ) :
    ∀ fuel fuel' (bio : Bufio), bio.ROk → bytes ≤ biordata bio + fuel →
      bytes ≤ biordata bio + fuel' → fillLoop bytes fuel bio = fillLoop bytes fuel' bio := by
  intro fuel
  induction fuel with
  | zero =>
    intro fuel' bio _ hb _
    cases fuel' with
    | zero => rfl
    | succ n => rw [fillLoop, fillLoop, if_neg (by omega)]
  | succ fuel ih =>
    intro fuel' bio h hb hb'
    cases fuel' with
    | zero => rw [fillLoop, fillLoop, if_neg (by omega)]
    | succ n =>
      rw [fillLoop, fillLoop]
      by_cases hlt : biordata bio < bytes
      · rw [if_pos hlt, if_pos hlt]
        obtain ⟨hf, hpos, -, -⟩ := biofill_spec h
        by_cases hret : (biofill bio).1 ≤ 0
        · simp only [hret, if_true]
        · simp only [hret, if_false]
          have := (hpos (by omega)).2
          exact ih n _ hf.ok (by omega) (by omega)
      · rw [if_neg hlt, if_neg hlt]

/-- Advancing `rh` takes bytes from the front. -/
theorem skip_spec {bio : Bufio} (h : bio.ROk) {n : ℕ} (hn : n ≤ biordata bio) :
    bio.Reads (peek bio.rbuf.b bio.rh n) (bio.skip n) := by
  have hrh := h.rh_le
  simp only [biordata] at hn
  refine ⟨⟨h.hint, h.buf, by simp only [Bufio.skip]; omega, h.eof, h.lens⟩, ⟨[], ?_, rfl, ?_⟩,
    id, rfl⟩
  · rw [List.append_nil]
    exact peek_eq_append (by omega)
  · rw [List.append_nil]; rfl

/-- `biogetc` takes one byte, or none when the read fails or the end is reached. -/
theorem biogetc_spec {bio : Bufio} (h : bio.ROk) :
    bio.Reads (biogetc bio).1.toList (biogetc bio).2 := by
  unfold biogetc
  obtain ⟨hf, hr⟩ := fillLoop_spec 1 1 bio h (by omega)
  cases hbf : fillLoop 1 1 bio with
  | mk ret b =>
    rw [hbf] at hf hr
    simp only at hr
    by_cases hret : ret ≤ 0
    · simp only [if_pos hret]
      exact hf
    · simp only [if_neg hret]
      have hb : 1 ≤ biordata b := by omega
      have hok := hf.ok
      have hd : b.rbuf.d ≤ b.rbuf.b.length := hok.buf.d_le
      have hlt : b.rh < b.rbuf.b.length := by simp only [biordata] at hb; omega
      have hone : peek b.rbuf.b b.rh 1 = [b.rbuf.b[b.rh]] := by
        unfold peek
        rw [List.drop_eq_getElem_cons hlt, List.take_succ_cons, List.take_zero]
      have := hf.trans (skip_spec hok hb)
      rw [hone] at this
      rw [List.getElem?_eq_getElem hlt]
      exact this

theorem bioreadsome_spec {bio : Bufio} (h : bio.ROk) (len : ℕ) :
    bio.Reads (bioreadsome bio len).2.1 (bioreadsome bio len).2.2 := by
  unfold bioreadsome
  have hstep : bio.Reads [] (if bio.rh ≥ bio.rbuf.d then biofill bio else (1, bio)).2 := by
    split_ifs
    · exact (biofill_spec h).1
    · exact .refl h
  cases hbf : (if bio.rh ≥ bio.rbuf.d then biofill bio else (1, bio)) with
  | mk ret b =>
    rw [hbf] at hstep
    by_cases hret : ret ≤ 0
    · simp only [if_pos hret]
      exact hstep
    · simp only [if_neg hret]
      exact hstep.trans (skip_spec hstep.ok (min_le_right _ _))

/-- `biowritesome` reports `-1` or at most what it was given. -/
theorem biowritesome_ret (bio : Bufio) (data : Bytes) :
    (biowritesome bio data).1 = -1 ∨
      0 ≤ (biowritesome bio data).1 ∧ (biowritesome bio data).1 ≤ data.length := by
  unfold biowritesome
  simp only
  split_ifs <;> simp

theorem biocopysome_reads {bio : Bufio} (h : bio.ROk) (dst : Bufio) :
    bio.Reads (peek bio.rbuf.b bio.rh (biocopysome dst bio).1.toNat) (biocopysome dst bio).2.2 := by
  unfold biocopysome
  split_ifs with hrh
  · simpa using Bufio.Reads.refl h
  · obtain hneg | ⟨h0, hle⟩ := biowritesome_ret dst (bio.rbuf.window bio.rh)
    · simpa [hneg] using Bufio.Reads.refl h
    · rw [length_window h.buf h.rh_le] at hle
      cases hw : biowritesome dst (bio.rbuf.window bio.rh) with
      | mk ret d =>
        rw [hw] at h0 hle
        simp only at h0 hle
        simp only [if_neg (not_lt.mpr h0)]
        exact skip_spec h (by simp only [biordata]; omega)

theorem biocopybuf_reads {bio : Bufio} (h : bio.ROk) (dst : Bufio) :
    bio.Reads (peek bio.rbuf.b bio.rh (biocopybuf dst bio).1.toNat) (biocopybuf dst bio).2.2 :=
  skip_spec h (min_le_left _ _)

/-! ## Runs of reading operations -/

/-- The operations on the read side; `consume` is a caller advancing `rh` over at most
    what is buffered, the last two copy to another `bufio`. -/
inductive ReadOp
  | getc
  | readsome (len : ℕ)
  | rensure (bytes : ℕ)
  | fillsome
  | consume (n : ℕ)
  | copybuf (dst : Bufio)
  | copysome (dst : Bufio)

/-- One operation, with the bytes it takes out of the buffer. -/
def ReadOp.step (bio : Bufio) : ReadOp → Bytes × Bufio
  | .getc => ((biogetc bio).1.toList, (biogetc bio).2)
  | .readsome len => (bioreadsome bio len).2
  | .rensure bytes => ([], (biorensure bio bytes).2)
  | .fillsome => ([], (biofillsome bio).2)
  | .consume n =>
    (peek bio.rbuf.b bio.rh (min n (biordata bio)), bio.skip (min n (biordata bio)))
  | .copybuf dst =>
    (peek bio.rbuf.b bio.rh (biocopybuf dst bio).1.toNat, (biocopybuf dst bio).2.2)
  | .copysome dst =>
    (peek bio.rbuf.b bio.rh (biocopysome dst bio).1.toNat, (biocopysome dst bio).2.2)

theorem ReadOp.step_reads {bio : Bufio} (h : bio.ROk) (op : ReadOp) :
    bio.Reads (op.step bio).1 (op.step bio).2 := by
  cases op with
  | getc => exact biogetc_spec h
  | readsome len => exact bioreadsome_spec h len
  | rensure bytes => exact (fillLoop_spec bytes bytes bio h (by omega)).1
  | fillsome => exact (biofill_spec h).1
  | consume n => exact skip_spec h (min_le_right _ _)
  | copybuf dst => exact biocopybuf_reads h dst
  | copysome dst => exact biocopysome_reads h dst

theorem bioopen_rok (src : Source) (hl : 0 ∉ src.lens) (snk : Sink) : (bioopen src snk).ROk :=
  ⟨by simp [bioopen], ⟨by simp [bioopen], by simp [bioopen]⟩, by simp [bioopen],
    by simp [bioopen], hl⟩

theorem readRun_reads {bio : Bufio} (h : bio.ROk) (ops : List ReadOp) :
    bio.Reads (runOps ReadOp.step bio ops).1 (runOps ReadOp.step bio ops).2 :=
  runOps_rel Bufio.ROk Bufio.Reads (fun _ => .refl) (fun _ _ _ _ _ => .trans)
    (fun _ op h => (op.step_reads h).ok) (fun _ op h => op.step_reads h) h ops

/-- **The read side is a faithful FIFO.** For any schedule of the underlying read and any
    run of reading operations on a new `bufio`: what was consumed, followed by
    `rbuf[rh..d)`, is what has been delivered; that and what is still to come is what was
    to come at the start; no read asked for 0 bytes; and `rh ≤ d ≤ s`. -/
theorem bufio_read_fifo (avail : Bytes) (sched : List Answer) (snk : Sink) (ops : List ReadOp) :
    let r := runOps ReadOp.step (bioopen { avail := avail, sched := sched } snk) ops
    r.1 ++ r.2.rdata = r.2.src.delivered ∧ r.2.src.delivered ++ r.2.src.avail = avail ∧
      0 ∉ r.2.src.lens ∧ r.2.rh ≤ r.2.rbuf.d ∧ r.2.rbuf.d ≤ r.2.rbuf.s := by
  intro r
  have hr := readRun_reads (bioopen_rok { avail := avail, sched := sched } (by simp) snk) ops
  obtain ⟨data, hd, -, hdl⟩ := hr.data
  refine ⟨?_, hr.delivered, hr.ok.lens, hr.ok.rh_le, hr.ok.buf.d_le.trans hr.ok.buf.b_le⟩
  rw [← hd, hdl]
  rfl

/-! ## `biogetc` as a source of bytes -/

/-- `biogetc` reads `unread`, whatever has been read before. -/
theorem biogetc_isReader (a : Bufio) :
    IsReader biogetc Bufio.unread fun b => ∃ t, a.Reads t b where
  some := by
    rintro b c b' ⟨t, h⟩ hc
    have := biogetc_spec h.ok
    rw [hc] at this
    exact ⟨⟨_, h.trans this⟩, this.unread⟩
  none := by
    rintro b b' ⟨t, h⟩ hc
    have := biogetc_spec h.ok
    rw [hc] at this
    exact ⟨⟨_, h.trans this⟩, this.unread.symm⟩

theorem fillLoop_one_pos {bio : Bufio} (h : bio.ROk) (hne : NoErr bio.src.sched)
    (hu : bio.unread ≠ []) : 0 < (fillLoop 1 1 bio).1 := by
  rw [fillLoop]
  by_cases hlt : biordata bio < 1
  · rw [if_pos hlt]
    have hpos := biofill_pos h hne (by have := List.length_pos_iff.mpr hu; omega)
    have hret : ¬ (biofill bio).1 ≤ 0 := by omega
    simp only [if_neg hret, fillLoop]
    obtain ⟨-, hd⟩ := (biofill_spec h).2.1 hpos
    omega
  · rw [if_neg hlt]
    simp only
    omega

/-- If no read fails, `biogetc` gets a byte as long as there is one. -/
theorem biogetc_some {bio : Bufio} (h : bio.ROk) (hne : NoErr bio.src.sched)
    (hu : bio.unread ≠ []) : (biogetc bio).1 ≠ none := by
  have hpos := fillLoop_one_pos h hne hu
  obtain ⟨hr, hres⟩ := fillLoop_spec 1 1 bio h (by omega)
  unfold biogetc
  cases hf : fillLoop 1 1 bio with
  | mk ret b =>
    rw [hf] at hpos hr hres
    simp only at hpos hres
    have hd := hr.ok.buf.d_le
    have hb : 1 ≤ biordata b := by omega
    simp only [biordata] at hb hd
    have hlt : b.rh < b.rbuf.b.length := by omega
    simp only [if_neg (show ¬ ret ≤ 0 by omega), List.getElem?_eq_getElem hlt]
    simp

theorem biogetc_cons {bio : Bufio} (h : bio.ROk) (hne : NoErr bio.src.sched) {c : UInt8}
    {cs : Bytes} (hu : bio.unread = c :: cs) :
    ∃ b, biogetc bio = (some c, b) ∧ bio.Reads [c] b ∧ b.unread = cs := by
  have hsome := biogetc_some h hne (by simp [hu])
  have hr := biogetc_spec h
  cases hc : biogetc bio with
  | mk oc b =>
    rw [hc] at hsome hr
    cases oc with
    | none => exact absurd rfl hsome
    | some d =>
      have hu' := hr.unread
      rw [hu] at hu'
      obtain ⟨rfl, rfl⟩ := List.cons.inj hu'
      exact ⟨b, rfl, hr, rfl⟩

/-! ## Reading and the write side -/

theorem Bufio.Reads.wside_eq {a b : Bufio} {t : Bytes} (h : a.Reads t b) :
    b.wbuf = a.wbuf ∧ b.wh = a.wh ∧ b.snk = a.snk ∧ b.bufhint = a.bufhint := by
  have := h.wside
  simpa [Bufio.wside] using this

end Ashd
