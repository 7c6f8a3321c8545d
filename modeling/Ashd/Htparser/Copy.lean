import Ashd.Htparser.Model

/-!
# Copying from one `bufio` to another

The loop of `passdata` and the inner loop of `recvchunks` alternate between writing
some of what is buffered and filling the buffer. `copyRank` goes down in every round
of either, whatever the underlying calls do: a round that writes nothing has drained
the output, and one that finds nothing to write reads.

Main results:
* `copyRound_spec`: what one round writes.
* `passdataLoop_step`: what one round of `passdata` does.
* `passdata_spec`: what `passdata` copies, in every state of the two buffers.
* `passdata_exact`: that is as much as it was asked for, and no more is read.
-/

namespace Ashd

/-- Nothing has happened to `inb` but reads, and to `out` but writes. -/
def Moves (inb out inb' out' : Bufio) : Prop :=
  (∃ t, inb.Reads t inb') ∧ ∃ u, out.Writes u out'

theorem Moves.refl {inb out : Bufio} (hi : inb.ROk) (ho : out.WOk) : Moves inb out inb out :=
  ⟨⟨[], .refl hi⟩, [], .refl ho⟩

theorem Moves.trans {inb out inb' out' inb'' out'' : Bufio} (h : Moves inb out inb' out')
    (h' : Moves inb' out' inb'' out'') : Moves inb out inb'' out'' := by
  obtain ⟨⟨t, ht⟩, u, hu⟩ := h
  obtain ⟨⟨t', ht'⟩, u', hu'⟩ := h'
  exact ⟨⟨_, ht.trans ht'⟩, _, hu.trans hu'⟩

theorem Moves.rok {inb out inb' out' : Bufio} (h : Moves inb out inb' out') : inb'.ROk :=
  h.1.choose_spec.ok

theorem Moves.wok {inb out inb' out' : Bufio} (h : Moves inb out inb' out') : out'.WOk :=
  h.2.choose_spec.ok

/-- What the copying loops use up. -/
def copyRank (inb out : Bufio) : ℕ := 2 * inb.unread.length + biowdata out + inb.coming

theorem copyRank_lt_copyFuel (inb out : Bufio) : copyRank inb out < copyFuel inb out := by
  unfold copyRank copyFuel Bufio.coming
  split_ifs <;> omega

theorem skip_coming (bio : Bufio) (n : ℕ) : (bio.skip n).coming = bio.coming := rfl

/-- A round copies at most `lim` bytes; it fails only if the write does. -/
theorem copyRound_spec {inb out : Bufio} (hi : inb.ROk) (ho : out.WOk) (lim : ℕ) :
    match copyRound lim inb out with
    | (none, inb', out') => inb' = inb ∧ out.Writes [] out' ∧ ¬ NoErr out.snk.sched
    | (some read, inb', out') => ∃ t, t.length = read ∧ read ≤ lim ∧ inb.Reads t inb' ∧
        out.Writes t out' ∧ inb'.eof = inb.eof ∧ copyRank inb' out' ≤ copyRank inb out ∧
        (0 < lim → 0 < biordata inb → copyRank inb' out' < copyRank inb out) := by
  unfold copyRound
  by_cases hd : biordata inb > 0
  swap
  · rw [if_neg hd]
    exact ⟨[], rfl, Nat.zero_le _, .refl hi, .refl ho, rfl, le_rfl, fun _ h => absurd h hd⟩
  rw [if_pos hd]
  generalize hn : min lim (biordata inb) = n
  have hrh := hi.rh_le
  have hb := hi.buf.d_le
  have hlen : (peek inb.rbuf.b inb.rh n).length = n := by
    simp only [biordata] at hn hd
    exact length_peek (by omega)
  obtain ⟨hw, hres⟩ := biowritesome_spec ho (peek inb.rbuf.b inb.rh n)
  have hret := biowritesome_ret out (peek inb.rbuf.b inb.rh n)
  cases hws : biowritesome out (peek inb.rbuf.b inb.rh n) with
  | mk ret out' =>
    rw [hws] at hw hres hret
    simp only [hlen] at hw hres hret
    obtain ⟨rfl, hne⟩ | ⟨h0, hgrow, hdrain⟩ := hres
    · exact ⟨rfl, by simpa using hw, hne⟩
    · have hle : ret ≤ n := by omega
      simp only [if_neg (not_lt.mpr h0)]
      have htake : (peek inb.rbuf.b inb.rh n).take ret.toNat = peek inb.rbuf.b inb.rh ret.toNat := by
        unfold peek
        rw [List.take_take, min_eq_left (by omega)]
      rw [htake] at hw
      have hskip := skip_spec hi (n := ret.toNat) (by omega)
      have hl : (peek inb.rbuf.b inb.rh ret.toNat).length = ret.toNat := by
        simp only [biordata] at hn
        exact length_peek (by omega)
      have hu := congrArg List.length hskip.unread
      simp only [List.length_append, hl] at hu
      refine ⟨_, hl, by omega, hskip, hw, rfl, ?_, fun hlim _ => ?_⟩
      · simp only [copyRank, skip_coming]
        omega
      · simp only [copyRank, skip_coming]
        have hne : peek inb.rbuf.b inb.rh n ≠ [] := by
          rw [← List.length_pos_iff, hlen]
          omega
        rcases h0.lt_or_eq with h0 | h0
        · omega
        · have := hdrain h0.symm hne
          omega

/-- Filling the buffer between two rounds brings the end of the loop nearer. -/
theorem biofill_copyRank {inb : Bufio} (h : inb.ROk) (out : Bufio) :
    copyRank (biofill inb).2 out ≤ copyRank inb out ∧
      (inb.eof = false → 0 ≤ (biofill inb).1 → copyRank (biofill inb).2 out < copyRank inb out) := by
  obtain ⟨hle, hlt⟩ := biofill_coming h
  have hu : (biofill inb).2.unread = inb.unread := (biofill_spec h).1.unread.symm
  simp only [copyRank, hu]
  refine ⟨by omega, fun he hret => ?_⟩
  have := hlt he hret
  omega

/-- What `passdata` returns after it has copied `t`. -/
structure Passed (max total : ℤ) (inb out : Bufio) (t : Bytes) (r : ℤ × Bufio × Bufio) : Prop where
  reads : inb.Reads t r.2.1
  writes : out.Writes t r.2.2
  ret : r.1 = -1 ∧ ¬ (NoErr inb.src.sched ∧ NoErr out.snk.sched) ∨
    r.1 = total + t.length ∧ (max < 0 ∨ r.1 ≤ max) ∧ (bioeof r.2.1 = true ∨ r.1 = max)

theorem Passed.trans {max total : ℤ} {inb out inb' out' : Bufio} {t t' : Bytes}
    {r : ℤ × Bufio × Bufio} (hr : inb.Reads t inb') (hw : out.Writes t out')
    (h : Passed max (total + t.length) inb' out' t' r) : Passed max total inb out (t ++ t') r where
  reads := hr.trans h.reads
  writes := hw.trans h.writes
  ret := by
    rcases h.ret with ⟨h1, hne⟩ | ⟨h1, h2⟩
    · exact .inl ⟨h1, fun hn => hne ⟨hr.noErr hn.1, hw.noErr hn.2⟩⟩
    · exact .inr ⟨by rw [h1, List.length_append]; push_cast; ring, h2⟩

theorem copyRound_empty {inb out : Bufio} (h : biordata inb = 0) (lim : ℕ) :
    copyRound lim inb out = (some 0, inb, out) := by
  unfold copyRound
  rw [if_neg (by omega)]

theorem biorspace_empty {bio : Bufio} (h : bio.ROk) (hd : biordata bio = 0) : biorspace bio > 0 := by
  have := h.hint
  unfold biorspace
  split_ifs <;> omega

theorem eof_eq_false {bio : Bufio} (h : bioeof bio = false) (hd : biordata bio = 0) :
    bio.eof = false := by
  simp only [biordata] at hd
  have : bio.rh ≥ bio.rbuf.d := by omega
  simpa [bioeof, this] using h

/-- At the end of the input there is nothing left to read. -/
theorem unread_of_bioeof {bio : Bufio} (h : bio.ROk) (he : bioeof bio = true) :
    bio.unread = [] := by
  simp only [bioeof, Bool.and_eq_true, decide_eq_true_eq] at he
  have : bio.rdata = [] := List.length_eq_zero_iff.mp (by
    rw [h.length_rdata]
    simp only [biordata]
    omega)
  simp [Bufio.unread, this, h.eof he.1]

/-- Reads that lead from one state of the underlying read to another, with the number of bytes
    that are available before and after. Each is made while fewer than `max` are. -/
inductive ReadsBelow (max : ℤ) : ℤ → Source → ℤ → Source → Prop
  | none (n : ℤ) (src : Source) : ReadsBelow max n src n src
  | got {n m : ℤ} {src src' src'' : Source} {len : ℕ} {data : Bytes} (hlt : n < max)
      (hread : src.read len = (.ok data, src')) (rest : ReadsBelow max (n + data.length) src' m src'') :
      ReadsBelow max n src m src''
  | failed {n m : ℤ} {src src' src'' : Source} {len : ℕ} {e : ℤ} (hlt : n < max)
      (hread : src.read len = (.error e, src')) (rest : ReadsBelow max n src' m src'') :
      ReadsBelow max n src m src''

theorem ReadsBelow.trans {max a b c : ℤ} {src src' src'' : Source}
    (h : ReadsBelow max a src b src') (h' : ReadsBelow max b src' c src'') :
    ReadsBelow max a src c src'' := by
  induction h with
  | none => exact h'
  | got hlt hread _ ih => exact .got hlt hread (ih h')
  | failed hlt hread _ ih => exact .failed hlt hread (ih h')

/-- `biofill` makes at most one read, and the bytes it gets are then available. -/
theorem biofill_below {max n : ℤ} {bio : Bufio} (h : bio.ROk) (hlt : n < max) :
    ReadsBelow max n bio.src (n - biordata bio + biordata (biofill bio).2) (biofill bio).2.src := by
  have hr := (biofill_spec h).1
  have hd : (biordata (biofill bio).2 : ℤ) - biordata bio =
      (bio.src.avail.length : ℤ) - (biofill bio).2.src.avail.length := by
    have := congrArg List.length hr.unread
    simp only [Bufio.unread, List.length_append, List.length_nil, h.length_rdata,
      hr.ok.length_rdata] at this
    omega
  have hcount : n - biordata bio + biordata (biofill bio).2 =
      n + ((bio.src.avail.length : ℤ) - (biofill bio).2.src.avail.length) := by omega
  rw [hcount]
  clear hcount hd hr
  unfold biofill
  by_cases he : bio.eof = true
  · rw [if_pos he, sub_self, add_zero]
    exact .none n bio.src
  rw [if_neg he]
  obtain ⟨-, hsame, -⟩ := biofillRoom_spec h
  generalize bio.rreset.rgrow.rshrink = b at hsame
  rw [← hsame.src]
  simp only
  cases hread : b.src.read (b.rbuf.s - b.rbuf.d) with
  | mk res src =>
    cases res with
    | error e =>
      simp only [(Source.read_error hread).1, sub_self, add_zero]
      exact .failed hlt hread (.none n src)
    | ok data =>
      have hav := congrArg List.length (Source.read_ok hread).1
      cases data with
      | nil =>
        rw [List.nil_append] at hav
        simp only [hav, sub_self, add_zero]
        refine .got hlt hread ?_
        rw [List.length_nil, Nat.cast_zero, add_zero]
        exact .none n src
      | cons c data =>
        rw [List.length_append] at hav
        have : n + ((b.src.avail.length : ℤ) - src.avail.length) = n + (c :: data).length := by
          omega
        simp only [this]
        exact .got hlt hread (.none _ src)

/-- What a part of the loop of `passdata` does, with `total` at its start: it copies `t`, and
    reads no more than is asked for. -/
structure Copies (max total : ℤ) (inb out : Bufio) (t : Bytes) (inb' out' : Bufio) : Prop where
  reads : inb.Reads t inb'
  writes : out.Writes t out'
  le_max : max < 0 ∨ total + t.length ≤ max
  below : 0 ≤ max →
    ReadsBelow max (total + biordata inb) inb.src (total + t.length + biordata inb') inb'.src

theorem Copies.refl {max total : ℤ} {inb out : Bufio} (hi : inb.ROk) (ho : out.WOk)
    (hmax : max < 0 ∨ total ≤ max) : Copies max total inb out [] inb out where
  reads := .refl hi
  writes := .refl ho
  le_max := by simpa using hmax
  below := by
    intro _
    rw [List.length_nil, Nat.cast_zero, add_zero]
    exact .none _ _

theorem Copies.trans {max total : ℤ} {inb out inb' out' inb'' out'' : Bufio} {t t' : Bytes}
    (h : Copies max total inb out t inb' out')
    (h' : Copies max (total + t.length) inb' out' t' inb'' out'') :
    Copies max total inb out (t ++ t') inb'' out'' := by
  have hlen : total + ((t ++ t').length : ℤ) = total + t.length + t'.length := by
    rw [List.length_append]
    push_cast
    ring
  refine ⟨h.reads.trans h'.reads, h.writes.trans h'.writes, ?_, fun hm => ?_⟩
  · rw [hlen]
    exact h'.le_max
  · rw [hlen]
    exact (h.below hm).trans (h'.below hm)

/-- The first half of a round. -/
theorem copyRound_copies {max total : ℤ} {inb out : Bufio} (hi : inb.ROk) (ho : out.WOk)
    (hlt : max < 0 ∨ total < max) :
    match copyRound (if max ≥ 0 then (max - total).toNat else biordata inb) inb out with
    | (none, inb', out') => inb' = inb ∧ Copies max total inb out [] inb out' ∧
        ¬ NoErr out.snk.sched
    | (some read, inb', out') => ∃ t, t.length = read ∧ Copies max total inb out t inb' out' ∧
        inb'.eof = inb.eof ∧ copyRank inb' out' ≤ copyRank inb out ∧
        (0 < biordata inb → copyRank inb' out' < copyRank inb out) := by
  generalize hlim : (if max ≥ 0 then (max - total).toNat else biordata inb) = lim
  have hround := copyRound_spec hi ho lim
  have hsrc : (copyRound lim inb out).2.1.src = inb.src := by
    unfold copyRound
    split_ifs
    · simp only
      split_ifs <;> rfl
    · rfl
  cases hc : copyRound lim inb out with
  | mk res b =>
  obtain ⟨inb', out'⟩ := b
  rw [hc] at hround hsrc
  cases res with
  | none =>
    obtain ⟨rfl, hw, hne⟩ := hround
    have hle : max < 0 ∨ total ≤ max := hlt.imp_right le_of_lt
    have hrefl := Copies.refl hi ho hle
    exact ⟨rfl, ⟨hrefl.reads, hw, hrefl.le_max, hrefl.below⟩, hne⟩
  | some read =>
    obtain ⟨t, rfl, hle, hr, hw, heof, hrank, hrank'⟩ := hround
    simp only at hsrc
    refine ⟨t, rfl, ⟨hr, hw, ?_, fun _ => ?_⟩, heof, hrank, fun hd => hrank' ?_ hd⟩
    · by_cases hneg : max < 0
      · exact .inl hneg
      · rw [if_pos (by omega)] at hlim
        omega
    · -- what was buffered has been copied, or still is
      have hdata := congrArg List.length hr.unread
      simp only [Bufio.unread, hsrc, List.length_append, hi.length_rdata,
        hr.ok.length_rdata] at hdata
      have : total + t.length + biordata inb' = total + biordata inb := by omega
      rw [this, hsrc]
      exact .none _ _
    · split_ifs at hlim <;> omega

/-- What one round does: it goes on after copying `t`, or a call fails, or the loop ends. -/
theorem passdataLoop_step {max total : ℤ} {inb out : Bufio} (hi : inb.ROk) (ho : out.WOk)
    (hmax : max < 0 ∨ total ≤ max) :
    (∃ t inb' out', Copies max total inb out t inb' out' ∧ copyRank inb' out' < copyRank inb out ∧
      ∀ fuel, passdataLoop max (fuel + 1) total inb out =
        passdataLoop max fuel (total + t.length) inb' out') ∨
    (∃ t inb' out', Copies max total inb out t inb' out' ∧
      ¬ (NoErr inb.src.sched ∧ NoErr out.snk.sched) ∧
      ∀ fuel, passdataLoop max (fuel + 1) total inb out = (-1, inb', out')) ∨
    (bioeof inb = true ∨ total = max) ∧
      ∀ fuel, passdataLoop max (fuel + 1) total inb out = (total, inb, out) := by
  by_cases hcond : bioeof inb = false ∧ (max < 0 ∨ total < max)
  swap
  · refine .inr (.inr ⟨?_, fun fuel => by rw [passdataLoop, if_neg hcond]⟩)
    by_cases he : bioeof inb = true
    · exact .inl he
    · have hnlt : ¬ (max < 0 ∨ total < max) := fun h => hcond ⟨by simpa using he, h⟩
      exact .inr (by omega)
  obtain ⟨heof, hlt⟩ := hcond
  have hround := copyRound_copies hi ho hlt
  cases hc : copyRound (if max ≥ 0 then (max - total).toNat else biordata inb) inb out with
  | mk res b =>
  obtain ⟨inb', out'⟩ := b
  rw [hc] at hround
  cases res with
  | none =>
    obtain ⟨rfl, hcopies, hne⟩ := hround
    refine .inr (.inl ⟨[], inb', out', hcopies, fun h => hne h.2, fun fuel => ?_⟩)
    rw [passdataLoop, if_pos ⟨heof, hlt⟩, hc]
  | some read =>
    obtain ⟨t, rfl, hcopies, heof', hrank, hrank'⟩ := hround
    have hok := hcopies.reads.ok
    have hloop : ∀ fuel, passdataLoop max (fuel + 1) total inb out =
        if biorspace inb' > 0 ∧ (max < 0 ∨ (biordata inb' : ℤ) < max - (total + t.length)) then
          if (biofill inb').1 < 0 then (-1, (biofill inb').2, out')
          else passdataLoop max fuel (total + t.length) (biofill inb').2 out'
        else passdataLoop max fuel (total + t.length) inb' out' := by
      intro fuel
      rw [passdataLoop, if_pos ⟨heof, hlt⟩, hc]
      rfl
    by_cases hfill : biorspace inb' > 0 ∧
        (max < 0 ∨ (biordata inb' : ℤ) < max - (total + t.length))
    · have hcopies' : Copies max total inb out t (biofill inb').2 out' := by
        refine ⟨?_, hcopies.writes, hcopies.le_max, fun hm => ?_⟩
        · simpa using hcopies.reads.trans (biofill_spec hok).1
        · have hn : total + t.length + biordata inb' < max := by
            have := hfill.2
            omega
          have := biofill_below hok hn
          rw [add_sub_cancel_right] at this
          exact (hcopies.below hm).trans this
      by_cases hneg : (biofill inb').1 < 0
      · refine .inr (.inl ⟨t, _, out', hcopies', fun h => ?_, fun fuel => ?_⟩)
        · exact absurd (biofill_noErr (hcopies.reads.noErr h.1) hok) (not_le.mpr hneg)
        · rw [hloop, if_pos hfill, if_pos hneg]
      · refine .inl ⟨t, _, out', hcopies', ?_, fun fuel => by rw [hloop, if_pos hfill, if_neg hneg]⟩
        obtain ⟨hle, hlt'⟩ := biofill_copyRank hok out'
        by_cases hd : 0 < biordata inb
        · have := hrank' hd
          omega
        · -- nothing was buffered, so that something is read
          have heof₁ : inb.eof = false := eof_eq_false heof (by omega)
          have := hlt' (heof'.trans heof₁) (by omega)
          omega
    · refine .inl ⟨t, inb', out', hcopies, ?_, fun fuel => by rw [hloop, if_neg hfill]⟩
      apply hrank'
      by_contra hd
      have hd0 : biordata inb = 0 := by omega
      rw [copyRound_empty hd0] at hc
      obtain ⟨ht, rfl, -⟩ : 0 = t.length ∧ inb = inb' ∧ out = out' := by simpa using hc
      refine hfill ⟨biorspace_empty hi hd0, hlt.imp_right fun h => ?_⟩
      omega

theorem passdataLoop_copies (max : ℤ) :
    ∀ fuel (total : ℤ) (inb out : Bufio), inb.ROk → out.WOk → (max < 0 ∨ total ≤ max) →
      copyRank inb out < fuel →
      ∃ t, Copies max total inb out t (passdataLoop max fuel total inb out).2.1
          (passdataLoop max fuel total inb out).2.2 ∧
        Passed max total inb out t (passdataLoop max fuel total inb out) := by
  intro fuel
  induction fuel with
  | zero => intro total inb out _ _ _ hf; omega
  | succ fuel ih =>
    intro total inb out hi ho hmax hf
    obtain ⟨t, inb', out', hc, hrank, hloop⟩ | ⟨t, inb', out', hc, hne, hloop⟩ | ⟨hend, hloop⟩ :=
      passdataLoop_step hi ho hmax
    · obtain ⟨t', hc', hp'⟩ := ih (total + t.length) inb' out' hc.reads.ok hc.writes.ok hc.le_max
        (by omega)
      rw [hloop]
      exact ⟨t ++ t', hc.trans hc', .trans hc.reads hc.writes hp'⟩
    · rw [hloop]
      exact ⟨t, hc, hc.reads, hc.writes, .inl ⟨rfl, hne⟩⟩
    · rw [hloop]
      have hc := Copies.refl hi ho hmax
      exact ⟨[], hc, hc.reads, hc.writes, .inr ⟨by simp, hmax, hend⟩⟩

/-- The bound on the rounds does not show. -/
theorem passdataLoop_fuel (max : ℤ) :
    ∀ fuel fuel' (total : ℤ) (inb out : Bufio), inb.ROk → out.WOk → (max < 0 ∨ total ≤ max) →
      copyRank inb out < fuel → copyRank inb out < fuel' →
      passdataLoop max fuel total inb out = passdataLoop max fuel' total inb out := by
  intro fuel
  induction fuel with
  | zero => intro fuel' total inb out _ _ _ hf; omega
  | succ fuel ih =>
    intro fuel' total inb out hi ho hmax hf hf'
    obtain ⟨n, rfl⟩ : ∃ n, fuel' = n + 1 := ⟨fuel' - 1, by omega⟩
    obtain ⟨t, inb', out', hc, hrank, hloop⟩ | ⟨t, inb', out', -, -, hloop⟩ | ⟨-, hloop⟩ :=
      passdataLoop_step hi ho hmax
    · rw [hloop, hloop]
      exact ih n _ inb' out' hc.reads.ok hc.writes.ok hc.le_max (by omega) (by omega)
    · rw [hloop, hloop]
    · rw [hloop, hloop]

/-- `passdata` copies a prefix of what is to be read, of at most `max` bytes if that is not
    negative, and returns its length: all of it, if no call fails. -/
theorem passdata_spec {inb out : Bufio} (hi : inb.ROk) (ho : out.WOk) (max : ℤ) :
    ∃ t, Passed max 0 inb out t (passdata inb out max) := by
  obtain ⟨t, -, ht⟩ := passdataLoop_copies max _ 0 inb out hi ho (lt_or_ge max 0)
    (copyRank_lt_copyFuel inb out)
  exact ⟨t, ht⟩

/-- **Bounded copying is exact.** If no call fails, `passdata` appends the first `max` bytes of
    what is to be read to what has been written, or all of it if there are fewer or `max` is
    negative; it returns their number and leaves the rest to be read; it asks for no input once
    `max` bytes are available; and the bound on its rounds does not show. -/
theorem passdata_exact {inb out : Bufio} (hi : inb.ROk) (ho : out.WOk)
    (hin : NoErr inb.src.sched) (hon : NoErr out.snk.sched) (max : ℤ) (n : ℕ)
    (hn : n = if max < 0 then inb.unread.length else min max.toNat inb.unread.length) :
    (passdata inb out max).1 = n ∧
      (passdata inb out max).2.2.written = out.written ++ inb.unread.take n ∧
      (passdata inb out max).2.1.unread = inb.unread.drop n ∧
      (0 ≤ max → ReadsBelow max (biordata inb) inb.src
        (n + biordata (passdata inb out max).2.1) (passdata inb out max).2.1.src) ∧
      ∀ fuel ≥ copyFuel inb out, passdataLoop max fuel 0 inb out = passdata inb out max := by
  have hfuel := copyRank_lt_copyFuel inb out
  obtain ⟨t, hc, hp⟩ := passdataLoop_copies max _ 0 inb out hi ho (lt_or_ge max 0) hfuel
  have hu := hc.reads.unread
  obtain ⟨hret, hle, hend⟩ : (passdata inb out max).1 = 0 + (t.length : ℤ) ∧
      (max < 0 ∨ (passdata inb out max).1 ≤ max) ∧
      (bioeof (passdata inb out max).2.1 = true ∨ (passdata inb out max).1 = max) :=
    hp.ret.resolve_left fun h => h.2 ⟨hin, hon⟩
  rw [zero_add] at hret
  have hlen := congrArg List.length hu
  rw [List.length_append] at hlen
  have ht : t.length = n := by
    rcases hend with heof | hmax
    · have := congrArg List.length (unread_of_bioeof hc.reads.ok heof)
      rw [List.length_nil] at this
      rw [hn]
      split_ifs <;> omega
    · rw [hn]
      split_ifs <;> omega
  subst ht
  have hdrop : (passdata inb out max).2.1.unread = inb.unread.drop t.length := by
    rw [hu, List.drop_left]
    rfl
  refine ⟨hret, ?_, hdrop, ?_, ?_⟩
  · rw [hu, List.take_left]
    exact hc.writes.written
  · intro hmax
    have := hc.below hmax
    rw [zero_add, zero_add] at this
    exact this
  · intro fuel hge
    exact passdataLoop_fuel max _ _ 0 inb out hi ho (lt_or_ge max 0) (by omega) hfuel

/-- Five bytes of eleven, two of which can be read at a time. -/
theorem passdata_exact_five :
    let inb := bioopen { avail := bytes "hello world", sched := [.upto 1, .upto 1, .upto 1] } {}
    let out := bioopen { avail := [] } { sched := [.upto 0] }
    (passdata inb out 5).1 = 5 ∧ (passdata inb out 5).2.2.written = bytes "hello" ∧
      (passdata inb out 5).2.1.unread = bytes " world" := by
  have hi := bioopen_rok { avail := bytes "hello world", sched := [.upto 1, .upto 1, .upto 1] }
    (by simp) {}
  have ho := bioopen_wok { avail := [] } { sched := [.upto 0] }
  have h := passdata_exact hi ho (by simp [NoErr, bioopen]) (by simp [NoErr, bioopen]) 5 5
    (by decide +kernel)
  exact ⟨h.1, h.2.1, h.2.2.1⟩

/-- When `passdata` returns the length it was given, that is what it has copied; but for a
    length of -1, which is also what it returns when a call fails. -/
theorem passdata_eq {inb out : Bufio} (hi : inb.ROk) (ho : out.WOk) {max : ℤ}
    (h : (passdata inb out max).1 = max)
    (hmax : max = -1 → NoErr inb.src.sched ∧ NoErr out.snk.sched) :
    ∃ t, (t.length : ℤ) = max ∧ inb.Reads t (passdata inb out max).2.1 ∧
      out.Writes t (passdata inb out max).2.2 := by
  obtain ⟨t, hr, hw, ⟨hret, hne⟩ | ⟨hret, -⟩⟩ := passdata_spec hi ho max
  · exact absurd (hmax (by omega)) hne
  · exact ⟨t, by omega, hr, hw⟩

end Ashd
