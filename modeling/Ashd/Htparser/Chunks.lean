import Ashd.Htparser.Copy

/-!
# The chunked coding

`passchunks` writes whatever its input has buffered as one chunk, so that the chunks
depend on how the reads are split; `recvchunks` reads any sequence of chunks.

Main results:
* `passchunks_spec`: what is written is an encoding of the whole input.
* `recvchunks_write`: an encoding is read to its end, and no further.
* `chunks_roundtrip`: the two together.
-/

namespace Ashd

open Message (CRLF writeChunk writeChunks)

/-! ## Writing -/

/-- What `passchunks` uses up. -/
def chunkRank (inb : Bufio) : ℕ := inb.unread.length + inb.coming

/-- `bioprintf` whose result is not looked at. -/
theorem bioprintf_ignored {out : Bufio} (h : out.WOk) (flen : ℕ) (text : Bytes) :
    ∃ u, out.Writes u (bioprintf out flen text).2 ∧ (NoErr out.snk.sched → u = text) := by
  obtain ⟨hw, hres⟩ := bioprintf_spec h flen text
  refine ⟨_, hw, fun h0 => ?_⟩
  rcases hres with hres | ⟨-, hne⟩
  · rw [if_pos hres]
  · exact absurd h0 hne

/-- All that is buffered is written as one chunk, if no write fails. -/
theorem chunkRound_spec {inb out : Bufio} (ho : out.WOk) (hd : 0 < biordata inb)
    (hl : inb.rdata.length = biordata inb) :
    ∃ u, out.Writes u (chunkRound inb out).2.2 ∧
      ((chunkRound inb out).2.1 = inb.skip (biordata inb) ∨
        (chunkRound inb out).1 = false ∧ (chunkRound inb out).2.1 = inb) ∧
      (NoErr out.snk.sched → (chunkRound inb out).1 = true ∧ u = writeChunk inb.rdata) := by
  unfold chunkRound
  rw [if_pos hd]
  have hdata : peek inb.rbuf.b inb.rh (biordata inb) = inb.rdata := rfl
  simp only [hdata]
  obtain ⟨u₁, hw₁, hu₁⟩ := bioprintf_ignored ho 5 (numeral 16 (biordata inb) ++ CRLF)
  generalize (bioprintf out 5 (numeral 16 (biordata inb) ++ CRLF)).2 = out₁ at hw₁ ⊢
  obtain ⟨hw₂, hret₂⟩ := biowrite_spec hw₁.ok inb.rdata
  cases hb : biowrite out₁ inb.rdata with
  | mk ret out₂ =>
  rw [hb] at hw₂ hret₂
  simp only at hw₂ hret₂ ⊢
  by_cases hret : ret = biordata inb
  swap
  · rw [if_pos hret]
    refine ⟨_, hw₁.trans hw₂, .inr ⟨rfl, rfl⟩, fun h0 => absurd ?_ hret⟩
    rw [hret₂ (hw₁.noErr h0), hl]
  rw [if_neg (not_not.mpr hret)]
  have hall : inb.rdata.take ret.toNat = inb.rdata := by
    rw [hret, Int.toNat_natCast, ← hl, List.take_length]
  rw [hall] at hw₂
  obtain ⟨u₃, hw₃, hu₃⟩ := bioprintf_ignored hw₂.ok 2 CRLF
  generalize (bioprintf out₂ 2 CRLF).2 = out₃ at hw₃ ⊢
  obtain ⟨hw₄, hret₄, -⟩ := bioflush_spec hw₃.ok
  refine ⟨_, ((hw₁.trans hw₂).trans hw₃).trans hw₄, .inl rfl, fun h0 => ⟨?_, ?_⟩⟩
  · obtain ⟨hret₄, -⟩ | ⟨-, hne⟩ := hret₄
    · simp [hret₄]
    · exact absurd (hw₃.noErr (hw₂.noErr (hw₁.noErr h0))) hne
  · rw [hu₁ h0, hu₃ (hw₂.noErr (hw₁.noErr h0)), List.append_nil]
    simp only [writeChunk, hl]

/-- What `passchunks` does to its input and its output, with `cs` the chunks it took. -/
structure PassedChunks (bound : ℕ) (inb out : Bufio) (cs : List Bytes) (r : ℤ × Bufio × Bufio) :
    Prop where
  reads : inb.Reads cs.flatten r.2.1
  writes : ∃ u, out.Writes u r.2.2 ∧ (NoErr out.snk.sched → r.1 = 0 → u = writeChunks cs)
  chunks : ∀ c ∈ cs, c ≠ [] ∧ c.length ≤ bound
  eof : r.1 = 0 → bioeof r.2.1 = true
  noErr : NoErr inb.src.sched → NoErr out.snk.sched → r.1 = 0

theorem PassedChunks.cons {bound : ℕ} {inb inb' out out' : Bufio} {u : Bytes} {cs : List Bytes}
    {r : ℤ × Bufio × Bufio} (hne : inb.rdata ≠ []) (hb : inb.rdata.length ≤ bound)
    (hr : inb.Reads inb.rdata inb') (hw : out.Writes u out')
    (hu : NoErr out.snk.sched → u = writeChunk inb.rdata)
    (h : PassedChunks bound inb' out' cs r) : PassedChunks bound inb out (inb.rdata :: cs) r where
  reads := by rw [List.flatten_cons]; exact hr.trans h.reads
  writes := by
    obtain ⟨v, hv, hv'⟩ := h.writes
    refine ⟨_, hw.trans hv, fun h0 h1 => ?_⟩
    rw [hu h0, hv' (hw.noErr h0) h1]
    simp [writeChunks]
  chunks := by
    intro c hc
    rcases List.mem_cons.mp hc with rfl | hc
    · exact ⟨hne, hb⟩
    · exact h.chunks c hc
  eof := h.eof
  noErr := fun h0 h1 => h.noErr (hr.noErr h0) (hw.noErr h1)

/-- A failure before anything was written of it. -/
theorem PassedChunks.fail {bound : ℕ} {inb out inb' out' : Bufio} {u : Bytes}
    (hr : inb.Reads [] inb') (hw : out.Writes u out')
    (hne : ¬ (NoErr inb.src.sched ∧ NoErr out.snk.sched)) :
    PassedChunks bound inb out [] (-1, inb', out') where
  reads := hr
  writes := ⟨u, hw, fun _ h => by simp at h⟩
  chunks := by simp
  eof := fun h => by simp at h
  noErr := fun h0 h1 => absurd ⟨h0, h1⟩ hne

theorem PassedChunks.fill {bound : ℕ} {inb inb' out : Bufio} {cs : List Bytes}
    {r : ℤ × Bufio × Bufio} (hr : inb.Reads [] inb') (h : PassedChunks bound inb' out cs r) :
    PassedChunks bound inb out cs r :=
  ⟨by simpa using hr.trans h.reads, h.writes, h.chunks, h.eof, fun h0 => h.noErr (hr.noErr h0)⟩

/-- A fill between two rounds, and what comes after it. -/
theorem passedChunks_fill {bound : ℕ} {inb out : Bufio} (hi : inb.ROk) (ho : out.WOk)
    (k : Bufio → ℤ × Bufio × Bufio)
    (hk : 0 ≤ (biofill inb).1 → ∃ cs, PassedChunks bound (biofill inb).2 out cs (k (biofill inb).2)) :
    ∃ cs, PassedChunks bound inb out cs
      (if (biofillsome inb).1 < 0 then (-1, (biofillsome inb).2, out)
        else k (biofillsome inb).2) := by
  have hfr := (biofill_spec hi).1
  unfold biofillsome
  by_cases hneg : (biofill inb).1 < 0
  · rw [if_pos hneg]
    exact ⟨[], .fail hfr (.refl ho) fun h => absurd (biofill_noErr h.1 hi) (not_le.mpr hneg)⟩
  · rw [if_neg hneg]
    obtain ⟨cs, hcs⟩ := hk (by omega)
    exact ⟨cs, .fill hfr hcs⟩

theorem biofill_bound {bound : ℕ} {bio : Bufio} (h : bio.ROk) (hs : bio.rbuf.s ≤ bound)
    (hh : 4 * bio.bufhint ≤ bound) (hsp : biorspace bio > 0) :
    (biofill bio).2.rbuf.s ≤ bound ∧ 4 * (biofill bio).2.bufhint ≤ bound := by
  have hd : biordata bio < bio.bufhint := by
    unfold biorspace at hsp
    split_ifs at hsp <;> omega
  have := biofill_size hd
  rw [(biofill_spec h).1.bufhint]
  omega

/-- A fill does not raise the rank, and lowers it if something may be read. -/
theorem biofill_chunkRank {inb : Bufio} (h : inb.ROk) :
    chunkRank (biofill inb).2 ≤ chunkRank inb ∧
      (inb.eof = false → 0 ≤ (biofill inb).1 → chunkRank (biofill inb).2 < chunkRank inb) := by
  obtain ⟨hle, hlt⟩ := biofill_coming h
  have hu : (biofill inb).2.unread = inb.unread := (biofill_spec h).1.unread.symm
  simp only [chunkRank, hu]
  refine ⟨by omega, fun he hret => ?_⟩
  have := hlt he hret
  omega

theorem passchunksLoop_spec (bound : ℕ) :
    ∀ fuel (inb out : Bufio), inb.ROk → out.WOk → inb.rbuf.s ≤ bound → 4 * inb.bufhint ≤ bound →
      chunkRank inb < fuel → ∃ cs, PassedChunks bound inb out cs (passchunksLoop fuel inb out) := by
  intro fuel
  induction fuel with
  | zero => intro inb out _ _ _ _ hf; omega
  | succ fuel ih =>
    intro inb out hi ho hs hh hf
    rw [passchunksLoop]
    by_cases heof : bioeof inb = false
    swap
    · rw [if_neg heof]
      obtain ⟨u, hw, hu⟩ := bioprintf_ignored ho 5 (48 :: CRLF ++ CRLF)
      exact ⟨[], .refl hi, ⟨u, hw, fun h0 _ => hu h0⟩, by simp, fun _ => by simpa using heof,
        fun _ _ => rfl⟩
    rw [if_pos heof]
    by_cases hd : biordata inb = 0
    · -- nothing to write, so the buffer is filled
      have hround : chunkRound inb out = (true, inb, out) := by
        unfold chunkRound
        rw [if_neg (by omega)]
      have hspace := biorspace_empty hi hd
      simp only [hround, if_pos hspace]
      refine passedChunks_fill hi ho (fun b => passchunksLoop fuel b out) fun hret =>
        ih _ out (biofill_spec hi).1.ok ho (biofill_bound hi hs hh hspace).1
          (biofill_bound hi hs hh hspace).2 ?_
      have := (biofill_chunkRank hi).2 (eof_eq_false heof hd) hret
      omega
    · have hl := hi.length_rdata
      have hbound : inb.rdata.length ≤ bound := by
        have h1 := hi.buf.d_le
        have h2 := hi.buf.b_le
        simp only [biordata] at hl
        omega
      have hne : inb.rdata ≠ [] := by rw [← List.length_pos_iff]; omega
      obtain ⟨u, hw, hskip, hgood⟩ := chunkRound_spec ho (by omega : 0 < biordata inb) hl
      have hr : inb.Reads inb.rdata (inb.skip (biordata inb)) := skip_spec hi le_rfl
      cases hc : chunkRound inb out with
      | mk ok b =>
      obtain ⟨inb', out'⟩ := b
      rw [hc] at hw hskip hgood
      simp only at hw hskip hgood
      cases ok with
      | false =>
        have hbad : ¬ NoErr out.snk.sched := fun h0 => by simpa using (hgood h0).1
        rcases hskip with rfl | ⟨-, rfl⟩
        · exact ⟨[inb.rdata], by simpa using hr, ⟨u, hw, fun h0 => absurd h0 hbad⟩,
            by simpa using ⟨hne, hbound⟩, by simp, fun _ h1 => absurd h1 hbad⟩
        · exact ⟨[], .fail (.refl hi) hw fun h => hbad h.2⟩
      | true =>
        rcases hskip with rfl | ⟨h0, -⟩
        swap
        · cases h0
        have hu := congrArg List.length hr.unread
        rw [List.length_append] at hu
        have hrank : chunkRank (inb.skip (biordata inb)) < fuel := by
          simp only [chunkRank, skip_coming] at hf ⊢
          omega
        have hafter : ∃ cs, PassedChunks bound (inb.skip (biordata inb)) out' cs
            (if biorspace (inb.skip (biordata inb)) > 0 then
              if (biofillsome (inb.skip (biordata inb))).1 < 0 then
                (-1, (biofillsome (inb.skip (biordata inb))).2, out')
              else passchunksLoop fuel (biofillsome (inb.skip (biordata inb))).2 out'
            else passchunksLoop fuel (inb.skip (biordata inb)) out') := by
          by_cases hsp : biorspace (inb.skip (biordata inb)) > 0
          · rw [if_pos hsp]
            refine passedChunks_fill hr.ok hw.ok (fun b => passchunksLoop fuel b out') fun _ =>
              ih _ out' (biofill_spec hr.ok).1.ok hw.ok (biofill_bound hr.ok hs hh hsp).1
                (biofill_bound hr.ok hs hh hsp).2 ?_
            have := (biofill_chunkRank hr.ok).1
            omega
          · rw [if_neg hsp]
            exact ih _ out' hr.ok hw.ok hs hh hrank
        obtain ⟨cs, hcs⟩ := hafter
        exact ⟨inb.rdata :: cs, .cons hne hbound hr hw (fun h0 => (hgood h0).2) hcs⟩

/-- `passchunks` writes an encoding of all that there is to read, in chunks of at most the
    size that the buffer has or may grow to. -/
theorem passchunks_spec {bound : ℕ} {inb out : Bufio} (hi : inb.ROk) (ho : out.WOk)
    (hs : inb.rbuf.s ≤ bound) (hh : 4 * inb.bufhint ≤ bound) :
    ∃ cs, PassedChunks bound inb out cs (passchunks inb out) := by
  refine passchunksLoop_spec bound _ inb out hi ho hs hh ?_
  unfold chunkRank Bufio.coming
  split_ifs <;> omega

/-! ## Reading -/

theorem ssize_natCast {n : ℕ} (h : n < 2 ^ 63) : ssize n = n :=
  Int.bmod_eq_of_le (by omega) (by omega)

/-- A byte that can stand in a chunk-size line. -/
def isSize (c : UInt8) : Bool := c == 13 || (digitVal c).isSome

/-- The value of the digits of a chunk-size line, of any length. -/
def sizeVal (l : Bytes) : ℕ := numeralValue 16 (l.filter (· ≠ 13))

/-- A chunk-size line without its line feed. -/
structure SizeLine (l : Bytes) (n : ℕ) : Prop where
  digits : ∀ c ∈ l, isSize c = true
  ne : l.filter (· ≠ 13) ≠ []
  val : sizeVal l = n

/-- The value of `s` after the digits whose value is `v`. -/
def sizeFrom (v : ℕ) (s : Bytes) : ℕ :=
  (s.filter (· ≠ 13)).foldl (fun acc c => acc * 16 + (digitVal c).getD 0) v

theorem sizeFrom_zero (s : Bytes) : sizeFrom 0 s = sizeVal s := rfl

theorem sizeFrom_cr (v : ℕ) (s : Bytes) : sizeFrom v (13 :: s) = sizeFrom v s := rfl

theorem sizeFrom_digit {c : UInt8} {d : ℕ} (hc : c ≠ 13) (hd : digitVal c = some d) (v : ℕ)
    (s : Bytes) : sizeFrom v (c :: s) = sizeFrom (v * 16 + d) s := by
  unfold sizeFrom
  rw [List.filter_cons_of_pos (by simpa using hc), List.foldl_cons, hd]
  rfl

theorem sizeStart : ((0 : ℤ), false) = (ssize (0 : ℕ), false) := rfl

theorem ssize_step (v d : ℕ) : ssize (ssize v * 16 + d) = ssize ((v * 16 + d : ℕ) : ℤ) := by
  unfold ssize
  rw [← Int.bmod_add_bmod, Int.bmod_mul_bmod, Int.bmod_add_bmod]
  push_cast
  rfl

/-- A size is never taken for another one below 2^63. -/
theorem ssize_eq_iff (n : ℕ) : ssize n = n ↔ n < 2 ^ 63 := by
  constructor
  · intro h
    have : ssize n < 2 ^ 63 := by
      unfold ssize
      have := Int.bmod_lt (x := (n : ℤ)) (m := 2 ^ 64) (by norm_num)
      simpa using this
    rw [h] at this
    exact_mod_cast this
  · exact ssize_natCast

/-- One byte of the line. -/
theorem sizeStep_size {c : UInt8} (h : isSize c = true) (v : ℕ) (r : Bool) :
    ∃ v' : ℕ, sizeStep (ssize v, r) c = .more (ssize v', r || decide (c ≠ 13)) ∧
      ∀ s, sizeFrom v (c :: s) = sizeFrom v' s := by
  have h10 : c ≠ 10 := by
    rintro rfl
    exact absurd h (by decide)
  by_cases h13 : c = 13
  · subst h13
    refine ⟨v, ?_, sizeFrom_cr v⟩
    simp [sizeStep]
  · unfold isSize at h
    cases hd : digitVal c with
    | none => simp [hd, h13] at h
    | some d =>
      refine ⟨v * 16 + d, ?_, sizeFrom_digit h13 hd v⟩
      unfold sizeStep
      rw [if_neg h10, if_neg h13, hd]
      simp only
      rw [ssize_step, decide_eq_true h13, Bool.or_true]

/-- A byte that stands in no size does not go on. -/
theorem isSize_of_more {s s' : ℤ × Bool} {c : UInt8} (h : sizeStep s c = .more s') :
    isSize c = true := by
  unfold sizeStep at h
  unfold isSize
  split_ifs at h with h10 hr h13
  · simp [h13]
  · cases hd : digitVal c with
    | none => rw [hd] at h; cases h
    | some d => simp

/-- The size that is computed of a part of a line. -/
theorem feed_size {p : Bytes} {v : ℕ} {r : Bool} {s' : ℤ × Bool}
    (h : feed sizeStep (ssize v, r) p = some s') :
    (∀ c ∈ p, isSize c = true) ∧ s' = (ssize (sizeFrom v p), r || p.any fun c => decide (c ≠ 13)) := by
  induction p generalizing v r with
  | nil =>
    have h := (Option.some.inj h).symm
    subst h
    refine ⟨by simp, ?_⟩
    show (ssize (v : ℤ), r) = (ssize (v : ℤ), r || false)
    rw [Bool.or_false]
  | cons c p ih =>
    rw [feed] at h
    cases hs : sizeStep (ssize v, r) c with
    | stop n => rw [hs] at h; cases h
    | fail => rw [hs] at h; cases h
    | more s =>
      have hc := isSize_of_more hs
      obtain ⟨v', hstep, hfrom⟩ := sizeStep_size hc v r
      rw [hstep] at h
      obtain ⟨hall, rfl⟩ := ih h
      refine ⟨?_, ?_⟩
      · intro x hx
        rcases List.mem_cons.mp hx with rfl | hx
        · exact hc
        · exact hall x hx
      · rw [hfrom, List.any_cons, Bool.or_assoc]

theorem feed_of_isSize {p : Bytes} (hp : ∀ c ∈ p, isSize c = true) (v : ℕ) (r : Bool) :
    ∃ s', feed sizeStep (ssize v, r) p = some s' := by
  induction p generalizing v r with
  | nil => exact ⟨_, rfl⟩
  | cons c p ih =>
    obtain ⟨v', hstep, -⟩ := sizeStep_size (hp c (by simp)) v r
    rw [feed, hstep]
    exact ih (fun x hx => hp x (List.mem_cons_of_mem _ hx)) v' _

/-- A line whose size fits is accepted. -/
theorem scanList_sizeLine {l : Bytes} {n : ℕ} (h : SizeLine l n) (hn : n < 2 ^ 63) (rest : Bytes) :
    scanList sizeStep (0, false) (l ++ [10] ++ rest) = some ((n : ℤ), rest) := by
  obtain ⟨s', hf⟩ := feed_of_isSize h.digits 0 false
  have hs := (feed_size hf).2
  have hany : l.any (fun c => decide (c ≠ 13)) = true := by
    obtain ⟨x, hx⟩ := List.exists_mem_of_ne_nil _ h.ne
    obtain ⟨hx, h13⟩ := List.mem_filter.mp hx
    exact List.any_eq_true.mpr ⟨x, hx, h13⟩
  rw [sizeFrom_zero, h.val, ssize_natCast hn, hany, Bool.or_true] at hs
  rw [hs] at hf
  rw [sizeStart, List.append_assoc, scanList_feed hf]
  rfl

/-- A chunk-size line as it is written. -/
theorem sizeLine_numeral (n : ℕ) : SizeLine (numeral 16 n ++ [13]) n := by
  have hd : ∀ c ∈ numeral 16 n, ∃ d, d < 16 ∧ c = digitChar d := numeral_digits (by norm_num)
  have hfilter : (numeral 16 n ++ [13]).filter (· ≠ 13) = numeral 16 n := by
    rw [List.filter_append, List.filter_eq_self.mpr]
    · exact List.append_nil _
    · intro c hc
      obtain ⟨d, hd16, rfl⟩ := hd c hc
      interval_cases d <;> decide
  refine ⟨?_, ?_, ?_⟩
  · intro c hc
    rcases List.mem_append.mp hc with hc | hc
    · obtain ⟨d, hd16, rfl⟩ := hd c hc
      unfold isSize
      rw [digitVal_digitChar hd16, Option.isSome_some, Bool.or_true]
    · rw [List.mem_singleton.mp hc]
      rfl
  · rw [hfilter]
    exact numeral_ne_nil 16 n
  · rw [sizeVal, hfilter]
    exact numeralValue_numeral (by norm_num) (by norm_num) n

theorem scanList_size {n : ℕ} (h : n < 2 ^ 63) (rest : Bytes) :
    scanList sizeStep (0, false) (numeral 16 n ++ (CRLF ++ rest)) = some ((n : ℤ), rest) := by
  have hsplit : numeral 16 n ++ (CRLF ++ rest) = (numeral 16 n ++ [13]) ++ [10] ++ rest := by
    simp [CRLF]
  rw [hsplit]
  exact scanList_sizeLine (sizeLine_numeral n) h rest

/-- `getcrlf` reads a line end. -/
theorem getcrlf_spec {inb : Bufio} (h : inb.ROk) (hne : NoErr inb.src.sched) {rest : Bytes}
    (hu : inb.unread = CRLF ++ rest) :
    ∃ b, getcrlf inb = (true, b) ∧ inb.Reads CRLF b ∧ b.unread = rest := by
  obtain ⟨b₁, hb₁, hr₁, hu₁⟩ := biogetc_cons h hne hu
  obtain ⟨b₂, hb₂, hr₂, hu₂⟩ := biogetc_cons hr₁.ok (hr₁.noErr hne) hu₁
  refine ⟨b₂, ?_, hr₁.trans hr₂, hu₂⟩
  unfold getcrlf
  rw [hb₁]
  simp only [hb₂]

/-- The data of a chunk is copied, if no call fails and it is all there. -/
theorem chunkLoop_spec :
    ∀ fuel (c rest : Bytes) (inb out : Bufio), inb.ROk → out.WOk → NoErr inb.src.sched →
      NoErr out.snk.sched → inb.unread = c ++ rest → copyRank inb out < fuel →
      ∃ inb' out', chunkLoop fuel c.length inb out = (true, inb', out') ∧ inb.Reads c inb' ∧
        out.Writes c out' := by
  intro fuel
  induction fuel with
  | zero => intro c rest inb out _ _ _ _ _ hf; omega
  | succ fuel ih =>
    intro c rest inb out hi ho hin hon hu hf
    rw [chunkLoop]
    by_cases hpos : (c.length : ℤ) > 0
    swap
    · have : c = [] := List.length_eq_zero_iff.mp (by omega)
      subst this
      rw [if_neg hpos]
      exact ⟨inb, out, rfl, .refl hi, .refl ho⟩
    rw [if_pos hpos]
    have hround := copyRound_spec hi ho (c.length : ℤ).toNat
    cases hc : copyRound (c.length : ℤ).toNat inb out with
    | mk res b =>
    obtain ⟨inb₁, out₁⟩ := b
    rw [hc] at hround
    cases res with
    | none => exact absurd hon hround.2.2
    | some read =>
      obtain ⟨t, rfl, hle, hr, hw, heof, hrank, hrank'⟩ := hround
      -- what was copied is the beginning of the chunk
      have hsplit : c ++ rest = t ++ inb₁.unread := by rw [← hu, hr.unread]
      obtain ⟨c', rfl⟩ : ∃ c', c = t ++ c' :=
        List.prefix_of_prefix_length_le ⟨_, hsplit.symm⟩ (List.prefix_append _ _) (by simpa using hle)
          |>.imp fun _ h => h.symm
      have hu₁ : inb₁.unread = c' ++ rest := by
        rw [List.append_assoc] at hsplit
        exact (List.append_cancel_left hsplit).symm
      have hlen : ((t ++ c').length : ℤ) - t.length = c'.length := by
        rw [List.length_append]; push_cast; ring
      have hnext : ∀ b : Bufio, inb₁.Reads [] b → copyRank b out₁ < copyRank inb out →
          ∃ inb' out', chunkLoop fuel c'.length b out₁ = (true, inb', out') ∧
            inb.Reads (t ++ c') inb' ∧ out.Writes (t ++ c') out' := by
        intro b hb hlt
        obtain ⟨inb', out', hl, hr', hw'⟩ := ih c' rest b out₁ hb.ok hw.ok (hb.noErr (hr.noErr hin))
          (hw.noErr hon) (by rw [← hu₁, hb.unread]; rfl) (by omega)
        exact ⟨inb', out', hl, by simpa using (hr.trans hb).trans hr', hw.trans hw'⟩
      simp only [hlen]
      by_cases hfill : biorspace inb₁ > 0 ∧ (biordata inb₁ : ℤ) < c'.length
      · rw [if_pos hfill]
        have hlt : biordata inb₁ < inb₁.unread.length := by
          rw [hu₁, List.length_append]
          omega
        have hpos := biofill_pos hr.ok (hr.noErr hin) hlt
        have hev : inb₁.eof = false := by
          by_contra he
          have hav := hr.ok.eof (by simpa using he)
          rw [Bufio.unread, hav, List.append_nil, hr.ok.length_rdata] at hlt
          omega
        unfold biofillsome
        simp only [if_neg (not_le.mpr hpos)]
        have := (biofill_copyRank hr.ok out₁).2 hev hpos.le
        exact hnext _ (biofill_spec hr.ok).1 (by omega)
      · rw [if_neg hfill]
        refine hnext inb₁ (.refl hr.ok) ?_
        -- otherwise nothing was buffered, and there would have been a fill
        have hd : 0 < biordata inb := by
          by_contra hd
          have hd : biordata inb = 0 := by omega
          rw [copyRound_empty hd] at hc
          obtain ⟨ht, rfl, -⟩ : 0 = t.length ∧ inb = inb₁ ∧ out = out₁ := by simpa using hc
          rw [List.length_append] at hpos
          exact hfill ⟨biorspace_empty hi hd, by omega⟩
        exact hrank' (by omega) hd

/-- A part of the input that a loop over `biogetc` reads, if no read fails. -/
theorem scan_biogetc {σ ρ : Type*} {step : σ → UInt8 → Next σ ρ} {s : σ} {r : ρ} {used rest : Bytes}
    {inb : Bufio} (h : inb.ROk) (hne : NoErr inb.src.sched) (hu : inb.unread = used ++ rest)
    (hs : scanList step s (used ++ rest) = some (r, rest)) :
    ∃ b, scan biogetc step (inb.unread.length + 1) s inb = (some r, b) ∧ inb.Reads used b ∧
      b.unread = rest := by
  have hgood : ∀ b, (∃ t, inb.Reads t b) → b.unread ≠ [] → (biogetc b).1 ≠ none :=
    fun b ⟨_, hb⟩ hn => biogetc_some hb.ok (hb.noErr hne) hn
  rw [← hu] at hs
  obtain ⟨b, hb, ⟨t, ht⟩, hr⟩ :=
    scan_of_scanList (biogetc_isReader inb) hgood ⟨[], .refl h⟩
      (show inb.unread.length ≤ inb.unread.length + 1 + rest.length by omega) hs
  refine ⟨b, hb, ?_, hr⟩
  have := ht.unread
  rw [hu, hr] at this
  rwa [List.append_cancel_right this]

/-- `recvchunks` delivers what the chunks hold, and reads them and nothing more. -/
theorem recvchunksLoop_write (rest : Bytes) :
    ∀ (cs : List Bytes) fuel (inb out : Bufio), inb.ROk → out.WOk → NoErr inb.src.sched →
      NoErr out.snk.sched → (∀ c ∈ cs, c ≠ [] ∧ c.length < 2 ^ 63) → cs.length < fuel →
      inb.unread = writeChunks cs ++ rest →
      ∃ inb' out', recvchunksLoop fuel inb out = (0, inb', out') ∧
        inb.Reads (writeChunks cs) inb' ∧ out.Writes cs.flatten out' := by
  intro cs
  induction cs with
  | nil =>
    intro fuel inb out hi ho hin hon _ hf hu
    obtain ⟨n, rfl⟩ : ∃ n, fuel = n + 1 := ⟨fuel - 1, by simp at hf; omega⟩
    have hu : inb.unread = (numeral 16 0 ++ CRLF) ++ (CRLF ++ rest) := by
      rw [hu]; simp [writeChunks, numeral]
    have hs := scanList_size (n := 0) (by norm_num) (CRLF ++ rest)
    rw [← List.append_assoc] at hs
    obtain ⟨b₁, hb₁, hr₁, hu₁⟩ := scan_biogetc hi hin hu hs
    obtain ⟨b₂, hb₂, hr₂, -⟩ := getcrlf_spec hr₁.ok (hr₁.noErr hin) hu₁
    refine ⟨b₂, out, ?_, hr₁.trans hr₂, .refl ho⟩
    rw [recvchunksLoop, hb₁]
    simp only [Nat.cast_zero, if_true, hb₂]
  | cons c cs ih =>
    intro fuel inb out hi ho hin hon hcs hf hu
    obtain ⟨n, rfl⟩ : ∃ n, fuel = n + 1 := ⟨fuel - 1, by simp at hf; omega⟩
    obtain ⟨hne, hlt⟩ := hcs c (by simp)
    have hu : inb.unread = (numeral 16 c.length ++ CRLF) ++ (c ++ (CRLF ++
        (writeChunks cs ++ rest))) := by
      rw [hu]; simp [writeChunks, writeChunk]
    have hs := scanList_size hlt (c ++ (CRLF ++ (writeChunks cs ++ rest)))
    rw [← List.append_assoc] at hs
    obtain ⟨b₁, hb₁, hr₁, hu₁⟩ := scan_biogetc hi hin hu hs
    have hin₁ := hr₁.noErr hin
    obtain ⟨b₂, out₂, hb₂, hr₂, hw₂⟩ := chunkLoop_spec _ c _ b₁ out hr₁.ok ho hin₁ hon hu₁
      (copyRank_lt_copyFuel b₁ out)
    have hu₂ : b₂.unread = CRLF ++ (writeChunks cs ++ rest) :=
      (List.append_cancel_left (hu₁.symm.trans hr₂.unread)).symm
    obtain ⟨b₃, hb₃, hr₃, hu₃⟩ := getcrlf_spec hr₂.ok (hr₂.noErr hin₁) hu₂
    obtain ⟨inb', out', hl, hr', hw'⟩ := ih n b₃ out₂ hr₃.ok hw₂.ok (hr₃.noErr (hr₂.noErr hin₁))
      (hw₂.noErr hon) (fun c hc => hcs c (List.mem_cons_of_mem _ hc)) (by simp at hf; omega) hu₃
    refine ⟨inb', out', ?_, ?_, by rw [List.flatten_cons]; exact hw₂.trans hw'⟩
    · have hc0 : ¬ (c.length : ℤ) = 0 := by
        have := List.length_pos_iff.mpr hne
        omega
      rw [recvchunksLoop, hb₁]
      simp only [if_neg hc0, hb₂, hb₃, hl]
    · have := ((hr₁.trans hr₂).trans hr₃).trans hr'
      simpa [writeChunks, writeChunk] using this

theorem recvchunks_write {cs : List Bytes} {rest : Bytes} {inb out : Bufio} (hi : inb.ROk)
    (ho : out.WOk) (hin : NoErr inb.src.sched) (hon : NoErr out.snk.sched)
    (hcs : ∀ c ∈ cs, c ≠ [] ∧ c.length < 2 ^ 63) (hu : inb.unread = writeChunks cs ++ rest) :
    ∃ inb' out', recvchunks inb out = (0, inb', out') ∧ inb.Reads (writeChunks cs) inb' ∧
      out.Writes cs.flatten out' := by
  refine recvchunksLoop_write rest cs _ inb out hi ho hin hon hcs ?_ hu
  have := Message.length_le_writeChunks cs
  rw [hu, List.length_append]
  omega

/-! ## Reading in any case -/

theorem biofill_moves {inb out : Bufio} (hi : inb.ROk) (ho : out.WOk) :
    Moves inb out (biofill inb).2 out :=
  ⟨⟨[], (biofill_spec hi).1⟩, [], .refl ho⟩

theorem getc_moves {inb out : Bufio} (hi : inb.ROk) (ho : out.WOk) :
    Moves inb out (biogetc inb).2 out :=
  ⟨⟨_, biogetc_spec hi⟩, [], .refl ho⟩

theorem getcrlf_moves {inb out : Bufio} (hi : inb.ROk) (ho : out.WOk) :
    Moves inb out (getcrlf inb).2 out := by
  have h1 := getc_moves hi ho
  have h2 := getc_moves h1.rok h1.wok
  have hcr : (getcrlf inb).2 = (biogetc inb).2 ∨
      (getcrlf inb).2 = (biogetc (biogetc inb).2).2 := by
    unfold getcrlf
    rcases biogetc inb with ⟨oc, b⟩
    dsimp only
    split
    · rename_i heq
      rw [Prod.mk.injEq] at heq
      rw [heq.2]
      right
      split <;> simp_all only
    · simp_all only [true_or, Prod.mk.injEq]
  rcases hcr with hcr | hcr
  · rw [hcr]
    exact h1
  · rw [hcr]
    exact h1.trans h2

theorem copyRound_moves {inb out : Bufio} (hi : inb.ROk) (ho : out.WOk) (lim : ℕ) :
    Moves inb out (copyRound lim inb out).2.1 (copyRound lim inb out).2.2 := by
  have h := copyRound_spec hi ho lim
  cases hc : copyRound lim inb out with
  | mk res b =>
  obtain ⟨inb', out'⟩ := b
  rw [hc] at h
  cases res with
  | none =>
    obtain ⟨rfl, hw, -⟩ := h
    exact ⟨⟨[], .refl hi⟩, [], hw⟩
  | some read =>
    obtain ⟨t, -, -, hr, hw, -⟩ := h
    exact ⟨⟨t, hr⟩, t, hw⟩

theorem chunkLoop_moves :
    ∀ fuel (chlen : ℤ) (inb out : Bufio), inb.ROk → out.WOk →
      Moves inb out (chunkLoop fuel chlen inb out).2.1 (chunkLoop fuel chlen inb out).2.2 := by
  intro fuel
  induction fuel with
  | zero => intro chlen inb out hi ho; exact .refl hi ho
  | succ fuel ih =>
    intro chlen inb out hi ho
    rw [chunkLoop]
    split_ifs
    · have h1 := copyRound_moves hi ho chlen.toNat
      cases hc : copyRound chlen.toNat inb out with
      | mk res b =>
      obtain ⟨inb', out'⟩ := b
      rw [hc] at h1
      cases res with
      | none => exact h1
      | some read =>
        simp only at h1 ⊢
        have h2 := biofill_moves h1.rok h1.wok
        split_ifs
        · exact h1.trans h2
        · exact (h1.trans h2).trans (ih _ _ _ h2.rok h1.wok)
        · exact h1.trans (ih _ _ _ h1.rok h1.wok)
    · exact .refl hi ho

/-- Whether it accepts its input or not, `recvchunks` only reads and writes. -/
theorem recvchunksLoop_moves :
    ∀ fuel (inb out : Bufio), inb.ROk → out.WOk →
      Moves inb out (recvchunksLoop fuel inb out).2.1 (recvchunksLoop fuel inb out).2.2 := by
  intro fuel
  induction fuel with
  | zero => intro inb out hi ho; exact .refl hi ho
  | succ fuel ih =>
    intro inb out hi ho
    rw [recvchunksLoop]
    have h1 : Moves inb out (scan biogetc sizeStep (inb.unread.length + 1) (0, false) inb).2 out :=
      ⟨scan_ok (biogetc_isReader inb) ⟨[], .refl hi⟩, [], .refl ho⟩
    cases hs : scan biogetc sizeStep (inb.unread.length + 1) (0, false) inb with
    | mk res b =>
    rw [hs] at h1
    cases res with
    | none => exact h1
    | some chlen =>
      by_cases hz : chlen = 0
      · simp only [if_pos hz]
        exact h1.trans (getcrlf_moves h1.rok h1.wok)
      · simp only [if_neg hz]
        have h2 := chunkLoop_moves (copyFuel b out) chlen b out h1.rok h1.wok
        rcases hc : chunkLoop (copyFuel b out) chlen b out with ⟨ok, inb', out'⟩
        rw [hc] at h2
        have h12 := h1.trans h2
        cases ok with
        | false => exact h12
        | true =>
          have h3 := h12.trans (getcrlf_moves h12.rok h12.wok)
          rcases hg : getcrlf inb' with ⟨crlf, inb''⟩
          simp only [hg] at h3 ⊢
          cases crlf with
          | false => exact h3
          | true => exact h3.trans (ih _ _ h3.rok h3.wok)

/-! ## The round trip -/

/-- **Chunked coding round trip.** Whatever is to be read from `pin`, in whichever parts it
    comes: what `passchunks` writes is accepted by `recvchunks`, which delivers exactly that
    and leaves unread exactly what follows, in whichever parts it reads and writes. The
    buffer of `pin` is a block of memory, and so smaller than 2^63 bytes. -/
theorem chunks_roundtrip (pin pout : Bufio) (hpin : pin.ROk) (hpn : NoErr pin.src.sched)
    (hps : pin.rbuf.s < 2 ^ 63) (hph : pin.bufhint = 4096) (hpout : pout.WOk)
    (hpon : NoErr pout.snk.sched) :
    ∃ enc, (passchunks pin pout).1 = 0 ∧ (passchunks pin pout).2.2.written = pout.written ++ enc ∧
      ∀ (rest : Bytes) (cin cout : Bufio), cin.ROk → NoErr cin.src.sched → cout.WOk →
        NoErr cout.snk.sched → cin.unread = enc ++ rest →
        (recvchunks cin cout).1 = 0 ∧ (recvchunks cin cout).2.1.unread = rest ∧
          (recvchunks cin cout).2.2.written = cout.written ++ pin.unread := by
  obtain ⟨cs, hp⟩ : ∃ cs, PassedChunks (2 ^ 63 - 1) pin pout cs (passchunks pin pout) :=
    passchunks_spec hpin hpout (by omega) (by omega)
  have hret := hp.noErr hpn hpon
  obtain ⟨u, hw, hu⟩ := hp.writes
  have hbody : pin.unread = cs.flatten := by
    rw [hp.reads.unread, unread_of_bioeof hp.reads.ok (hp.eof hret), List.append_nil]
  refine ⟨u, hret, hw.written, ?_⟩
  intro rest cin cout hcin hcn hcout hcon hcu
  rw [hu hpon hret] at hcu
  obtain ⟨cin', cout', hr, hrd, hwr⟩ := recvchunks_write hcin hcout hcn hcon
    (fun c hc => ⟨(hp.chunks c hc).1, by have := (hp.chunks c hc).2; omega⟩) hcu
  rw [hr]
  refine ⟨rfl, ?_, by rw [hwr.written, hbody]⟩
  have := hrd.unread
  rw [hcu] at this
  exact (List.append_cancel_left this).symm

/-- A body of five bytes that comes in two parts. -/
theorem chunks_roundtrip_hello :
    ∃ enc, (passchunks (bioopen { avail := bytes "hello", sched := [.upto 1] } {})
        (bioopen { avail := [] } {})).2.2.written = enc ∧
      (recvchunks (bioopen { avail := enc ++ bytes "GET" } {}) (bioopen { avail := [] } {})).2.1.unread =
        bytes "GET" ∧
      (recvchunks (bioopen { avail := enc ++ bytes "GET" } {})
        (bioopen { avail := [] } {})).2.2.written = bytes "hello" := by
  have hno : NoErr [] := by simp [NoErr]
  obtain ⟨enc, -, hw, h⟩ := chunks_roundtrip
    (bioopen { avail := bytes "hello", sched := [.upto 1] } {}) (bioopen { avail := [] } {})
    (bioopen_rok _ (by simp) _) (by simp [NoErr, bioopen]) (by simp [bioopen]) rfl
    (bioopen_wok _ _) hno
  obtain ⟨-, hu, hr⟩ := h (bytes "GET") (bioopen { avail := enc ++ bytes "GET" } {})
    (bioopen { avail := [] } {}) (bioopen_rok _ (by simp) _) hno (bioopen_wok _ _) hno rfl
  exact ⟨enc, hw, hu, hr⟩

end Ashd
