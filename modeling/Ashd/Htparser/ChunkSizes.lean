import Ashd.Htparser.Chunks

/-!
# The sizes of chunks

`recvchunks` adds up the size of a chunk in a signed 64-bit variable, whatever the number of
digits, and nothing tells it when digits are shifted out. What a stream of chunks means is
said here with sizes that are unbounded.

Main results:
* `recvchunksLoop_decodes`: what is accepted, if every size fits.
* `chunks_exact_iff`: `recvchunks` decodes exactly if the sizes fit.
* `wrapped_size`: a stream in which one does not.
-/

namespace Ashd

open Message (CRLF)

/-! ## Streams of chunks -/

/-- A chunk-size line and the data after it. -/
structure IsChunk (c : Bytes × Bytes) : Prop where
  line : SizeLine c.1 c.2.length
  ne : c.2 ≠ []

/-- The bytes of a chunk. -/
def chunkText (c : Bytes × Bytes) : Bytes := c.1 ++ 10 :: c.2 ++ CRLF

/-- Chunks that hold `data`, ended by a chunk of size 0, and then `rest`. -/
def Decoded (s rest data : Bytes) : Prop :=
  ∃ (cs : List (Bytes × Bytes)) (last : Bytes), (∀ c ∈ cs, IsChunk c) ∧ SizeLine last 0 ∧
    s = cs.flatMap chunkText ++ (last ++ 10 :: CRLF) ++ rest ∧ data = cs.flatMap Prod.snd

/-- After any number of chunks, the digits that follow are a size that fits into `ssize_t`. -/
def SizesFit (s : Bytes) : Prop :=
  ∀ (cs : List (Bytes × Bytes)) (t : Bytes), (∀ c ∈ cs, IsChunk c) → s = cs.flatMap chunkText ++ t →
    sizeVal (t.takeWhile isSize) < 2 ^ 63

theorem SizesFit.head {s : Bytes} (h : SizesFit s) : sizeVal (s.takeWhile isSize) < 2 ^ 63 :=
  h [] s (by simp) rfl

theorem SizesFit.tail {s t : Bytes} {c : Bytes × Bytes} (h : SizesFit s) (hc : IsChunk c)
    (hs : s = chunkText c ++ t) : SizesFit t := by
  intro cs t' hcs ht
  apply h (c :: cs) t'
  · intro d hd
    rcases List.mem_cons.mp hd with rfl | hd
    · exact hc
    · exact hcs d hd
  · rw [hs, ht, List.flatMap_cons, List.append_assoc]

theorem takeWhile_isSize {l : Bytes} (h : ∀ c ∈ l, isSize c = true) (t : Bytes) :
    (l ++ 10 :: t).takeWhile isSize = l := by
  have h10 : isSize 10 = false := by decide
  rw [List.takeWhile_append_of_pos h, List.takeWhile_cons_of_neg (by simp [h10]), List.append_nil]

/-- The line that is read, if one is accepted. -/
theorem scanList_sizeStep {s rest : Bytes} {n : ℤ} (h : scanList sizeStep (0, false) s = some (n, rest)) :
    ∃ l, s = l ++ 10 :: rest ∧ SizeLine l (sizeVal l) ∧ n = ssize (sizeVal l) := by
  obtain ⟨l, c, s', rfl, hf, hstop⟩ := scanList_stop h
  rw [sizeStart] at hf
  obtain ⟨hall, rfl⟩ := feed_size hf
  unfold sizeStep at hstop
  split_ifs at hstop with h10 hr h13
  · simp only [Next.stop.injEq, sizeFrom_zero] at hstop
    refine ⟨l, by rw [h10], ⟨hall, ?_, rfl⟩, hstop.symm⟩
    obtain ⟨x, hx, h13⟩ := List.any_eq_true.mp hr
    exact List.ne_nil_of_mem (List.mem_filter.mpr ⟨hx, h13⟩)
  · cases hd : digitVal c with
    | none => rw [hd] at hstop; cases hstop
    | some d => rw [hd] at hstop; cases hstop

/-! ## The loops, however reading and writing goes -/

/-- The data of a chunk. -/
theorem chunkLoop_copies {fuel : ℕ} {chlen : ℤ} {inb out inb' out' : Bufio} (hi : inb.ROk)
    (ho : out.WOk) (h0 : 0 ≤ chlen) (h : chunkLoop fuel chlen inb out = (true, inb', out')) :
    ∃ t : Bytes, (t.length : ℤ) = chlen ∧ inb.Reads t inb' ∧ out.Writes t out' := by
  induction fuel generalizing chlen inb out with
  | zero => cases h
  | succ fuel ih =>
    rw [chunkLoop] at h
    by_cases hpos : chlen > 0
    swap
    · rw [if_neg hpos] at h
      cases h
      exact ⟨[], by simp; omega, .refl hi, .refl ho⟩
    rw [if_pos hpos] at h
    have hround := copyRound_spec hi ho chlen.toNat
    cases hc : copyRound chlen.toNat inb out with
    | mk res b =>
    obtain ⟨inb₁, out₁⟩ := b
    rw [hc] at hround h
    cases res with
    | none => cases h
    | some read =>
      obtain ⟨t, rfl, hle, hr, hw, -⟩ := hround
      simp only at h
      -- the rest of the data, whether there is a fill before it or not
      have hnext : ∀ b : Bufio, inb₁.Reads [] b →
          chunkLoop fuel (chlen - t.length) b out₁ = (true, inb', out') →
          ∃ t : Bytes, (t.length : ℤ) = chlen ∧ inb.Reads t inb' ∧ out.Writes t out' := by
        intro b hb hl
        obtain ⟨t', hlen, hr', hw'⟩ := ih hb.ok hw.ok (by omega) hl
        refine ⟨t ++ t', ?_, by simpa using (hr.trans hb).trans hr', hw.trans hw'⟩
        rw [List.length_append]
        push_cast
        omega
      by_cases hfill : biorspace inb₁ > 0 ∧ (biordata inb₁ : ℤ) < chlen - t.length
      · rw [if_pos hfill] at h
        by_cases hret : (biofillsome inb₁).1 ≤ 0
        · rw [if_pos hret] at h
          cases h
        · rw [if_neg hret] at h
          exact hnext _ (biofill_spec hr.ok).1 h
      · rw [if_neg hfill] at h
        exact hnext inb₁ (.refl hr.ok) h

theorem getcrlf_reads {inb inb' : Bufio} (hi : inb.ROk) (h : getcrlf inb = (true, inb')) :
    inb.Reads CRLF inb' := by
  have h1 := biogetc_spec hi
  unfold getcrlf at h
  split at h
  · rename_i b hcr
    rw [hcr] at h1
    have h2 := biogetc_spec h1.ok
    split at h
    · rename_i b' hlf
      rw [hlf] at h2
      cases h
      exact h1.trans h2
    · cases h
  · cases h

/-- The states in which `recvchunks` begins with a chunk-size line. -/
inductive AtLine (inb out : Bufio) : Bufio → Bufio → Prop
  | start : AtLine inb out inb out
  | next {b₁ o₁ b₂ b₃ o₃ b₄ : Bufio} {chlen : ℤ} (h : AtLine inb out b₁ o₁)
      (hline : scan biogetc sizeStep (b₁.unread.length + 1) (0, false) b₁ = (some chlen, b₂))
      (hne : chlen ≠ 0) (hdata : chunkLoop (copyFuel b₂ o₁) chlen b₂ o₁ = (true, b₃, o₃))
      (hend : getcrlf b₃ = (true, b₄)) : AtLine inb out b₄ o₃

/-- `chlen` is what is computed of the part `p` of a line that begins at `b` and is read. -/
def SizeRead (b : Bufio) (p : Bytes) (chlen : ℤ) : Prop :=
  ∃ t r, b.unread = p ++ t ∧
    (scan biogetc sizeStep (b.unread.length + 1) (0, false) b).2.unread <:+ t ∧
    feed sizeStep (0, false) p = some (chlen, r)

/-- Chunk decoding is exact. -/
structure ExactChunks (inb out : Bufio) : Prop where
  decoded : (recvchunks inb out).1 = 0 → ∃ data,
    Decoded inb.unread (recvchunks inb out).2.1.unread data ∧
      (recvchunks inb out).2.2.written = out.written ++ data
  sizes : ∀ b o p chlen, AtLine inb out b o → SizeRead b p chlen → chlen = sizeVal p

/-- The line of a size that fits. -/
theorem line_spec {inb inb' : Bufio} {chlen : ℤ} (hi : inb.ROk) (hfit : SizesFit inb.unread)
    (h : scan biogetc sizeStep (inb.unread.length + 1) (0, false) inb = (some chlen, inb')) :
    ∃ l, inb.Reads (l ++ [10]) inb' ∧ SizeLine l (sizeVal l) ∧ chlen = sizeVal l := by
  have hg := biogetc_isReader inb
  obtain ⟨l, hu, hline, hn⟩ := scanList_sizeStep (scan_eq_some hg ⟨[], .refl hi⟩ h)
  obtain ⟨t, ht⟩ := (scan_getcList hg ⟨[], .refl hi⟩ h).2
  refine ⟨l, ?_, hline, ?_⟩
  · have hut := ht.unread
    rw [hu, List.append_cons] at hut
    rwa [List.append_cancel_right hut]
  · have hlt := hfit.head
    rw [hu, takeWhile_isSize hline.digits] at hlt
    rw [hn, ssize_natCast hlt]

/-- The chunk that goes with a line. -/
theorem chunk_spec {b₁ b₂ b₃ b₄ o₁ o₃ : Bufio} {chlen : ℤ} (hi : b₁.ROk) (ho : o₁.WOk)
    (hfit : SizesFit b₁.unread)
    (hline : scan biogetc sizeStep (b₁.unread.length + 1) (0, false) b₁ = (some chlen, b₂))
    (hne : chlen ≠ 0) (hdata : chunkLoop (copyFuel b₂ o₁) chlen b₂ o₁ = (true, b₃, o₃))
    (hend : getcrlf b₃ = (true, b₄)) :
    ∃ c, IsChunk c ∧ b₁.Reads (chunkText c) b₄ ∧ o₁.Writes c.2 o₃ := by
  obtain ⟨l, hr, hl, rfl⟩ := line_spec hi hfit hline
  obtain ⟨t, hlen, hr', hw⟩ := chunkLoop_copies hr.ok ho (by omega) hdata
  have hcr := getcrlf_reads hr'.ok hend
  have hlen : sizeVal l = t.length := by exact_mod_cast hlen.symm
  refine ⟨(l, t), ⟨⟨hl.digits, hl.ne, hlen⟩, ?_⟩, ?_, hw⟩
  · rintro rfl
    rw [hlen] at hne
    exact hne rfl
  · have := (hr.trans hr').trans hcr
    unfold chunkText
    simpa using this

/-- Every line that is read comes after some chunks. -/
theorem AtLine.fits {inb out b o : Bufio} (hi : inb.ROk) (ho : out.WOk) (hfit : SizesFit inb.unread)
    (h : AtLine inb out b o) : b.ROk ∧ o.WOk ∧ SizesFit b.unread := by
  induction h with
  | start => exact ⟨hi, ho, hfit⟩
  | next _ hline hne hdata hend ih =>
    obtain ⟨hb, ho₁, hf⟩ := ih
    obtain ⟨c, hc, hr, hw⟩ := chunk_spec hb ho₁ hf hline hne hdata hend
    exact ⟨hr.ok, hw.ok, hf.tail hc hr.unread⟩

/-- The chunks up to the last one. -/
theorem recvchunksLoop_decodes {fuel : ℕ} {inb out inb' out' : Bufio} (hi : inb.ROk) (ho : out.WOk)
    (hfit : SizesFit inb.unread) (h : recvchunksLoop fuel inb out = (0, inb', out')) :
    ∃ data, Decoded inb.unread inb'.unread data ∧ out.Writes data out' := by
  induction fuel generalizing inb out with
  | zero => simp [recvchunksLoop] at h
  | succ fuel ih =>
    rw [recvchunksLoop] at h
    rcases hline : scan biogetc sizeStep (inb.unread.length + 1) (0, false) inb with ⟨_ | chlen, b⟩
    · rw [hline] at h
      simp at h
    rw [hline] at h
    simp only at h
    obtain ⟨l, hr, hl, hval⟩ := line_spec hi hfit hline
    by_cases hz : chlen = 0
    · -- the last chunk
      rw [if_pos hz] at h
      rcases hend : getcrlf b with ⟨ok, b'⟩
      rw [hend] at h
      cases ok with
      | false => simp at h
      | true =>
        cases h
        have hu := (hr.trans (getcrlf_reads hr.ok hend)).unread
        refine ⟨[], ⟨[], l, by simp, ⟨hl.digits, hl.ne, by omega⟩, ?_, rfl⟩, .refl ho⟩
        simpa using hu
    · rw [if_neg hz] at h
      rcases hdata : chunkLoop (copyFuel b out) chlen b out with ⟨_ | _, b₃, o₃⟩
      · rw [hdata] at h
        simp at h
      rw [hdata] at h
      simp only at h
      rcases hend : getcrlf b₃ with ⟨_ | _, b₄⟩
      · rw [hend] at h
        simp at h
      rw [hend] at h
      obtain ⟨c, hc, hrc, hw⟩ := chunk_spec hi ho hfit hline hz hdata hend
      obtain ⟨data, ⟨cs, last, hcs, hlast, hu, rfl⟩, hw'⟩ :=
        ih hrc.ok hw.ok (hfit.tail hc hrc.unread) h
      refine ⟨c.2 ++ cs.flatMap Prod.snd, ⟨c :: cs, last, ?_, hlast, ?_, rfl⟩, hw.trans hw'⟩
      · intro d hd
        rcases List.mem_cons.mp hd with rfl | hd
        · exact hc
        · exact hcs d hd
      · rw [hrc.unread, hu, List.flatMap_cons]
        simp only [List.append_assoc]

/-- A size that is computed is that of digits with which the line begins. -/
theorem sizeRead_isSize {b : Bufio} {p : Bytes} {chlen : ℤ} (h : SizeRead b p chlen) :
    p <+: b.unread.takeWhile isSize ∧ chlen = ssize (sizeVal p) := by
  obtain ⟨t, r, hu, -, hf⟩ := h
  rw [sizeStart] at hf
  obtain ⟨hall, hs⟩ := feed_size hf
  refine ⟨?_, ?_⟩
  · rw [hu, List.takeWhile_append_of_pos hall]
    exact List.prefix_append _ _
  · simpa only [sizeFrom_zero] using congrArg Prod.fst hs

/-- Digits that follow make a number no smaller. -/
theorem sizeVal_mono {p s : Bytes} (h : p <+: s) : sizeVal p ≤ sizeVal s := by
  obtain ⟨t, rfl⟩ := h
  unfold sizeVal numeralValue
  rw [List.filter_append, List.foldl_append]
  exact le_foldl_digitVal (by norm_num) _ _

theorem exactChunks_of_sizesFit {inb out : Bufio} (hi : inb.ROk) (ho : out.WOk)
    (hfit : SizesFit inb.unread) : ExactChunks inb out where
  decoded := by
    intro h0
    rcases h : recvchunks inb out with ⟨ret, inb', out'⟩
    rw [h] at h0
    simp only at h0
    subst h0
    obtain ⟨data, hdec, hw⟩ := recvchunksLoop_decodes hi ho hfit h
    exact ⟨data, hdec, hw.written⟩
  sizes := by
    intro b o p chlen hat hread
    obtain ⟨hb, -, hf⟩ := hat.fits hi ho hfit
    obtain ⟨hpre, hval⟩ := sizeRead_isSize hread
    have hle := sizeVal_mono hpre
    rw [hval, ssize_natCast (hle.trans_lt hf.head)]

/-! ## Sizes that do not fit -/

/-- If no read fails, what a loop goes round with is read. -/
theorem scan_feed {σ ρ : Type*} {step : σ → UInt8 → Next σ ρ} {s s' : σ} {p t : Bytes} {fuel : ℕ}
    {b : Bufio} (hb : b.ROk) (hne : NoErr b.src.sched) (hu : b.unread = p ++ t)
    (hf : feed step s p = some s') (hfuel : p.length ≤ fuel) :
    (scan biogetc step fuel s b).2.unread <:+ t := by
  have hmono : ∀ fuel s (b : Bufio), b.ROk → (scan biogetc step fuel s b).2.unread <:+ b.unread := by
    intro fuel s b hb
    obtain ⟨u, hr⟩ : ∃ u, b.Reads u (scan biogetc step fuel s b).2 :=
      scan_ok (biogetc_isReader b) ⟨[], .refl hb⟩
    exact ⟨u, hr.unread.symm⟩
  induction p generalizing s b fuel with
  | nil =>
    rw [List.nil_append] at hu
    rw [← hu]
    exact hmono fuel s b hb
  | cons c p ih =>
    rw [List.length_cons] at hfuel
    obtain ⟨n, rfl⟩ : ∃ n, fuel = n + 1 := ⟨fuel - 1, by omega⟩
    obtain ⟨b', hc, hr, hu'⟩ := biogetc_cons hb hne (by rw [hu, List.cons_append])
    rw [feed] at hf
    cases hs : step s c with
    | fail => rw [hs] at hf; cases hf
    | stop r => rw [hs] at hf; cases hf
    | more s₁ =>
      rw [hs] at hf
      rw [scan, hc]
      simp only [hs]
      exact ih hr.ok (hr.noErr hne) hu' hf (by omega)

/-- A line at which `recvchunks` gets has a size that fits, if all sizes are exact. -/
theorem ExactChunks.fits {inb out b o : Bufio} (h : ExactChunks inb out) (hat : AtLine inb out b o)
    (hb : b.ROk) (hne : NoErr b.src.sched) : sizeVal (b.unread.takeWhile isSize) < 2 ^ 63 := by
  obtain ⟨s', hf⟩ := feed_of_isSize (p := b.unread.takeWhile isSize)
    (fun c hc => List.mem_takeWhile_imp hc) 0 false
  have hu : b.unread = b.unread.takeWhile isSize ++ b.unread.dropWhile isSize :=
    List.takeWhile_append_dropWhile.symm
  have hlen : (b.unread.takeWhile isSize).length ≤ b.unread.length + 1 :=
    (List.takeWhile_sublist _).length_le.trans (Nat.le_succ _)
  have hread : SizeRead b (b.unread.takeWhile isSize) s'.1 :=
    ⟨_, s'.2, hu, scan_feed hb hne hu hf hlen, hf⟩
  have hexact := h.sizes b o _ _ hat hread
  rw [(sizeRead_isSize hread).2] at hexact
  exact (ssize_eq_iff _).mp hexact

/-- If nothing fails, `recvchunks` gets to the line after any number of chunks. -/
theorem ExactChunks.fits_after {inb out : Bufio} (h : ExactChunks inb out) (t : Bytes) :
    ∀ (cs : List (Bytes × Bytes)) (b o : Bufio), AtLine inb out b o → b.ROk → o.WOk →
      NoErr b.src.sched → NoErr o.snk.sched → (∀ c ∈ cs, IsChunk c) →
      b.unread = cs.flatMap chunkText ++ t → sizeVal (t.takeWhile isSize) < 2 ^ 63 := by
  intro cs
  induction cs with
  | nil =>
    intro b o hat hb _ hin _ _ hu
    have hlt := h.fits hat hb hin
    rwa [hu] at hlt
  | cons c cs ih =>
    intro b o hat hb ho hin hon hcs hu
    have hc := hcs c (by simp)
    have hu : b.unread = (c.1 ++ [10]) ++ (c.2 ++ (CRLF ++ (cs.flatMap chunkText ++ t))) := by
      rw [hu]
      simp [chunkText]
    have hlt := h.fits hat hb hin
    rw [hu, List.append_assoc, List.singleton_append, takeWhile_isSize hc.line.digits,
      hc.line.val] at hlt
    obtain ⟨b₂, hb₂, hr₂, hu₂⟩ := scan_biogetc hb hin hu (scanList_sizeLine hc.line hlt _)
    have hin₂ := hr₂.noErr hin
    obtain ⟨b₃, o₃, hb₃, hr₃, hw₃⟩ := chunkLoop_spec _ c.2 _ b₂ o hr₂.ok ho hin₂ hon hu₂
      (copyRank_lt_copyFuel b₂ o)
    have hu₃ : b₃.unread = CRLF ++ (cs.flatMap chunkText ++ t) :=
      (List.append_cancel_left (hu₂.symm.trans hr₃.unread)).symm
    obtain ⟨b₄, hb₄, hr₄, hu₄⟩ := getcrlf_spec hr₃.ok (hr₃.noErr hin₂) hu₃
    have hne : (c.2.length : ℤ) ≠ 0 := by
      have := List.length_pos_iff.mpr hc.ne
      omega
    exact ih b₄ o₃ (.next hat hb₂ hne hb₃ hb₄) hr₄.ok hw₃.ok (hr₄.noErr (hr₃.noErr hin₂))
      (hw₃.noErr hon) (fun d hd => hcs d (List.mem_cons_of_mem _ hd)) hu₄

/-- For a byte stream, in whichever parts it is read and the data is written: chunk decoding is
    exact if and only if every size that the stream holds fits. -/
theorem chunks_exact_iff (s : Bytes) :
    (∀ inb out : Bufio, inb.ROk → out.WOk → inb.unread = s → ExactChunks inb out) ↔
      SizesFit s := by
  constructor
  · intro h cs t hcs hs
    have hu : (bioopen { avail := s } {}).unread = s := rfl
    have hi : (bioopen { avail := s } {}).ROk := bioopen_rok _ (by simp) _
    have ho := bioopen_wok { avail := [] } {}
    have hno : NoErr [] := by simp [NoErr]
    exact (h _ _ hi ho hu).fits_after t cs _ _ .start hi ho hno hno hcs (hu.trans hs)
  · rintro hfit inb out hi ho rfl
    exact exactChunks_of_sizesFit hi ho hfit

/-- A chunk-size line of 17 digits: 2^64 + 5. -/
def wrappedClient : Bufio :=
  bioopen { avail := bytes "10000000000000005\r\nhello\r\n0\r\n\r\nGET" } {}

/-- It is taken for 5, and the stream for a body of 5 bytes. -/
theorem wrapped_size :
    wrappedClient.ROk ∧
      (recvchunks wrappedClient (bioopen { avail := [] } {})).1 = 0 ∧
      (recvchunks wrappedClient (bioopen { avail := [] } {})).2.1.unread = bytes "GET" ∧
      (recvchunks wrappedClient (bioopen { avail := [] } {})).2.2.written = bytes "hello" ∧
      sizeVal (bytes "10000000000000005") = 2 ^ 64 + 5 ∧
      ¬ ExactChunks wrappedClient (bioopen { avail := [] } {}) := by
  refine ⟨bioopen_rok _ (by simp) _, by decide +kernel, by decide +kernel, by decide +kernel,
    by decide +kernel, fun h => ?_⟩
  have hno : NoErr [] := by simp [NoErr]
  have hlt := h.fits .start (bioopen_rok _ (by simp) _) hno
  exact absurd hlt (by decide +kernel)

end Ashd
