import Ashd.Lib.BufioFailure
import Ashd.Mtio.Model

/-!
# The duplex relay

`passduplex` of src/htparser.c relays between the client and the handler of a connection that was
given up to it. Each round copies what fits, and then has `mblock` wait for what can be read from
and written to the two sides; the descriptor of a side is left out once the side is at its end, and
so are the data that were to be written to it.

Main results:
* `passduplex_waits_iff`: there is something to wait for exactly if one side is not at its end.
* `passduplex_stuck`: both are, with data left to be copied to each other.
-/

namespace Ashd

open Mtio (Events Selected)

/-! ## The loop -/

/-- The entry of `pfd` for one side (src/htparser.c:317–334). For the second side, `eof` is tested
    once more where it is known. -/
def pollside (fd : ℤ) (x : Bufio) : List Selected :=
  if x.eof then []
  else
    let ev : Events := ⟨decide (biorspace x ≠ 0), decide (biowdata x ≠ 0)⟩
    if ev ≠ ∅ then [⟨fd, ev⟩] else []

/-- What is done to the side that `mblock` has returned (src/htparser.c:343–346). There is none if
    that fails. -/
def passsome (ev : Events) (sio : Bufio) : Option Bufio :=
  match if ev.read then biofillsome sio else (0, sio) with
  | (ret, sio) =>
    if ret < 0 then none
    else
      match if ev.write then bioflushsome sio else (0, sio) with
      | (ret, sio) => if ret < 0 then none else some sio

/-- The rest of a round (src/htparser.c:335–346), for what `mblock` returns. -/
def passsel (afd bfd : ℤ) (sel : Selected) (a b : Bufio) : Option (Bufio × Bufio) :=
  if sel.ev = ∅ then none
  else if sel.fd = afd then (passsome sel.ev a).map fun a => (a, b)
  else if sel.fd = bfd then (passsome sel.ev b).map fun b => (a, b)
  else none

/-- A call of `mblock`: the two sides as the round began, and what is passed to it. -/
structure Wait where
  a : Bufio
  b : Bufio
  pfd : List Selected

/-- `passduplex` (src/htparser.c:307–348): the calls of `mblock`, which return `sels` one after the
    other. When these have run out, the relay is still waiting. -/
def passduplex (afd bfd : ℤ) : List Selected → Bufio → Bufio → List Wait
  | sels, a, b =>
    if bioeof a ∨ bioeof b then []
    else
      match biocopybuf b a with
      | (_, b', a') =>
        match biocopybuf a' b' with
        | (_, a'', b'') =>
          let wait : Wait := ⟨a, b, pollside afd a'' ++ pollside bfd b''⟩
          match sels with
          | [] => [wait]
          | sel :: sels =>
            match passsel afd bfd sel a'' b'' with
            | none => [wait]
            | some (a, b) => wait :: passduplex afd bfd sels a b

/-! ## What is copied -/

/-- When there is something to copy, something is to be written afterwards. -/
theorem biocopybuf_wdata {dst src : Bufio} (h : dst.WOk) (hs : src.ROk) (hdata : 0 < biordata src) :
    0 < biowdata (biocopybuf dst src).2.1 := by
  obtain ⟨h1, -, hsize⟩ := wgrow_spec h
  obtain ⟨h2, -, hsame, hfull⟩ := wcompact_spec h1.ok
  have hhint := h.hint
  have hwh := h2.ok.wh_le
  have hle := h2.ok.buf.d_le.trans h2.ok.buf.b_le
  unfold biocopybuf
  simp only
  generalize dst.wgrow.wcompact = b at *
  have hlen : (peek src.rbuf.b src.rh (min (biordata src) (b.wbuf.s - b.wbuf.d))).length =
      min (biordata src) (b.wbuf.s - b.wbuf.d) := by
    have := hs.rh_le
    have := hs.buf.d_le
    unfold biordata at hdata ⊢
    exact length_peek (by omega)
  simp only [biowdata, Bufio.wput, Charbuf.put, hlen]
  by_cases hroom : b.wbuf.d = b.wbuf.s
  · -- the buffer is full
    have := hfull hroom
    omega
  · omega

/-- What `biocopybuf` makes of its two buffers. -/
structure Copied (dst src dst' src' : Bufio) : Prop where
  dok : dst'.ROk ∧ dst'.WOk
  sok : src'.ROk ∧ src'.WOk
  deof : dst'.eof = dst.eof
  seof : src'.eof = src.eof
  drdata : biordata dst' = biordata dst
  srdata : biordata src' ≤ biordata src
  swdata : biowdata src' = biowdata src
  dwdata : 0 < biordata src → 0 < biowdata dst'

theorem biocopybuf_copied {dst src : Bufio} (hd : dst.ROk ∧ dst.WOk) (hs : src.ROk ∧ src.WOk) :
    Copied dst src (biocopybuf dst src).2.1 (biocopybuf dst src).2.2 := by
  have hw := biocopybuf_writes hd.2 hs.1
  have hr := biocopybuf_reads hs.1 dst
  obtain ⟨hb, hrh, he, -, -⟩ := hw.rside_eq
  have hskip : biordata (biocopybuf dst src).2.2 ≤ biordata src := by
    show src.rbuf.d - (src.rh + _) ≤ src.rbuf.d - src.rh
    omega
  refine ⟨⟨hw.rok hd.1, hw.ok⟩, ⟨hr.ok, hr.wok hs.2⟩, he, rfl, ?_, hskip, rfl,
    biocopybuf_wdata hd.2 hs.1⟩
  rw [biordata, biordata, hb, hrh]

/-! ## What is waited for -/

theorem pollside_eq_nil {fd : ℤ} {x : Bufio} :
    pollside fd x = [] ↔ x.eof = true ∨ biorspace x = 0 ∧ biowdata x = 0 := by
  have hev : (⟨decide (biorspace x ≠ 0), decide (biowdata x ≠ 0)⟩ : Events) = ∅ ↔
      biorspace x = 0 ∧ biowdata x = 0 := by
    show Events.mk _ _ = Events.mk false false ↔ _
    rw [Events.mk.injEq, decide_eq_false_iff_not, decide_eq_false_iff_not, not_not, not_not]
  unfold pollside
  by_cases heof : x.eof = true
  · simp [heof]
  · rw [if_neg heof, or_iff_right heof, ← hev]
    simp only
    by_cases h0 : (⟨decide (biorspace x ≠ 0), decide (biowdata x ≠ 0)⟩ : Events) = ∅
    · rw [if_neg (not_not.mpr h0)]
      exact ⟨fun _ => h0, fun _ => rfl⟩
    · rw [if_pos h0]
      exact ⟨fun h => absurd h (List.cons_ne_nil _ _), fun h => absurd h h0⟩

theorem pollside_ev {fd : ℤ} {x : Bufio} {s : Selected} (hs : s ∈ pollside fd x) : s.ev ≠ ∅ := by
  unfold pollside at hs
  by_cases heof : x.eof = true
  · rw [if_pos heof] at hs
    cases hs
  · rw [if_neg heof] at hs
    simp only at hs
    split_ifs at hs with hev
    · rw [List.mem_singleton.mp hs]
      exact hev
    · cases hs

/-- A side that is read no further has something buffered. -/
theorem biordata_pos {x : Bufio} (h : x.ROk) (hspace : biorspace x = 0) : 0 < biordata x := by
  have := h.hint
  unfold biorspace at hspace
  split_ifs at hspace <;> omega

/-- So has a side at its end that is not done with. -/
theorem biordata_pos_of_eof {x : Bufio} (he : x.eof = true) (hno : ¬ bioeof x = true) :
    0 < biordata x := by
  simp only [bioeof, he, Bool.true_and, decide_eq_true_eq] at hno
  unfold biordata
  omega

/-- A round that copies, and what is then waited for: nothing exactly if both sides are at their
    end. -/
theorem round_waits {afd bfd : ℤ} {a b a' b' a'' b'' : Bufio}
    (hgo : ¬ (bioeof a = true ∨ bioeof b = true)) (h1 : Copied b a b' a')
    (h2 : Copied a' b' a'' b'') :
    pollside afd a'' ++ pollside bfd b'' = [] ↔ a.eof = true ∧ b.eof = true := by
  have haeof : a''.eof = a.eof := h2.deof.trans h1.seof
  have hbeof : b''.eof = b.eof := h2.seof.trans h1.deof
  have hbw : 0 < biordata a → 0 < biowdata b'' := fun h => h2.swdata ▸ h1.dwdata h
  have haw : 0 < biordata b → 0 < biowdata a'' := fun h => h2.dwdata (h1.drdata ▸ h)
  have har : biordata a'' ≤ biordata a := h2.drdata.le.trans h1.srdata
  obtain ⟨hnoa, hnob⟩ := not_or.mp hgo
  rw [List.append_eq_nil_iff, pollside_eq_nil, pollside_eq_nil, haeof, hbeof]
  constructor
  · -- a side that is read no further has something for the other
    rintro ⟨hea | ⟨hsa, hwa⟩, heb | ⟨hsb, hwb⟩⟩
    · exact ⟨hea, heb⟩
    · have := hbw (biordata_pos_of_eof hea hnoa)
      omega
    · have := haw (biordata_pos_of_eof heb hnob)
      omega
    · have := hbw ((biordata_pos h2.dok.1 hsa).trans_le har)
      omega
  · rintro ⟨hea, heb⟩
    exact ⟨.inl hea, .inl heb⟩

/-! ## The run -/

/-- What is done to a side keeps it one. -/
theorem passsome_ok {ev : Events} {sio sio' : Bufio} (h : sio.ROk ∧ sio.WOk)
    (hp : passsome ev sio = some sio') : sio'.ROk ∧ sio'.WOk := by
  have hfill : ∀ r, (if ev.read then biofillsome sio else (0, sio)) = r → r.2.ROk ∧ r.2.WOk := by
    rintro _ rfl
    split_ifs
    · have hr := (biofill_spec h.1).1
      exact ⟨hr.ok, hr.wok h.2⟩
    · exact h
  unfold passsome at hp
  cases hf : if ev.read then biofillsome sio else (0, sio) with
  | mk ret b =>
    have hb : b.ROk ∧ b.WOk := hfill _ hf
    have hflush : ∀ r, (if ev.write then bioflushsome b else (0, b)) = r → r.2.ROk ∧ r.2.WOk := by
      rintro _ rfl
      split_ifs
      · have hw := (bioflushsome_spec hb.2).1
        exact ⟨hw.rok hb.1, hw.ok⟩
      · exact hb
    rw [hf] at hp
    simp only at hp
    by_cases hret : ret < 0
    · rw [if_pos hret] at hp
      cases hp
    · rw [if_neg hret] at hp
      cases hw : if ev.write then bioflushsome b else (0, b) with
      | mk ret' b' =>
        rw [hw] at hp
        simp only at hp
        split_ifs at hp with hret'
        cases hp
        exact hflush _ hw

theorem passsel_ok {afd bfd : ℤ} {sel : Selected} {a b a' b' : Bufio} (ha : a.ROk ∧ a.WOk)
    (hb : b.ROk ∧ b.WOk) (hp : passsel afd bfd sel a b = some (a', b')) :
    (a'.ROk ∧ a'.WOk) ∧ b'.ROk ∧ b'.WOk := by
  unfold passsel at hp
  split_ifs at hp with hev hafd hbfd
  · obtain ⟨x, hx, hpair⟩ := Option.map_eq_some_iff.mp hp
    cases hpair
    exact ⟨passsome_ok ha hx, hb⟩
  · obtain ⟨x, hx, hpair⟩ := Option.map_eq_some_iff.mp hp
    cases hpair
    exact ⟨ha, passsome_ok hb hx⟩

/-- What holds of the wait of every round holds of every wait of a run. -/
theorem passduplex_rounds {P : Wait → Prop} {afd bfd : ℤ}
    (hround : ∀ a b b' a' a'' b'' : Bufio, ¬ (bioeof a = true ∨ bioeof b = true) →
      Copied b a b' a' → Copied a' b' a'' b'' →
      P ⟨a, b, pollside afd a'' ++ pollside bfd b''⟩)
    (sels : List Selected) {a b : Bufio} (ha : a.ROk ∧ a.WOk) (hb : b.ROk ∧ b.WOk) :
    ∀ w ∈ passduplex afd bfd sels a b, P w := by
  induction sels generalizing a b with
  | nil =>
    intro w hw
    rw [passduplex] at hw
    split_ifs at hw with hgo
    · cases hw
    · have h1 := biocopybuf_copied hb ha
      have h2 := biocopybuf_copied h1.sok h1.dok
      rw [List.mem_singleton.mp hw]
      exact hround _ _ _ _ _ _ hgo h1 h2
  | cons sel sels ih =>
    intro w hw
    rw [passduplex] at hw
    split_ifs at hw with hgo
    · cases hw
    · have h1 := biocopybuf_copied hb ha
      have h2 := biocopybuf_copied h1.sok h1.dok
      simp only at hw
      cases hsel : passsel afd bfd sel
          (biocopybuf (biocopybuf b a).2.2 (biocopybuf b a).2.1).2.1
          (biocopybuf (biocopybuf b a).2.2 (biocopybuf b a).2.1).2.2 with
      | none =>
        rw [hsel] at hw
        rw [List.mem_singleton.mp hw]
        exact hround _ _ _ _ _ _ hgo h1 h2
      | some r =>
        obtain ⟨a', b'⟩ := r
        rw [hsel] at hw
        rcases List.mem_cons.mp hw with rfl | hw
        · exact hround _ _ _ _ _ _ hgo h1 h2
        · obtain ⟨ha', hb'⟩ := passsel_ok h2.dok h2.sok hsel
          exact ih ha' hb' w hw

/-- In every run, for all that the two sides do and all that `mblock` returns: a call of `mblock`
    is passed a descriptor, and each with an event, exactly if not both sides were at their end as
    the round began. -/
theorem passduplex_waits_iff (afd bfd : ℤ) (sels : List Selected) (a b : Bufio)
    (ha : a.Reachable) (hb : b.Reachable) :
    ∀ w ∈ passduplex afd bfd sels a b,
      (w.pfd ≠ [] ∧ ∀ s ∈ w.pfd, s.ev ≠ ∅) ↔ ¬ (w.a.eof = true ∧ w.b.eof = true) := by
  refine passduplex_rounds ?_ sels ha.ok hb.ok
  intro a b b' a' a'' b'' hgo h1 h2
  have hev : ∀ s ∈ pollside afd a'' ++ pollside bfd b'', s.ev ≠ ∅ := by
    intro s hs
    exact (List.mem_append.mp hs).elim pollside_ev pollside_ev
  rw [← round_waits hgo h1 h2]
  exact ⟨And.left, fun h => ⟨h, hev⟩⟩

/-- A side whose other end has sent 4097 bytes and closed, and that is not written to. -/
def endingside : Bufio := bioopen { avail := List.replicate 4097 0 } {}

/-- Both sides are read three times. -/
def endingsels : List Selected :=
  List.replicate 3 ⟨4, ⟨true, false⟩⟩ ++ List.replicate 3 ⟨5, ⟨true, false⟩⟩

/-- The first call of `mblock` then. -/
def endingwait : Wait :=
  ((passduplex 4 5 endingsels endingside endingside).head?).getD ⟨endingside, endingside, []⟩

theorem endingside_waits :
    (endingwait.pfd ≠ [] ∧ ∀ s ∈ endingwait.pfd, s.ev ≠ ∅) ↔
      ¬ (endingwait.a.eof = true ∧ endingwait.b.eof = true) := by
  have hmem : endingwait ∈ passduplex 4 5 endingsels endingside endingside := by
    have hsome : (passduplex 4 5 endingsels endingside endingside).head?.isSome = true := by
      decide +kernel
    obtain ⟨w, hw⟩ := Option.isSome_iff_exists.mp hsome
    rw [endingwait, hw]
    exact List.mem_of_head? hw
  exact passduplex_waits_iff 4 5 endingsels endingside endingside (.opened _ [] [])
    (.opened _ [] []) endingwait hmem

/-- In the end both sides are at their end, with a byte each for the other; nothing is waited
    for, not even the timeout. -/
theorem passduplex_stuck :
    endingside.Reachable ∧ ∃ w ∈ passduplex 4 5 endingsels endingside endingside,
      w.pfd = [] ∧ w.a.eof = true ∧ w.b.eof = true := by
  refine ⟨.opened _ [] [], ?_⟩
  have hlast : ((passduplex 4 5 endingsels endingside endingside).getLast?.map
      fun w => (w.pfd.length, w.a.eof, w.b.eof)) = some (0, true, true) := by
    decide +kernel
  obtain ⟨w, hw, heq⟩ := Option.map_eq_some_iff.mp hlast
  rw [Prod.mk.injEq, Prod.mk.injEq, List.length_eq_zero_iff] at heq
  exact ⟨w, List.mem_of_getLast? hw, heq⟩

end Ashd
