import Ashd.Lib.ReqHeaders

/-!
# Responses that are parsed and written again

A parsed response holds what its stream says but for carriage returns and the white space around
names and values. Written, each header takes its name, its value and four bytes; so a response
that was accepted can be too long afterwards.

Main results:
* `accepts_iff`: what `parseresponseb` accepts, said of the stream.
* `respList_write`: a response that was written is accepted as it was if its header is short
  enough.
-/

namespace Ashd

/-! ## Streams that are accepted -/

/-- What `parseresponseb` makes of a stream, and what it leaves of it. -/
def respList (s : Bytes) : Option (Hthead × Bytes) :=
  match scanList verStep [] s with
  | none => none
  | some (ver, s) =>
    match scanList codeStep 0 s with
    | none => none
    | some (code, s) =>
      match scanList msgStep [] s with
      | none => none
      | some (msg, s) => scanList headerStep { head := mkresp code msg ver } s

/-- `parseresponseb` accepts the stream `s`, in whichever parts it comes, as `resp`, and leaves
    `body`. -/
def Accepts (s : Bytes) (resp : Hthead) (body : Bytes) : Prop :=
  ∀ inb : Bufio, inb.ROk → NoErr inb.src.sched → inb.unread = s →
    ∃ inb', parseresponseb inb = (some resp, inb') ∧ inb'.unread = body

theorem respList_of_parseresponseb {inb inb' : Bufio} {resp : Hthead} (hi : inb.ROk)
    (h : parseresponseb inb = (some resp, inb')) :
    respList inb.unread = some (resp, inb'.unread) := by
  have hg := biogetc_isReader inb
  have h0 : ∃ t, inb.Reads t inb := ⟨[], .refl hi⟩
  obtain ⟨ver, a₁, hv, h⟩ := andThen_eq_some h
  obtain ⟨code, a₂, hc, h⟩ := andThen_eq_some h
  obtain ⟨msg, a₃, hm, h⟩ := andThen_eq_some h
  have h1 := (scan_getcList hg h0 hv).2
  have h2 := (scan_getcList hg h1 hc).2
  have h3 := (scan_getcList hg h2 hm).2
  have ev := scan_eq_some hg h0 hv
  have ec := scan_eq_some hg h1 hc
  have em := scan_eq_some hg h2 hm
  unfold respList
  rw [ev]
  simp only [ec, em]
  exact scan_eq_some hg h3 h

/-- Whatever the parts of a header are, less than 65536 bytes of it are read. -/
theorem scanList_headerStep_length {s rest : Bytes} {head resp : Hthead}
    (h : scanList headerStep { head := head } s = some (resp, rest)) :
    s.length < 65536 + rest.length := by
  rw [scanList_headerStep (s.length + 1) s head 0 (Nat.lt_succ_self _)] at h
  cases hl : headerLines (s.length + 1) s with
  | none => rw [hl] at h; cases h
  | some r =>
    rw [hl] at h
    simp only at h
    split_ifs at h with hlt
    cases h
    omega

theorem parseresponseb_of_respList {inb : Bufio} {resp : Hthead} {body : Bytes} (hi : inb.ROk)
    (hne : NoErr inb.src.sched) (h : respList inb.unread = some (resp, body)) :
    ∃ inb', parseresponseb inb = (some resp, inb') ∧ inb'.unread = body := by
  have hg := biogetc_isReader inb
  have h0 : ∃ t, inb.Reads t inb := ⟨[], .refl hi⟩
  have hgood : ∀ b, (∃ t, inb.Reads t b) → b.unread ≠ [] → (biogetc b).1 ≠ none :=
    fun b ⟨_, hb⟩ hn => biogetc_some hb.ok (hb.noErr hne) hn
  have hlen : ∀ b, (∃ t, inb.Reads t b) → b.unread.length ≤ inb.unread.length := by
    rintro b ⟨t, hb⟩
    have := congrArg List.length hb.unread
    rw [List.length_append] at this
    omega
  unfold respList at h
  cases hv : scanList verStep [] inb.unread with
  | none => rw [hv] at h; cases h
  | some r =>
  obtain ⟨ver, s₁⟩ := r
  rw [hv] at h
  simp only at h
  obtain ⟨b₁, hb₁, h1, rfl⟩ := scan_of_scanList hg hgood h0
    (show inb.unread.length ≤ inb.unread.length + 1 + s₁.length by omega) hv
  cases hc : scanList codeStep 0 b₁.unread with
  | none => rw [hc] at h; cases h
  | some r =>
  obtain ⟨code, s₂⟩ := r
  rw [hc] at h
  simp only at h
  have hle₁ := hlen b₁ h1
  obtain ⟨b₂, hb₂, h2, rfl⟩ := scan_of_scanList hg hgood h1
    (show b₁.unread.length ≤ inb.unread.length + 1 + s₂.length by omega) hc
  cases hm : scanList msgStep [] b₂.unread with
  | none => rw [hm] at h; cases h
  | some r =>
  obtain ⟨msg, s₃⟩ := r
  rw [hm] at h
  simp only at h
  have hle₂ := hlen b₂ h2
  obtain ⟨b₃, hb₃, h3, rfl⟩ := scan_of_scanList hg hgood h2
    (show b₂.unread.length ≤ inb.unread.length + 1 + s₃.length by omega) hm
  obtain ⟨b₄, hb₄, -, hrest⟩ := scan_of_scanList hg hgood h3
    (show b₃.unread.length ≤ 65536 + body.length from (scanList_headerStep_length h).le) h
  refine ⟨b₄, ?_, hrest⟩
  unfold parseresponseb parseresponse
  rw [hb₁]
  simp only [andThen, hb₂, hb₃]
  exact hb₄

theorem accepts_iff (s : Bytes) (resp : Hthead) (body : Bytes) :
    Accepts s resp body ↔ respList s = some (resp, body) := by
  constructor
  · intro h
    have hi : (bioopen { avail := s } {}).ROk := bioopen_rok _ (by simp) _
    obtain ⟨inb', hp, rfl⟩ := h _ hi (by simp [NoErr, bioopen]) rfl
    exact respList_of_parseresponseb hi hp
  · rintro h inb hi hne rfl
    exact parseresponseb_of_respList hi hne h

/-! ## The status line -/

/-- A word that is short enough, and the space after it. -/
theorem scanList_word {hi limit : ℕ} {t : Bytes} (ht : ∀ c ∈ t, 32 < c ∧ c.toNat < hi) (rest : Bytes) :
    ∀ w : Bytes, (w ++ t).length < limit →
      scanList (wordStep hi limit) w (t ++ 32 :: rest) = some (w ++ t, rest) := by
  induction t with
  | nil =>
    intro w _
    rw [List.append_nil]
    rfl
  | cons c t ih =>
    intro w hlen
    obtain ⟨⟨hc, hlt⟩, ht⟩ := List.forall_mem_cons.mp ht
    have h32 : c ≠ 32 := by
      rintro rfl
      exact absurd hc (by decide)
    have hok : ¬ (c < 32 ∨ c.toNat ≥ hi) := by
      rw [UInt8.lt_iff_toNat_lt] at hc ⊢
      omega
    have hsize : ¬ (w.length + 1 ≥ limit) := by
      rw [List.length_append, List.length_cons] at hlen
      omega
    rw [List.cons_append, scanList, wordStep, if_neg h32, if_neg hok, if_neg hsize]
    simp only
    rw [ih ht (w ++ [c]) (by simpa using hlen), List.append_assoc, List.singleton_append]

/-- A line that is short enough, and its end. -/
theorem scanList_msg {hi limit : ℕ} {t : Bytes} (ht : ∀ c ∈ t, 32 ≤ c ∧ c.toNat < hi) (rest : Bytes) :
    ∀ w : Bytes, (w ++ t).length < limit →
      scanList (lineStep hi limit) w (t ++ 13 :: 10 :: rest) = some (w ++ t, rest) := by
  induction t with
  | nil =>
    intro w _
    rw [List.append_nil]
    rfl
  | cons c t ih =>
    intro w hlen
    obtain ⟨⟨hc, hlt⟩, ht⟩ := List.forall_mem_cons.mp ht
    have h10 : c ≠ 10 := by
      rintro rfl
      exact absurd hc (by decide)
    have h13 : c ≠ 13 := by
      rintro rfl
      exact absurd hc (by decide)
    have hok : ¬ (c < 32 ∨ c.toNat ≥ hi) := by
      rw [UInt8.le_iff_toNat_le] at hc
      rw [UInt8.lt_iff_toNat_lt]
      omega
    have hsize : ¬ (w.length + 1 ≥ limit) := by
      rw [List.length_append, List.length_cons] at hlen
      omega
    rw [List.cons_append, scanList, lineStep, if_neg h10, if_neg h13, if_neg hok, if_neg hsize]
    simp only
    rw [ih ht (w ++ [c]) (by simpa using hlen), List.append_assoc, List.singleton_append]

/-- A status code, in decimal. -/
theorem scanList_code {ds : Bytes} (hds : ∀ c ∈ ds, isdigit c = true) (rest : Bytes) :
    ∀ code : ℕ, ds.foldl (fun acc c => acc * 10 + (digitVal c).getD 0) code < 10000 →
      scanList codeStep code (ds ++ 32 :: rest) =
        some (ds.foldl (fun acc c => acc * 10 + (digitVal c).getD 0) code, rest) := by
  induction ds with
  | nil => intro code _; rfl
  | cons c ds ih =>
    intro code hlt
    obtain ⟨hc, hds⟩ := List.forall_mem_cons.mp hds
    have hdigit : 48 ≤ c ∧ c ≤ 57 := by simpa [isdigit] using hc
    have h32 : c ≠ 32 := by
      rintro rfl
      exact absurd hdigit.1 (by decide)
    have hok : ¬ (c < 48 ∨ c > 57) := by
      rw [not_or]
      exact ⟨UInt8.not_lt.mpr hdigit.1, UInt8.not_lt.mpr hdigit.2⟩
    rw [List.foldl_cons, digitVal_of_isdigit hc, Option.getD_some] at hlt ⊢
    have hsize : ¬ (code * 10 + (c.toNat - 48) ≥ 10000) := by
      have := le_foldl_digitVal (show 0 < 10 by norm_num) ds (code * 10 + (c.toNat - 48))
      omega
    rw [List.cons_append, scanList, codeStep, if_neg h32, if_neg hok]
    simp only [if_neg hsize]
    exact ih hds _ hlt

/-! ## Written again -/

/-- The bytes of a response that is written, up to its body. -/
def respText (resp : Hthead) : Bytes :=
  statusLine resp ++ (resp.headers.flatMap headerLine ++ Message.CRLF)

/-- The length of its header, as the limit in `parseheaders` counts it. -/
def headerSize (resp : Hthead) : ℕ := (resp.headers.flatMap headerLine ++ Message.CRLF).length

/-- A response as `parseresponse` leaves it, if there is no NUL in the stream. -/
structure Rewritable (resp : Hthead) : Prop where
  shape : resp = { mkresp resp.code resp.msg resp.ver with headers := resp.headers }
  ok : RespOk resp
  ver : resp.ver.length < 128
  msg : resp.msg.length < 512
  headers : ∀ f ∈ resp.headers, PlainHeader f

theorem length_headers_le (hs : List (Bytes × Bytes)) : hs.length ≤ (hs.flatMap headerLine).length := by
  induction hs with
  | nil => exact le_rfl
  | cons h hs ih =>
    rw [List.flatMap_cons, List.length_append, List.length_cons]
    have : 1 ≤ (headerLine h).length := by
      simp [headerLine]
      omega
    omega

theorem respList_write {resp : Hthead} (h : Rewritable resp) (body : Bytes) :
    respList (respText resp ++ body) =
      if headerSize resp < 65536 then some (resp, body) else none := by
  have hsplit : respText resp ++ body = resp.ver ++ 32 :: (numeral 10 resp.code ++ 32 ::
      (resp.msg ++ 13 :: 10 :: (resp.headers.flatMap headerLine ++ Message.CRLF ++ body))) := by
    simp [respText, statusLine]
  have hver := scanList_word h.ok.ver (numeral 10 resp.code ++ 32 ::
    (resp.msg ++ 13 :: 10 :: (resp.headers.flatMap headerLine ++ Message.CRLF ++ body))) [] h.ver
  have hval : (numeral 10 resp.code).foldl (fun acc c => acc * 10 + (digitVal c).getD 0) 0 =
      resp.code := numeralValue_numeral (by norm_num) (by norm_num) _
  have hcode := scanList_code (Message.isDecimal_numeral resp.code).2
    (resp.msg ++ 13 :: 10 :: (resp.headers.flatMap headerLine ++ Message.CRLF ++ body)) 0
    (by rw [hval]; exact h.ok.code)
  have hmsg := scanList_msg h.ok.msg (resp.headers.flatMap headerLine ++ Message.CRLF ++ body) [] h.msg
  rw [hval] at hcode
  rw [List.nil_append] at hver hmsg
  unfold respList verStep msgStep
  rw [hsplit, hver]
  simp only [hcode, hmsg]
  generalize hs : resp.headers.flatMap headerLine ++ Message.CRLF ++ body = s
  have hlen : s.length = headerSize resp + body.length := by
    rw [← hs, List.length_append]
    rfl
  have hcount := length_headers_le resp.headers
  have hfuel : resp.headers.length < s.length + 1 := by
    rw [← hs, List.length_append, List.length_append]
    omega
  rw [scanList_headerStep (s.length + 1) s _ 0 (Nat.lt_succ_self _), ← hs,
    headerLines_write h.headers body _ (by rw [hs]; exact hfuel), hs]
  simp only [hlen, Nat.zero_add, Nat.add_sub_cancel]
  split_ifs
  · rw [h.shape]
    rfl
  · rfl

section Lengths

variable {α : Type*} {getc : α → Option UInt8 × α}

theorem scan_word_length {hi limit left : ℕ} {w : Bytes} {a a' : α} (hl : 0 < limit)
    (h : scan getc (wordStep hi limit) left [] a = (some w, a')) : w.length < limit := by
  refine scan_inv (fun w => w.length < limit) (fun w => w.length < limit)
    (fun s c s' hI hs => ?_) (fun s c r hI hs => ?_) hl h
  · unfold wordStep at hs
    split_ifs at hs
    cases hs
    rw [List.length_append, List.length_singleton]
    omega
  · unfold wordStep at hs
    split_ifs at hs
    cases hs
    exact hI

theorem scan_line_length {hi limit left : ℕ} {w : Bytes} {a a' : α} (hl : 0 < limit)
    (h : scan getc (lineStep hi limit) left [] a = (some w, a')) : w.length < limit := by
  refine scan_inv (fun w => w.length < limit) (fun w => w.length < limit)
    (fun s c s' hI hs => ?_) (fun s c r hI hs => ?_) hl h
  · unfold lineStep at hs
    split_ifs at hs
    · cases hs
      exact hI
    · cases hs
      rw [List.length_append, List.length_singleton]
      omega
  · unfold lineStep at hs
    split_ifs at hs
    cases hs
    exact hI

end Lengths

/-- What `parseresponseb` accepts of a stream without NUL can be written again. -/
theorem parseresponseb_rewritable {inb inb' : Bufio} {resp : Hthead} (hi : inb.ROk)
    (hnul : NulFree inb.unread) (h : parseresponseb inb = (some resp, inb')) : Rewritable resp := by
  have hg := biogetc_isReader inb
  have h0 : ∃ t, inb.Reads t inb := ⟨[], .refl hi⟩
  have hok := parseresponse_ok h
  obtain ⟨ver, a₁, hv, h⟩ := andThen_eq_some h
  obtain ⟨code, a₂, hc, h⟩ := andThen_eq_some h
  obtain ⟨msg, a₃, hm, h⟩ := andThen_eq_some h
  have h1 := (scan_getcList hg h0 hv).2
  have h2 := (scan_getcList hg h1 hc).2
  have h3 := (scan_getcList hg h2 hm).2
  have hhead := scan_eq_some hg h3 h
  rw [scanList_headerStep (a₃.unread.length + 1) _ _ 0 (Nat.lt_succ_self _)] at hhead
  cases hl : headerLines (a₃.unread.length + 1) a₃.unread with
  | none => rw [hl] at hhead; cases hhead
  | some r =>
    rw [hl] at hhead
    simp only at hhead
    split_ifs at hhead
    obtain ⟨rfl, -⟩ := Prod.mk.inj (Option.some.inj hhead)
    have hnul₃ : NulFree a₃.unread := by
      obtain ⟨t, ht⟩ := h3
      rw [ht.unread] at hnul
      exact fun h0 => hnul (List.mem_append_right _ h0)
    exact ⟨rfl, hok, scan_word_length (by norm_num) hv, scan_line_length (by norm_num) hm,
      headerLines_plain hnul₃ hl⟩

end Ashd
