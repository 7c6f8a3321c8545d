import Ashd.Htparser.Framing

/-!
# Where the next response starts

What a client that reads by the rules of RFC 2616 makes of the bytes that a round of
`serve` writes. `serve` goes by the presence of the fields and by `atoo`, and chunks
every response that has neither of them; the client goes by the status code first.

Main results:
* `readHead_headText`: the head is read back as it was.
* `recovers_iff`: so that only the body is in question.
* `response_framing`: the cases in which the client and `serve` agree on the body.
-/

namespace Ashd

open Message (CRLF readResponse messageBody isChunked lengthField noBody chunkedBody writeChunks)

/-! ## The head -/

theorem isspace_of_isLws {c : UInt8} (h : Message.isLws c = true) : isspace c = true := by
  unfold Message.isLws at h
  unfold isspace
  simp only [Bool.or_eq_true, beq_iff_eq] at h
  rcases h with rfl | rfl <;> decide

theorem HeaderField.writable {h : Bytes × Bytes} (hf : HeaderField h) : Message.Writable h where
  name := ⟨hf.name.colon, fun h13 => (hf.name.clean 13 h13).2.2 rfl⟩
  val := fun h13 => (hf.val.clean 13 h13).2.2 rfl
  nameLws := by
    intro c hc
    by_contra h
    have := isspace_of_isLws (by simpa using h)
    rw [hf.name.trimmed c hc] at this
    cases this
  valLws := by
    intro c hc
    by_contra h
    have := isspace_of_isLws (by simpa using h)
    rw [hf.val.trimmed c hc] at this
    cases this

/-- The head that `writehead` writes is read back. -/
theorem readHead_headText {resp : Hthead} (hv : (32 : UInt8) ∉ resp.ver)
    (hv' : (13 : UInt8) ∉ resp.ver) (hm : (13 : UInt8) ∉ resp.msg)
    (hf : ∀ f ∈ resp.headers, Message.Writable f) (s : Bytes) :
    Message.readHead (headText resp ++ s) =
      some ({ ver := resp.ver, code := resp.code, reason := resp.msg, fields := resp.headers }, s) := by
  have := Message.readHead_write hv hv' hm hf resp.code s
  have hlines : resp.headers.flatMap headerLine = resp.headers.flatMap Message.writeField := rfl
  rw [← this]
  simp [headText, statusLine, hlines, CRLF]

theorem notMem_of_fold {s : Bytes} {t : Bytes} {c : UInt8} (h : strcaseeq s t = true)
    (hc : tolower c ∉ fold t) : c ∉ s := by
  intro hs
  rw [← strcaseeq_iff.mp h] at hc
  exact hc (List.mem_map_of_mem hs)

/-! ## What the client recovers -/

/-- The status, the fields and the body that a handler wrote are what a client reads from
    `sent`, whatever comes after it, with the version of the request and perhaps a `Server` or
    a `Transfer-Encoding` field more, and without the fields meant for `htparser`. The handler
    wrote the head `resp` and then `w`; `head` is whether the client sent a `HEAD`. -/
def Recovers (head : Bool) (ver : Bytes) (resp : Hthead) (w sent : Bytes) : Prop :=
  ∃ body left added,
    messageBody head resp.code resp.headers w = some (body, left) ∧
    (∀ f ∈ added, f.1 = bytes "Server" ∨ f.1 = bytes "Transfer-Encoding") ∧
    ∀ next, readResponse head (sent ++ next) =
      some (({ ver := ver, code := resp.code, reason := resp.msg
               fields := (trimx resp).headers ++ added }, body), next)

/-- When the head is read back, what is left to recover is the body. -/
theorem recovers_iff {head : Bool} {resp resp' : Hthead} {w tail : Bytes}
    {added : List (Bytes × Bytes)} (hcode : resp'.code = resp.code) (hmsg : resp'.msg = resp.msg)
    (hh : resp'.headers = (trimx resp).headers ++ added)
    (hadd : ∀ f ∈ added, f.1 = bytes "Server" ∨ f.1 = bytes "Transfer-Encoding")
    (hread : ∀ s, Message.readHead (headText resp' ++ s) =
      some ({ ver := resp'.ver, code := resp'.code, reason := resp'.msg, fields := resp'.headers }, s)) :
    Recovers head resp'.ver resp w (headText resp' ++ tail) ↔
      ∃ body left, messageBody head resp.code resp.headers w = some (body, left) ∧
        ∀ next, messageBody head resp.code resp'.headers (tail ++ next) = some (body, next) := by
  have hresp : ∀ next, readResponse head (headText resp' ++ tail ++ next) =
      (messageBody head resp.code resp'.headers (tail ++ next)).map fun r =>
        (({ ver := resp'.ver, code := resp.code, reason := resp.msg, fields := resp'.headers }, r.1),
          r.2) := by
    intro next
    rw [List.append_assoc]
    unfold readResponse
    rw [hread, hcode, hmsg]
  constructor
  · rintro ⟨body, left, added', hb, -, hnext⟩
    refine ⟨body, left, hb, fun next => ?_⟩
    have := hnext next
    rw [hresp] at this
    obtain ⟨⟨b, r⟩, hbr, he⟩ := Option.map_eq_some_iff.mp this
    simp only [Prod.mk.injEq] at he
    rw [hbr, he.1.2, he.2]
  · rintro ⟨body, left, hb, hnext⟩
    refine ⟨body, left, added, hb, hadd, fun next => ?_⟩
    rw [hresp, hnext, ← hh]
    rfl

/-! ## What is added to the head -/

theorem field_filter (hs : List (Bytes × Bytes)) {p : Bytes × Bytes → Bool} {n : Bytes}
    (h : ∀ x, strcaseeq x.1 n = true → p x = true) :
    Message.field (hs.filter p) n = Message.field hs n := by
  unfold Message.field
  rw [List.find?_filter]
  congr 2
  funext x
  by_cases hx : strcaseeq x.1 n = true
  · simp only [h x hx, hx, and_self, decide_true]
  · simp only [hx, Bool.false_eq_true, and_false, decide_false]

/-- `trimx` leaves the fields that a client goes by. -/
theorem field_trimx (resp : Hthead) {n : Bytes} (hn : hasPrefixCase xash n = false) :
    Message.field (trimx resp).headers n = Message.field resp.headers n := by
  refine field_filter _ fun x hx => ?_
  rw [hasPrefixCase_congr (strcaseeq_iff.mp hx), hn]
  rfl

theorem field_append (hs added : List (Bytes × Bytes)) {n : Bytes}
    (h : ∀ x ∈ added, strcaseeq x.1 n = false) :
    Message.field (hs ++ added) n = Message.field hs n :=
  getheader_append { headers := hs } added h

/-- The head that is passed to the client. -/
theorem fixresp_spec (req resp : Hthead) :
    (fixresp req resp).2.ver = req.ver ∧ (fixresp req resp).2.code = resp.code ∧
      (fixresp req resp).2.msg = resp.msg ∧
      ∃ added, (fixresp req resp).2.headers = (trimx resp).headers ++ added ∧
        ∀ f ∈ added, f = (bytes "Server", bytes "ashd/0.13") := by
  unfold fixresp
  simp only
  split_ifs
  · exact ⟨rfl, rfl, rfl, [], by simp [trimx], by simp⟩
  · refine ⟨rfl, rfl, rfl, [(bytes "Server", bytes "ashd/0.13")], ?_, by simp⟩
    have : hasPrefixCase xash (bytes "Server") = false := by decide
    simp [trimx, headappheader, this]

/-- Only the two fields that say where the body ends matter for it. -/
theorem messageBody_congr {hs hs' : List (Bytes × Bytes)} (head : Bool) (code : ℕ)
    (hte : Message.field hs' (bytes "transfer-encoding") =
      Message.field hs (bytes "transfer-encoding"))
    (hcl : Message.field hs' (bytes "content-length") = Message.field hs (bytes "content-length"))
    (s : Bytes) : messageBody head code hs' s = messageBody head code hs s := by
  unfold messageBody isChunked
  rw [hte, hcl]

/-- `atoo` and the client agree on a length, as long as it fits 64 bits. -/
theorem atoo_lengthField {v : Bytes} {n : ℕ} (h : lengthField v = some n) :
    atoo v = min (n : ℤ) (2 ^ 63 - 1) := by
  unfold lengthField at h
  split_ifs at h with hd
  cases h
  have hv : v = Message.content v ++ v.rtakeWhile Message.isLws :=
    List.rdropWhile_append_rtakeWhile.symm
  have hlws : (v.rtakeWhile Message.isLws).takeWhile isdigit = [] := by
    cases ht : v.rtakeWhile Message.isLws with
    | nil => rfl
    | cons c t =>
      have hc : Message.isLws c = true := List.mem_rtakeWhile_imp (by rw [ht]; simp)
      have : isdigit c = false := by
        by_contra hdig
        have := (isdigit_ne (by simpa using hdig)).1
        rw [isspace_of_isLws hc] at this
        cases this
      rw [List.takeWhile_cons_of_neg (by simp [this])]
  rw [hv, atoo_decimal hd hlws, ← hv]

/-! ## The body, case by case -/

section Body

variable {code : ℕ} {hs : List (Bytes × Bytes)} {w : Bytes}

/-- No body is written: the client must not expect one. -/
theorem body_none_iff :
    (∃ body left, messageBody false code hs w = some (body, left) ∧
        ∀ next, messageBody false code hs ([] ++ next) = some (body, next)) ↔
      noBody false code = true ∨
        isChunked hs = false ∧
          (Message.field hs (bytes "content-length")).bind lengthField = some 0 := by
  unfold messageBody
  by_cases hno : noBody false code = true
  · simp [hno]
  simp only [hno, Bool.false_eq_true, if_false, false_or, List.nil_append]
  by_cases hch : isChunked hs = true
  · simp only [hch, if_true]
    constructor
    · rintro ⟨body, left, -, h⟩
      exact absurd (h []) (by simp [chunkedBody, Message.readChunks, Message.readLine])
    · rintro ⟨h, -⟩
      cases h
  · simp only [hch, Bool.false_eq_true, if_false, true_and]
    cases hf : Message.field hs (bytes "content-length") with
    | none =>
      simp only [Option.bind_none]
      constructor
      · rintro ⟨body, left, -, h⟩
        have := h [0]
        simp at this
      · intro h
        cases h
    | some v =>
      simp only [Option.bind_some]
      cases hl : lengthField v with
      | none => simp
      | some n =>
        simp only [Option.some.injEq]
        constructor
        · rintro ⟨body, left, -, h⟩
          by_contra hn
          have := h []
          rw [if_neg (by simpa using hn)] at this
          cases this
        · rintro rfl
          exact ⟨[], w, by simp, by simp⟩

/-- The first `dlen` bytes of `w` are written, with a `Content-Length` of that value for
    `serve`: the client must take them for the body, too. -/
theorem body_length_iff {v t rest : Bytes} (hcl : Message.field hs (bytes "content-length") = some v)
    (hlen : (t.length : ℤ) = atoo v) (hw : w = t ++ rest) :
    (∃ body left, messageBody false code hs w = some (body, left) ∧
        ∀ next, messageBody false code hs (t ++ next) = some (body, next)) ↔
      if noBody false code then atoo v = 0
      else if isChunked hs then ∃ body, chunkedBody t = some (body, [])
      else ∃ n, lengthField v = some n ∧ n < 2 ^ 63 := by
  unfold messageBody
  by_cases hno : noBody false code = true
  · simp only [hno, if_true]
    constructor
    · rintro ⟨body, left, -, h⟩
      have := h []
      simp only [List.append_nil, Option.some.injEq, Prod.mk.injEq] at this
      rw [← hlen, this.2]
      rfl
    · intro h0
      have : t = [] := List.length_eq_zero_iff.mp (by omega)
      exact ⟨[], w, rfl, fun next => by rw [this]; rfl⟩
  simp only [hno, Bool.false_eq_true, if_false]
  by_cases hch : isChunked hs = true
  · simp only [hch, if_true]
    constructor
    · rintro ⟨body, left, -, h⟩
      exact ⟨body, by simpa using h []⟩
    · rintro ⟨body, h⟩
      refine ⟨body, rest, ?_, fun next => ?_⟩
      · rw [hw, Message.chunkedBody_append h]
        rfl
      · rw [Message.chunkedBody_append h]
        rfl
  simp only [hch, Bool.false_eq_true, if_false, hcl]
  cases hl : lengthField v with
  | none => simp
  | some n =>
    simp only [Option.some.injEq, exists_eq_left']
    have hatoo : atoo v = min (n : ℤ) (2 ^ 63 - 1) := atoo_lengthField hl
    constructor
    · rintro ⟨body, left, -, h⟩
      have := h []
      split_ifs at this with hle
      have h2 := congrArg Prod.snd (Option.some.inj this)
      simp only [List.append_nil] at hle h2
      have := List.drop_eq_nil_iff.mp h2
      omega
    · intro hn
      have htn : t.length = n := by omega
      subst htn
      exact ⟨t, rest, by rw [hw]; simp, fun next => by simp⟩

/-- Everything is written as chunks. -/
theorem body_chunks_iff {cs : List Bytes} {hs' : List (Bytes × Bytes)}
    (hte : isChunked hs' = true) (hte' : isChunked hs = false)
    (hcl : Message.field hs (bytes "content-length") = none) (hne : ∀ c ∈ cs, c ≠ [])
    (hw : w = cs.flatten) :
    (∃ body left, messageBody false code hs w = some (body, left) ∧
        ∀ next, messageBody false code hs' (writeChunks cs ++ next) = some (body, next)) ↔
      noBody false code = false := by
  unfold messageBody
  by_cases hno : noBody false code = true
  · simp only [hno, if_true, Bool.true_eq_false, iff_false]
    rintro ⟨body, left, -, h⟩
    have := h []
    simp [writeChunks] at this
  · simp only [hno, Bool.false_eq_true, if_false, hte, hte', hcl, if_true]
    exact iff_of_true ⟨w, [], rfl, fun next => by rw [Message.chunkedBody_write hne, hw]⟩ trivial

end Body

/-! ## A round of `serve` -/

/-- The cases in which `serve` writes the body where the client reads it: it goes by a
    `Content-Length` whatever the status and the encoding, chunks what has none whatever
    the status, and takes any spelling of `HEAD` for one. -/
def Framed (method : Bytes) (resp : Hthead) (w : Bytes) : Prop :=
  method = bytes "HEAD" ∨
    if strcaseeq method (bytes "head") then
      noBody false resp.code = true ∨
        isChunked resp.headers = false ∧
          (Message.field resp.headers (bytes "content-length")).bind lengthField = some 0
    else
      match getheader resp (bytes "content-length") with
      | none => noBody false resp.code = false
      | some v =>
        if noBody false resp.code then atoo v = 0
        else if isChunked resp.headers then
          ∃ body, chunkedBody (w.take (atoo v).toNat) = some (body, [])
        else ∃ n, lengthField v = some n ∧ n < 2 ^ 63

/-- A length of -1 is never right. -/
theorem Framed.ne_neg {method : Bytes} {resp : Hthead} {w v : Bytes} (h : Framed method resp w)
    (hm : strcaseeq method (bytes "head") = false)
    (hv : getheader resp (bytes "content-length") = some v) : atoo v ≠ -1 := by
  intro hneg
  rcases h with rfl | h
  · exact absurd hm (by decide)
  rw [if_neg (by simp [hm])] at h
  simp only [hv] at h
  split_ifs at h
  · omega
  · obtain ⟨body, hb⟩ := h
    rw [hneg] at hb
    simp [chunkedBody, Message.readChunks, Message.readLine] at hb
  · obtain ⟨n, hn, hlt⟩ := h
    have := atoo_lengthField hn
    omega

section Round

variable {req resp resp' : Hthead} {inb out inb' : Bufio} {added : List (Bytes × Bytes)}

/-- What `serve` adds to the head of a response. -/
def Added (f : Bytes × Bytes) : Prop :=
  f = (bytes "Server", bytes "ashd/0.13") ∨ f = (bytes "Transfer-Encoding", bytes "chunked")

theorem Added.writable {f : Bytes × Bytes} (h : Added f) : Message.Writable f := by
  rcases h with rfl | rfl <;>
    exact ⟨by decide, by decide, by decide +kernel, by decide +kernel⟩

/-- The head that reaches the client is read back, so only the body is in question. -/
theorem recovers_fixresp (hresp : RespOk resp) (hver : strcaseeq req.ver (bytes "HTTP/1.1") = true)
    (hv : resp'.ver = req.ver) (hcode : resp'.code = resp.code) (hmsg : resp'.msg = resp.msg)
    (hh : resp'.headers = (trimx resp).headers ++ added) (hadd : ∀ f ∈ added, Added f)
    (head : Bool) (w tail : Bytes) :
    Recovers head req.ver resp w (headText resp' ++ tail) ↔
      ∃ body left, messageBody head resp.code resp.headers w = some (body, left) ∧
        ∀ next, messageBody head resp.code resp'.headers (tail ++ next) = some (body, next) := by
  rw [← hv]
  refine recovers_iff hcode hmsg hh (fun f hf => ?_) fun s => readHead_headText ?_ ?_ ?_ ?_ s
  · rcases hadd f hf with rfl | rfl
    · exact .inl rfl
    · exact .inr rfl
  · rw [hv]
    exact notMem_of_fold hver (by decide)
  · rw [hv]
    exact notMem_of_fold hver (by decide)
  · rw [hmsg]
    intro h13
    exact absurd (hresp.msg 13 h13).1 (by decide)
  · intro f hf
    rw [hh] at hf
    rcases List.mem_append.mp hf with hf | hf
    · exact (hresp.headers f (List.mem_of_mem_filter hf)).writable
    · exact (hadd f hf).writable

theorem field_fixresp (req resp : Hthead) {n : Bytes} (hx : hasPrefixCase xash n = false)
    (hs : strcaseeq (bytes "Server") n = false) :
    Message.field (fixresp req resp).2.headers n = Message.field resp.headers n := by
  obtain ⟨-, -, -, added, hh, hadd⟩ := fixresp_spec req resp
  rw [hh, field_append _ _ fun f hf => by rw [hadd f hf]; exact hs, field_trimx resp hx]

theorem messageBody_fixresp (req resp : Hthead) (head : Bool) (code : ℕ) (s : Bytes) :
    messageBody head code (fixresp req resp).2.headers s = messageBody head code resp.headers s :=
  messageBody_congr head code (field_fixresp req resp (by decide) (by decide))
    (field_fixresp req resp (by decide) (by decide)) s

/-- A response without a body. -/
theorem recovers_empty (hresp : RespOk resp) (hver : strcaseeq req.ver (bytes "HTTP/1.1") = true)
    (hhead : strcaseeq req.method (bytes "head") = true) (w : Bytes) :
    Recovers (decide (req.method = bytes "HEAD")) req.ver resp w (headText (fixresp req resp).2) ↔
      Framed req.method resp w := by
  obtain ⟨hv, hcode, hmsg, added, hh, hadd⟩ := fixresp_spec req resp
  rw [← List.append_nil (headText _),
    recovers_fixresp hresp hver hv hcode hmsg hh fun f hf => .inl (hadd f hf)]
  unfold Framed
  rw [if_pos hhead]
  by_cases hm : req.method = bytes "HEAD"
  · simp [hm, messageBody, noBody]
  · rw [decide_eq_false hm]
    simp only [messageBody_fixresp, body_none_iff, hm, false_or]

/-- A response with a `Content-Length`. -/
theorem recovers_length (hresp : RespOk resp) (hver : strcaseeq req.ver (bytes "HTTP/1.1") = true)
    (hhead : strcaseeq req.method (bytes "head") = false) {v w t rest : Bytes}
    (hcl : getheader resp (bytes "content-length") = some v) (hlen : (t.length : ℤ) = atoo v)
    (hw : w = t ++ rest) :
    Recovers false req.ver resp w (headText (fixresp req resp).2 ++ t) ↔
      Framed req.method resp w := by
  obtain ⟨hv, hcode, hmsg, added, hh, hadd⟩ := fixresp_spec req resp
  rw [recovers_fixresp hresp hver hv hcode hmsg hh fun f hf => .inl (hadd f hf)]
  simp only [messageBody_fixresp]
  rw [body_length_iff hcl hlen hw]
  have hm : req.method ≠ bytes "HEAD" := by
    intro hm
    rw [hm] at hhead
    exact absurd hhead (by decide)
  have htake : w.take (atoo v).toNat = t := by
    rw [hw, ← hlen, Int.toNat_natCast, List.take_left]
  unfold Framed
  simp only [hhead, hcl, hm, htake, Bool.false_eq_true, if_false, false_or]

/-- A response in chunks. -/
theorem recovers_chunks (hresp : RespOk resp) (hver : strcaseeq req.ver (bytes "HTTP/1.1") = true)
    (hhead : strcaseeq req.method (bytes "head") = false)
    (hcl : getheader resp (bytes "content-length") = none)
    (hte : getheader resp (bytes "transfer-encoding") = none) {cs : List Bytes}
    (hne : ∀ c ∈ cs, c ≠ []) :
    Recovers false req.ver resp cs.flatten
        (headText (headappheader (fixresp req resp).2 (bytes "Transfer-Encoding") (bytes "chunked")) ++
          writeChunks cs) ↔ Framed req.method resp cs.flatten := by
  obtain ⟨hv, hcode, hmsg, added, hh, hadd⟩ := fixresp_spec req resp
  have hadd' : ∀ f ∈ added ++ [(bytes "Transfer-Encoding", bytes "chunked")], Added f := by
    intro f hf
    rcases List.mem_append.mp hf with hf | hf
    · exact .inl (hadd f hf)
    · exact .inr (List.mem_singleton.mp hf)
  have hte' : Message.field (fixresp req resp).2.headers (bytes "transfer-encoding") = none :=
    (field_fixresp req resp (by decide) (by decide)).trans hte
  have hchunked : isChunked (headappheader (fixresp req resp).2 (bytes "Transfer-Encoding")
      (bytes "chunked")).headers = true := by
    unfold isChunked headappheader
    unfold Message.field at hte' ⊢
    rw [Option.map_eq_none_iff] at hte'
    rw [List.find?_append, hte']
    decide
  have hplain : isChunked resp.headers = false := by
    unfold isChunked
    rw [show Message.field resp.headers (bytes "transfer-encoding") = none from hte]
  have hfix := @recovers_fixresp req resp
    (headappheader (fixresp req resp).2 (bytes "Transfer-Encoding") (bytes "chunked")) _ hresp hver hv
    hcode hmsg (by rw [headappheader, hh, List.append_assoc]) hadd'
  rw [hfix, hcode.symm, body_chunks_iff hchunked hplain hcl hne rfl]
  have hm : req.method ≠ bytes "HEAD" := by
    intro hm
    rw [hm] at hhead
    exact absurd hhead (by decide)
  unfold Framed
  simp only [hhead, hcl, hm, Bool.false_eq_true, if_false, false_or, hcode]

/-- The response to an HTTP/1.1 request. -/
theorem passresp11_recovers (hresp : RespOk resp)
    (hver : strcaseeq req.ver (bytes "HTTP/1.1") = true) (hi : inb.WOk) (ho : out.ROk)
    (hn : NoErr inb.snk.sched) (h : passresp11 req (fixresp req resp).2 inb out = some inb') :
    ∃ sent, inb.Writes sent inb' ∧
      (Framed req.method resp out.unread →
        Recovers (decide (req.method = bytes "HEAD")) req.ver resp out.unread sent) ∧
      ((∀ v, getheader resp (bytes "content-length") = some v → atoo v ≠ -1) →
        Recovers (decide (req.method = bytes "HEAD")) req.ver resp out.unread sent →
          Framed req.method resp out.unread) := by
  have hcl : getheader (fixresp req resp).2 (bytes "content-length") =
    getheader resp (bytes "content-length") := field_fixresp req resp (by decide) (by decide)
  have hte : getheader (fixresp req resp).2 (bytes "transfer-encoding") =
    getheader resp (bytes "transfer-encoding") := field_fixresp req resp (by decide) (by decide)
  unfold passresp11 at h
  cases hhead : strcaseeq req.method (bytes "head") with
  | true =>
    rw [if_pos hhead] at h
    simp only at h
    split_ifs at h
    cases h
    obtain ⟨u, hu, htext⟩ := writehead_spec (fixresp req resp).2 hi
    obtain rfl := htext hn
    have hiff := recovers_empty hresp hver hhead out.unread
    exact ⟨_, hu, hiff.mpr, fun _ => hiff.mp⟩
  | false =>
  rw [if_neg (by simp [hhead]), hcl, hte] at h
  have hm : decide (req.method = bytes "HEAD") = false := by
    refine decide_eq_false fun hm => ?_
    rw [hm] at hhead
    exact absurd hhead (by decide)
  rw [hm]
  cases hhd : getheader resp (bytes "content-length") with
  | some hd =>
    simp only [hhd] at h
    split_ifs at h with hret hkeep
    cases h
    obtain ⟨u, hu, htext⟩ := writehead_spec (fixresp req resp).2 hi
    obtain rfl := htext hn
    by_cases hneg : atoo hd = -1
    · obtain ⟨t, ht⟩ := passdata_spec ho hu.ok (atoo hd)
      exact ⟨_, hu.trans ht.writes, fun hf => absurd hneg (hf.ne_neg hhead hhd),
        fun hne => absurd hneg (hne hd rfl)⟩
    · obtain ⟨t, hlen, hr, hw⟩ := passdata_eq ho hu.ok (by simpa using hret) (absurd · hneg)
      have hiff := recovers_length hresp hver hhead hhd hlen hr.unread
      exact ⟨_, hu.trans hw, hiff.mpr, fun _ => hiff.mp⟩
  | none =>
    simp only [hhd] at h
    split_ifs at h with htn hret hkeep
    cases h
    obtain ⟨u, hu, htext⟩ := writehead_spec
      (headappheader (fixresp req resp).2 (bytes "Transfer-Encoding") (bytes "chunked")) hi
    obtain rfl := htext hn
    obtain ⟨cs, hcs⟩ := passchunks_spec ho hu.ok (le_max_left _ _) (le_max_right _ _)
    obtain ⟨v, hv, htext'⟩ := hcs.writes
    obtain rfl := htext' (hu.noErr hn) (by simpa using hret)
    have hw : out.unread = cs.flatten := by
      rw [hcs.reads.unread, unread_of_bioeof hcs.reads.ok (hcs.eof (by simpa using hret)),
        List.append_nil]
    have hiff := recovers_chunks hresp hver hhead hhd (Option.not_isSome_iff_eq_none.mp htn)
      fun c hc => (hcs.chunks c hc).1
    rw [hw]
    exact ⟨_, hu.trans hv, hiff.mpr, fun _ => hiff.mp⟩

end Round

/-- **Response framing.** In reply to an HTTP/1.1 request that `serve` passes on, the handler
    writes the head `resp` and then `w`. If the connection is kept, with a client that takes
    what is written, then a client that goes by RFC 2616 recovers the response from what was
    sent, and stands where the next one begins, in just the cases of `Framed`. (But for a
    `Content-Length` of -1, for which `serve` keeps the connection when a read has failed: then
    the client may recover the response by chance.) -/
theorem response_framing (id : Bytes) (round : Round) (inb inb' : Bufio) (req resp : Hthead)
    (w : Bytes) (hr : inb.ROk) (hw : inb.WOk) (hn : NoErr inb.snk.sched)
    (hp : (parsereq (bioflush inb).2).1 = some req)
    (hver : strcaseeq req.ver (bytes "HTTP/1.1") = true)
    (hresp : parseresponse getcList (round.response.length + 1) round.response = (some resp, w))
    (hkeep : serveOnce id round inb = some inb') :
    ∃ sent, inb'.written = inb.written ++ sent ∧
      (Framed req.method resp w →
        Recovers (decide (req.method = bytes "HEAD")) req.ver resp w sent) ∧
      ((∀ v, getheader resp (bytes "content-length") = some v → atoo v ≠ -1) →
        Recovers (decide (req.method = bytes "HEAD")) req.ver resp w sent →
          Framed req.method resp w) := by
  obtain ⟨r, req', inb₂, out₂, hc, hq, hpass⟩ := serveOnce_eq_some hp hkeep
  have hfl := (bioflush_spec hw).1
  obtain ⟨head, hhead⟩ := parsereq_reads (hfl.rok hr)
  obtain ⟨⟨⟨body, hbody⟩, t, ht⟩, hmethod, hver'⟩ := passreq_moves hhead.ok round.out_wok hq
  obtain ⟨hcm, hcv⟩ := canonreq_method_ver hc
  have hm : req'.method = req.method := hmethod.trans hcm
  have hv : req'.ver = req.ver := hver'.trans hcv
  have hout := (bioflush_spec ht.ok).1
  have hro := hout.rok (ht.rok round.out_rok)
  have hunread : (bioflush out₂).2.unread = round.response := by
    rw [hout.unread, ht.unread]
    rfl
  have hw₂ := hbody.wok (hhead.wok hfl.ok)
  have hn₂ : NoErr inb₂.snk.sched := by
    rw [hbody.wside_eq.2.2.1, hhead.wside_eq.2.2.1]
    exact hfl.noErr hn
  unfold passresp at hpass
  rcases hres : parseresponseb (bioflush out₂).2 with ⟨oresp, out₃⟩
  rw [hres] at hpass
  cases oresp with
  | none => simp at hpass
  | some resp₀ =>
  unfold parseresponseb at hres
  obtain ⟨u, hu⟩ : ∃ t, (bioflush out₂).2.Reads t out₃ := by
    have : ∃ t, (bioflush out₂).2.Reads t (parseresponse biogetc
        ((bioflush out₂).2.unread.length + 1) (bioflush out₂).2).2 :=
      parseresponse_inv (biogetc_isReader (bioflush out₂).2) ⟨[], .refl hro⟩
    rwa [hres] at this
  have hlist := parseresponse_getcList (biogetc_isReader (bioflush out₂).2) ⟨[], .refl hro⟩ hres
  rw [hunread, hresp] at hlist
  obtain ⟨rfl, rfl⟩ : resp = resp₀ ∧ w = out₃.unread := by simpa using hlist
  have h10 : strcaseeq req.ver (bytes "HTTP/1.0") = false := by
    rw [strcaseeq, strcaseeq_iff.mp hver]
    decide
  simp only [hv, h10, hver, Bool.false_eq_true, if_false, if_true] at hpass
  split_ifs at hpass
  obtain ⟨sent, hsent, hframed⟩ := passresp11_recovers (parseresponse_ok hres) (hv ▸ hver) hw₂ hu.ok
    hn₂ hpass
  rw [hm, hv] at hframed
  refine ⟨sent, ?_, hframed⟩
  rw [hsent.written, hbody.written, hhead.written, hfl.written, List.append_nil]

/-- A client that asks for a page. -/
def plainClient : Bufio := clientOf (bytes "GET / HTTP/1.1\r\n\r\n")

/-- What a handler writes in reply. -/
def pageResponse : Round :=
  { emptyResponse with response := bytes "HTTP/1.1 200 OK\nContent-Length: 5\n\nhello" }

theorem response_framing_page :
    ∃ inb' sent, serveOnce (bytes "A") pageResponse plainClient = some inb' ∧
      inb'.written = plainClient.written ++ sent ∧
      Recovers false (bytes "HTTP/1.1")
        { mkresp 200 (bytes "OK") (bytes "HTTP/1.1") with
          headers := [(bytes "Content-Length", bytes "5")] } (bytes "hello") sent := by
  obtain ⟨inb', h⟩ : ∃ inb', serveOnce (bytes "A") pageResponse plainClient = some inb' :=
    Option.isSome_iff_exists.mp (by decide +kernel)
  obtain ⟨sent, hw, hr, -⟩ := response_framing (bytes "A") pageResponse plainClient inb'
    (mkreq (bytes "GET") (bytes "/") (bytes "HTTP/1.1"))
    { mkresp 200 (bytes "OK") (bytes "HTTP/1.1") with
      headers := [(bytes "Content-Length", bytes "5")] } (bytes "hello")
    (bioopen_rok _ (by simp) _) (bioopen_wok _ _) (by simp [NoErr, plainClient, clientOf, bioopen])
    (by decide +kernel) (by decide) (by decide +kernel) h
  have hl : lengthField (bytes "5") = some 5 := by decide +kernel
  exact ⟨inb', sent, h, hw, hr (.inr ⟨5, hl, by omega⟩)⟩

/-- A handler that has nothing new to show. -/
def notModified : Round :=
  { emptyResponse with response := bytes "HTTP/1.1 304 Not Modified\n\n" }

/-- What the client gets: a 304 has no body, so the last line but one is not of it. -/
def notModifiedSent : Bytes :=
  bytes "HTTP/1.1 304 Not Modified\r\nServer: ashd/0.13\r\nTransfer-Encoding: chunked\r\n\r\n" ++
    bytes "0\r\n\r\n"

/-- The end of the chunked encoding is then taken for the beginning of the next response. -/
theorem response_desynchronised :
    ∃ inb', parseresponse getcList (notModified.response.length + 1) notModified.response =
        (some (mkresp 304 (bytes "Not Modified") (bytes "HTTP/1.1")), []) ∧
      serveOnce (bytes "A") notModified plainClient = some inb' ∧
      inb'.written = plainClient.written ++ notModifiedSent ∧
      (readResponse false notModifiedSent).map Prod.snd = some (bytes "0\r\n\r\n") ∧
      ¬ Recovers false (bytes "HTTP/1.1") (mkresp 304 (bytes "Not Modified") (bytes "HTTP/1.1")) []
        notModifiedSent := by
  have h : (serveOnce (bytes "A") notModified plainClient).map (fun b => b.written) =
      some (plainClient.written ++ notModifiedSent) := by decide +kernel
  have hleft : (readResponse false notModifiedSent).map Prod.snd = some (bytes "0\r\n\r\n") := by
    decide +kernel
  obtain ⟨inb', hs, hw⟩ := Option.map_eq_some_iff.mp h
  refine ⟨inb', by decide +kernel, hs, hw, hleft, ?_⟩
  rintro ⟨body, left, added, -, -, hnext⟩
  have hsnd := congrArg (Option.map Prod.snd) (hnext [])
  rw [List.append_nil, hleft] at hsnd
  have hnil : bytes "0\r\n\r\n" = [] := Option.some.inj hsnd
  exact absurd hnil (by decide)

end Ashd
