import Ashd.Htparser.Chunks
import Ashd.Htparser.Fidelity

/-!
# Where the next request starts

A round of `serve` reads the request head and then, depending on three headers, some
of what follows it; the rest of the round only writes to the client. The position at
which the next round starts is therefore settled by `passreq`.

Main results:
* `passresp_writes`: passing the response does not read from the client.
* `request_framing`: for a request with a `Content-Length`, the next round starts after
  its body exactly if `passreq` takes that for the length of the body.
-/

namespace Ashd

open Message (CRLF)

/-! ## Looking up headers -/

theorem fold_take (s : Bytes) (n : ℕ) : fold (s.take n) = (fold s).take n := by
  simp [fold, List.map_take]

theorem hasPrefixCase_congr {a b : Bytes} (h : fold a = fold b) (p : Bytes) :
    hasPrefixCase p a = hasPrefixCase p b := by
  simp only [hasPrefixCase, fold_take, h]

theorem getheader_headappheader (head : Hthead) {name n : Bytes} (v : Bytes)
    (h : strcaseeq name n = false) : getheader (headappheader head name v) n = getheader head n :=
  getheader_append head [(name, v)] (by simpa using h)

/-- Headers of ashd's own are found under names with the prefix only. -/
theorem getheader_appendAsh (req : Hthead) (xs : List AshHeader) {n : Bytes}
    (h : hasPrefixCase xash n = false) : getheader (appendAsh req xs) n = getheader req n := by
  refine getheader_append req _ fun x hx => ?_
  obtain ⟨y, -, rfl⟩ := List.mem_map.mp hx
  by_contra hc
  have := hasPrefixCase_congr (strcaseeq_iff.mp (by simpa using hc)) xash
  rw [y.ash, h] at this
  cases this

/-- `canonreq` adds at most a `Host` header. -/
theorem getheader_canonreq {req r : Hthead} (hc : canonreq req = some r) {n : Bytes}
    (h : strcaseeq (bytes "Host") n = false) : getheader r n = getheader req n := by
  obtain rfl | ⟨host, url, -, -, rfl⟩ := canonreq_eq_some hc
  · rfl
  · exact getheader_headappheader req host h

/-! ## The first half of a round -/

theorem parsereqFrom_inv {α : Type*} {getc : α → Option UInt8 × α} {unread : α → Bytes}
    {Ok : α → Prop} (hg : IsReader getc unread Ok) {left : ℕ} {a : α} (ha : Ok a) :
    Ok (parsereqFrom getc left a).2 :=
  andThen_inv (scan_ok hg ha) fun _ _ h => andThen_inv (scan_ok hg h) fun _ _ h =>
    andThen_inv (scan_ok hg h) fun _ _ h => andThen_inv (scan_ok hg h) fun _ _ h => h

theorem parsereq_reads {inb : Bufio} (h : inb.ROk) : ∃ t, inb.Reads t (parsereq inb).2 :=
  parsereqFrom_inv (biogetc_isReader inb) ⟨[], .refl h⟩

/-- What the root handler is given, in terms of what was parsed. -/
theorem acceptreq_eq_some {id : Bytes} {round : Round} {inb inb' : Bufio} {req' : Hthead}
    (h : acceptreq id round inb = some (req', inb')) :
    ∃ req r, (parsereq (bioflush inb).2).1 = some req ∧ inb' = (parsereq (bioflush inb).2).2 ∧
      canonreq req = some r ∧
      req' = appendAsh (headappheader r (bytes "X-Ash-Connection-ID") id) round.initreq := by
  unfold acceptreq at h
  simp only at h
  cases hp : parsereq (bioflush inb).2 with
  | mk oreq b =>
  rw [hp] at h
  cases oreq with
  | none => simp at h
  | some req =>
    simp only at h
    cases hc : canonreq req with
    | none => simp [hc] at h
    | some r =>
      rw [hc] at h
      cases h
      exact ⟨req, r, rfl, rfl, hc, rfl⟩

theorem canonreq_method_ver {req r : Hthead} (hc : canonreq req = some r) :
    r.method = req.method ∧ r.ver = req.ver := by
  obtain rfl | ⟨host, url, -, -, rfl⟩ := canonreq_eq_some hc <;> exact ⟨rfl, rfl⟩

/-- The names by which `serve` looks for headers, other than those it adds. -/
theorem getheader_acceptreq {req r : Hthead} (hc : canonreq req = some r) (id : Bytes)
    (xs : List AshHeader) {n : Bytes} (hh : strcaseeq (bytes "Host") n = false)
    (hx : hasPrefixCase xash n = false) :
    getheader (appendAsh (headappheader r (bytes "X-Ash-Connection-ID") id) xs) n =
      getheader req n := by
  have hid : strcaseeq (bytes "X-Ash-Connection-ID") n = false := by
    by_contra h
    have := hasPrefixCase_congr (strcaseeq_iff.mp (by simpa using h)) xash
    rw [hx] at this
    exact absurd this (by decide)
  rw [getheader_appendAsh _ _ hx, getheader_headappheader _ _ hid, getheader_canonreq hc hh]

/-! ## The second half of a round -/

/-- `"\r\n"` after the status line and the header lines. -/
def headText (resp : Hthead) : Bytes :=
  statusLine resp ++ resp.headers.flatMap headerLine ++ CRLF

theorem writehead_spec (resp : Hthead) {inb : Bufio} (h : inb.WOk) :
    ∃ u, inb.Writes u (writehead resp inb) ∧ (NoErr inb.snk.sched → u = headText resp) := by
  obtain ⟨u, hw, hu⟩ := writerespb_spec resp h
  obtain ⟨v, hv, hv'⟩ := bioprintf_ignored hw.ok 2 CRLF
  exact ⟨_, hw.trans hv, fun h0 => by rw [hu h0, hv' (hw.noErr h0)]; rfl⟩

theorem passresp10_writes {req resp : Hthead} {inb out inb' : Bufio} (hi : inb.WOk) (ho : out.ROk)
    (h : passresp10 req resp inb out = some inb') : ∃ u, inb.Writes u inb' := by
  unfold passresp10 at h
  by_cases hhead : strcaseeq req.method (bytes "head") = true
  · rw [if_pos hhead] at h
    simp only at h
    split_ifs at h
    cases h
    exact (writehead_spec _ hi).imp fun _ h => h.1
  rw [if_neg hhead] at h
  cases hcl : getheader resp (bytes "content-length") with
  | none => simp [hcl] at h
  | some hd =>
    simp only [hcl] at h
    split_ifs at h
    cases h
    obtain ⟨u, hu, -⟩ := writehead_spec (http10keep req resp).2 hi
    obtain ⟨t, ht⟩ := passdata_spec ho hu.ok (atoo hd)
    exact ⟨_, hu.trans ht.writes⟩

theorem passresp11_writes {req resp : Hthead} {inb out inb' : Bufio} (hi : inb.WOk) (ho : out.ROk)
    (h : passresp11 req resp inb out = some inb') : ∃ u, inb.Writes u inb' := by
  unfold passresp11 at h
  by_cases hhead : strcaseeq req.method (bytes "head") = true
  · rw [if_pos hhead] at h
    simp only at h
    split_ifs at h
    cases h
    exact (writehead_spec _ hi).imp fun _ h => h.1
  rw [if_neg hhead] at h
  cases hcl : getheader resp (bytes "content-length") with
  | some hd =>
    simp only [hcl] at h
    split_ifs at h
    cases h
    obtain ⟨u, hu, -⟩ := writehead_spec resp hi
    obtain ⟨t, ht⟩ := passdata_spec ho hu.ok (atoo hd)
    exact ⟨_, hu.trans ht.writes⟩
  | none =>
    simp only [hcl] at h
    split_ifs at h
    cases h
    obtain ⟨u, hu, -⟩ := writehead_spec
      (headappheader resp (bytes "Transfer-Encoding") (bytes "chunked")) hi
    obtain ⟨cs, hcs⟩ := passchunks_spec ho hu.ok (le_max_left _ _) (le_max_right _ _)
    obtain ⟨v, hv, -⟩ := hcs.writes
    exact ⟨_, hu.trans hv⟩

/-- Passing the response does not read from the client. -/
theorem passresp_writes {req : Hthead} {inb out inb' : Bufio} (hi : inb.WOk) (ho : out.ROk)
    (h : passresp req inb out = some inb') : ∃ u, inb.Writes u inb' := by
  unfold passresp at h
  have hout : ∃ t, out.Reads t (parseresponseb out).2 :=
    parseresponse_inv (biogetc_isReader out) ⟨[], .refl ho⟩
  cases hp : parseresponseb out with
  | mk oresp out' =>
  rw [hp] at h hout
  obtain ⟨t, ht⟩ := hout
  cases oresp with
  | none => simp at h
  | some resp =>
    simp only at h
    split_ifs at h
    · exact passresp10_writes hi ht.ok h
    · exact passresp11_writes hi ht.ok h

/-! ## The request body -/

/-- The length that the first `Content-Length` of a head denotes, as `strtoll` reads it. -/
def contentLength (req : Hthead) : ℤ :=
  max 0 (atoo ((getheader req (bytes "content-length")).getD []))

theorem contentLength_decimal {req : Hthead} {n : Bytes}
    (h : getheader req (bytes "content-length") = some n) (hn : IsDecimal n) :
    contentLength req = numeralValue 10 n ↔ numeralValue 10 n < 2 ^ 63 := by
  unfold contentLength
  rw [h, Option.getD_some, ← List.append_nil n, atoo_decimal hn rfl, List.append_nil]
  omega

/-- The length of a request body, for a request with a `Content-Length`: there is none
    unless there is a `Content-Type`. -/
def bodyLength (req : Hthead) : ℤ :=
  if (getheader req (bytes "content-type")).isSome then contentLength req else 0

/-- What `passreq` takes of such a request. -/
theorem passreq_reads {req req' : Hthead} {inb out inb' out' : Bufio} (hi : inb.ROk) (ho : out.WOk)
    (hcl : (getheader req (bytes "content-length")).isSome)
    (h : passreq req inb out = some (req', inb', out')) :
    ∃ t, (t.length : ℤ) = bodyLength req ∧ inb.Reads t inb' ∧ out.Writes t out' := by
  unfold passreq at h
  unfold bodyLength contentLength
  obtain ⟨hd, hhd⟩ := Option.isSome_iff_exists.mp hcl
  by_cases hct : (getheader req (bytes "content-type")).isSome
  swap
  · rw [if_neg hct] at h ⊢
    cases h
    exact ⟨[], by simp, .refl hi, .refl ho⟩
  rw [if_pos hct] at h ⊢
  simp only [hhd, Option.getD_some] at h ⊢
  by_cases hpos : atoo hd > 0
  · rw [if_pos hpos] at h
    split_ifs at h with hret
    cases h
    obtain ⟨t, hlen, hr, hw⟩ := passdata_eq hi ho (by simpa using hret) (by omega)
    exact ⟨t, by rw [hlen]; omega, hr, hw⟩
  · rw [if_neg hpos] at h
    cases h
    exact ⟨[], by simp; omega, .refl hi, .refl ho⟩

/-- `passreq` reads the request body from one side and writes it to the other. -/
theorem passreq_moves {req req' : Hthead} {inb out inb' out' : Bufio} (hi : inb.ROk) (ho : out.WOk)
    (h : passreq req inb out = some (req', inb', out')) :
    Moves inb out inb' out' ∧ req'.method = req.method ∧ req'.ver = req.ver := by
  unfold passreq at h
  by_cases hct : (getheader req (bytes "content-type")).isSome
  swap
  · rw [if_neg hct] at h
    cases h
    exact ⟨.refl hi ho, rfl, rfl⟩
  rw [if_pos hct] at h
  cases hcl : getheader req (bytes "content-length") with
  | some hd =>
    obtain ⟨t, hp⟩ := passdata_spec hi ho (atoo hd)
    simp only [hcl] at h
    split_ifs at h
    · cases h
      exact ⟨⟨⟨t, hp.reads⟩, t, hp.writes⟩, rfl, rfl⟩
    · cases h
      exact ⟨.refl hi ho, rfl, rfl⟩
  | none =>
    simp only [hcl] at h
    split_ifs at h
    · cases h
      exact ⟨recvchunksLoop_moves _ inb out hi ho, rfl, rfl⟩
    · cases h
      exact ⟨.refl hi ho, rfl, rfl⟩

/-- The parts of a round that is not the last. -/
theorem serveOnce_eq_some {id : Bytes} {round : Round} {inb inb' : Bufio} {req : Hthead}
    (hp : (parsereq (bioflush inb).2).1 = some req) (h : serveOnce id round inb = some inb') :
    ∃ r req' inb₂ out₂, canonreq req = some r ∧
      passreq (appendAsh (headappheader r (bytes "X-Ash-Connection-ID") id) round.initreq)
        (parsereq (bioflush inb).2).2 round.out = some (req', inb₂, out₂) ∧
      passresp req' inb₂ (bioflush out₂).2 = some inb' := by
  unfold serveOnce at h
  cases ha : acceptreq id round inb with
  | none => simp [ha] at h
  | some p =>
  obtain ⟨req₁, inb₁⟩ := p
  simp only [ha] at h
  obtain ⟨req₀, r, hp₀, rfl, hc, rfl⟩ := acceptreq_eq_some ha
  obtain rfl : req = req₀ := Option.some.inj (hp.symm.trans hp₀)
  split_ifs at h
  cases hq : passreq (appendAsh (headappheader r (bytes "X-Ash-Connection-ID") id) round.initreq)
      (parsereq (bioflush inb).2).2 round.out with
  | none => simp [hq] at h
  | some q =>
  obtain ⟨req₂, inb₂, out₂⟩ := q
  simp only [hq] at h
  split_ifs at h
  exact ⟨r, req₂, inb₂, out₂, hc, hq, h⟩

theorem Round.out_rok (round : Round) : round.out.ROk := bioopen_rok _ (by simp) _

theorem Round.out_wok (round : Round) : round.out.WOk := bioopen_wok _ _

/-- A round that is not the last reads the head, as many bytes as it takes for the body, and
    nothing else. -/
theorem serveOnce_reads {id : Bytes} {round : Round} {inb inb' : Bufio} {req : Hthead}
    (hr : inb.ROk) (hw : inb.WOk) (hp : (parsereq (bioflush inb).2).1 = some req)
    (hcl : (getheader req (bytes "content-length")).isSome)
    (hkeep : serveOnce id round inb = some inb') :
    ∃ t, (t.length : ℤ) = bodyLength req ∧
      (parsereq (bioflush inb).2).2.unread = t ++ inb'.unread ∧ inb'.ROk ∧ inb'.WOk := by
  obtain ⟨r, req₂, inb₂, out₂, hc, hq, hresp⟩ := serveOnce_eq_some hp hkeep
  have hfl := (bioflush_spec hw).1
  obtain ⟨head, hhead⟩ := parsereq_reads (hfl.rok hr)
  have hbody : ∀ n, strcaseeq (bytes "Host") n = false → hasPrefixCase xash n = false →
      getheader (appendAsh (headappheader r (bytes "X-Ash-Connection-ID") id) round.initreq) n =
        getheader req n := fun _ => getheader_acceptreq hc id round.initreq
  have hlen : bodyLength (appendAsh (headappheader r (bytes "X-Ash-Connection-ID") id)
      round.initreq) = bodyLength req := by
    unfold bodyLength
    rw [hbody _ (by decide) (by decide), contentLength, contentLength,
      hbody _ (by decide) (by decide)]
  obtain ⟨t, ht, hr₂, hw₂⟩ := passreq_reads hhead.ok round.out_wok
    (by rw [hbody _ (by decide) (by decide)]; exact hcl) hq
  have hro := (bioflush_spec hw₂.ok).1.rok (hw₂.rok round.out_rok)
  obtain ⟨u, hu⟩ := passresp_writes (hr₂.wok (hhead.wok hfl.ok)) hro hresp
  exact ⟨t, by rw [ht, hlen], by rw [hr₂.unread, hu.unread], hu.rok hr₂.ok, hu.ok⟩

/-- **Request framing.** A request head with a `Content-Length` of value `N`, in any of its
    fields of that name, is followed by `N` bytes of body and by `rest`. If the connection is
    kept, the next call of `parsereq` starts at `rest` if and only if there is a `Content-Type`
    and the first `Content-Length` denotes `N` in 64 bits, or there is none and `N` is 0. -/
theorem request_framing (id : Bytes) (round : Round) (inb inb' : Bufio) (req : Hthead)
    (h : Bytes × Bytes) (body rest : Bytes) (hr : inb.ROk) (hw : inb.WOk)
    (hp : (parsereq (bioflush inb).2).1 = some req)
    (hu : (parsereq (bioflush inb).2).2.unread = body ++ rest)
    (hh : h ∈ req.headers) (hname : strcaseeq h.1 (bytes "content-length") = true)
    (hlen : body.length = numeralValue 10 h.2)
    (hkeep : serveOnce id round inb = some inb') :
    (bioflush inb').2.unread = rest ↔
      if (getheader req (bytes "content-type")).isSome then
        contentLength req = numeralValue 10 h.2
      else numeralValue 10 h.2 = 0 := by
  have hcl : (getheader req (bytes "content-length")).isSome := by
    unfold getheader
    rw [Option.isSome_map, List.find?_isSome]
    exact ⟨h, hh, hname⟩
  obtain ⟨t, ht, hsplit, hro, hwo⟩ := serveOnce_reads hr hw hp hcl hkeep
  have hiff : (bioflush inb').2.unread = rest ↔ t.length = body.length := by
    rw [(bioflush_spec hwo).1.unread]
    rw [hu] at hsplit
    constructor
    · rintro rfl
      rw [List.append_cancel_right hsplit]
    · intro heq
      exact (List.append_inj hsplit heq.symm).2.symm
  rw [hiff, hlen]
  unfold bodyLength at ht
  split_ifs at ht ⊢ <;> omega

/-- What a handler writes that has nothing to say. -/
def emptyResponse : Round :=
  { ready := true, socketpair := true, sendreq := true, initreq := []
    response := bytes "HTTP/1.1 200 OK\r\nContent-Length: 0\r\n\r\n" }

/-- A request with both headers, and the request after it. -/
def typedClient : Bufio :=
  clientOf (bytes
    "POST / HTTP/1.1\r\nContent-Type: text/plain\r\nContent-Length: 5\r\n\r\nhelloGET /a HTTP/1.1\r\n\r\n")

theorem request_framing_typed :
    ∃ inb', serveOnce (bytes "A") emptyResponse typedClient = some inb' ∧
      (bioflush inb').2.unread = bytes "GET /a HTTP/1.1\r\n\r\n" := by
  obtain ⟨inb', h⟩ : ∃ inb', serveOnce (bytes "A") emptyResponse typedClient = some inb' :=
    Option.isSome_iff_exists.mp (by decide +kernel)
  exact ⟨inb', h, (request_framing (bytes "A") emptyResponse typedClient inb'
    { mkreq (bytes "POST") (bytes "/") (bytes "HTTP/1.1") with
      headers := [(bytes "Content-Type", bytes "text/plain"), (bytes "Content-Length", bytes "5")] }
    (bytes "Content-Length", bytes "5") (bytes "hello") _ (bioopen_rok _ (by simp) _)
    (bioopen_wok _ _) (by decide +kernel) (by decide +kernel) (by decide) (by decide) (by decide) h).mpr
    (by decide)⟩

/-- The same without a `Content-Type`. -/
def untypedClient : Bufio :=
  clientOf (bytes
    "POST / HTTP/1.1\r\nContent-Length: 5\r\n\r\nhelloGET /a HTTP/1.1\r\n\r\n")

/-- The body is then taken for the beginning of the next request. -/
theorem request_smuggled :
    ∃ req inb', (parsereq (bioflush untypedClient).2).1 = some req ∧
      getheader req (bytes "content-length") = some (bytes "5") ∧
      getheader req (bytes "transfer-encoding") = none ∧
      (parsereq (bioflush untypedClient).2).2.unread =
        bytes "hello" ++ bytes "GET /a HTTP/1.1\r\n\r\n" ∧
      serveOnce (bytes "A") emptyResponse untypedClient = some inb' ∧
      (bioflush inb').2.unread ≠ bytes "GET /a HTTP/1.1\r\n\r\n" := by
  have h : (serveOnce (bytes "A") emptyResponse untypedClient).map
      (fun b => (bioflush b).2.unread) =
        some (bytes "hello" ++ bytes "GET /a HTTP/1.1\r\n\r\n") := by decide +kernel
  obtain ⟨inb', hs, hu⟩ := Option.map_eq_some_iff.mp h
  exact ⟨{ mkreq (bytes "POST") (bytes "/") (bytes "HTTP/1.1") with
      headers := [(bytes "Content-Length", bytes "5")] }, inb', by decide +kernel,
    by decide, by decide, by decide +kernel, hs, by rw [hu]; decide⟩

end Ashd
