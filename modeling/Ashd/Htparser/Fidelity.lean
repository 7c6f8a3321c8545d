import Ashd.Htparser.Model
import Ashd.Lib.Datagram

/-!
# What a handler receives of a request

`parsereq` and `canonreq` only build requests of which every part is a C string, so
that the datagram made of one can be decoded again, but for two reasons: the parser
accepts a header line that starts with its colon, and an empty name is what ends the
header list in the datagram; and a datagram is cut after 65536 bytes.

Main results:
* `parsereq_ok`, `canonreq_ok`: the parts of a request that was accepted.
* `request_fidelity`: it arrives at a handler as it was exactly if neither happens.
-/

namespace Ashd

/-! ## Accepted requests -/

/-- Every part of a request is a C string. -/
structure ReqOk (req : Hthead) : Prop where
  method : NulFree req.method
  url : NulFree req.url
  ver : NulFree req.ver
  rest : NulFree req.rest
  headers : ∀ h ∈ req.headers, NulFree h.1 ∧ NulFree h.2

theorem nulFree_of_forall {s : Bytes} (h : ∀ c ∈ s, 32 ≤ c) : NulFree s := by
  intro h0
  exact absurd (h 0 h0) (by decide)

theorem nulFree_of_subset {s t : Bytes} (h : NulFree t) (hs : s ⊆ t) : NulFree s :=
  fun h0 => h (hs h0)

/-- What `parsereq` accepts. -/
theorem parsereq_ok {α : Type*} {getc : α → Option UInt8 × α} {left : ℕ} {a a' : α} {req : Hthead}
    (h : parsereqFrom getc left a = (some req, a')) :
    ReqOk req ∧ ∀ h ∈ req.headers, hasPrefixCase xash h.1 = false := by
  obtain ⟨method, a₁, hm, h⟩ := andThen_eq_some h
  obtain ⟨url, a₂, hu, h⟩ := andThen_eq_some h
  obtain ⟨ver, a₃, hv, h⟩ := andThen_eq_some h
  obtain ⟨head, a₄, hh, h⟩ := andThen_eq_some h
  obtain ⟨hs, rfl, hall⟩ := parseheaders_fields hh
  cases h
  refine ⟨⟨nulFree_of_forall fun c hc => UInt8.le_of_lt (scan_word hm c hc).1,
    nulFree_of_forall fun c hc => UInt8.le_of_lt (scan_word hu c hc).1,
    nulFree_of_forall fun c hc => (scan_line hv c hc).1,
    nulFree_of_forall fun c hc => UInt8.le_of_lt (scan_word hu c hc).1, ?_⟩, ?_⟩
  · intro x hx
    have hx := hall x (by simpa [trimx, mkreq] using (List.mem_filter.mp hx).1)
    exact ⟨hx.name.clean.nulFree, hx.val.clean.nulFree⟩
  · intro x hx
    simpa using (List.mem_filter.mp hx).2

theorem ReqOk.restFromUrl {req : Hthead} (h : ReqOk req) : ReqOk (restFromUrl req) where
  method := h.method
  url := h.url
  ver := h.ver
  rest := nulFree_of_subset h.url
    (((List.takeWhile_sublist _).trans (List.tail_sublist req.url)).subset)
  headers := h.headers

theorem ReqOk.headappheader {req : Hthead} (h : ReqOk req) {name val : Bytes} (hn : NulFree name)
    (hv : NulFree val) : ReqOk (headappheader req name val) where
  method := h.method
  url := h.url
  ver := h.ver
  rest := h.rest
  headers := by
    intro x hx
    rcases List.mem_append.mp hx with hx | hx
    · exact h.headers x hx
    · rw [List.mem_singleton.mp hx]
      exact ⟨hn, hv⟩

theorem strstr_sublist {needle s : Bytes} {r : Bytes × Bytes} (h : strstr needle s = some r) :
    r.2.Sublist s := by
  induction s generalizing r with
  | nil => simp [strstr] at h
  | cons c s ih =>
    rw [strstr] at h
    split_ifs at h
    · cases h
      exact List.Sublist.refl _
    · obtain ⟨r', hr', rfl⟩ := Option.map_eq_some_iff.mp h
      exact (ih hr').trans (List.sublist_cons_self _ _)

/-- What `canonreq` makes of a request: an absolute path stays, and of a full URL, the path
    is kept and the host becomes a header. -/
theorem canonreq_eq_some {req r : Hthead} (hc : canonreq req = some r) :
    r = restFromUrl req ∨
      ∃ host url, host.Sublist req.url ∧ (url.Sublist req.url ∨ url = bytes "/") ∧
        r = restFromUrl { headappheader req (bytes "Host") host with url := url } := by
  unfold canonreq at hc
  by_cases hslash : req.url.head? = some 47
  · rw [if_pos hslash] at hc
    cases hc
    exact .inl rfl
  rw [if_neg hslash] at hc
  cases hs : strstr (bytes "://") req.url with
  | none => simp [hs] at hc
  | some sp =>
    obtain ⟨scheme, p⟩ := sp
    simp only [hs] at hc
    split_ifs at hc
    have hp : (p.drop 3).Sublist req.url := (List.drop_sublist 3 p).trans (strstr_sublist hs)
    have hhost : ((p.drop 3).takeWhile (· ≠ 47)).Sublist req.url :=
      (List.takeWhile_sublist _).trans hp
    have hpath : ((p.drop 3).dropWhile (· ≠ 47)).Sublist req.url :=
      (List.dropWhile_sublist _).trans hp
    split at hc
    · cases hc
      exact .inr ⟨_, bytes "/", hhost, .inr rfl, rfl⟩
    · cases hc
      exact .inr ⟨_, _, hhost, .inl hpath, rfl⟩

theorem canonreq_ok {req r : Hthead} (h : ReqOk req) (hc : canonreq req = some r) :
    ReqOk r ∧ ((∀ h ∈ req.headers, h.1 ≠ []) ↔ ∀ h ∈ r.headers, h.1 ≠ []) := by
  obtain rfl | ⟨host, url, hhost, hurl, rfl⟩ := canonreq_eq_some hc
  · exact ⟨h.restFromUrl, Iff.rfl⟩
  have hok := @ReqOk.headappheader _ h (bytes "Host") host (by decide) (nulFree_of_subset h.url hhost.subset)
  have hurl' : NulFree url := by
    rcases hurl with hurl | rfl
    · exact nulFree_of_subset h.url hurl.subset
    · decide
  have hokurl : ReqOk { headappheader req (bytes "Host") host with url := url } :=
    ⟨hok.method, hurl', hok.ver, hok.rest, hok.headers⟩
  refine ⟨hokurl.restFromUrl, ?_⟩
  have : bytes "Host" ≠ [] := by decide
  simp [restFromUrl, replrest, headappheader, or_imp, forall_and, this]

theorem AshHeader.name_ne_nil (x : AshHeader) : x.name ≠ [] := by
  intro h
  have := x.ash
  rw [h] at this
  exact absurd this (by decide)

theorem ReqOk.appendAsh {req : Hthead} (h : ReqOk req) (xs : List AshHeader) :
    ReqOk (appendAsh req xs) where
  method := h.method
  url := h.url
  ver := h.ver
  rest := h.rest
  headers := by
    intro x hx
    rcases List.mem_append.mp hx with hx | hx
    · exact h.headers x hx
    · obtain ⟨y, -, rfl⟩ := List.mem_map.mp hx
      exact y.nulFree

/-- The headers that are added have names. -/
theorem names_appendAsh (req : Hthead) (xs : List AshHeader) :
    (∀ h ∈ (appendAsh req xs).headers, h.1 ≠ []) ↔ ∀ h ∈ req.headers, h.1 ≠ [] := by
  constructor
  · intro h x hx
    exact h x (List.mem_append_left _ hx)
  · intro h x hx
    rcases List.mem_append.mp hx with hx | hx
    · exact h x hx
    · obtain ⟨y, -, rfl⟩ := List.mem_map.mp hx
      exact y.name_ne_nil

/-! ## Passing them on -/

/-- The parts of a request that are passed on. -/
structure SameRequest (a b : Hthead) : Prop where
  method : a.method = b.method
  url : a.url = b.url
  ver : a.ver = b.ver
  rest : a.rest = b.rest
  headers : a.headers = b.headers

/-- `recvreq` gets from the datagram of `sendreq2` the request that went into it. -/
def Faithful (req : Hthead) (fd : ℕ) : Prop :=
  ∃ got, recvreq ⟨sendreq2 req, some fd⟩ = .ok (.ret fd got) ∧ SameRequest got req

/-- The encoding of a request determines it: nothing else can be decoded from it. -/
theorem faithful_iff {req : Hthead} (h : ReqOk req) (fd : ℕ) :
    Faithful req fd ↔ (∀ h ∈ req.headers, h.1 ≠ []) ∧ (sendreq2 req).length ≤ 65536 := by
  constructor
  · rintro ⟨got, hgot, hsame⟩
    obtain ⟨hr, -⟩ | hr | ⟨got', t, hr, hs, hd⟩ := recvreq_cases (sendreq2 req) fd
    · rw [hr] at hgot; cases hgot
    · rw [hr] at hgot; cases hgot
    · rw [hr] at hgot
      cases hgot
      refine ⟨fun x hx => (hs.headers x (by rw [hsame.headers]; exact hx)).ne, ?_⟩
      have hlen := congrArg List.length hd
      have : (sendreq2 got).length = (sendreq2 req).length := by
        simp only [length_sendreq2, hsame.method, hsame.url, hsame.ver, hsame.rest, hsame.headers]
      simp only [List.length_take, List.length_append, this] at hlen
      omega
  · rintro ⟨hne, hlen⟩
    have hs : req.Sendable := ⟨h.method, h.url, h.ver, h.rest,
      fun x hx => ⟨(h.headers x hx).1, hne x hx, (h.headers x hx).2⟩⟩
    have hd : (sendreq2 req).take 65536 = sendreq2 req ++ [] := by
      rw [List.take_of_length_le hlen, List.append_nil]
    exact ⟨_, recvreq_sendreq2 hs hd fd, ⟨rfl, rfl, rfl, rfl, rfl⟩⟩

/-- **Protocol fidelity.** A request that `parsereq` has accepted, before or after
    `canonreq`, with any headers of ashd's own added to it, is received from the datagram as
    it was sent if and only if none of its header names is empty and the datagram fits the
    buffer of `recvfd`. -/
theorem request_fidelity (inb : Bufio) (req r : Hthead)
    (hp : (parsereq inb).1 = some req)
    (hr : r = req ∨ canonreq req = some r) (xs : List AshHeader) (fd : ℕ) :
    Faithful (appendAsh r xs) fd ↔
      (∀ h ∈ req.headers, h.1 ≠ []) ∧
      r.method.length + r.url.length + r.ver.length + r.rest.length +
        ((appendAsh r xs).headers.map fun h => h.1.length + h.2.length + 2).sum + 5 ≤ 65536 := by
  obtain ⟨hok, -⟩ := parsereq_ok (Prod.ext hp rfl : parsereq inb = (some req, (parsereq inb).2))
  have hboth : ReqOk r ∧ ((∀ h ∈ req.headers, h.1 ≠ []) ↔ ∀ h ∈ r.headers, h.1 ≠ []) := by
    rcases hr with rfl | hr
    · exact ⟨hok, Iff.rfl⟩
    · exact canonreq_ok hok hr
  rw [faithful_iff (hboth.1.appendAsh xs), names_appendAsh, ← hboth.2, length_sendreq2]
  rfl

/-- A new connection on which the client sends `text`. -/
def clientOf (text : Bytes) : Bufio := bioopen { avail := text } {}

/-- A request to which both conditions apply. -/
theorem request_fidelity_plain :
    Faithful (appendAsh (restFromUrl (mkreq (bytes "GET") (bytes "/a?b") (bytes "HTTP/1.1"))) []) 5 :=
  (request_fidelity (clientOf (bytes "GET /a?b HTTP/1.1\r\n\r\n"))
    (mkreq (bytes "GET") (bytes "/a?b") (bytes "HTTP/1.1")) _
    (by decide +kernel) (.inr (by decide +kernel)) [] 5).mpr (by decide +kernel)

/-- A header line without a name hides the headers after it from the handler. -/
theorem request_headers_lost :
    ∃ req, (parsereq (clientOf (bytes "GET / HTTP/1.1\r\n: x\r\nHost: a\r\n\r\n"))).1 = some req ∧
      getheader req (bytes "host") = some (bytes "a") ∧
      recvreq ⟨sendreq2 (appendAsh req []), some 5⟩ = .ok (.ret 5 { req with headers := [] }) ∧
      ¬ Faithful (appendAsh req []) 5 := by
  have hr : recvreq ⟨sendreq2 (appendAsh { mkreq (bytes "GET") (bytes "/") (bytes "HTTP/1.1") with
      headers := [([], bytes "x"), (bytes "Host", bytes "a")] } []), some 5⟩ =
      .ok (.ret 5 (mkreq (bytes "GET") (bytes "/") (bytes "HTTP/1.1"))) := by decide +kernel
  refine ⟨_, by decide +kernel, by decide +kernel, hr, ?_⟩
  rintro ⟨got, hgot, hsame⟩
  rw [hr] at hgot
  cases hgot
  exact absurd hsame.headers (by decide)

end Ashd
