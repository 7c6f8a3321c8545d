import Ashd.Lib.Req

/-!
# Passing requests on: `sendreq2`, `recvreq`, `recvfd`

A request is passed to a handler as one datagram of NUL-terminated strings, together
with a descriptor. A program that passes `NULL` to `sstrdup`, or looks at the first
character of `NULL`, is stopped by the kernel; that is the outcome `Fault`.

Main results:
* `decodeHeaders_eq_ok`: the headers that can be decoded from a datagram are those of
  which it is the encoding.
* `recvreq_sendreq2`: what is sent is received.
* `recvreq_graceful_iff`: which datagrams `recvreq` survives.
-/

namespace Ashd

/-- The program has used a `NULL` pointer. -/
inductive Fault
  | null
  deriving DecidableEq

/-- `EPROTO`. -/
def EPROTO : ℤ := 71

/-- `sstrdup` (lib/utils.h:14): it does not return `NULL`, and takes the length of its
    argument in any case. -/
def sstrdup : Option Bytes → Except Fault (Option Bytes)
  | none => .error .null
  | some s => .ok (some s)

/-! ## Sending -/

/-- `bufcatstr2` (lib/utils.h:41–46). -/
def bufcatstr2 (buf str : Bytes) : Bytes := buf ++ str ++ [0]

/-- The datagram that `sendreq2` (lib/req.c:435–456) sends. -/
def sendreq2 (req : Hthead) : Bytes :=
  let buf := bufcatstr2 [] req.method
  let buf := bufcatstr2 buf req.url
  let buf := bufcatstr2 buf req.ver
  let buf := bufcatstr2 buf req.rest
  let buf := req.headers.foldl (fun buf h => bufcatstr2 (bufcatstr2 buf h.1) h.2) buf
  bufcatstr2 buf []

/-! ## Receiving -/

/-- A message in a `SOCK_SEQPACKET` socket, with the descriptor sent along with it. -/
structure Datagram where
  data : Bytes
  fd : Option ℕ

/-- `recvfd` (lib/proc.c:89–130) when a datagram has arrived: the buffer has 65536 bytes,
    and the rest of a longer datagram is dropped. `.error` is the `errno`. -/
def recvfd (dgram : Datagram) : Except ℤ (ℕ × Bytes) :=
  let buf := dgram.data.take 65536
  if buf.length ≤ 0 then .error 0
  else
    match dgram.fd with
    | none => .error EPROTO
    | some fd => .ok (fd, buf)

/-- How `recvreq` returns: with a request, or with `errno`, the descriptors it has closed
    and whether it has left a partial request allocated. -/
inductive Received
  | ret (fd : ℕ) (req : Hthead)
  | failed (errno : ℤ) (closed : List ℕ) (leaked : Bool)
  deriving DecidableEq

/-- The loop over the headers in `recvreq` (lib/req.c:490–495). -/
def decodeHeaders (req : Hthead) : ℕ → Bytes → Except Fault Hthead
  | 0, _ => .error .null
  | fuel + 1, p =>
    match decstr p with
    | none => .error .null
    | some ([], _) => .ok req
    | some (name, p) =>
      match decstr p with
      | none => .error .null
      | some (val, p) => decodeHeaders (headappheader req name val) fuel p

/-- One of the four leading strings: `if((s = sstrdup(decstr(&p, &l))) == NULL) goto fail`. -/
def decodePart (fd : ℕ) (p : Bytes) (k : Bytes → Bytes → Except Fault Received) :
    Except Fault Received :=
  match sstrdup ((decstr p).map Prod.fst) with
  | .error e => .error e
  | .ok none => .ok (.failed EPROTO [fd] false)
  | .ok (some s) => k s (((decstr p).map Prod.snd).getD p)

/-- `recvreq` (lib/req.c:463–505). -/
def recvreq (dgram : Datagram) : Except Fault Received :=
  match recvfd dgram with
  | .error errno => .ok (.failed errno [] false)
  | .ok (fd, p) =>
    decodePart fd p fun method p =>
      decodePart fd p fun url p =>
        decodePart fd p fun ver p =>
          decodePart fd p fun rest p =>
            match decodeHeaders { method := method, url := url, ver := ver, rest := rest }
                (p.length + 1) p with
            | .error e => .error e
            | .ok req => .ok (.ret fd req)

/-! ## The encoding -/

/-- The encoding of a list of headers, with the empty name that ends it. -/
def encodeHeaders (hs : List (Bytes × Bytes)) : Bytes :=
  hs.flatMap (fun h => h.1 ++ 0 :: (h.2 ++ [0])) ++ [0]

/-- A header that survives encoding: its name does not look like the end of the list. -/
structure Sendable (h : Bytes × Bytes) : Prop where
  name : NulFree h.1
  ne : h.1 ≠ []
  val : NulFree h.2

theorem foldl_bufcatstr2 (hs : List (Bytes × Bytes)) (buf : Bytes) :
    bufcatstr2 (hs.foldl (fun buf h => bufcatstr2 (bufcatstr2 buf h.1) h.2) buf) [] =
      buf ++ encodeHeaders hs := by
  induction hs generalizing buf with
  | nil => simp [bufcatstr2, encodeHeaders]
  | cons h hs ih => rw [List.foldl_cons, ih]; simp [bufcatstr2, encodeHeaders]

theorem sendreq2_eq (req : Hthead) :
    sendreq2 req = req.method ++ 0 :: (req.url ++ 0 :: (req.ver ++ 0 :: (req.rest ++ 0 ::
      encodeHeaders req.headers))) := by
  unfold sendreq2
  rw [foldl_bufcatstr2]
  simp [bufcatstr2]

theorem length_encodeHeaders (hs : List (Bytes × Bytes)) :
    (encodeHeaders hs).length = (hs.map fun h => h.1.length + h.2.length + 2).sum + 1 := by
  induction hs with
  | nil => simp [encodeHeaders]
  | cons h hs ih =>
    simp only [encodeHeaders, List.flatMap_cons, List.append_assoc, List.length_append,
      List.length_cons, List.map_cons, List.sum_cons, List.length_nil] at ih ⊢
    omega

theorem length_sendreq2 (req : Hthead) :
    (sendreq2 req).length = req.method.length + req.url.length + req.ver.length +
      req.rest.length + (req.headers.map fun h => h.1.length + h.2.length + 2).sum + 5 := by
  rw [sendreq2_eq]
  simp only [List.length_append, List.length_cons, length_encodeHeaders]
  omega

/-! ## Decoding -/

theorem decodeHeaders_encode {hs : List (Bytes × Bytes)} (hall : ∀ h ∈ hs, Sendable h) (t : Bytes) :
    ∀ (req : Hthead) (fuel : ℕ), hs.length < fuel →
      decodeHeaders req fuel (encodeHeaders hs ++ t) =
        .ok { req with headers := req.headers ++ hs } := by
  induction hs with
  | nil =>
    intro req fuel hf
    obtain ⟨n, rfl⟩ : ∃ n, fuel = n + 1 := ⟨fuel - 1, by simp at hf; omega⟩
    have hd : decstr ((0 : UInt8) :: t) = some ([], t) := decstr_cstring nulFree_nil t
    simp [encodeHeaders, decodeHeaders, hd]
  | cons h hs ih =>
    intro req fuel hf
    obtain ⟨n, rfl⟩ : ∃ n, fuel = n + 1 := ⟨fuel - 1, by simp at hf; omega⟩
    obtain ⟨hn, hne, hv⟩ := hall h (by simp)
    obtain ⟨c, name, hname⟩ := List.exists_cons_of_ne_nil hne
    have hsplit : encodeHeaders (h :: hs) ++ t =
        h.1 ++ 0 :: (h.2 ++ 0 :: (encodeHeaders hs ++ t)) := by simp [encodeHeaders]
    rw [decodeHeaders, hsplit, decstr_cstring hn, hname]
    simp only [decstr_cstring hv]
    rw [ih (fun h hh => hall h (List.mem_cons_of_mem _ hh)) _ n (by simp at hf; omega)]
    simp [headappheader, ← hname]

/-- Headers are decoded only from what starts with their encoding. -/
theorem decodeHeaders_eq_ok {req r : Hthead} {fuel : ℕ} {p : Bytes}
    (h : decodeHeaders req fuel p = .ok r) :
    ∃ hs t, r = { req with headers := req.headers ++ hs } ∧ p = encodeHeaders hs ++ t ∧
      ∀ h ∈ hs, Sendable h := by
  induction fuel generalizing req p with
  | zero => simp [decodeHeaders] at h
  | succ fuel ih =>
    rw [decodeHeaders] at h
    cases hn : decstr p with
    | none => simp [hn] at h
    | some np =>
      obtain ⟨name, p₁⟩ := np
      obtain ⟨hnul, rfl⟩ := decstr_eq_some hn
      simp only [hn] at h
      cases name with
      | nil =>
        cases h
        exact ⟨[], p₁, by simp, by simp [encodeHeaders], by simp⟩
      | cons c name =>
        simp only at h
        cases hv : decstr p₁ with
        | none => simp [hv] at h
        | some vp =>
          obtain ⟨val, p₂⟩ := vp
          obtain ⟨hvnul, rfl⟩ := decstr_eq_some hv
          simp only [hv] at h
          obtain ⟨hs, t, rfl, rfl, hall⟩ := ih h
          refine ⟨(c :: name, val) :: hs, t, by simp [headappheader], by simp [encodeHeaders], ?_⟩
          intro x hx
          rcases List.mem_cons.mp hx with rfl | hx
          · exact ⟨hnul, by simp, hvnul⟩
          · exact hall x hx

/-- A leading string is taken off, or there is none and the program is stopped. -/
theorem decodePart_cases (fd : ℕ) (p : Bytes) (k : Bytes → Bytes → Except Fault Received) :
    decodePart fd p k = .error .null ∨
      ∃ s t, NulFree s ∧ p = s ++ 0 :: t ∧ decodePart fd p k = k s t := by
  unfold decodePart
  cases hd : decstr p with
  | none => exact .inl rfl
  | some st =>
    obtain ⟨hs, hp⟩ := decstr_eq_some hd
    exact .inr ⟨st.1, st.2, hs, hp, rfl⟩

theorem decodePart_cstring {s : Bytes} (hs : NulFree s) (fd : ℕ) (t : Bytes)
    (k : Bytes → Bytes → Except Fault Received) : decodePart fd (s ++ 0 :: t) k = k s t := by
  simp [decodePart, decstr_cstring hs, sstrdup]

/-- A request that survives encoding. -/
structure Hthead.Sendable (req : Hthead) : Prop where
  method : NulFree req.method
  url : NulFree req.url
  ver : NulFree req.ver
  rest : NulFree req.rest
  headers : ∀ h ∈ req.headers, Ashd.Sendable h

/-- What there is to `recvreq` on a datagram that carries a descriptor. -/
theorem recvreq_cases (data : Bytes) (fd : ℕ) :
    (recvreq ⟨data, some fd⟩ = .ok (.failed 0 [] false) ∧ data = []) ∨
      recvreq ⟨data, some fd⟩ = .error .null ∨
      ∃ req t, recvreq ⟨data, some fd⟩ = .ok (.ret fd req) ∧ req.Sendable ∧
        data.take 65536 = sendreq2 req ++ t := by
  unfold recvreq recvfd
  cases data with
  | nil => exact .inl ⟨rfl, rfl⟩
  | cons c data =>
    right
    simp only [List.take_succ_cons, List.length_cons, Nat.le_zero, Nat.add_eq_zero_iff,
      one_ne_zero, and_false, if_false]
    generalize c :: data.take 65535 = p
    obtain h | ⟨method, p₁, hm, rfl, h⟩ := decodePart_cases fd p _
    · exact .inl h
    rw [h]
    obtain h | ⟨url, p₂, hu, rfl, h⟩ := decodePart_cases fd p₁ _
    · exact .inl h
    rw [h]
    obtain h | ⟨ver, p₃, hv, rfl, h⟩ := decodePart_cases fd p₂ _
    · exact .inl h
    rw [h]
    obtain h | ⟨rest, p₄, hr, rfl, h⟩ := decodePart_cases fd p₃ _
    · exact .inl h
    rw [h]
    cases hd : decodeHeaders { method := method, url := url, ver := ver, rest := rest }
        (p₄.length + 1) p₄ with
    | error e => cases e; exact .inl rfl
    | ok req =>
      obtain ⟨hs, t, rfl, rfl, hall⟩ := decodeHeaders_eq_ok hd
      exact .inr ⟨_, t, rfl, ⟨hm, hu, hv, hr, by simpa using hall⟩, by simp [sendreq2_eq]⟩

/-- A request that survives encoding is received as it was sent, if all of it arrives. -/
theorem recvreq_sendreq2 {req : Hthead} (h : req.Sendable) {data t : Bytes}
    (hd : data.take 65536 = sendreq2 req ++ t) (fd : ℕ) :
    recvreq ⟨data, some fd⟩ = .ok (.ret fd { req with msg := [], code := 0 }) := by
  unfold recvreq recvfd
  have hne : ¬ (sendreq2 req ++ t).length ≤ 0 := by simp [length_sendreq2]
  simp only [hd, if_neg hne]
  rw [sendreq2_eq]
  simp only [List.append_assoc, List.cons_append]
  rw [decodePart_cstring h.method, decodePart_cstring h.url, decodePart_cstring h.ver,
    decodePart_cstring h.rest]
  have hlen : req.headers.length < (encodeHeaders req.headers ++ t).length + 1 := by
    have := length_encodeHeaders req.headers
    have hsum : ∀ hs : List (Bytes × Bytes),
        hs.length ≤ (hs.map fun h => h.1.length + h.2.length + 2).sum := by
      intro hs
      induction hs with
      | nil => simp
      | cons x hs ih => simp only [List.length_cons, List.map_cons, List.sum_cons]; omega
    have := hsum req.headers
    simp only [List.length_append]
    omega
  rw [decodeHeaders_encode h.headers t _ _ hlen]
  simp

/-! ## Which datagrams are survived -/

/-- `recvreq` has returned a request with the descriptor, or has failed with `EPROTO`,
    having closed the descriptor and freed the partial request. -/
def Graceful (fd : ℕ) : Except Fault Received → Prop
  | .ok (.ret fd' _) => fd' = fd
  | .ok (.failed errno closed leaked) => errno = EPROTO ∧ closed = [fd] ∧ leaked = false
  | .error _ => False

/-- `recvreq` copes with a datagram exactly if its first 65536 bytes start with one that
    `sendreq2` makes of a request without empty header names. In every other case a result
    of `decstr` is used that is `NULL`, or (for an empty datagram) the descriptor is lost. -/
theorem recvreq_graceful_iff (data : Bytes) (fd : ℕ) :
    Graceful fd (recvreq ⟨data, some fd⟩) ↔
      ∃ req t, req.Sendable ∧ data.take 65536 = sendreq2 req ++ t := by
  constructor
  · intro h
    obtain ⟨hr, -⟩ | hr | ⟨req, t, -, hs, hd⟩ := recvreq_cases data fd
    · rw [hr] at h
      exact absurd h.1 (by decide)
    · rw [hr] at h
      exact h.elim
    · exact ⟨req, t, hs, hd⟩
  · rintro ⟨req, t, hs, hd⟩
    rw [recvreq_sendreq2 hs hd]
    rfl

/-- The four strings are there, but no header list: the search for its end runs out of
    data. -/
theorem recvreq_unterminated :
    recvreq ⟨bytes "GET" ++ 0 :: bytes "/" ++ 0 :: bytes "HTTP/1.1" ++ 0 :: bytes "" ++ [0],
      some 5⟩ = .error .null ∧
    ¬ Graceful 5 (recvreq ⟨bytes "GET" ++ 0 :: bytes "/" ++ 0 :: bytes "HTTP/1.1" ++
      0 :: bytes "" ++ [0], some 5⟩) := by
  have h : recvreq ⟨bytes "GET" ++ 0 :: bytes "/" ++ 0 :: bytes "HTTP/1.1" ++ 0 :: bytes "" ++ [0],
      some 5⟩ = .error .null := by decide
  exact ⟨h, by rw [h]; exact id⟩

end Ashd
