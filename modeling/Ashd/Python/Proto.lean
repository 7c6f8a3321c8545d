import Mathlib.Data.List.Basic
import Ashd.Lib.Datagram

/-!
# The protocol in Python: `ashd.proto`

`recvreq` and `sendreq` of `python/ashd/proto.py`. They use the C functions `recvfd` and
`sendfd` (through `python/htp.c`), and come with their own decoder and encoder of the
datagrams.

Main results:
* `recvreq_eq_some`: a datagram can be decoded exactly if it starts with an encoding.
* `recvreq_agrees`: the decoder in C decodes the same datagrams, to the same requests, and
  the encoder in C makes the same datagrams.
-/

namespace Ashd.Proto

/-- `class req`, with the descriptor that its socket is made of. -/
structure Req where
  method : Bytes
  url : Bytes
  ver : Bytes
  rest : Bytes
  headers : List (Bytes × Bytes)
  fd : ℕ
  deriving DecidableEq

/-- What `recvreq` can raise. -/
inductive Exn
  | protoerr (msg : String)
  | indexError
  | oserror (errno : ℤ)
  deriving DecidableEq

/-! ## Receiving -/

/-- The loop over the headers in `recvreq` (python/ashd/proto.py:153–160). -/
def recvheaders (parts : List Bytes) (i : ℕ) (headers : List (Bytes × Bytes)) :
    Except Exn (List (Bytes × Bytes)) :=
  match parts[i]? with
  | none => .error .indexError
  | some [] => .ok headers
  | some key =>
    if parts.length - i < 3 then .error (.protoerr "Truncated request")
    else
      match parts[i + 1]? with
      | none => .error .indexError
      | some val => recvheaders parts (i + 2) (headers ++ [(key, val)])
termination_by parts.length - i

/-- What `recvreq` does with the data (python/ashd/proto.py:149–161). -/
def decode (data : Bytes) (fd : ℕ) : Except Exn Req :=
  let parts := (data.splitOn 0).dropLast
  if parts.length < 5 then .error (.protoerr "Truncated request")
  else
    match parts with
    | method :: url :: ver :: rest :: _ =>
      match recvheaders parts 4 [] with
      | .error e => .error e
      | .ok headers => .ok ⟨method, url, ver, rest, headers, fd⟩
    | _ => .error .indexError

/-- `recvreq` (python/ashd/proto.py:132–163), when a datagram has arrived. -/
def recvreq (dgram : Datagram) : Except Exn (Option Req) :=
  match recvfd dgram with
  | .error errno => if errno = 0 then .ok none else .error (.oserror errno)
  | .ok (fd, data) =>
    match decode data fd with
    | .error e => .error e
    | .ok req => .ok (some req)

/-! ## Sending -/

/-- `sendreq` (python/ashd/proto.py:165–182). -/
def sendreq (req : Req) : Datagram :=
  let data := [] ++ (req.method ++ [0])
  let data := data ++ (req.url ++ [0])
  let data := data ++ (req.ver ++ [0])
  let data := data ++ (req.rest ++ [0])
  let data := req.headers.foldl (fun data h => data ++ (h.1 ++ [0]) ++ (h.2 ++ [0])) data
  ⟨data ++ [0], some req.fd⟩

/-- The request as a C program has it: each string ends at its first NUL. -/
def Req.hthead (req : Req) : Hthead where
  method := cstr req.method
  url := cstr req.url
  ver := cstr req.ver
  rest := cstr req.rest
  headers := req.headers.map fun h => (cstr h.1, cstr h.2)

/-- No string of the request has a NUL in it. -/
structure Req.NulFree (req : Req) : Prop where
  method : Ashd.NulFree req.method
  url : Ashd.NulFree req.url
  ver : Ashd.NulFree req.ver
  rest : Ashd.NulFree req.rest
  headers : ∀ h ∈ req.headers, Ashd.NulFree h.1 ∧ Ashd.NulFree h.2

theorem foldl_sendreq (hs : List (Bytes × Bytes)) (data : Bytes) :
    hs.foldl (fun data h => data ++ (h.1 ++ [0]) ++ (h.2 ++ [0])) data ++ [0] =
      data ++ encodeHeaders hs := by
  induction hs generalizing data with
  | nil => simp [encodeHeaders]
  | cons h hs ih => rw [List.foldl_cons, ih]; simp [encodeHeaders]

theorem Req.NulFree.hthead {req : Req} (h : req.NulFree) :
    req.hthead = { method := req.method, url := req.url, ver := req.ver, rest := req.rest,
                   headers := req.headers } := by
  have hmap : (req.headers.map fun h => (cstr h.1, cstr h.2)) = req.headers := by
    calc (req.headers.map fun h => (cstr h.1, cstr h.2)) = req.headers.map id := by
          refine List.map_congr_left fun x hx => ?_
          rw [cstr_eq_self (h.headers x hx).1, cstr_eq_self (h.headers x hx).2]
          rfl
      _ = req.headers := List.map_id _
  unfold Req.hthead
  rw [cstr_eq_self h.method, cstr_eq_self h.url, cstr_eq_self h.ver, cstr_eq_self h.rest, hmap]

/-- The encoder makes the datagram that the one in C makes. -/
theorem sendreq_eq {req : Req} (h : req.NulFree) :
    sendreq req = ⟨sendreq2 req.hthead, some req.fd⟩ := by
  rw [h.hthead, sendreq2_eq]
  unfold sendreq
  simp only
  rw [foldl_sendreq]
  simp

/-! ## Splitting -/

/-- The pieces end with a NUL each, but for the last one. -/
theorem splitOn_eq (data : Bytes) :
    ∃ parts t, data.splitOn 0 = parts ++ [t] ∧ data = parts.flatMap (· ++ [0]) ++ t ∧
      ∀ p ∈ parts, Ashd.NulFree p := by
  induction hn : data.length using Nat.strong_induction_on generalizing data with
  | _ n ih =>
    by_cases hd : Ashd.NulFree data
    · exact ⟨[], data, List.splitOn_eq_singleton hd, rfl, by simp⟩
    · have hsplit := cstr_split hd
      set t := data.drop ((cstr data).length + 1) with ht
      have hlt : t.length < n := by
        rw [← hn]
        conv_rhs => rw [hsplit]
        simp only [List.length_append, List.length_cons]
        omega
      obtain ⟨parts, last, hs, hdata, hfree⟩ := ih t.length hlt t rfl
      refine ⟨cstr data :: parts, last, ?_, ?_, ?_⟩
      · conv_lhs => rw [hsplit]
        rw [List.splitOn_append_cons_self_of_not_mem (nulFree_cstr data), hs]
        rfl
      · conv_lhs => rw [hsplit, hdata]
        simp
      · intro p hp
        rcases List.mem_cons.mp hp with rfl | hp
        · exact nulFree_cstr data
        · exact hfree p hp

/-- What the headers are among the pieces. -/
def pieces (hs : List (Bytes × Bytes)) : List Bytes := hs.flatMap fun h => [h.1, h.2]

theorem encodeHeaders_pieces (hs : List (Bytes × Bytes)) (ps : List Bytes) :
    (pieces hs ++ [] :: ps).flatMap (· ++ [0]) = encodeHeaders hs ++ ps.flatMap (· ++ [0]) := by
  induction hs with
  | nil => simp [pieces, encodeHeaders]
  | cons h hs ih =>
    have : pieces (h :: hs) = h.1 :: h.2 :: pieces hs := rfl
    rw [this, List.cons_append, List.cons_append, List.flatMap_cons, List.flatMap_cons, ih]
    simp [encodeHeaders]

/-- The pieces of an encoding. -/
theorem splitOn_encodeHeaders {hs : List (Bytes × Bytes)} (hall : ∀ h ∈ hs, Sendable h) (t : Bytes) :
    (encodeHeaders hs ++ t).splitOn 0 = pieces hs ++ [] :: t.splitOn 0 := by
  induction hs with
  | nil => exact List.splitOn_append_cons_self_of_not_mem nulFree_nil t
  | cons h hs ih =>
    have hsplit : encodeHeaders (h :: hs) ++ t =
        h.1 ++ 0 :: (h.2 ++ 0 :: (encodeHeaders hs ++ t)) := by simp [encodeHeaders]
    have hh := hall h List.mem_cons_self
    rw [hsplit, List.splitOn_append_cons_self_of_not_mem hh.name,
      List.splitOn_append_cons_self_of_not_mem hh.val,
      ih fun x hx => hall x (List.mem_cons_of_mem _ hx)]
    rfl

/-! ## Decoding -/

/-- The loop returns the headers that are there from an index on, up to an empty name. -/
theorem recvheaders_pieces {hs : List (Bytes × Bytes)} (hall : ∀ h ∈ hs, h.1 ≠ []) (ps : List Bytes) :
    ∀ (pre : List Bytes) (headers : List (Bytes × Bytes)),
      recvheaders (pre ++ (pieces hs ++ [] :: ps)) pre.length headers = .ok (headers ++ hs) := by
  induction hs with
  | nil =>
    intro pre headers
    rw [recvheaders]
    simp [pieces]
  | cons h hs ih =>
    intro pre headers
    have hp : pieces (h :: hs) = h.1 :: h.2 :: pieces hs := rfl
    obtain ⟨c, name, hname⟩ := List.exists_cons_of_ne_nil (hall h List.mem_cons_self)
    have ih := ih (fun x hx => hall x (List.mem_cons_of_mem _ hx)) (pre ++ [h.1, h.2])
      (headers ++ [h])
    have hpre : pre ++ (pieces (h :: hs) ++ [] :: ps) =
        pre ++ [h.1, h.2] ++ (pieces hs ++ [] :: ps) := by
      rw [hp]
      simp
    have hkey : (pre ++ (pieces (h :: hs) ++ [] :: ps))[pre.length]? = some (c :: name) := by
      rw [hp, hname]
      simp
    have hval : (pre ++ (pieces (h :: hs) ++ [] :: ps))[pre.length + 1]? = some h.2 := by
      rw [hp]
      simp
    have hlen : ¬ (pre ++ (pieces (h :: hs) ++ [] :: ps)).length - pre.length < 3 := by
      rw [hp]
      simp only [List.length_append, List.length_cons]
      omega
    rw [recvheaders, hkey]
    simp only [if_neg hlen, hval]
    rw [hpre, ← hname, List.length_append] at *
    simpa using ih

/-- What the loop returns is there among the pieces, followed by an empty one. -/
theorem recvheaders_eq_ok {parts : List Bytes} {i : ℕ} {headers r : List (Bytes × Bytes)}
    (h : recvheaders parts i headers = .ok r) :
    ∃ hs ps, r = headers ++ hs ∧ parts.drop i = pieces hs ++ [] :: ps ∧ ∀ h ∈ hs, h.1 ≠ [] := by
  fun_induction recvheaders parts i headers with
  | case1 => cases h
  | case2 i headers hi =>
    cases h
    obtain ⟨hlt, hget⟩ := List.getElem?_eq_some_iff.mp hi
    refine ⟨[], parts.drop (i + 1), (List.append_nil _).symm, ?_, by simp⟩
    rw [List.drop_eq_getElem_cons hlt, hget]
    rfl
  | case3 => cases h
  | case4 => cases h
  | case5 i headers key hne hi hlen val hval ih =>
    obtain ⟨hs, ps, rfl, hdrop, hall⟩ := ih h
    obtain ⟨hlt, hget⟩ := List.getElem?_eq_some_iff.mp hi
    obtain ⟨hlt', hget'⟩ := List.getElem?_eq_some_iff.mp hval
    refine ⟨(key, val) :: hs, ps, by simp, ?_, ?_⟩
    · rw [List.drop_eq_getElem_cons hlt, hget, List.drop_eq_getElem_cons hlt', hget', hdrop]
      rfl
    · intro x hx
      rcases List.mem_cons.mp hx with rfl | hx
      · exact hne
      · exact hall x hx

/-- The request with the strings of a head. -/
def Req.of (h : Hthead) (fd : ℕ) : Req := ⟨h.method, h.url, h.ver, h.rest, h.headers, fd⟩

theorem decode_sendreq2 {h : Hthead} (hs : h.Sendable) (t : Bytes) (fd : ℕ) :
    decode (sendreq2 h ++ t) fd = .ok (.of h fd) := by
  have hsplit : (sendreq2 h ++ t).splitOn 0 =
      [h.method, h.url, h.ver, h.rest] ++ (pieces h.headers ++ [] :: t.splitOn 0) := by
    have happ : sendreq2 h ++ t = h.method ++ 0 :: (h.url ++ 0 :: (h.ver ++ 0 :: (h.rest ++
        0 :: (encodeHeaders h.headers ++ t)))) := by
      rw [sendreq2_eq]
      simp
    rw [happ, List.splitOn_append_cons_self_of_not_mem hs.method,
      List.splitOn_append_cons_self_of_not_mem hs.url,
      List.splitOn_append_cons_self_of_not_mem hs.ver,
      List.splitOn_append_cons_self_of_not_mem hs.rest, splitOn_encodeHeaders hs.headers]
    rfl
  have hparts : ((sendreq2 h ++ t).splitOn 0).dropLast =
      [h.method, h.url, h.ver, h.rest] ++ (pieces h.headers ++ [] :: (t.splitOn 0).dropLast) := by
    rw [hsplit, List.dropLast_append_of_ne_nil (by simp), List.dropLast_append_of_ne_nil (by simp),
      List.dropLast_cons_of_ne_nil (List.splitOn_ne_nil 0 t)]
  have hlen : ¬ ((sendreq2 h ++ t).splitOn 0).dropLast.length < 5 := by
    rw [hparts]
    simp only [List.length_append, List.length_cons, List.length_nil]
    omega
  have hheaders := recvheaders_pieces (fun x hx => (hs.headers x hx).ne) (t.splitOn 0).dropLast
    [h.method, h.url, h.ver, h.rest] []
  unfold decode
  simp only [if_neg hlen]
  rw [hparts]
  show (match recvheaders ([h.method, h.url, h.ver, h.rest] ++ _) 4 [] with
    | .error e => Except.error e
    | .ok headers => .ok (⟨h.method, h.url, h.ver, h.rest, headers, fd⟩ : Req)) = _
  rw [show 4 = [h.method, h.url, h.ver, h.rest].length from rfl, hheaders]
  rfl

/-- Only what starts with an encoding is decoded. -/
theorem decode_eq_ok {data : Bytes} {fd : ℕ} {r : Req} (h : decode data fd = .ok r) :
    ∃ head t, r = .of head fd ∧ head.Sendable ∧ data = sendreq2 head ++ t := by
  obtain ⟨parts, t, hsplit, hdata, hfree⟩ := splitOn_eq data
  unfold decode at h
  simp only [hsplit, List.dropLast_concat] at h
  split_ifs at h with hlen
  obtain ⟨method, url, ver, rest, tail, rfl⟩ :
      ∃ method url ver rest tail, parts = method :: url :: ver :: rest :: tail := by
    match parts, hlen with
    | method :: url :: ver :: rest :: tail, _ => exact ⟨method, url, ver, rest, tail, rfl⟩
    | [], h | [_], h | [_, _], h | [_, _, _], h => exact absurd (by simp) h
  simp only at h
  cases hr : recvheaders (method :: url :: ver :: rest :: tail) 4 [] with
  | error e =>
    rw [hr] at h
    cases h
  | ok headers =>
    rw [hr] at h
    cases h
    obtain ⟨_, ps, rfl, hdrop, hne⟩ := recvheaders_eq_ok hr
    have htail : tail = pieces headers ++ [] :: ps := hdrop
    subst htail
    have hsend : ∀ x ∈ headers, Sendable x := by
      intro x hx
      have hmem : ∀ p ∈ [x.1, x.2], Ashd.NulFree p := by
        intro p hp
        apply hfree
        have : p ∈ pieces headers := List.mem_flatMap.mpr ⟨x, hx, hp⟩
        simp [this]
      exact ⟨hmem _ (by simp), hne x hx, hmem _ (by simp)⟩
    refine ⟨{ method := method, url := url, ver := ver, rest := rest, headers := headers },
      ps.flatMap (· ++ [0]) ++ t, rfl, ⟨hfree _ (by simp), hfree _ (by simp), hfree _ (by simp),
        hfree _ (by simp), hsend⟩, ?_⟩
    rw [hdata, sendreq2_eq]
    simp only [List.flatMap_cons, encodeHeaders_pieces]
    simp

/-! ## Agreement -/

theorem recvfd_eq_ok {dgram : Datagram} {fd : ℕ} {data : Bytes} (h : recvfd dgram = .ok (fd, data)) :
    dgram = ⟨dgram.data, some fd⟩ ∧ data = dgram.data.take 65536 := by
  obtain ⟨raw, rights⟩ := dgram
  unfold recvfd at h
  simp only at h
  split_ifs at h
  cases rights with
  | none => cases h
  | some fd' =>
    cases h
    exact ⟨rfl, rfl⟩

/-- A datagram can be decoded exactly if it comes with a descriptor and its first 65536 bytes
    start with the encoding of a request without empty header names. -/
theorem recvreq_eq_some {dgram : Datagram} {r : Req} :
    recvreq dgram = .ok (some r) ↔
      ∃ fd h t, dgram.fd = some fd ∧ r = .of h fd ∧ h.Sendable ∧
        dgram.data.take 65536 = sendreq2 h ++ t := by
  constructor
  · intro h
    unfold recvreq at h
    cases hfd : recvfd dgram with
    | error errno =>
      simp only [hfd] at h
      split_ifs at h
      cases h
    | ok fdata =>
      obtain ⟨fd, data⟩ := fdata
      obtain ⟨hdgram, rfl⟩ := recvfd_eq_ok hfd
      simp only [hfd] at h
      cases hd : decode (dgram.data.take 65536) fd with
      | error e =>
        rw [hd] at h
        cases h
      | ok req =>
        rw [hd] at h
        cases h
        obtain ⟨head, t, hr, hs, hdata⟩ := decode_eq_ok hd
        exact ⟨fd, head, t, by rw [hdgram], hr, hs, hdata⟩
  · rintro ⟨fd, h, t, hfd, rfl, hs, hdata⟩
    have hne : ¬ (sendreq2 h ++ t).length ≤ 0 := by simp [length_sendreq2]
    unfold recvreq recvfd
    simp only [hdata, if_neg hne, hfd, decode_sendreq2 hs]

/-- What the decoder in C makes of a datagram. -/
theorem recvreq_c {dgram : Datagram} {r : Req} :
    (∃ fd h, Ashd.recvreq dgram = .ok (.ret fd h) ∧ r = .of h fd) ↔
      ∃ fd h t, dgram.fd = some fd ∧ r = .of h fd ∧ h.Sendable ∧
        dgram.data.take 65536 = sendreq2 h ++ t := by
  obtain ⟨data, rights⟩ := dgram
  constructor
  · rintro ⟨fd, h, hr, rfl⟩
    cases rights with
    | none =>
      unfold Ashd.recvreq recvfd at hr
      simp only at hr
      split_ifs at hr <;> cases hr
    | some fd' =>
      obtain ⟨hc, -⟩ | hc | ⟨req, t, hc, hs, hdata⟩ := recvreq_cases data fd'
      · rw [hc] at hr
        cases hr
      · rw [hc] at hr
        cases hr
      · rw [hc] at hr
        cases hr
        exact ⟨fd, h, t, rfl, rfl, hs, hdata⟩
  · rintro ⟨fd, h, t, hfd, rfl, hs, hdata⟩
    subst hfd
    exact ⟨fd, _, recvreq_sendreq2 hs hdata fd, rfl⟩

/-- **The two implementations agree.** Of every datagram, the decoder in Python makes a request
    exactly if the one in C does, and then it is a request with the same strings and the same
    descriptor. Of a request without NULs, both encoders make the same datagram. -/
theorem recvreq_agrees :
    (∀ dgram r, recvreq dgram = .ok (some r) ↔
      ∃ fd h, Ashd.recvreq dgram = .ok (.ret fd h) ∧ r = .of h fd) ∧
    ∀ req : Req, req.NulFree → sendreq req = ⟨sendreq2 req.hthead, some req.fd⟩ :=
  ⟨fun _ _ => recvreq_eq_some.trans recvreq_c.symm, fun _ => sendreq_eq⟩

theorem recvreq_agrees_get :
    sendreq ⟨bytes "GET", bytes "/", bytes "HTTP/1.1", bytes "", [(bytes "Host", bytes "a")], 5⟩ =
      ⟨sendreq2 (Req.hthead ⟨bytes "GET", bytes "/", bytes "HTTP/1.1", bytes "",
        [(bytes "Host", bytes "a")], 5⟩), some 5⟩ :=
  recvreq_agrees.2 _ (by constructor <;> decide)

end Ashd.Proto
