import Ashd.Htparser.Fidelity
import Ashd.Lib.ReqHeaders

/-!
# What a handler sees of a request

The parts of a request that `parsereq` and `canonreq` accept, in terms of the bytes that the
client sent: the words of the request line and the headers line by line.

Main results:
* `trimxLoop_eq`: the removal of headers in place is a filter.
* `parsereq_requestLine`: the words and the headers of the stream that `parsereq` takes apart.
* `canonreq_canonical`: what `canonreq` makes of each form of URL.
* `request_seen`: the two together, on the stream.
-/

namespace Ashd

/-! ## `trimx` -/

/-- The loop of `trimx` as it stands (src/htparser.c:50–60): a header at `i` is removed by moving
    those after it, or `i` goes on. -/
def trimxLoop : ℕ → ℕ → List (Bytes × Bytes) → List (Bytes × Bytes)
  | 0, _, headers => headers
  | fuel + 1, i, headers =>
    match headers[i]? with
    | none => headers
    | some h =>
      if hasPrefixCase xash h.1 then trimxLoop fuel i (headers.eraseIdx i)
      else trimxLoop fuel (i + 1) headers

/-- Every round takes one header off those that are left. -/
theorem trimxLoop_append (kept left : List (Bytes × Bytes)) (fuel : ℕ) (h : left.length ≤ fuel) :
    trimxLoop fuel kept.length (kept ++ left) =
      kept ++ left.filter fun h => !hasPrefixCase xash h.1 := by
  induction left generalizing kept fuel with
  | nil =>
    cases fuel with
    | zero => simp [trimxLoop]
    | succ fuel => simp [trimxLoop]
  | cons x left ih =>
    rw [List.length_cons] at h
    obtain ⟨n, rfl⟩ : ∃ n, fuel = n + 1 := ⟨fuel - 1, by omega⟩
    have hx : (kept ++ x :: left)[kept.length]? = some x := by simp
    rw [trimxLoop, hx]
    simp only
    by_cases hp : hasPrefixCase xash x.1 = true
    · have herase : (kept ++ x :: left).eraseIdx kept.length = kept ++ left := by
        rw [List.eraseIdx_append_of_length_le le_rfl]
        simp
      rw [if_pos hp, herase, ih kept n (by omega), List.filter_cons_of_neg (by simp [hp])]
    · have := ih (kept ++ [x]) n (by omega)
      rw [List.length_append, List.length_singleton, List.append_assoc, List.append_assoc,
        List.singleton_append] at this
      rw [if_neg hp, this, List.filter_cons_of_pos (by simpa using hp)]
      rfl

theorem trimxLoop_eq (req : Hthead) :
    trimxLoop req.headers.length 0 req.headers = (trimx req).headers :=
  trimxLoop_append [] req.headers _ le_rfl

/-! ## The request line -/

/-- A word and the space after it. -/
theorem scanList_wordStep {hi limit : ℕ} {w w' s rest : Bytes}
    (h : scanList (wordStep hi limit) w s = some (w', rest)) :
    ∃ t, w' = w ++ t ∧ s = t ++ 32 :: rest ∧ (32 : UInt8) ∉ t := by
  induction s generalizing w with
  | nil => simp [scanList] at h
  | cons c s ih =>
    rw [scanList, wordStep] at h
    split_ifs at h with h32 h2 h3
    · cases h
      exact ⟨[], by simp, by simp [h32], by simp⟩
    · obtain ⟨t, rfl, rfl, ht⟩ := ih h
      refine ⟨c :: t, by simp, rfl, ?_⟩
      simp [ht, Ne.symm h32]

/-- A line and the line feed after it. -/
theorem scanList_lineStep {hi limit : ℕ} {w w' s rest : Bytes}
    (h : scanList (lineStep hi limit) w s = some (w', rest)) :
    ∃ t, w' = w ++ t.filter (· ≠ 13) ∧ s = t ++ 10 :: rest ∧ (10 : UInt8) ∉ t := by
  induction s generalizing w with
  | nil => simp [scanList] at h
  | cons c s ih =>
    rw [scanList, lineStep] at h
    split_ifs at h with h10 h13 h2 h3
    · cases h
      exact ⟨[], by simp, by simp [h10], by simp⟩
    · obtain ⟨t, rfl, rfl, ht⟩ := ih h
      refine ⟨c :: t, ?_, rfl, ?_⟩
      · rw [List.filter_cons_of_neg (by simp [h13])]
      · simp [ht, Ne.symm h10]
    · obtain ⟨t, rfl, rfl, ht⟩ := ih h
      refine ⟨c :: t, ?_, rfl, ?_⟩
      · rw [List.filter_cons_of_pos (by simpa using h13), List.append_assoc]
        rfl
      · simp [ht, Ne.symm h10]

/-- The stream of an accepted request: the request line, and then headers. -/
structure RequestLine (s rest method url ver : Bytes) (headers : List (Bytes × Bytes)) : Prop where
  line : ∃ l hs, s = method ++ 32 :: url ++ 32 :: l ++ 10 :: hs ∧ ver = l.filter (· ≠ 13) ∧
    headerLines (hs.length + 1) hs = some (headers, rest)
  method : (32 : UInt8) ∉ method
  url : (32 : UInt8) ∉ url

theorem parsereq_requestLine {inb inb' : Bufio} {req : Hthead} (hr : inb.ROk)
    (h : parsereq inb = (some req, inb')) :
    ∃ headers, RequestLine inb.unread inb'.unread req.method req.url req.ver headers ∧
      req.headers = headers.filter fun x => !hasPrefixCase xash x.1 := by
  have hg := biogetc_isReader inb
  have h0 : ∃ t, inb.Reads t inb := ⟨[], .refl hr⟩
  obtain ⟨method, inb₁, hm, h⟩ := andThen_eq_some h
  obtain ⟨url, inb₂, hu, h⟩ := andThen_eq_some h
  obtain ⟨ver, inb₃, hv, h⟩ := andThen_eq_some h
  obtain ⟨head, inb₄, hh, h⟩ := andThen_eq_some h
  cases h
  have h1 : ∃ t, inb.Reads t inb₁ := (scan_getcList hg h0 hm).2
  have h2 : ∃ t, inb.Reads t inb₂ := (scan_getcList hg h1 hu).2
  have h3 : ∃ t, inb.Reads t inb₃ := (scan_getcList hg h2 hv).2
  obtain ⟨method, rfl, em, hm⟩ := scanList_wordStep (scan_eq_some hg h0 hm)
  obtain ⟨url, rfl, eu, hu⟩ := scanList_wordStep (scan_eq_some hg h1 hu)
  obtain ⟨l, rfl, ev, -⟩ := scanList_lineStep (scan_eq_some hg h2 hv)
  have hhs := scan_eq_some hg h3 hh
  rw [scanList_headerStep (inb₃.unread.length + 1) _ _ _ (Nat.lt_succ_self _)] at hhs
  cases hl : headerLines (inb₃.unread.length + 1) inb₃.unread with
  | none => rw [hl] at hhs; cases hhs
  | some r =>
    obtain ⟨headers, rest⟩ := r
    rw [hl] at hhs
    simp only at hhs
    split_ifs at hhs
    cases hhs
    refine ⟨headers, ⟨⟨l, inb₃.unread, ?_, rfl, hl⟩, hm, hu⟩, rfl⟩
    show inb.unread = _
    rw [em, eu, ev]
    simp [mkreq, trimx]

/-! ## `canonreq` -/

/-- An absolute `http` or `https` URL. -/
structure Absolute (url host path : Bytes) : Prop where
  form : ∃ scheme, url = scheme ++ bytes "://" ++ host ++ path ∧
    (strcaseeq scheme (bytes "http") = true ∨ strcaseeq scheme (bytes "https") = true)
  host : (47 : UInt8) ∉ host
  path : path = [] ∨ path.head? = some 47

/-- A request as `canonreq` leaves it, of a URL and headers as the client sent them. -/
structure Canonical (url : Bytes) (headers : List (Bytes × Bytes)) (r : Hthead) : Prop where
  slash : r.url.head? = some 47
  rest : r.rest = (r.url.drop 1).takeWhile (· ≠ 63)
  relative : (¬∃ host path, Absolute url host path) → r.url = url ∧ r.headers = headers
  absolute : ∀ host path, Absolute url host path →
    r.url = (if path = [] then bytes "/" else path) ∧
      r.headers = headers ++ [(bytes "Host", host)]

theorem fold_eq_cons {s p : Bytes} (h : fold s = fold p) {c : UInt8} (hc : c ∈ s) :
    tolower c ∈ fold p := by
  rw [← h]
  exact List.mem_map_of_mem hc

/-- The scheme ends before the first colon. -/
theorem scheme_colon {scheme : Bytes}
    (h : strcaseeq scheme (bytes "http") = true ∨ strcaseeq scheme (bytes "https") = true) :
    (58 : UInt8) ∉ scheme ∧ scheme.head? ≠ some 47 := by
  have hne : ∀ c : UInt8, tolower c = c → c ∉ fold (bytes "https") → c ∉ scheme := by
    intro c hlow hc hmem
    apply hc
    rcases h with h | h
    · have := fold_eq_cons (strcaseeq_iff.mp h) hmem
      rw [hlow] at this
      exact (show fold (bytes "http") ⊆ fold (bytes "https") by decide) this
    · have := fold_eq_cons (strcaseeq_iff.mp h) hmem
      rwa [hlow] at this
  refine ⟨hne 58 (by decide) (by decide), fun h47 => ?_⟩
  exact hne 47 (by decide) (by decide) (List.mem_of_head? h47)

theorem strstr_eq_some {needle s : Bytes} {r : Bytes × Bytes} (h : strstr needle s = some r) :
    s = r.1 ++ r.2 ∧ needle <+: r.2 := by
  induction s generalizing r with
  | nil => simp [strstr] at h
  | cons c s ih =>
    rw [strstr] at h
    split_ifs at h with hp
    · cases h
      exact ⟨rfl, List.isPrefixOf_iff_prefix.mp hp⟩
    · obtain ⟨r', hr', rfl⟩ := Option.map_eq_some_iff.mp h
      obtain ⟨rfl, hpre⟩ := ih hr'
      exact ⟨rfl, hpre⟩

/-- There is no match before the first byte of what is looked for. -/
theorem strstr_append {c : UInt8} {needle a : Bytes} (h : c ∉ a) (t : Bytes) :
    strstr (c :: needle) (a ++ (c :: needle ++ t)) = some (a, c :: needle ++ t) := by
  induction a with
  | nil =>
    rw [List.nil_append, List.cons_append, strstr, if_pos]
    rw [List.isPrefixOf_iff_prefix, ← List.cons_append]
    exact List.prefix_append _ _
  | cons x a ih =>
    simp only [List.mem_cons, not_or] at h
    have hne : ¬ (c :: needle).isPrefixOf (x :: (a ++ (c :: needle ++ t))) = true := by
      rw [List.isPrefixOf_iff_prefix, List.cons_prefix_cons]
      exact fun h0 => h.1 h0.1
    rw [List.cons_append, strstr, if_neg hne, ih h.2]
    rfl

theorem Absolute.not_slash {url host path : Bytes} (h : Absolute url host path) :
    url.head? ≠ some 47 := by
  obtain ⟨scheme, rfl, hs⟩ := h.form
  cases scheme with
  | nil => exact absurd hs (by decide)
  | cons c scheme => exact (scheme_colon hs).2

/-- `strstr` finds the end of the scheme, and `strchr` the end of the host. -/
theorem Absolute.split {url host path : Bytes} (h : Absolute url host path) :
    ∃ scheme, strstr (bytes "://") url = some (scheme, bytes "://" ++ (host ++ path)) ∧
      (host ++ path).takeWhile (· ≠ 47) = host ∧ (host ++ path).dropWhile (· ≠ 47) = path := by
  obtain ⟨scheme, rfl, hs⟩ := h.form
  refine ⟨scheme, ?_, ?_⟩
  · rw [List.append_assoc, List.append_assoc]
    exact strstr_append (scheme_colon hs).1 (host ++ path)
  · obtain hp | hp := h.path
    · subst hp
      have hall : ∀ c ∈ host, decide (c ≠ 47) = true := by
        intro c hc
        simpa using fun h0 : c = 47 => h.host (h0 ▸ hc)
      rw [List.append_nil]
      exact ⟨List.takeWhile_eq_self_iff.mpr hall, List.dropWhile_eq_nil_iff.mpr hall⟩
    · obtain ⟨p, rfl⟩ : ∃ p, path = 47 :: p := by
        cases path with
        | nil => cases hp
        | cons c p => cases hp; exact ⟨p, rfl⟩
      exact Message.split_write h.host p

/-- What the URL is cut into is an absolute URL. -/
theorem absolute_of_strstr {url scheme p : Bytes} (h : strstr (bytes "://") url = some (scheme, p))
    (hs : strcaseeq scheme (bytes "http") = true ∨ strcaseeq scheme (bytes "https") = true) :
    Absolute url ((p.drop 3).takeWhile (· ≠ 47)) ((p.drop 3).dropWhile (· ≠ 47)) := by
  obtain ⟨rfl, t, rfl⟩ := strstr_eq_some h
  have hdrop : (bytes "://" ++ t).drop 3 = t := rfl
  simp only at hs ⊢
  rw [hdrop]
  refine ⟨⟨scheme, ?_, hs⟩, ?_, ?_⟩
  · rw [List.append_assoc _ (t.takeWhile _), List.takeWhile_append_dropWhile, List.append_assoc]
  · intro h47
    have := List.mem_takeWhile_imp h47
    simp at this
  · cases hd : t.dropWhile (· ≠ 47) with
    | nil => exact .inl rfl
    | cons c q =>
      have := List.head_dropWhile_not (fun x : UInt8 => decide (x ≠ 47))
        (show t.dropWhile (· ≠ 47) ≠ [] by rw [hd]; exact List.cons_ne_nil c q)
      simp only [hd, List.head_cons] at this
      exact .inr (by simpa using this)

theorem canonreq_canonical {req r : Hthead} (h : canonreq req = some r) :
    Canonical req.url req.headers r ∧ r.method = req.method ∧ r.ver = req.ver := by
  unfold canonreq at h
  by_cases hslash : req.url.head? = some 47
  · rw [if_pos hslash] at h
    cases h
    have hrest : (restFromUrl req).rest = (req.url.drop 1).takeWhile (· ≠ 63) := by
      rw [List.drop_one]
      rfl
    refine ⟨⟨hslash, hrest, fun _ => ⟨rfl, rfl⟩, ?_⟩, rfl, rfl⟩
    intro host path habs
    exact absurd hslash habs.not_slash
  rw [if_neg hslash] at h
  cases hs : strstr (bytes "://") req.url with
  | none => rw [hs] at h; cases h
  | some sp =>
    obtain ⟨scheme, p⟩ := sp
    rw [hs] at h
    simp only at h
    split_ifs at h with hscheme hhost
    have habs := absolute_of_strstr hs hscheme
    -- the host and the path are those of any way to read the URL
    have huniq : ∀ host path, Absolute req.url host path →
        (p.drop 3).takeWhile (· ≠ 47) = host ∧ (p.drop 3).dropWhile (· ≠ 47) = path := by
      intro host path h'
      obtain ⟨scheme', hs', hcut⟩ := h'.split
      rw [hs] at hs'
      cases hs'
      exact hcut
    cases hpath : (p.drop 3).dropWhile (· ≠ 47) with
    | nil =>
      rw [hpath] at h
      cases h
      refine ⟨⟨rfl, rfl, fun hn => absurd ⟨_, _, habs⟩ hn, ?_⟩, rfl, rfl⟩
      intro host path h'
      obtain ⟨rfl, h2⟩ := huniq host path h'
      rw [hpath] at h2
      subst h2
      exact ⟨rfl, rfl⟩
    | cons c q =>
      rw [hpath] at h habs
      cases h
      have hc : (c :: q).head? = some 47 := by
        obtain h0 | h0 := habs.path
        · cases h0
        · exact h0
      refine ⟨⟨hc, rfl, fun hn => absurd ⟨_, _, habs⟩ hn, ?_⟩, rfl, rfl⟩
      intro host path h'
      obtain ⟨rfl, h2⟩ := huniq host path h'
      rw [hpath] at h2
      subst h2
      exact ⟨rfl, rfl⟩

/-- What a handler sees of a request that `parsereq` and `canonreq` accept. -/
theorem request_seen (inb inb' : Bufio) (req r : Hthead) (hr : inb.ROk)
    (hp : parsereq inb = (some req, inb')) (hc : canonreq req = some r) :
    ∃ url headers, RequestLine inb.unread inb'.unread r.method url r.ver headers ∧
      Canonical url (headers.filter fun x => !hasPrefixCase xash x.1) r := by
  obtain ⟨headers, hline, hh⟩ := parsereq_requestLine hr hp
  obtain ⟨hcan, hm, hv⟩ := canonreq_canonical hc
  rw [hh] at hcan
  rw [← hm, ← hv] at hline
  exact ⟨req.url, headers, hline, hcan⟩

/-- An absolute URL, and a header that a client must not send. -/
def absoluteClient : Bufio :=
  bioopen { avail := bytes "GET http://h/a?b HTTP/1.1\r\nX-ASH-File: /b\r\nB: 2\r\n\r\n" } {}

theorem request_seen_absolute :
    ∃ req r, parsereq absoluteClient = (some req, (parsereq absoluteClient).2) ∧
      canonreq req = some r ∧ r.url = bytes "/a?b" ∧ r.rest = bytes "a" ∧
      r.headers = [(bytes "B", bytes "2"), (bytes "Host", bytes "h")] ∧
      ∃ url headers, RequestLine absoluteClient.unread (parsereq absoluteClient).2.unread r.method
          url r.ver headers ∧
        Canonical url (headers.filter fun x => !hasPrefixCase xash x.1) r := by
  let req : Hthead := { mkreq (bytes "GET") (bytes "http://h/a?b") (bytes "HTTP/1.1") with
    headers := [(bytes "B", bytes "2")] }
  have hp : parsereq absoluteClient = (some req, (parsereq absoluteClient).2) :=
    Prod.ext (by decide +kernel) rfl
  have hc : canonreq req = some { req with
      url := bytes "/a?b", rest := bytes "a",
      headers := [(bytes "B", bytes "2"), (bytes "Host", bytes "h")] } := by decide +kernel
  exact ⟨req, _, hp, hc, rfl, rfl, rfl,
    request_seen absoluteClient _ req _ (bioopen_rok _ (by decide) _) hp hc⟩

end Ashd
