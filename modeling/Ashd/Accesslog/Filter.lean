import Ashd.Accesslog.Log
import Ashd.Htparser.Copy
import Ashd.Lib.ReqRewrite

/-!
# `filterreq` of `src/accesslog.c`

With `-e`, `accesslog` stands between a client and its child: it passes on the request body, reads
the head of the response, and writes it again before the response body.

Main results:
* `filterreq_stream`: what the client gets.
* `filterreq_transparent`: it is accepted as the response that the child sent exactly if its
  header is not too long now.
* `filtered_long`: a header of one line that is.
-/

namespace Ashd.Accesslog

open Message (CRLF)

/-- `passdata` (src/accesslog.c:229–248), which has no maximum: the total, with `none` for -1, and
    the new states of `in` and `out`. -/
def passdata (inb out : Bufio) : Option ℤ × Bufio × Bufio :=
  match Ashd.passdata inb out (-1) with
  | (ret, inb, out) => (if ret < 0 then none else some ret, inb, out)

/-- `filterreq` up to `out` (src/accesslog.c:262–291), with whether `socketpair` and `sendreq`
    succeed, and the times that `gettimeofday` gives: the data to log, and the new states of `cl`
    and `hd`. -/
def filterreqTo (socketpair sendreq : Bool) (start stop : Timeval) (req : Hthead) (cl hd : Bufio) :
    Logdata × Bufio × Bufio :=
  let data : Logdata := { req := req, start := start }
  if socketpair && sendreq then
    match passdata cl hd with
    | (none, cl, hd) => (data, cl, hd)
    | (some bytesin, cl, hd) =>
      let data := { data with bytesin := bytesin }
      match bioflush hd with
      | (ret, hd) =>
        if ret ≠ 0 then (data, cl, hd)
        else
          match parseresponseb hd with
          | (none, hd) => (data, cl, hd)
          | (some resp, hd) =>
            let data := { data with resp := some resp }
            let cl := (writerespb cl resp).2
            let cl := (bioprintf cl 2 CRLF).2
            match passdata hd cl with
            | (none, hd, cl) => (data, cl, hd)
            | (some bytesout, hd, cl) =>
              ({ data with bytesout := bytesout, stop := stop }, cl, hd)
  else (data, cl, hd)

/-- `filterreq` (src/accesslog.c:250–300). In the end, `bioclose` flushes. -/
def filterreq (socketpair sendreq : Bool) (start stop : Timeval) (req : Hthead) (cl hd : Bufio) :
    Logdata × Bufio × Bufio :=
  match filterreqTo socketpair sendreq start stop req cl hd with
  | (data, cl, hd) => (data, (bioflush cl).2, (bioflush hd).2)

/-! ## Connections that do not fail -/

/-- A `bufio` on which no call fails. -/
structure Sound (bio : Bufio) : Prop where
  rok : bio.ROk
  wok : bio.WOk
  src : NoErr bio.src.sched
  snk : NoErr bio.snk.sched

theorem Sound.reads {a b : Bufio} {t : Bytes} (h : Sound a) (hr : a.Reads t b) : Sound b :=
  ⟨hr.ok, hr.wok h.wok, hr.noErr h.src, by rw [hr.wside_eq.2.2.1]; exact h.snk⟩

theorem Sound.writes {a b : Bufio} {t : Bytes} (h : Sound a) (hw : a.Writes t b) : Sound b :=
  ⟨hw.rok h.rok, hw.ok, by rw [hw.rside_eq.2.2.2.1]; exact h.src, hw.noErr h.snk⟩

theorem passdata_sound {inb out : Bufio} (hi : Sound inb) (ho : Sound out) :
    ∃ total inb' out', passdata inb out = (some total, inb', out') ∧ inb.Reads inb.unread inb' ∧
      out.Writes inb.unread out' := by
  obtain ⟨t, ht⟩ := passdata_spec hi.rok ho.wok (-1)
  obtain ⟨-, hne⟩ | ⟨hret, -, hend⟩ := ht.ret
  · exact absurd ⟨hi.src, ho.snk⟩ hne
  · have heof : bioeof (Ashd.passdata inb out (-1)).2.1 = true := by
      obtain heof | hm := hend
      · exact heof
      · rw [hret] at hm
        omega
    have hu : inb.unread = t := by
      rw [ht.reads.unread, unread_of_bioeof ht.reads.ok heof, List.append_nil]
    refine ⟨t.length, _, _, ?_, by rw [hu]; exact ht.reads, by rw [hu]; exact ht.writes⟩
    unfold passdata
    rcases hp : Ashd.passdata inb out (-1) with ⟨ret, inb', out'⟩
    rw [hp] at hret
    simp only at hret ⊢
    rw [if_neg (by omega), hret, zero_add]

/-- Everything that was written is with the other side after a flush. -/
theorem consumed_bioflush {bio : Bufio} (h : Sound bio) : (bioflush bio).2.snk.consumed = bio.written := by
  obtain ⟨hw, hres, -⟩ := bioflush_spec h.wok
  obtain ⟨-, hwh⟩ | ⟨-, hne⟩ := hres
  · have hempty : (bioflush bio).2.wdata = [] := by
      unfold Bufio.wdata Charbuf.window
      rw [hwh, Nat.sub_self]
      exact peek_zero _ _
    have := hw.written
    rwa [Bufio.written, hempty, List.append_nil, List.append_nil] at this
  · exact absurd h.snk hne

/-- The client gets the head of the response as `writerespb` writes it, and its body. -/
theorem filterreq_stream {cl hd : Bufio} (hcl : Sound cl) (hhd : Sound hd) (start stop : Timeval)
    (req : Hthead) {resp : Hthead} {body : Bytes} (h : respList hd.unread = some (resp, body)) :
    (filterreq true true start stop req cl hd).2.1.snk.consumed =
      cl.written ++ (respText resp ++ body) := by
  -- the request body
  obtain ⟨bytesin, cl₁, hd₁, hpass, hr₁, hw₁⟩ := passdata_sound hcl hhd
  have hcl₁ := hcl.reads hr₁
  have hhd₁ := hhd.writes hw₁
  obtain ⟨hw₂, hres, -⟩ := bioflush_spec hhd₁.wok
  rcases hfl : bioflush hd₁ with ⟨ret, hd₂⟩
  rw [hfl] at hw₂ hres
  have hret : ret = 0 := by
    obtain ⟨hret, -⟩ | ⟨-, hne⟩ := hres
    · exact hret
    · exact absurd hhd₁.snk hne
  have hhd₂ := hhd₁.writes hw₂
  -- the response
  have hu : hd₂.unread = hd.unread := by rw [hw₂.unread, hw₁.unread]
  obtain ⟨hd₃, hparse, hbody⟩ := parseresponseb_of_respList hhd₂.rok hhd₂.src (hu ▸ h)
  obtain ⟨t₃, hr₃⟩ : ∃ t, hd₂.Reads t (parseresponseb hd₂).2 :=
    parseresponse_inv (biogetc_isReader hd₂) ⟨[], .refl hhd₂.rok⟩
  rw [hparse] at hr₃
  have hhd₃ := hhd₂.reads hr₃
  obtain ⟨t₄, hw₄, ht₄⟩ := writerespb_spec resp hcl₁.wok
  have hcl₄ := hcl₁.writes hw₄
  obtain ⟨hw₅, hres₅⟩ := bioprintf_spec hcl₄.wok 2 CRLF
  have hcrlf : (bioprintf (writerespb cl₁ resp).2 2 CRLF).1 = 0 := by
    obtain h0 | ⟨-, hne⟩ := hres₅
    · exact h0
    · exact absurd hcl₄.snk hne
  rw [if_pos hcrlf] at hw₅
  have hcl₅ := hcl₄.writes hw₅
  obtain ⟨bytesout, hd₆, cl₆, hpass₆, -, hw₆⟩ := passdata_sound hhd₃ hcl₅
  have hto : filterreqTo true true start stop req cl hd =
      (⟨req, some resp, start, stop, bytesin, bytesout⟩, cl₆, hd₆) := by
    unfold filterreqTo
    simp only [Bool.and_self, if_true, hpass, hfl, hret, ne_eq, not_true_eq_false, if_false, hparse,
      hpass₆]
  unfold filterreq
  rw [hto]
  simp only
  rw [consumed_bioflush (hcl₅.writes hw₆), hw₆.written, hw₅.written, hw₄.written, hr₁.written,
    ht₄ hcl₁.snk, hbody, respText]
  simp only [List.append_assoc]

/-! ## Transparency -/

theorem respList_rewritable {s : Bytes} {resp : Hthead} {body : Bytes} (hnul : NulFree s)
    (h : respList s = some (resp, body)) : Rewritable resp := by
  have hi : (bioopen { avail := s } {}).ROk := bioopen_rok _ (by simp) _
  obtain ⟨inb', hp, -⟩ := (accepts_iff s resp body).mpr h _ hi (by simp [NoErr, bioopen]) rfl
  exact parseresponseb_rewritable hi hnul hp

/-- **`accesslog -e` is transparent, but for one limit.** A response without NUL that is accepted
    from the child goes to the client in a form that is accepted as the same response, with the
    same body after it, if and only if its header is less than 65536 bytes in this form. -/
theorem filterreq_transparent (cl hd : Bufio) (hcl : Sound cl) (hhd : Sound hd)
    (start stop : Timeval) (req resp : Hthead) (body : Bytes) (hnul : NulFree hd.unread)
    (hacc : Accepts hd.unread resp body) :
    ∃ s, (filterreq true true start stop req cl hd).2.1.snk.consumed = cl.written ++ s ∧
      (Accepts s resp body ↔ headerSize resp < 65536) := by
  have h := (accepts_iff _ _ _).mp hacc
  refine ⟨_, filterreq_stream hcl hhd start stop req h, ?_⟩
  rw [accepts_iff, respList_write (respList_rewritable hnul h)]
  split_ifs with hsize
  · exact iff_of_true rfl hsize
  · exact iff_of_false (by simp) hsize

/-- A connection with the given input. -/
def connection (avail : Bytes) : Bufio := bioopen { avail := avail } {}

theorem sound_connection (avail : Bytes) : Sound (connection avail) :=
  ⟨bioopen_rok _ (by simp) _, bioopen_wok _ _, by simp [NoErr, connection, bioopen],
    by simp [NoErr, connection, bioopen]⟩

/-- A short response. -/
def shortResponse : Bytes := bytes "HTTP/1.1 200 OK\na:b\n\nhello"

/-- The response that it is parsed to. -/
def shortResp : Hthead :=
  { mkresp 200 (bytes "OK") (bytes "HTTP/1.1") with headers := [(bytes "a", bytes "b")] }

theorem filtered_short :
    ∃ s, (filterreq true true {} {} {} (connection []) (connection shortResponse)).2.1.snk.consumed =
        (connection []).written ++ s ∧
      (Accepts s shortResp (bytes "hello") ↔ headerSize shortResp < 65536) :=
  filterreq_transparent (connection []) (connection shortResponse) (sound_connection _)
    (sound_connection _) {} {} {} shortResp (bytes "hello") (by decide)
    ((accepts_iff _ _ _).mpr (by decide +kernel))

/-! ## A header that becomes too long -/

/-- A value of 65531 bytes. -/
def longValue : Bytes := List.replicate 65531 120

/-- A response with a header of 65535 bytes. -/
def longResponse : Bytes := bytes "HTTP/1.1 200 OK\n" ++ (97 :: 58 :: longValue ++ 10 :: [10])

/-- The response that it is parsed to. -/
def longResp : Hthead :=
  { mkresp 200 (bytes "OK") (bytes "HTTP/1.1") with headers := [([97], longValue)] }

section Long

variable {v : Bytes}

theorem clean_of_forall (hv : ∀ c ∈ v, c = 120) : Clean v := by
  intro c hc
  rw [hv c hc]
  decide

theorem headerOf_long (hv : ∀ c ∈ v, c = 120) : headerOf (97 :: 58 :: v) = some ([97], v) := by
  have htrim : trim v = v := by
    apply trim_eq_self
    intro c hc
    rw [hv c hc]
    decide
  have htake : (97 :: 58 :: v).takeWhile (· ≠ 58) = [97] := rfl
  have hdrop : (97 :: 58 :: v).dropWhile (· ≠ 58) = 58 :: v := rfl
  unfold headerOf
  rw [htake, hdrop]
  simp only
  rw [htrim, cstr_eq_self (clean_of_forall hv).nulFree]
  rfl

/-- The header is accepted up to its limit. -/
theorem respList_long (hv : ∀ c ∈ v, c = 120) (hlen : v.length = 65531) :
    respList (bytes "HTTP/1.1 200 OK\n" ++ (97 :: 58 :: v ++ 10 :: [10])) =
      some ({ mkresp 200 (bytes "OK") (bytes "HTTP/1.1") with headers := [([97], v)] }, []) := by
  have hl : (10 : UInt8) ∉ 97 :: 58 :: v := by
    have h10 : (10 : UInt8) ∉ v := fun h => (clean_of_forall hv 10 h).2.1 rfl
    simp [h10]
  have hfilter : (97 :: 58 :: v).filter (· ≠ 13) = 97 :: 58 :: v := by
    rw [List.filter_cons_of_pos (by decide), List.filter_cons_of_pos (by decide),
      filter_cr (clean_of_forall hv)]
  have hlines : ∀ fuel, headerLines (fuel + 2) (97 :: 58 :: v ++ 10 :: [10]) =
      some ([([97], v)], []) := by
    intro fuel
    rw [headerLines_line hl, hfilter, if_neg (List.cons_ne_nil _ _), headerOf_long hv]
    rfl
  have hlen : (97 :: 58 :: v ++ 10 :: [10]).length = 65535 := by
    rw [List.length_append, List.length_cons, List.length_cons, hlen]
    rfl
  have hver : scanList verStep [] (bytes "HTTP/1.1 200 OK\n" ++ (97 :: 58 :: v ++ 10 :: [10])) =
      some (bytes "HTTP/1.1", bytes "200 OK\n" ++ (97 :: 58 :: v ++ 10 :: [10])) :=
    scanList_append (show scanList verStep [] (bytes "HTTP/1.1 200 OK\n") = _ by decide) _
  have hcode : scanList codeStep 0 (bytes "200 OK\n" ++ (97 :: 58 :: v ++ 10 :: [10])) =
      some (200, bytes "OK\n" ++ (97 :: 58 :: v ++ 10 :: [10])) :=
    scanList_append (show scanList codeStep 0 (bytes "200 OK\n") = _ by decide) _
  have hmsg : scanList msgStep [] (bytes "OK\n" ++ (97 :: 58 :: v ++ 10 :: [10])) =
      some (bytes "OK", 97 :: 58 :: v ++ 10 :: [10]) :=
    scanList_append (show scanList msgStep [] (bytes "OK\n") = some (bytes "OK", []) by decide) _
  unfold respList
  rw [hver]
  simp only
  rw [hcode]
  simp only
  rw [hmsg]
  simp only
  rw [scanList_headerStep (65534 + 2) _ _ _ (by rw [hlen]; norm_num), hlines]
  simp only [hlen, List.length_nil]
  rfl

theorem nulFree_long (hv : ∀ c ∈ v, c = 120) :
    NulFree (bytes "HTTP/1.1 200 OK\n" ++ (97 :: 58 :: v ++ 10 :: [10])) := by
  have hval : (0 : UInt8) ∉ v := (clean_of_forall hv).nulFree
  have hline : (0 : UInt8) ∉ bytes "HTTP/1.1 200 OK\n" := by decide
  intro h0
  rcases List.mem_append.mp h0 with h0 | h0
  · exact hline h0
  · simp [hval] at h0

theorem headerSize_long (r : Hthead) :
    headerSize { r with headers := [([97], v)] } = v.length + 7 := by
  show (([([97], v)] : List (Bytes × Bytes)).flatMap headerLine ++ CRLF).length = _
  simp [headerLine, CRLF]

end Long

/-- Written again, its header takes 65538 bytes, and is not accepted. -/
theorem filtered_long :
    NulFree longResponse ∧ Accepts longResponse longResp [] ∧
      ∃ s, (filterreq true true {} {} {} (connection []) (connection longResponse)).2.1.snk.consumed = s ∧
        ∀ resp body, ¬ Accepts s resp body := by
  have hv : ∀ c ∈ longValue, c = 120 := fun c hc => (List.mem_replicate.mp hc).2
  have hlen : longValue.length = 65531 := List.length_replicate
  have hnul : NulFree longResponse := nulFree_long hv
  have hresp : respList longResponse = some (longResp, []) := respList_long hv hlen
  have hsize : headerSize longResp = longValue.length + 7 := headerSize_long _
  have hwrite := respList_write (respList_rewritable hnul hresp) []
  rw [hsize, hlen, if_neg (by norm_num)] at hwrite
  refine ⟨hnul, (accepts_iff _ _ _).mpr hresp, _, rfl, ?_⟩
  intro resp body h
  have hs := filterreq_stream (sound_connection []) (sound_connection longResponse) {} {} {} hresp
  rw [hs, accepts_iff] at h
  have hnone : respList ((connection []).written ++ (respText longResp ++ [])) = none := hwrite
  rw [hnone] at h
  cases h

end Ashd.Accesslog
