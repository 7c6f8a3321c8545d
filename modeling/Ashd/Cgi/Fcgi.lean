import Ashd.Cgi.Params

/-!
# The streams of a FastCGI request

What `serve` of src/callfcgi.c sends: the record that begins the request, the parameters, and
the body, which is read in parts of 8192 bytes. The end of the body is seen when there is less
to read than that, and what was read is sent as records even if it is nothing at all.

Main results:
* `sendbody_spec`: the records of a body.
* `sendreq_ended_iff`: for which bodies the stream is ended once.
-/

namespace Ashd.Cgi.Fcgi

/-! ## Model -/

/-- A stream that is read from: what is in its buffer, what is still to arrive, piece by piece, and
    whether the end was seen. -/
structure Instream where
  left : Bytes := []
  pieces : List Bytes
  eof : Bool := false

/-- Reading pieces until there are `n` bytes, or no more to come. -/
def fill (n : ℕ) : Bytes → List Bytes → Bytes × List Bytes
  | left, [] => (left, [])
  | left, piece :: pieces =>
    if n ≤ left.length then (left, piece :: pieces) else fill n (left ++ piece) pieces

/-- `fread(buf, 1, n, is)`, without errors. -/
def fread (n : ℕ) (is : Instream) : Bytes × Instream :=
  let (left, pieces) := fill n is.left is.pieces
  (left.take n, ⟨left.drop n, pieces, is.eof || left.length < n⟩)

/-- `if(…) goto out;`, and what comes after it. -/
def orOut (r : ℤ × File) (k : File → Bool × File) : Bool × File :=
  if r.1 = 0 then k r.2 else (false, r.2)

/-- The loop over the body (src/callfcgi.c:715–721), of at most `fuel` rounds. -/
def sendbody : ℕ → Instream → File → Bool × File
  | 0, _, os => (false, os)
  | fuel + 1, is, os =>
    if is.eof then (true, os)
    else
      let (buf, is) := fread 8192 is
      orOut (sendrec os 5 1 buf) fun os => sendbody fuel is os

/-- `begreq` (src/callfcgi.c:604–609). -/
def begreq (out : File) (rid : ℕ) : ℤ × File := sendrec out 1 rid [0, 1, 0, 0, 0, 0, 0, 0]

/-- What `serve` sends (src/callfcgi.c:703–725), and whether it gets to the end. -/
def sendreq (cwd : Bytes) (req : Hthead) (is : Instream) (os : File) : Bool × File :=
  let head := Params.mkcgienv cwd req {}
  orOut (begreq os 1) fun os =>
  orOut (sendrec os 4 1 (head.window 0)) fun os =>
  orOut (sendrec os 4 1 []) fun os =>
  match sendbody (is.left.length + is.pieces.flatten.length + 2) is os with
  | (false, os) => (false, os)
  | (true, os) => orOut (sendrec os 5 1 []) fun os => (true, os)

/-! ## Specification -/

/-- All records of an input. -/
def readrecs : ℕ → Bytes → Option (List Record)
  | _, [] => some []
  | 0, _ :: _ => none
  | n + 1, c :: inp =>
    match recvrec (c :: inp) with
    | (none, _) => none
    | (some r, inp) => (readrecs n inp).map (r :: ·)

/-- The stream of a type: records that are not empty and have the data in them, and one that is. -/
def EndedOnce (type : ℕ) (data : Bytes) (rs : List Record) : Prop :=
  ∃ parts last, rs.filter (fun r => r.type = type) = parts ++ [last] ∧
    (∀ r ∈ parts, r.payload ≠ []) ∧ parts.flatMap Record.payload = data ∧ last.payload = []

/-- What is sent for a request, on a stream that does not fail, has the parameters and the body as
    streams that are ended once. -/
def Proper (cwd : Bytes) (req : Hthead) (pieces : List Bytes) : Prop :=
  ∃ enc rs, sendreq cwd req { pieces := pieces } {} = (true, { written := enc }) ∧
    readrecs enc.length enc = some rs ∧ EndedOnce 4 ((Params.mkcgienv cwd req {}).window 0) rs ∧
    EndedOnce 5 pieces.flatten rs

/-! ## Reading -/

theorem fill_eq (n : ℕ) (pieces : List Bytes) : ∀ left : Bytes,
    (fill n left pieces).1 ++ (fill n left pieces).2.flatten = left ++ pieces.flatten ∧
      ((fill n left pieces).1.length < n → (fill n left pieces).2 = []) := by
  induction pieces with
  | nil => exact fun left => ⟨rfl, fun _ => rfl⟩
  | cons piece pieces ih =>
    intro left
    rw [fill]
    split_ifs with hn
    · exact ⟨rfl, fun h => absurd hn (not_le.mpr h)⟩
    · obtain ⟨happ, hend⟩ := ih (left ++ piece)
      exact ⟨by rw [happ, List.flatten_cons, List.append_assoc], hend⟩

/-- What is still to be read. -/
def Instream.rest (is : Instream) : Bytes := is.left ++ is.pieces.flatten

/-- It does not matter in which pieces the bytes arrive. -/
theorem fread_spec (n : ℕ) (is : Instream) :
    (fread n is).1 = is.rest.take n ∧ (fread n is).2.rest = is.rest.drop n ∧
      (fread n is).2.eof = (is.eof || decide (is.rest.length < n)) := by
  obtain ⟨happ, hend⟩ := fill_eq n is.pieces is.left
  unfold fread Instream.rest
  generalize fill n is.left is.pieces = lp at happ hend
  obtain ⟨left, pieces⟩ := lp
  simp only at happ hend ⊢
  rw [← happ]
  by_cases hn : left.length < n
  · simp [hend hn]
  · have hle : n ≤ left.length := not_lt.mp hn
    refine ⟨(List.take_append_of_le_length hle).symm, (List.drop_append_of_le_length hle).symm, ?_⟩
    rw [List.length_append, decide_eq_false hn, decide_eq_false (by omega)]

/-! ## Sending -/

/-- `sendrec` on a stream that does not fail. -/
theorem sendrec_fragments (type rid : ℕ) (data : Bytes) : ∃ fs, Fragments data fs ∧
    ∀ w, sendrec { written := w } type rid data =
      (0, { written := w ++ fs.flatMap (recBytes type rid) }) := by
  obtain ⟨fs, hfs, hloop⟩ := sendrecLoop_fragments type rid data (data.length + 1) 0 (by omega)
  refine ⟨fs, hfs, fun w => ?_⟩
  rw [sendrec, hloop, fputs_ok _ rfl]
  rfl

/-- Nothing is sent as one empty record. -/
theorem fragments_nil {fs : List Bytes} (h : Fragments [] fs) : fs = [[]] := by
  obtain ⟨f, rfl⟩ := List.length_eq_one_iff.mp (h.one rfl)
  have := h.flatten
  simp only [List.flatten_cons, List.flatten_nil, List.append_nil] at this
  rw [this]

/-- Something is sent as records that are not empty. -/
theorem fragments_ne_nil {data : Bytes} {fs : List Bytes} (h : Fragments data fs)
    (hd : data ≠ []) : ∀ f ∈ fs, f ≠ [] :=
  fun f hf h0 => hd (h.ne f hf h0)

/-- The records of a body. One of them is empty if the body can be read in full parts, since the
    end is then seen when there is nothing left to read. -/
theorem sendbody_spec : ∀ (fuel : ℕ) (is : Instream), is.eof = false → is.rest.length + 1 < fuel →
    ∃ fs : List Bytes, fs.flatten = is.rest ∧ (∀ f ∈ fs, f.length ≤ 65535) ∧
      ((∀ f ∈ fs, f ≠ []) ↔ ¬ 8192 ∣ is.rest.length) ∧
      ∀ w, sendbody fuel is { written := w } =
        (true, { written := w ++ fs.flatMap (recBytes 5 1) }) := by
  intro fuel
  induction fuel with
  | zero => intro is _ h; omega
  | succ fuel ih =>
    intro is heof hf
    obtain ⟨hbuf, hrest, heof'⟩ := fread_spec 8192 is
    obtain ⟨fs, hfs, hsend⟩ := sendrec_fragments 5 1 (fread 8192 is).1
    rw [hbuf] at hfs
    by_cases hlong : 8192 ≤ is.rest.length
    · rw [heof, decide_eq_false (by omega), Bool.or_self] at heof'
      have hlen : (is.rest.take 8192).length = 8192 := by rw [List.length_take]; omega
      have hne := fragments_ne_nil hfs (List.ne_nil_of_length_pos (by omega))
      obtain ⟨fs', hflat, hle, hall, hloop⟩ := ih (fread 8192 is).2 heof'
        (by rw [hrest, List.length_drop]; omega)
      have hdvd : 8192 ∣ is.rest.length - 8192 ↔ 8192 ∣ is.rest.length := by omega
      rw [hrest, List.length_drop, hdvd] at hall
      refine ⟨fs ++ fs', ?_, ?_, ?_, fun w => ?_⟩
      · rw [List.flatten_append, hfs.flatten, hflat, hrest, List.take_append_drop]
      · intro f hf
        rcases List.mem_append.mp hf with hf | hf
        · exact hfs.length_le f hf
        · exact hle f hf
      · rw [← hall, List.forall_mem_append]
        exact and_iff_right hne
      · rw [sendbody, heof, if_neg (by simp)]
        simp only [hsend, orOut, hloop, if_true, List.flatMap_append, List.append_assoc]
    · rw [heof, decide_eq_true (by omega), Bool.false_or] at heof'
      obtain ⟨fuel, rfl⟩ := Nat.exists_eq_succ_of_ne_zero (by omega : fuel ≠ 0)
      rw [List.take_of_length_le (by omega)] at hfs
      refine ⟨fs, hfs.flatten, hfs.length_le, ?_, fun w => ?_⟩
      · by_cases h0 : is.rest = []
        · rw [h0] at hfs ⊢
          simp [fragments_nil hfs]
        · have hpos := List.length_pos_of_ne_nil h0
          exact iff_of_true (fragments_ne_nil hfs h0) (by omega)
      · rw [sendbody, heof, if_neg (by simp)]
        simp only [hsend, orOut, if_true, sendbody, heof']

/-! ## The records of a request -/

/-- Records, by their types and their data. -/
def records (segs : List (ℕ × Bytes)) : List Record := segs.map fun s => recOf s.1 1 s.2

/-- The bytes of records. -/
def wire (segs : List (ℕ × Bytes)) : Bytes := segs.flatMap fun s => recBytes s.1 1 s.2

theorem wire_cons (s : ℕ × Bytes) (segs : List (ℕ × Bytes)) :
    wire (s :: segs) = recBytes s.1 1 s.2 ++ wire segs :=
  List.flatMap_cons

/-- They are read off what is written. -/
theorem readrecs_wire {segs : List (ℕ × Bytes)}
    (h : ∀ s ∈ segs, s.1 < 256 ∧ s.2.length ≤ 65535) :
    ∀ n, (wire segs).length ≤ n → readrecs n (wire segs) = some (records segs) := by
  induction segs with
  | nil => intro n _; cases n <;> rfl
  | cons s segs ih =>
    intro n hn
    obtain ⟨hs, hsegs⟩ := List.forall_mem_cons.mp h
    have hrec := recvrec_recBytes hs.1 (by omega : 1 < 65536) hs.2
      (wire segs)
    rw [wire_cons, List.length_append] at hn
    obtain ⟨c, l, hcl⟩ : ∃ c l, recBytes s.1 1 s.2 = c :: l := ⟨_, _, rfl⟩
    rw [hcl, List.length_cons] at hn
    obtain ⟨n, rfl⟩ := Nat.exists_eq_succ_of_ne_zero (by omega : n ≠ 0)
    rw [wire_cons]
    rw [hcl, List.cons_append] at hrec ⊢
    rw [readrecs, hrec]
    simp only
    rw [ih hsegs n (by omega)]
    rfl

/-- A stream that is sent as the records of its data and an empty one is ended once if there is no
    empty one among the others. -/
theorem ended_iff {type : ℕ} {data : Bytes} {segs : List (ℕ × Bytes)} {fs : List Bytes}
    (h : segs.filter (fun s => s.1 = type) = (fs ++ [[]]).map (type, ·))
    (hdata : fs.flatten = data) :
    EndedOnce type data (records segs) ↔ ∀ f ∈ fs, f ≠ [] := by
  have hfilter : (records segs).filter (fun r => r.type = type) =
      fs.map (recOf type 1) ++ [recOf type 1 []] := by
    rw [records, List.filter_map]
    have : ((fun r : Record => decide (r.type = type)) ∘ fun s : ℕ × Bytes => recOf s.1 1 s.2) =
        fun s => decide (s.1 = type) := rfl
    rw [this, h, List.map_map, List.map_append]
    rfl
  unfold EndedOnce
  rw [hfilter]
  constructor
  · rintro ⟨parts, last, heq, hne, -, -⟩ f hf
    obtain ⟨rfl, -⟩ := List.append_inj' heq rfl
    have := hne (recOf type 1 f) (List.mem_map_of_mem hf)
    rwa [payload_recOf] at this
  · intro hne
    refine ⟨_, _, rfl, ?_, ?_, payload_recOf type 1 []⟩
    · intro r hr
      obtain ⟨f, hf, rfl⟩ := List.mem_map.mp hr
      rw [payload_recOf]
      exact hne f hf
    · rw [List.flatMap_map, ← hdata]
      simp only [payload_recOf]
      exact List.flatMap_id'

/-- There are always parameters. -/
theorem mkcgienv_ne_nil (cwd : Bytes) (req : Hthead) :
    (Params.mkcgienv cwd req {}).window 0 ≠ [] := by
  rw [Params.window_mkcgienv, fcgienv, cgienv]
  intro h
  rw [List.flatMap_eq_nil_iff] at h
  exact Params.pairBytes_ne_nil _ (h (.fmt (bytes "GATEWAY_INTERFACE") (bytes "CGI/1.1")) (by simp))

/-- The records of a request: its begin, its parameters and its body. -/
def segments (begs params body : List Bytes) : List (ℕ × Bytes) :=
  begs.map (1, ·) ++ ((params ++ [[]]).map (4, ·) ++ (body ++ [[]]).map (5, ·))

theorem filter_map_type (type type' : ℕ) (fs : List Bytes) :
    (fs.map (type, ·)).filter (fun s => s.1 = type') =
      if type = type' then fs.map (type, ·) else [] := by
  split_ifs with h
  · rw [List.filter_eq_self]
    simp [h]
  · rw [List.filter_eq_nil_iff]
    simp [h]

theorem segments_fit {begs params body : List Bytes}
    (h : ∀ f ∈ begs ++ params ++ body, f.length ≤ 65535) {s : ℕ × Bytes}
    (hs : s ∈ segments begs params body) : s.1 < 256 ∧ s.2.length ≤ 65535 := by
  simp only [segments, List.mem_append, List.mem_map] at hs h
  have hempty : ∀ f ∈ [([] : Bytes)], f.length ≤ 65535 := by simp
  rcases hs with ⟨f, hf, rfl⟩ | ⟨f, hf | hf, rfl⟩ | ⟨f, hf | hf, rfl⟩
  · exact ⟨by simp, h f (.inl (.inl hf))⟩
  · exact ⟨by simp, h f (.inl (.inr hf))⟩
  · exact ⟨by simp, hempty f hf⟩
  · exact ⟨by simp, h f (.inr hf)⟩
  · exact ⟨by simp, hempty f hf⟩

/-- What is sent for a request. -/
theorem sendreq_segments (cwd : Bytes) (req : Hthead) (pieces : List Bytes) :
    ∃ begs params body : List Bytes,
      sendreq cwd req { pieces := pieces } {} =
        (true, { written := wire (segments begs params body) }) ∧
      (∀ f ∈ begs ++ params ++ body, f.length ≤ 65535) ∧
      params.flatten = (Params.mkcgienv cwd req {}).window 0 ∧ (∀ f ∈ params, f ≠ []) ∧
      body.flatten = pieces.flatten ∧ ((∀ f ∈ body, f ≠ []) ↔ ¬ 8192 ∣ pieces.flatten.length) := by
  obtain ⟨begs, hbegs, hbeg⟩ := sendrec_fragments 1 1 [0, 1, 0, 0, 0, 0, 0, 0]
  obtain ⟨params, hparams, hparam⟩ := sendrec_fragments 4 1 ((Params.mkcgienv cwd req {}).window 0)
  obtain ⟨e₄, he₄, hend₄⟩ := sendrec_fragments 4 1 []
  obtain ⟨e₅, he₅, hend₅⟩ := sendrec_fragments 5 1 []
  obtain ⟨body, hbody, hle, hne, hsend⟩ :=
    sendbody_spec (pieces.flatten.length + 2) { pieces := pieces } rfl (by simp [Instream.rest])
  rw [fragments_nil he₄] at hend₄
  rw [fragments_nil he₅] at hend₅
  refine ⟨begs, params, body, ?_, ?_, hparams.flatten,
    fragments_ne_nil hparams (mkcgienv_ne_nil cwd req), hbody, hne⟩
  · have hfuel : ([] : Bytes).length + pieces.flatten.length + 2 =
        pieces.flatten.length + 2 := by simp
    unfold sendreq begreq
    simp only [hfuel, hbeg, hparam, hend₄, hend₅, hsend, orOut, if_true]
    simp [wire, segments, List.flatMap_map]
  · intro f hf
    rcases List.mem_append.mp hf with hf | hf
    · rcases List.mem_append.mp hf with hf | hf
      · exact hbegs.length_le f hf
      · exact hparams.length_le f hf
    · exact hle f hf

/-- The streams of a request are ended once each if no record of the body is empty. -/
theorem proper_iff (cwd : Bytes) (req : Hthead) (pieces : List Bytes) : ∃ body : List Bytes,
    (Proper cwd req pieces ↔ ∀ f ∈ body, f ≠ []) ∧
      ((∀ f ∈ body, f ≠ []) ↔ ¬ 8192 ∣ pieces.flatten.length) := by
  obtain ⟨begs, params, body, hsend, hle, hparams, hpne, hbody, hbne⟩ :=
    sendreq_segments cwd req pieces
  refine ⟨body, ?_, hbne⟩
  have hread : readrecs _ (wire (segments begs params body)) = _ :=
    readrecs_wire (fun s hs => segments_fit hle hs) _ le_rfl
  have h4 : EndedOnce 4 _ (records (segments begs params body)) :=
    (ended_iff (by simp [segments, filter_map_type]) hparams).mpr hpne
  have h5 : EndedOnce 5 _ (records (segments begs params body)) ↔ _ :=
    ended_iff (by simp [segments, filter_map_type]) hbody
  rw [← h5]
  constructor
  · rintro ⟨enc, rs, hsend', hread', -, h⟩
    rw [hsend] at hsend'
    cases hsend'
    rw [hread] at hread'
    cases hread'
    exact h
  · exact fun h => ⟨_, _, hsend, hread, h4, h⟩

/-- The streams of a request are ended once each iff the length of the body is not a multiple of
    8192: else the last part that is read is empty, and is sent before the end. -/
theorem sendreq_ended_iff (cwd : Bytes) (req : Hthead) (pieces : List Bytes) :
    Proper cwd req pieces ↔ ¬ 8192 ∣ pieces.flatten.length := by
  obtain ⟨body, hproper, hbody⟩ := proper_iff cwd req pieces
  exact hproper.trans hbody

/-- The stream of an empty body is ended twice. -/
theorem sendreq_empty : ¬ Proper (bytes "/") {} [] := by
  obtain ⟨body, hproper, hbody⟩ := proper_iff (bytes "/") {} []
  rw [hproper, hbody]
  simp

end Ashd.Cgi.Fcgi
