import Ashd.Sendfile.Persistent

/-!
# When `sendfile` and `psendfile` give the same answer

`psendfile` is to do *the exact same things as sendfile* (doc/psendfile.doc:15–26). Both come to
the same `Decision` on a request, and the answers that follow from it are the same ones, save that
`psendfile` does not say that a part of a compressed file is compressed. `sendfile` moreover ends
without an answer where no file is named, or where a part of the request looks like an option.

Main results:
* `same_iff`: the answers are the same exactly in the other cases.
* `part_unlabelled`: a part of a compressed file, for which they are not.
-/

namespace Ashd.Sendfile

/-! ## Headers as variables -/

theorem envchar_tolower (c : UInt8) :
    (if isalnum (tolower c) then toupper (tolower c) else 95) =
      if isalnum c then toupper c else 95 := by
  have h : ∀ n : Fin 256,
      (if isalnum (tolower (.ofFin n)) then toupper (tolower (.ofFin n)) else 95) =
        if isalnum (.ofFin n) then toupper (.ofFin n) else 95 := by decide +kernel
  exact h c.toFin

/-- The variable of a header does not depend on letter case. -/
theorem envname_eq_of_fold {a b : Bytes} (h : fold a = fold b) : envname a = envname b := by
  have hfold : ∀ s, envname (fold s) = envname s := by
    intro s
    unfold envname fold
    rw [List.map_map]
    apply List.map_congr_left
    intro c _
    exact envchar_tolower c
  rw [← hfold a, h, hfold b]

/-- No header is given twice. -/
def NoneTwice (req : Hthead) : Prop :=
  req.headers.Pairwise fun h h' => strcaseeq h.1 h'.1 = false

/-- The headers that the programs look at. -/
def names : List Bytes :=
  [bytes "X-Ash-File", bytes "X-Ash-Compress", bytes "Accept-Encoding",
    bytes "X-Ash-Content-Type", bytes "If-Modified-Since", bytes "Range"]

/-- A header that gives the variable of one of these is spelled as it is, up to letter case. -/
def Spelled (req : Hthead) : Prop :=
  ∀ n ∈ names, ∀ h ∈ req.headers, envname h.1 = envname n → strcaseeq h.1 n = true

/-- Where at most one element is looked for, it is also the last one. -/
theorem find?_reverse {α : Type*} {p : α → Bool} {xs : List α}
    (h : xs.Pairwise fun a b => ¬ (p a = true ∧ p b = true)) :
    xs.reverse.find? p = xs.find? p := by
  induction xs with
  | nil => rfl
  | cons x xs ih =>
    obtain ⟨hx, hxs⟩ := List.pairwise_cons.mp h
    rw [List.reverse_cons, List.find?_append, ih hxs]
    by_cases hp : p x = true
    · have : xs.find? p = none := by
        rw [List.find?_eq_none]
        exact fun y hy hpy => hx y hy ⟨hp, hpy⟩
      simp [this, hp]
    · simp [hp]

theorem find?_agree {α : Type*} {p q : α → Bool} {xs : List α} (h : ∀ x ∈ xs, p x = q x) :
    xs.find? p = xs.find? q := by
  induction xs with
  | nil => rfl
  | cons x xs ih =>
    rw [List.find?_cons, List.find?_cons, h x (by simp),
      ih fun y hy => h y (List.mem_cons_of_mem _ hy)]

/-- A program that is started for a request finds a header in its environment as `getheader` finds
    it in the request. -/
theorem getenv_eq_getheader {req : Hthead} {env : Env} (argv : List Bytes)
    (henv : ∀ n, env (bytes "REQ_" ++ n) = none) (htwice : NoneTwice req) (hsp : Spelled req)
    {n : Bytes} (hn : n ∈ names) :
    (stdforkserve argv req env).env (bytes "REQ_" ++ envname n) = getheader req n := by
  have hsame : ∀ h ∈ req.headers, (envname h.1 == envname n) = strcaseeq h.1 n := by
    intro h hh
    rw [Bool.eq_iff_iff, beq_iff_eq]
    constructor
    · exact hsp n hn h hh
    · intro hc
      exact envname_eq_of_fold (strcaseeq_iff.mp hc)
  have hone : req.headers.Pairwise fun a b => ¬ (strcaseeq a.1 n = true ∧ strcaseeq b.1 n = true) := by
    refine htwice.imp ?_
    rintro a b hab ⟨ha, hb⟩
    rw [strcaseeq_iff] at ha hb
    rw [strcaseeq_iff.mpr (ha.trans hb.symm)] at hab
    exact absurd hab (by simp)
  rw [stdforkserve_env, henv, Option.or_none]
  unfold lastValue getheader
  rw [← find?_reverse hone]
  congr 1
  apply find?_agree
  intro h hh
  exact hsame h (List.mem_reverse.mp hh)

/-! ## What both programs decide -/

/-- The value of `hdr` that `ccopen` is called with. -/
def accept (req : Hthead) : Option Bytes :=
  match getheader req (bytes "X-Ash-Compress") with
  | some _ => getheader req (bytes "Accept-Encoding")
  | none => some []

/-- What is to be answered: a response, or what `sendrange` writes. -/
inductive Decision where
  | reply (resp : Response)
  | range (sb : File) (contype : Bytes) (enctype : Option Bytes) (spec : Bytes) (head : Bool)

/-- The answer, with `sendrange` of one program or the other. -/
def Decision.answer (sendrange : File → Bytes → Option Bytes → Bytes → Bool → Response) :
    Decision → Response
  | .reply resp => resp
  | .range sb contype enctype spec head => sendrange sb contype enctype spec head

/-- The decision on a request for the file that was named. -/
def decision (w : World) (req : Hthead) (file : Bytes) : Decision :=
  if req.rest ≠ [] then
    .reply (simpleerror 404 (bytes "Not Found")
      (bytes "The requested URL has no corresponding resource."))
  else
    match ccopen w file (accept req) with
    | none =>
      .reply (simpleerror 500 (bytes "Internal Error")
        (bytes "The server could not access its own data."))
    | some (sb, enctype) =>
      match ishead req.method with
      | none =>
        .reply (simpleerror 405 (bytes "Method not allowed")
          (bytes "The requested method is not defined for this resource."))
      | some head =>
        let contype := ckctype w
          ((getheader req (bytes "X-Ash-Content-Type")).getD (getmimetype w file))
        match checkcache w sb (getheader req (bytes "If-Modified-Since")) with
        | some resp => .reply resp
        | none =>
          match getheader req (bytes "Range") with
          | some spec => .range sb contype enctype spec head
          | none => .reply (sendwhole w sb contype enctype head)

theorem passdata_whole (data : Bytes) :
    passdata (data.length + 1) data (-1) = Psendfile.passdata (data.length + 1) data false 0 (-1) := by
  rw [passdata_eq (by omega), Psendfile.passdata_eq (by omega)]
  rfl

/-- A part of a file is passed alike by both loops. -/
theorem passdata_part {fuel : ℕ} {data : Bytes} {len : ℤ} (hfuel : data.length < fuel)
    (hlen : 0 < len) : passdata fuel data len = Psendfile.passdata fuel data false 0 len := by
  rw [passdata_eq hfuel, Psendfile.passdata_eq hfuel, if_pos hlen, if_neg (by omega)]
  congr 1
  omega

theorem sendwhole_eq (w : World) (sb : File) (contype : Bytes) (enctype : Option Bytes)
    (head : Bool) :
    sendwhole w sb contype enctype head = Psendfile.sendwhole w sb contype enctype head := by
  unfold sendwhole Psendfile.sendwhole
  rw [passdata_whole]

theorem checkcache_eq (w : World) (req : Hthead) (sb : File) :
    checkcache w sb (getheader req (bytes "If-Modified-Since")) = Psendfile.checkcache w req sb := rfl

theorem serve_eq {w : World} {req : Hthead} {file : Bytes}
    (hfile : getheader req (bytes "X-Ash-File") = some file) :
    Psendfile.serve w req = (decision w req file).answer (Psendfile.sendrange w) := by
  unfold Psendfile.serve decision
  rw [hfile]
  simp only
  by_cases hrest : req.rest ≠ []
  · rw [if_pos hrest, if_pos hrest]
    rfl
  rw [if_neg hrest, if_neg hrest]
  show (match ccopen w file (accept req) with | none => _ | some (sb, enctype) => _) = _
  rcases ccopen w file (accept req) with _ | ⟨sb, enctype⟩
  · rfl
  simp only
  rcases ishead req.method with _ | head
  · rfl
  simp only [checkcache_eq, sendwhole_eq]
  cases getheader req (bytes "X-Ash-Content-Type") <;> cases Psendfile.checkcache w req sb <;>
    cases getheader req (bytes "Range") <;> rfl

/-- Without options, `sendfile` answers if a file is named. -/
theorem main_eq {w : World} {req : Hthead} {env : Env} (prog : Bytes)
    (henv : ∀ n, env (bytes "REQ_" ++ n) = none) (htwice : NoneTwice req) (hsp : Spelled req)
    (hargs : ∀ a ∈ [req.method, req.url, req.rest], ¬ OptionLike a) :
    main w (stdforkserve [prog] req env) =
      (getheader req (bytes "X-Ash-File")).map fun file =>
        (decision w req file).answer (sendrange w) := by
  have hget : ∀ n ∈ names,
      (stdforkserve [prog] req env).env (bytes "REQ_" ++ envname n) = getheader req n :=
    fun n hn => getenv_eq_getheader [prog] henv htwice hsp hn
  simp only [names, List.forall_mem_cons] at hget
  obtain ⟨hfile, hcomp, hacc, htype, hmod, hrange, -⟩ := hget
  have hopts : getopts ((stdforkserve [prog] req env).args.drop 1) {} =
      some { args := [req.method, req.url, req.rest] } := getopts_plain hargs
  unfold main
  rw [hopts]
  simp only [Option.none_or]
  rw [show bytes "REQ_X_ASH_FILE" = bytes "REQ_" ++ envname (bytes "X-Ash-File") by decide,
    show bytes "REQ_X_ASH_COMPRESS" = bytes "REQ_" ++ envname (bytes "X-Ash-Compress") by decide,
    show bytes "REQ_ACCEPT_ENCODING" = bytes "REQ_" ++ envname (bytes "Accept-Encoding") by decide,
    show bytes "REQ_X_ASH_CONTENT_TYPE" =
      bytes "REQ_" ++ envname (bytes "X-Ash-Content-Type") by decide,
    show bytes "REQ_IF_MODIFIED_SINCE" =
      bytes "REQ_" ++ envname (bytes "If-Modified-Since") by decide,
    show bytes "REQ_RANGE" = bytes "REQ_" ++ envname (bytes "Range") by decide,
    hfile, hcomp, hacc, htype, hmod, hrange]
  cases getheader req (bytes "X-Ash-File") with
  | none => rfl
  | some file =>
    unfold decision
    simp only [true_and, Option.map_some]
    by_cases hrest : req.rest ≠ []
    · rw [if_pos hrest, if_pos hrest]
      rfl
    rw [if_neg hrest, if_neg hrest]
    show (match ccopen w file (accept req) with | none => _ | some (sb, enctype) => _) = _
    rcases ccopen w file (accept req) with _ | ⟨sb, enctype⟩
    · rfl
    simp only
    rcases ishead req.method with _ | head
    · rfl
    cases getheader req (bytes "X-Ash-Content-Type") <;>
      cases checkcache w sb (getheader req (bytes "If-Modified-Since")) <;>
      cases getheader req (bytes "Range") <;> rfl

/-! ## Where the answers differ -/

/-- The same status, the same header fields with the same values, and the same body. -/
def Same (r : Option Response) (r' : Response) : Prop :=
  ∃ resp ∈ r, resp.status = r'.status ∧ resp.headers.Perm r'.headers ∧ resp.body = r'.body

/-- What is asked for is a part of a file that is sent compressed. -/
def PartOfCompressed (w : World) (req : Hthead) (file : Bytes) : Prop :=
  req.rest = [] ∧ (ishead req.method).isSome ∧
    ∃ sb type spec start stop, ccopen w file (accept req) = some (sb, some type) ∧
      ¬ NotModified w sb (getheader req (bytes "If-Modified-Since")) ∧
      getheader req (bytes "Range") = some spec ∧
      rangespec sb.size spec = .slice start stop ∧ sb.seekable

theorem decision_range {w : World} {req : Hthead} {file : Bytes} {sb : File} {contype : Bytes}
    {enctype : Option Bytes} {spec : Bytes} {head : Bool}
    (h : decision w req file = .range sb contype enctype spec head) :
    req.rest = [] ∧ (ishead req.method).isSome ∧
      ccopen w file (accept req) = some (sb, enctype) ∧
      ¬ NotModified w sb (getheader req (bytes "If-Modified-Since")) ∧
      getheader req (bytes "Range") = some spec := by
  unfold decision at h
  by_cases hrest : req.rest ≠ []
  · rw [if_pos hrest] at h
    exact absurd h (by simp)
  rw [if_neg hrest] at h
  rcases hopen : ccopen w file (accept req) with _ | ⟨sb', enctype'⟩
  · rw [hopen] at h
    exact absurd h (by simp)
  simp only [hopen] at h
  rcases hmeth : ishead req.method with _ | head'
  · rw [hmeth] at h
    exact absurd h (by simp)
  simp only [hmeth, checkcache] at h
  by_cases hmod : NotModified w sb' (getheader req (bytes "If-Modified-Since"))
  · simp only [if_pos hmod] at h
    exact absurd h (by simp)
  simp only [if_neg hmod] at h
  rcases hrange : getheader req (bytes "Range") with _ | spec'
  · rw [hrange] at h
    exact absurd h (by simp)
  simp only [hrange, Decision.range.injEq] at h
  obtain ⟨rfl, -, rfl, rfl, -⟩ := h
  exact ⟨not_not.mp hrest, rfl, rfl, hmod, rfl⟩

theorem decision_part {w : World} {req : Hthead} {file : Bytes} (h : PartOfCompressed w req file) :
    ∃ sb contype type spec head start stop,
      decision w req file = .range sb contype (some type) spec head ∧
        rangespec sb.size spec = .slice start stop ∧ sb.seekable := by
  obtain ⟨hrest, hmeth, sb, type, spec, start, stop, hopen, hmod, hrange, hspec, hseek⟩ := h
  obtain ⟨head, hhead⟩ := Option.isSome_iff_exists.mp hmeth
  refine ⟨sb, ckctype w ((getheader req (bytes "X-Ash-Content-Type")).getD (getmimetype w file)),
    type, spec, head, start, stop, ?_, hspec, hseek⟩
  unfold decision
  simp only [hrest, ne_eq, not_true, if_false, hopen, hhead, checkcache, if_neg hmod, hrange]

/-- Apart from a part of a compressed file, the two `sendrange` write the same. -/
theorem sendrange_eq {w : World} {sb : File} {contype : Bytes} {enctype : Option Bytes}
    {spec : Bytes} {head : Bool}
    (h : ∀ type start stop, enctype = some type → rangespec sb.size spec = .slice start stop →
      ¬ sb.seekable) :
    sendrange w sb contype enctype spec head =
      Psendfile.sendrange w sb contype enctype spec head := by
  unfold sendrange Psendfile.sendrange
  cases hspec : rangespec sb.size spec with
  | whole => exact sendwhole_eq w sb contype enctype head
  | unsatisfiable => rfl
  | slice start stop =>
    simp only
    by_cases hseek : sb.seekable
    · have hplain : enctype = none := by
        cases enctype with
        | none => rfl
        | some type => exact absurd hseek (h type start stop rfl hspec)
      obtain ⟨hstart, hlt, -⟩ := rangespec_slice hspec
      have hlen : (sb.content.drop start.toNat).length < sb.content.length + 1 := by
        rw [List.length_drop]
        omega
      rw [if_neg (not_not.mpr hseek), if_neg (not_not.mpr hseek), hplain,
        passdata_part hlen (by omega)]
      rfl
    · rw [if_pos hseek, if_pos hseek]

/-- A part of a compressed file is sent with one header less by `psendfile`. -/
theorem sendrange_length {w : World} {sb : File} {contype type spec : Bytes} {head : Bool}
    {start stop : ℤ} (hspec : rangespec sb.size spec = .slice start stop) (hseek : sb.seekable) :
    (Psendfile.sendrange w sb contype (some type) spec head).headers.length <
      (sendrange w sb contype (some type) spec head).headers.length := by
  unfold sendrange Psendfile.sendrange
  rw [hspec]
  simp only [hseek, not_true, if_false]
  show 5 < 6
  omega

/-- The requests that get the same answer from both programs. -/
structure Alike (w : World) (req : Hthead) : Prop where
  args : ∀ a ∈ [req.method, req.url, req.rest], ¬ OptionLike a
  file : ∃ file, getheader req (bytes "X-Ash-File") = some file ∧ ¬ PartOfCompressed w req file

theorem main_optionLike {w : World} {req : Hthead} {env : Env} (prog : Bytes)
    (h : ∃ a ∈ [req.method, req.url, req.rest], OptionLike a) :
    main w (stdforkserve [prog] req env) = none := by
  unfold main
  have hdrop : (stdforkserve [prog] req env).args.drop 1 = [req.method, req.url, req.rest] := rfl
  rw [hdrop]
  rcases hopts : getopts [req.method, req.url, req.rest] {} with _ | o
  · rfl
  have hlen : o.args.length < 3 := (length_args hopts).2 h
  simp only
  rcases hargs : o.args with _ | ⟨a, _ | ⟨b, _ | ⟨c, rest⟩⟩⟩
  · rfl
  · rfl
  · rfl
  · rw [hargs] at hlen
    simp only [List.length_cons] at hlen
    omega

/-- Where no part of a compressed file is asked for, the answers to a decision are the same. -/
theorem answer_eq {w : World} {req : Hthead} {file : Bytes} (h : ¬ PartOfCompressed w req file) :
    (decision w req file).answer (sendrange w) =
      (decision w req file).answer (Psendfile.sendrange w) := by
  cases hdec : decision w req file with
  | reply resp => rfl
  | range sb contype enctype spec head =>
    obtain ⟨hrest, hmeth, hopen, hmod, hrange⟩ := decision_range hdec
    apply sendrange_eq
    rintro type start stop rfl hspec hseek
    exact h ⟨hrest, hmeth, sb, type, spec, start, stop, hopen, hmod, hrange, hspec, hseek⟩

theorem answer_length {w : World} {req : Hthead} {file : Bytes} (h : PartOfCompressed w req file) :
    ((decision w req file).answer (Psendfile.sendrange w)).headers.length <
      ((decision w req file).answer (sendrange w)).headers.length := by
  obtain ⟨sb, contype, type, spec, head, start, stop, hdec, hspec, hseek⟩ := decision_part h
  rw [hdec]
  exact sendrange_length hspec hseek

theorem not_same_none (r' : Response) : ¬ Same none r' := by
  rintro ⟨resp, hresp, -⟩
  exact absurd hresp (by simp)

/-- The two programs give the same answer exactly to the requests that `Alike` says. -/
theorem same_iff (w : World) (req : Hthead) (env : Env) (prog : Bytes)
    (henv : ∀ n, env (bytes "REQ_" ++ n) = none) (htwice : NoneTwice req) (hsp : Spelled req) :
    Same (main w (stdforkserve [prog] req env)) (Psendfile.serve w req) ↔ Alike w req := by
  by_cases hargs : ∀ a ∈ [req.method, req.url, req.rest], ¬ OptionLike a
  swap
  · -- `sendfile` does not answer
    have hopt : ∃ a ∈ [req.method, req.url, req.rest], OptionLike a := by
      by_contra hno
      exact hargs fun a ha hopt => hno ⟨a, ha, hopt⟩
    rw [main_optionLike prog hopt]
    constructor
    · intro h
      exact absurd h (not_same_none _)
    · intro h
      exact absurd h.args hargs
  rw [main_eq prog henv htwice hsp hargs]
  cases hfile : getheader req (bytes "X-Ash-File") with
  | none =>
    constructor
    · intro h
      exact absurd h (not_same_none _)
    · rintro ⟨-, file, hfile', -⟩
      rw [hfile] at hfile'
      exact absurd hfile' (by simp)
  | some file =>
    rw [serve_eq hfile, Option.map_some]
    constructor
    · rintro ⟨resp, hresp, -, hperm, -⟩
      obtain rfl := Option.mem_some_iff.mp hresp
      refine ⟨hargs, file, hfile, ?_⟩
      intro hpart
      exact absurd hperm.length_eq (answer_length hpart).ne'
    · rintro ⟨-, file', hfile', hpart⟩
      have : file = file' := Option.some.inj (hfile.symm.trans hfile')
      subst this
      have hanswer := answer_eq hpart
      exact ⟨_, rfl, by rw [hanswer], by rw [hanswer], by rw [hanswer]⟩

/-! ## A part of a compressed file -/

/-- A text file of 64 letters, with what *zlib* makes of it. -/
def letters : World where
  file path :=
    if path = bytes "/srv/a.txt" then
      some { content := List.replicate 64 97, size := 64, mtime := 0, seekable := true }
    else none
  openbytype type path :=
    if type = bytes "deflate" ∧ path = bytes "/srv/a.txt" then
      some {
        content := [120, 218, 75, 76, 164, 12, 0, 0, 20, 141, 24, 65]
        size := 12
        mtime := 60
        seekable := true }
    else none
  getxattr _ _ := none
  magicFile _ := some (bytes "text/plain")
  codeset := bytes "UTF-8"
  parsehttpdate _ := 0
  fmthttpdate t :=
    if t = 0 then bytes "Thu, 1 Jan 1970 00:00:00 GMT" else bytes "Thu, 1 Jan 1970 00:01:00 GMT"
  now := 60

/-- A request for it, with further headers. -/
def request (headers : List (Bytes × Bytes)) : Hthead :=
  { method := bytes "GET"
    url := bytes "/a.txt"
    ver := bytes "HTTP/1.1"
    headers := (bytes "X-Ash-File", bytes "/srv/a.txt") :: headers }

/-- A request for the first bytes, from a client that accepts compressed files. -/
def partRequest : Hthead :=
  request [(bytes "X-Ash-Compress", bytes "yes"), (bytes "Accept-Encoding", bytes "deflate"),
    (bytes "Range", bytes "bytes=0-3")]

theorem same_iff_part :
    NoneTwice partRequest ∧ Spelled partRequest ∧
      (Same (main letters (stdforkserve [bytes "sendfile"] partRequest fun _ => none))
        (Psendfile.serve letters partRequest) ↔ Alike letters partRequest) := by
  have htwice : NoneTwice partRequest := by
    unfold NoneTwice
    decide +kernel
  have hsp : Spelled partRequest := by
    unfold Spelled
    decide +kernel
  exact ⟨htwice, hsp, same_iff letters partRequest (fun _ => none) (bytes "sendfile")
    (fun _ => rfl) htwice hsp⟩

/-- Both programs send the first four bytes of the compressed file, but only `sendfile` says that
    they are compressed. -/
theorem part_unlabelled :
    NoneTwice partRequest ∧ (∀ a ∈ [partRequest.method, partRequest.url, partRequest.rest],
        ¬ OptionLike a) ∧
      ¬ Same (main letters (stdforkserve [bytes "sendfile"] partRequest fun _ => none))
        (Psendfile.serve letters partRequest) := by
  have htwice : NoneTwice partRequest := by
    unfold NoneTwice
    decide +kernel
  refine ⟨htwice, by decide +kernel, ?_⟩
  have hs : ∀ resp ∈ main letters (stdforkserve [bytes "sendfile"] partRequest fun _ => none),
      (bytes "Content-Encoding", bytes "deflate") ∈ resp.headers := by decide +kernel
  have hp : (bytes "Content-Encoding", bytes "deflate") ∉
      (Psendfile.serve letters partRequest).headers := by decide +kernel
  rintro ⟨resp, hresp, -, hperm, -⟩
  exact hp (hperm.mem_iff.mp (hs resp hresp))

end Ashd.Sendfile
