import Mathlib.Data.List.DropRight
import Ashd.Lib.BufioWrite

/-!
# `lib/req.c`: request and response heads

The data type of heads with its operations, and the parsers of header lines and of
responses. The parsers take the function `getc` that delivers the next byte
(`fgetc` in `parseheaders` and `parseresponse`, `biogetc` in `parseheadersb` and
`parseresponseb`, which are otherwise the same), and a bound on the bytes that
`getc` can still deliver.

Main results:
* `parseheaders_fields`: what names and values the parser can produce.
* `parseresponse_ok`: what is accepted as a response.
* `writerespb_spec`: what is written of it.
-/

namespace Ashd

/-- `struct hthead` (lib/req.h:8–14). A member that is `NULL` is `[]`; none is read
    where it can be. -/
structure Hthead where
  method : Bytes := []
  url : Bytes := []
  ver : Bytes := []
  msg : Bytes := []
  code : ℕ := 0
  rest : Bytes := []
  headers : List (Bytes × Bytes) := []
  deriving DecidableEq

/-- `mkreq` (lib/req.c:36–46). -/
def mkreq (method url ver : Bytes) : Hthead :=
  { method := method, url := url, ver := ver, rest := url }

/-- `mkresp` (lib/req.c:48–57). -/
def mkresp (code : ℕ) (msg ver : Bytes) : Hthead := { code := code, msg := msg, ver := ver }

/-- `getheader` (lib/req.c:82–91). -/
def getheader (head : Hthead) (name : Bytes) : Option Bytes :=
  (head.headers.find? fun h => strcaseeq h.1 name).map Prod.snd

/-- `headappheader` (lib/req.c:383–392). -/
def headappheader (head : Hthead) (name val : Bytes) : Hthead :=
  { head with headers := head.headers ++ [(name, val)] }

/-- `headrmheader` (lib/req.c:394–406): only the first one is removed. -/
def headrmheader (head : Hthead) (name : Bytes) : Hthead :=
  { head with headers := head.headers.eraseP fun h => strcaseeq h.1 name }

/-- `replrest` (lib/req.c:362–371). -/
def replrest (head : Hthead) (rest : Bytes) : Hthead := { head with rest := rest }

theorem getheader_append (head : Hthead) (hs : List (Bytes × Bytes)) {name : Bytes}
    (h : ∀ x ∈ hs, strcaseeq x.1 name = false) :
    getheader { head with headers := head.headers ++ hs } name = getheader head name := by
  unfold getheader
  have : hs.find? (fun x => strcaseeq x.1 name) = none := by
    rw [List.find?_eq_none]
    intro x hx
    simp [h x hx]
  simp only [List.find?_append, this, Option.or_none]

/-- `unquoteurl` (lib/req.c:507–539): what is before the final NUL, where there may be others. -/
def unquoteurl : Bytes → Option Bytes
  | [] => some []
  | c :: p =>
    if c = 37 then
      match p with
      | x1 :: x2 :: p =>
        match digitVal x1, digitVal x2 with
        | some d1, some d2 => (unquoteurl p).map (UInt8.ofNat (d1 * 16 + d2) :: ·)
        | _, _ => none
      | _ => none
    else (unquoteurl p).map (c :: ·)

/-! ## Header lines -/

/-- `trim` (lib/req.c:93–101). -/
def trim (buf : Bytes) : Bytes :=
  match buf.dropWhile isspace with
  | [] => []
  | c :: s => c :: s.rdropWhile isspace

/-- The values 0, 1 and 2 of `state`: at the start of a line, in a name, in a value. -/
inductive LineState
  | start
  | name
  | value

/-- The variables of `parseheaders`. -/
structure HeaderState where
  head : Hthead
  state : LineState := .start
  name : Bytes := []
  val : Bytes := []
  tsz : ℕ := 0

/-- The body of the loop of `parseheaders` after a byte was read (lib/req.c:115–156). -/
def headerStep (s : HeaderState) (c : UInt8) : Next HeaderState Hthead :=
  let s := { s with tsz := s.tsz + 1 }
  let inName (s : HeaderState) : Next HeaderState Hthead :=
    if c = 58 then .more { s with name := trim s.name, state := .value }
    else if c = 13 then .more s
    else if c = 10 then .fail
    else .more { s with name := s.name ++ [c] }
  if s.tsz ≥ 65536 then .fail
  else
    match s.state with
    | .start =>
      if c = 13 then .more s
      else if c = 10 then .stop s.head
      else inName { s with state := .name }
    | .name => inName s
    | .value =>
      if c = 13 then .more s
      else if c = 10 then
        .more { s with
          head := headappheader s.head (cstr s.name) (cstr (trim s.val))
          name := [], val := [], state := .start }
      else .more { s with val := s.val ++ [c] }

variable {α : Type*}

/-- `parseheaders` (lib/req.c:103–166) and `parseheadersb` (lib/req.c:168–228). The loop
    fails at the 65536th byte at the latest. -/
def parseheaders (getc : α → Option UInt8 × α) (head : Hthead) (a : α) : Option Hthead × α :=
  scan getc headerStep 65536 { head := head } a

/-! ## Responses -/

/-- The loops that read up to the first space, below `limit` bytes less than `hi`. -/
def wordStep (hi limit : ℕ) (w : Bytes) (c : UInt8) : Next Bytes Bytes :=
  if c = 32 then .stop w
  else if c < 32 ∨ c.toNat ≥ hi then .fail
  else if w.length + 1 ≥ limit then .fail
  else .more (w ++ [c])

/-- The loops that read up to the end of the line, below `limit` bytes less than `hi`. -/
def lineStep (hi limit : ℕ) (w : Bytes) (c : UInt8) : Next Bytes Bytes :=
  if c = 10 then .stop w
  else if c = 13 then .more w
  else if c < 32 ∨ c.toNat ≥ hi then .fail
  else if w.length + 1 ≥ limit then .fail
  else .more (w ++ [c])

/-- Reading the version (lib/req.c:241–252). -/
def verStep : Bytes → UInt8 → Next Bytes Bytes := wordStep 128 128

/-- Reading the status code (lib/req.c:253–264). -/
def codeStep (code : ℕ) (c : UInt8) : Next ℕ ℕ :=
  if c = 32 then .stop code
  else if c < 48 ∨ c > 57 then .fail
  else
    let code := code * 10 + (c.toNat - 48)
    if code ≥ 10000 then .fail else .more code

/-- Reading the message (lib/req.c:265–277). -/
def msgStep : Bytes → UInt8 → Next Bytes Bytes := lineStep 256 512

/-- `parseresponse` (lib/req.c:230–294) and `parseresponseb` (lib/req.c:296–360). -/
def parseresponse (getc : α → Option UInt8 × α) (left : ℕ) (a : α) : Option Hthead × α :=
  andThen (scan getc verStep left [] a) fun ver a =>
    andThen (scan getc codeStep left 0 a) fun code a =>
      andThen (scan getc msgStep left [] a) fun msg a => parseheaders getc (mkresp code msg ver) a

/-- `parseheadersb`. -/
def parseheadersb (head : Hthead) (inb : Bufio) : Option Hthead × Bufio :=
  parseheaders biogetc head inb

/-- `parseresponseb`. -/
def parseresponseb (inb : Bufio) : Option Hthead × Bufio :=
  parseresponse biogetc (inb.unread.length + 1) inb

/-! ## Writing a response -/

/-- The text of `"%s %i %s\r\n"` in `writerespb`. -/
def statusLine (resp : Hthead) : Bytes :=
  resp.ver ++ 32 :: numeral 10 resp.code ++ 32 :: resp.msg ++ [13, 10]

/-- The text of `"%s: %s\r\n"` in `writerespb`. -/
def headerLine (h : Bytes × Bytes) : Bytes := h.1 ++ [58, 32] ++ h.2 ++ [13, 10]

/-- The loop over the headers in `writerespb`. -/
def writeheaders : List (Bytes × Bytes) → Bufio → ℤ × Bufio
  | [], out => (0, out)
  | h :: hs, out =>
    match bioprintf out 8 (headerLine h) with
    | (ret, out) => if ret < 0 then (-1, out) else writeheaders hs out

/-- `writerespb` (lib/req.c:422–433). -/
def writerespb (out : Bufio) (resp : Hthead) : ℤ × Bufio :=
  match bioprintf out 10 (statusLine resp) with
  | (ret, out) => if ret < 0 then (-1, out) else writeheaders resp.headers out

/-! ## What the parsers produce -/

/-- No byte of `s` ends a line or a string. -/
def Clean (s : Bytes) : Prop := ∀ c ∈ s, c ≠ 0 ∧ c ≠ 10 ∧ c ≠ 13

/-- `s` does not start with white space. -/
def LeftTrimmed (s : Bytes) : Prop := ∀ c ∈ s.head?, isspace c = false

/-- What can stand before the colon of a header line. -/
structure FieldName (s : Bytes) : Prop where
  clean : Clean s
  colon : (58 : UInt8) ∉ s
  trimmed : LeftTrimmed s

/-- What can stand after it. -/
structure FieldValue (s : Bytes) : Prop where
  clean : Clean s
  trimmed : LeftTrimmed s

/-- A header that `parseheaders` can produce. -/
structure HeaderField (h : Bytes × Bytes) : Prop where
  name : FieldName h.1
  val : FieldValue h.2

theorem Clean.nulFree {s : Bytes} (h : Clean s) : NulFree s := fun h0 => (h 0 h0).1 rfl

theorem trim_sublist (s : Bytes) : (trim s).Sublist s := by
  have hd : (s.dropWhile isspace).Sublist s := List.dropWhile_sublist _
  unfold trim
  cases hs : s.dropWhile isspace with
  | nil => exact List.nil_sublist _
  | cons c t =>
    rw [hs] at hd
    exact ((List.rdropWhile_prefix isspace t).sublist.cons_cons c).trans hd

theorem trimmed_trim (s : Bytes) : LeftTrimmed (trim s) := by
  intro c hc
  unfold trim at hc
  cases hs : s.dropWhile isspace with
  | nil => simp [hs] at hc
  | cons c' t =>
    rw [hs] at hc
    have : c' = c := by simpa using hc
    subst this
    have := List.head_dropWhile_not isspace (show s.dropWhile isspace ≠ [] by simp [hs])
    simpa [hs] using this

theorem LeftTrimmed.cstr {s : Bytes} (h : LeftTrimmed s) : LeftTrimmed (cstr s) := by
  intro c hc
  cases s with
  | nil => simp [Ashd.cstr] at hc
  | cons c' s =>
    by_cases h0 : c' = 0
    · simp [Ashd.cstr, h0] at hc
    · have : c' = c := by simpa [Ashd.cstr, h0] using hc
      exact h c (by simp [this])

theorem mem_cstr {s : Bytes} {c : UInt8} (h : c ∈ cstr s) : c ∈ s :=
  (List.takeWhile_sublist _).subset h

/-- The loop invariant of `parseheaders` on `head`: the fields appended so far are as they
    can be, and neither buffer has a line end in it. -/
structure HeaderInv (head : Hthead) (s : HeaderState) : Prop where
  fields : ∃ hs, s.head = { head with headers := head.headers ++ hs } ∧ ∀ h ∈ hs, HeaderField h
  name : ∀ c ∈ s.name, c ≠ 10 ∧ c ≠ 13 ∧ c ≠ 58
  trimmed : s.state = .value → LeftTrimmed s.name
  val : ∀ c ∈ s.val, c ≠ 10 ∧ c ≠ 13

theorem clean_cstr {s : Bytes} (h : ∀ c ∈ s, c ≠ 10 ∧ c ≠ 13) : Clean (cstr s) :=
  fun c hc => ⟨fun h0 => nulFree_cstr s (h0 ▸ hc), h c (mem_cstr hc)⟩

/-- What is appended at the end of a header line. -/
theorem field_of {name val : Bytes} (hn : ∀ c ∈ name, c ≠ 10 ∧ c ≠ 13 ∧ c ≠ 58)
    (ht : LeftTrimmed name) (hv : ∀ c ∈ val, c ≠ 10 ∧ c ≠ 13) :
    HeaderField (cstr name, cstr (trim val)) where
  name := ⟨clean_cstr fun c hc => ⟨(hn c hc).1, (hn c hc).2.1⟩,
    fun hc => (hn 58 (mem_cstr hc)).2.2 rfl, ht.cstr⟩
  val := ⟨clean_cstr fun c hc => hv c ((trim_sublist val).subset hc), (trimmed_trim _).cstr⟩

theorem forall_mem_append_singleton {p : UInt8 → Prop} {s : Bytes} {c : UInt8}
    (h : ∀ x ∈ s, p x) (hc : p c) : ∀ x ∈ s ++ [c], p x := by
  simpa [or_imp, forall_and] using ⟨h, hc⟩

/-- What one byte does to the loop state of `parseheaders`. -/
theorem headerStep_inv {head : Hthead} {s : HeaderState} (h : HeaderInv head s) (c : UInt8) :
    match headerStep s c with
    | .more s' => HeaderInv head s'
    | .stop r => r = s.head
    | .fail => True := by
  obtain ⟨hf, hn, ht, hv⟩ := h
  obtain ⟨head', state, name, val, tsz⟩ := s
  simp only at hf hn ht hv
  unfold headerStep
  simp only
  by_cases hsz : tsz + 1 ≥ 65536
  · simp only [if_pos hsz]
  simp only [if_neg hsz]
  -- a byte of a name, which is also how a line starts
  have hname : ∀ st, st ≠ LineState.value →
      match (if c = 58 then Next.more ⟨head', .value, trim name, val, tsz + 1⟩
        else if c = 13 then .more ⟨head', st, name, val, tsz + 1⟩
        else if c = 10 then .fail
        else .more ⟨head', st, name ++ [c], val, tsz + 1⟩ : Next HeaderState Hthead) with
      | .more s' => HeaderInv head s'
      | .stop r => r = head'
      | .fail => True := by
    intro st hst
    by_cases h58 : c = 58
    · simp only [if_pos h58]
      exact ⟨hf, fun c hc => hn c ((trim_sublist name).subset hc), fun _ => trimmed_trim _, hv⟩
    by_cases h13 : c = 13
    · simp only [if_neg h58, if_pos h13]
      exact ⟨hf, hn, fun h0 => absurd h0 hst, hv⟩
    by_cases h10 : c = 10
    · simp only [if_neg h58, if_neg h13, if_pos h10]
    · simp only [if_neg h58, if_neg h13, if_neg h10]
      exact ⟨hf, forall_mem_append_singleton hn ⟨h10, h13, h58⟩, fun h0 => absurd h0 hst, hv⟩
  cases state with
  | start =>
    by_cases h13 : c = 13
    · simp only [if_pos h13]
      exact ⟨hf, hn, by simp, hv⟩
    by_cases h10 : c = 10
    · simp only [if_neg h13, if_pos h10]
    · simp only [if_neg h13, if_neg h10]
      simpa only [if_neg h13, if_neg h10] using hname .name (by simp)
  | name => exact hname .name (by simp)
  | value =>
    by_cases h13 : c = 13
    · simp only [if_pos h13]
      exact ⟨hf, hn, ht, hv⟩
    by_cases h10 : c = 10
    · simp only [if_neg h13, if_pos h10]
      obtain ⟨hs, hh, hall⟩ := hf
      refine ⟨⟨hs ++ [(cstr name, cstr (trim val))], by simp [headappheader, hh], ?_⟩,
        by simp, by simp, by simp⟩
      intro x hx
      rcases List.mem_append.mp hx with hx | hx
      · exact hall x hx
      · rw [List.mem_singleton.mp hx]
        exact field_of hn (ht rfl) hv
    · simp only [if_neg h13, if_neg h10]
      exact ⟨hf, hn, ht, forall_mem_append_singleton hv ⟨h10, h13⟩⟩


variable {getc : α → Option UInt8 × α}

/-- `parseheaders` appends fields to the head it was given, and changes nothing else. -/
theorem parseheaders_fields {head head' : Hthead} {a a' : α}
    (h : parseheaders getc head a = (some head', a')) :
    ∃ hs, head' = { head with headers := head.headers ++ hs } ∧ ∀ h ∈ hs, HeaderField h := by
  refine scan_inv (HeaderInv head)
    (fun r => ∃ hs, r = { head with headers := head.headers ++ hs } ∧ ∀ h ∈ hs, HeaderField h)
    (fun s c s' hI hs => ?_) (fun s c r hI hs => ?_)
    ⟨⟨[], by simp, by simp⟩, by simp, by simp, by simp⟩ h
  · have := headerStep_inv hI c
    rwa [hs] at this
  · have := headerStep_inv hI c
    rw [hs] at this
    exact this ▸ hI.fields

/-- What `parseresponse` accepts: the version has no space in it, and neither it nor the
    message has control characters. -/
structure RespOk (resp : Hthead) : Prop where
  ver : ∀ c ∈ resp.ver, 32 < c ∧ c.toNat < 128
  code : resp.code < 10000
  msg : ∀ c ∈ resp.msg, 32 ≤ c ∧ c.toNat < 256
  headers : ∀ h ∈ resp.headers, HeaderField h

theorem scan_word {hi limit left : ℕ} {w : Bytes} {a a' : α}
    (h : scan getc (wordStep hi limit) left [] a = (some w, a')) :
    ∀ c ∈ w, 32 < c ∧ c.toNat < hi := by
  refine scan_inv (fun s => ∀ c ∈ s, 32 < c ∧ c.toNat < hi) (fun s => ∀ c ∈ s, 32 < c ∧ c.toNat < hi)
    (fun s c s' hI hs => ?_) (fun s c r hI hs => ?_) (by simp) h
  · unfold wordStep at hs
    split_ifs at hs with h1 h2 h3
    cases hs
    refine forall_mem_append_singleton hI ?_
    simp only [not_or, ← UInt8.toNat_inj, UInt8.lt_iff_toNat_lt, UInt8.reduceToNat] at h1 h2 ⊢
    omega
  · unfold wordStep at hs
    split_ifs at hs
    cases hs
    exact hI

theorem scan_line {hi limit left : ℕ} {w : Bytes} {a a' : α}
    (h : scan getc (lineStep hi limit) left [] a = (some w, a')) :
    ∀ c ∈ w, 32 ≤ c ∧ c.toNat < hi := by
  refine scan_inv (fun s => ∀ c ∈ s, 32 ≤ c ∧ c.toNat < hi) (fun s => ∀ c ∈ s, 32 ≤ c ∧ c.toNat < hi)
    (fun s c s' hI hs => ?_) (fun s c r hI hs => ?_) (by simp) h
  · unfold lineStep at hs
    split_ifs at hs with h1 h2 h3 h4
    · cases hs
      exact hI
    · cases hs
      refine forall_mem_append_singleton hI ?_
      simp only [not_or, UInt8.lt_iff_toNat_lt, UInt8.le_iff_toNat_le, UInt8.reduceToNat] at h3 ⊢
      omega
  · unfold lineStep at hs
    split_ifs at hs
    cases hs
    exact hI

theorem scan_code {left code : ℕ} {a a' : α}
    (h : scan getc codeStep left 0 a = (some code, a')) : code < 10000 := by
  refine scan_inv (fun n => n < 10000) (fun n => n < 10000) (fun s c s' hI hs => ?_)
    (fun s c r hI hs => ?_) (by norm_num) h
  · unfold codeStep at hs
    simp only at hs
    split_ifs at hs
    cases hs
    omega
  · unfold codeStep at hs
    simp only at hs
    split_ifs at hs
    cases hs
    exact hI

theorem parseresponse_ok {left : ℕ} {resp : Hthead} {a a' : α}
    (h : parseresponse getc left a = (some resp, a')) : RespOk resp := by
  obtain ⟨ver, a₁, hv, h⟩ := andThen_eq_some h
  obtain ⟨code, a₂, hc, h⟩ := andThen_eq_some h
  obtain ⟨msg, a₃, hm, h⟩ := andThen_eq_some h
  obtain ⟨hs, rfl, hall⟩ := parseheaders_fields h
  exact ⟨scan_word hv, scan_code hc, scan_line hm, by simpa [mkresp] using hall⟩

/-- The parsers keep what reading keeps. -/
theorem parseresponse_inv {unread : α → Bytes} {Ok : α → Prop} (hg : IsReader getc unread Ok)
    {left : ℕ} {a : α} (ha : Ok a) : Ok (parseresponse getc left a).2 :=
  andThen_inv (scan_ok hg ha) fun _ _ h => andThen_inv (scan_ok hg h) fun _ _ h =>
    andThen_inv (scan_ok hg h) fun _ _ h => scan_ok hg h

/-- What is accepted from a source of bytes is accepted from the list of them. -/
theorem parseresponse_getcList {unread : α → Bytes} {Ok : α → Prop} (hg : IsReader getc unread Ok)
    {left : ℕ} {a a' : α} {resp : Hthead} (ha : Ok a)
    (h : parseresponse getc left a = (some resp, a')) :
    parseresponse getcList left (unread a) = (some resp, unread a') := by
  obtain ⟨ver, a₁, hv, h⟩ := andThen_eq_some h
  obtain ⟨code, a₂, hc, h⟩ := andThen_eq_some h
  obtain ⟨msg, a₃, hm, h⟩ := andThen_eq_some h
  obtain ⟨hv, ha⟩ := scan_getcList hg ha hv
  obtain ⟨hc, ha⟩ := scan_getcList hg ha hc
  obtain ⟨hm, ha⟩ := scan_getcList hg ha hm
  unfold parseresponse
  rw [hv]
  simp only [andThen]
  rw [hc]
  simp only
  rw [hm]
  exact (scan_getcList hg ha h).1

/-! ## What is written -/

theorem writeheaders_spec (hs : List (Bytes × Bytes)) {out : Bufio} (h : out.WOk) :
    ∃ t, out.Writes t (writeheaders hs out).2 ∧
      (NoErr out.snk.sched → t = hs.flatMap headerLine) := by
  induction hs generalizing out with
  | nil => exact ⟨[], .refl h, fun _ => rfl⟩
  | cons x hs ih =>
    obtain ⟨hw, hres⟩ := bioprintf_spec h 8 (headerLine x)
    rw [writeheaders]
    cases hp : bioprintf out 8 (headerLine x) with
    | mk ret out' =>
      rw [hp] at hw hres
      obtain rfl | ⟨rfl, hne⟩ := hres
      · obtain ⟨t, hw', ht⟩ := ih hw.ok
        exact ⟨_, hw.trans hw', fun h0 => by rw [ht (hw.noErr h0)]; rfl⟩
      · exact ⟨_, hw, fun h0 => absurd h0 hne⟩

/-- `writerespb` writes the status line and the header lines, if no write fails. -/
theorem writerespb_spec (resp : Hthead) {out : Bufio} (h : out.WOk) :
    ∃ t, out.Writes t (writerespb out resp).2 ∧
      (NoErr out.snk.sched → t = statusLine resp ++ resp.headers.flatMap headerLine) := by
  obtain ⟨hw, hres⟩ := bioprintf_spec h 10 (statusLine resp)
  unfold writerespb
  cases hp : bioprintf out 10 (statusLine resp) with
  | mk ret out' =>
    rw [hp] at hw hres
    obtain rfl | ⟨rfl, hne⟩ := hres
    · obtain ⟨t, hw', ht⟩ := writeheaders_spec resp.headers hw.ok
      exact ⟨_, hw.trans hw', fun h0 => by rw [ht (hw.noErr h0)]; rfl⟩
    · exact ⟨_, hw, fun h0 => absurd h0 hne⟩

end Ashd
