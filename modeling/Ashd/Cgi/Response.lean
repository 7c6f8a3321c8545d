import Ashd.Cgi.Headers
import Ashd.Lib.Resp
import Ashd.Ssl.Options

/-!
# What becomes of the headers of a CGI program

`callcgi` makes a response of what a program writes by going through the headers itself, and
`callscgi` and `callfcgi` make a `struct hthead` of it that they write with `writeresp`. What is in
the first part of the output is read by a parser of its own in `callcgi`, too.

Main results:
* `responses_same_iff`: for which outputs the bridges send the same lines and the same body.
* `sendhead_eq`: what `callcgi` sends, header by header.
-/

namespace Ashd

/-- `httpdefstatus` (lib/resp.c:261–301). -/
def httpdefstatus (code : ℤ) : Bytes :=
  if code = 200 then bytes "OK"
  else if code = 201 then bytes "Created"
  else if code = 202 then bytes "Accepted"
  else if code = 204 then bytes "No Content"
  else if code = 300 then bytes "Multiple Choices"
  else if code = 301 then bytes "Moved Permanently"
  else if code = 302 then bytes "Found"
  else if code = 303 then bytes "See Other"
  else if code = 304 then bytes "Not Modified"
  else if code = 307 then bytes "Moved Temporarily"
  else if code = 400 then bytes "Bad Request"
  else if code = 401 then bytes "Unauthorized"
  else if code = 403 then bytes "Forbidden"
  else if code = 404 then bytes "Not Found"
  else if code = 500 then bytes "Internal Server Error"
  else if code = 501 then bytes "Not Implemented"
  else if code = 503 then bytes "Service Unavailable"
  else bytes "Unknown status"

open Ssl (atoi)

/-! ## `callcgi` -/

namespace Callcgi

/-- `defstatus` (src/callcgi.c:257–295). -/
def defstatus (code : ℤ) : Bytes :=
  if code = 200 then bytes "OK"
  else if code = 201 then bytes "Created"
  else if code = 202 then bytes "Accepted"
  else if code = 204 then bytes "No Content"
  else if code = 300 then bytes "Multiple Choices"
  else if code = 301 then bytes "Moved Permanently"
  else if code = 302 then bytes "Found"
  else if code = 303 then bytes "See Other"
  else if code = 304 then bytes "Not Modified"
  else if code = 307 then bytes "Moved Temporarily"
  else if code = 400 then bytes "Bad Request"
  else if code = 401 then bytes "Unauthorized"
  else if code = 403 then bytes "Forbidden"
  else if code = 404 then bytes "Not Found"
  else if code = 500 then bytes "Internal Server Error"
  else if code = 501 then bytes "Not Implemented"
  else if code = 503 then bytes "Service Unavailable"
  else bytes "Unknown status"

/-- The loop of `sendstatus` (src/callcgi.c:302–315): the headers as they are after it, `status`
    and `location`. -/
def statusloop : List Bytes → Option Bytes → Option Bytes →
    List Bytes × Option Bytes × Option Bytes
  | name :: val :: hp, status, location =>
    if strcaseeq name (bytes "status") then
      -- The name is empty now, which the next round passes over.
      ([] :: val :: (statusloop hp (some val) location).1, (statusloop hp (some val) location).2)
    else if strcaseeq name (bytes "location") then
      (name :: val :: (statusloop hp status (some val)).1, (statusloop hp status (some val)).2)
    else (name :: val :: (statusloop hp status location).1, (statusloop hp status location).2)
  | hp, status, location => (hp, status, location)

/-- The line that `sendstatus` prints (src/callcgi.c:316–325). -/
def statusline (status location : Option Bytes) : Bytes :=
  match status with
  | some status =>
    if 32 ∈ status then bytes "HTTP/1.1 " ++ status
    else bytes "HTTP/1.1 " ++ intmax (atoi status) ++ 32 :: defstatus (atoi status)
  | none =>
    if location.isSome then bytes "HTTP/1.1 303 See Other" else bytes "HTTP/1.1 200 OK"

/-- `sendheaders` (src/callcgi.c:328–335). -/
def sendheaders : List Bytes → Bytes
  | name :: val :: headers =>
    (if name ≠ [] then name ++ [58, 32] ++ val ++ [10] else []) ++ sendheaders headers
  | _ => []

/-- What is sent for the headers (src/callcgi.c:434–436). -/
def sendhead (headers : List Bytes) : Bytes :=
  let r := statusloop headers none none
  statusline r.2.1 r.2.2 ++ [10] ++ sendheaders r.1 ++ [10]

/-- What `callcgi` sends when the program writes `s` (src/callcgi.c:429–438): nothing if there are
    no headers in it. `none` is an access outside of a buffer. -/
def respond (heap : Heap) (s : Bytes) : Option (Option Bytes) :=
  match parsecgiheaders heap s with
  | none => some none
  | some (none, _) => none
  | some (some headers, rest) => some (some (sendhead headers ++ rest))

end Callcgi

/-! ## `callscgi` and `callfcgi` -/

namespace Callscgi

/-- A `struct hthead` for a response, of which the code may be any `int`. -/
structure Resp where
  ver : Bytes
  msg : Bytes
  code : ℤ
  headers : List (Bytes × Bytes)

/-- What `parseresp` makes of the headers (src/callscgi.c:497–513). -/
def respof (resp : Hthead) : Resp :=
  match getheader resp (bytes "Status") with
  | some st =>
    { ver := resp.ver
      code := if 32 ∈ st then atoi (st.takeWhile (· ≠ 32)) else atoi st
      msg := if 32 ∈ st then (st.dropWhile (· ≠ 32)).drop 1 else httpdefstatus (atoi st)
      headers := (headrmheader resp (bytes "Status")).headers }
  | none =>
    if (getheader resp (bytes "Location")).isSome then
      { ver := resp.ver, code := 303, msg := bytes "See Other", headers := resp.headers }
    else { ver := resp.ver, code := 200, msg := bytes "OK", headers := resp.headers }

/-- `parseresp` (src/callscgi.c:486–515, src/callfcgi.c:522–551), with what is left to be read. -/
def parseresp (s : Bytes) : Option Resp × Bytes :=
  match parseheaders getcList { ver := bytes "HTTP/1.1" } s with
  | (none, rest) => (none, rest)
  | (some resp, rest) => (some (respof resp), rest)

/-- `writeresp` (lib/req.c:409–420). -/
def writeresp (resp : Resp) : Bytes :=
  resp.ver ++ 32 :: intmax resp.code ++ 32 :: resp.msg ++ [13, 10] ++
    resp.headers.flatMap headerLine

/-- What `serve` sends when the program writes `s` (src/callscgi.c:538–544). -/
def respond (s : Bytes) : Option Bytes :=
  match parseresp s with
  | (none, _) => none
  | (some resp, rest) => some (writeresp resp ++ 10 :: rest)

end Callscgi

/-! ## Specification -/

namespace Cgi

/-- Lines with their ends, an empty one, and what follows. -/
def text (stop : Bytes) (lines : List Bytes) (body : Bytes) : Bytes :=
  lines.flatMap (· ++ stop) ++ 10 :: body

/-- A line that is not empty. -/
structure Line (l : Bytes) : Prop where
  ne_nil : l ≠ []
  lf : (10 : UInt8) ∉ l
  cr : (13 : UInt8) ∉ l

/-- The same lines and the same body, but for the carriage returns. -/
def Same (a b : Bytes) : Prop :=
  ∃ lines body, (∀ l ∈ lines, Line l) ∧ a = text [10] lines body ∧ b = text [13, 10] lines body

/-- The header that says what the status is. -/
def isStatus (h : Bytes × Bytes) : Bool := strcaseeq h.1 (bytes "status")

/-- Headers that mean the same to all the bridges: none is without a name, there is at most one
    status, and its number, if a text follows it, is written as it would be printed. -/
structure Plain (hs : List (Bytes × Bytes)) : Prop where
  named : ∀ h ∈ hs, h.1 ≠ []
  once : (hs.filter isStatus).length ≤ 1
  number : ∀ h ∈ hs, isStatus h = true → (32 : UInt8) ∈ h.2 →
    h.2.takeWhile (· ≠ 32) = intmax (atoi (h.2.takeWhile (· ≠ 32)))

/-! ## Lines are known by their ends -/

theorem text_cons (stop l : Bytes) (lines : List Bytes) (body : Bytes) :
    text stop (l :: lines) body = l ++ (stop ++ text stop lines body) := by
  simp only [text, List.flatMap_cons, List.append_assoc]

theorem text_inj {lines lines' : List Bytes} {body body' : Bytes}
    (hl : ∀ l ∈ lines, l ≠ [] ∧ (10 : UInt8) ∉ l) (hl' : ∀ l ∈ lines', l ≠ [] ∧ (10 : UInt8) ∉ l)
    (h : text [10] lines body = text [10] lines' body') : lines = lines' := by
  induction lines generalizing lines' with
  | nil =>
    cases lines' with
    | nil => rfl
    | cons l' lines' =>
      have hcons := List.forall_mem_cons.mp hl'
      rw [text_cons] at h
      have := (Callcgi.line_inj (s := body) List.not_mem_nil hcons.1.2 h).1
      exact absurd this.symm hcons.1.1
  | cons l lines ih =>
    have hcons := List.forall_mem_cons.mp hl
    rw [text_cons] at h
    cases lines' with
    | nil =>
      have hnil : l = [] := (Callcgi.line_inj hcons.1.2 List.not_mem_nil h).1
      exact absurd hnil hcons.1.1
    | cons l' lines' =>
      have hcons' := List.forall_mem_cons.mp hl'
      rw [text_cons] at h
      obtain ⟨rfl, hrest⟩ := Callcgi.line_inj hcons.1.2 hcons'.1.2 h
      rw [ih hcons.2 hcons'.2 hrest]

/-- A carriage return before the end belongs to the line. -/
theorem text_crlf (lines : List Bytes) (body : Bytes) :
    text [13, 10] lines body = text [10] (lines.map (· ++ [13])) body := by
  simp only [text, List.flatMap_map, List.append_assoc, List.cons_append, List.nil_append]

theorem crlf_inj {lines lines' : List Bytes} {body body' : Bytes} (hl : ∀ l ∈ lines, Line l)
    (hl' : ∀ l ∈ lines', Line l) (h : text [13, 10] lines body = text [13, 10] lines' body') :
    lines = lines' := by
  have hends : ∀ {lines : List Bytes}, (∀ l ∈ lines, Line l) →
      ∀ l ∈ lines.map (· ++ [13]), l ≠ [] ∧ (10 : UInt8) ∉ l := by
    intro lines hl
    refine List.forall_mem_map.mpr fun l hmem => ⟨by simp, fun h10 => ?_⟩
    rcases List.mem_append.mp h10 with h10 | h10
    · exact (hl l hmem).lf h10
    · exact absurd (List.mem_singleton.mp h10) (by decide)
  rw [text_crlf, text_crlf] at h
  exact List.map_injective_iff.mpr (List.append_left_injective [13])
    (text_inj (hends hl) (hends hl') h)

theorem sameText_iff {lines lines' : List Bytes} {body : Bytes} (hl : ∀ l ∈ lines, Line l)
    (hl' : ∀ l ∈ lines', Line l) :
    Same (text [10] lines body) (text [13, 10] lines' body) ↔ lines = lines' := by
  constructor
  · rintro ⟨ls, b, hls, ha, hb⟩
    have hlf : ∀ {lines : List Bytes}, (∀ l ∈ lines, Line l) →
        ∀ l ∈ lines, l ≠ [] ∧ (10 : UInt8) ∉ l :=
      fun hl l hmem => ⟨(hl l hmem).ne_nil, (hl l hmem).lf⟩
    rw [text_inj (hlf hl) (hlf hls) ha, crlf_inj hl' hls hb]
  · rintro rfl
    exact ⟨lines, body, hl, rfl, rfl⟩

/-! ## The lines that are sent -/

/-- The line for a header. -/
def line (h : Bytes × Bytes) : Bytes := h.1 ++ 58 :: 32 :: h.2

theorem headerLine_eq (h : Bytes × Bytes) : headerLine h = line h ++ [13, 10] := by
  simp only [headerLine, line, List.append_assoc, List.cons_append, List.nil_append]

end Cgi

open Cgi

namespace Callcgi

/-- The headers as `parsecgiheaders` puts them. -/
def flat (hs : List (Bytes × Bytes)) : List Bytes := hs.flatMap fun h => [h.1, h.2]

/-- The value of the last header for which `p` holds, or `d` if there is none. -/
def lastof (p : Bytes × Bytes → Bool) (hs : List (Bytes × Bytes)) (d : Option Bytes) :
    Option Bytes :=
  hs.foldl (fun r h => if p h then some h.2 else r) d

/-- The header that says where to go. -/
def isLocation (h : Bytes × Bytes) : Bool := strcaseeq h.1 (bytes "location")

theorem not_isLocation {h : Bytes × Bytes} (hs : isStatus h = true) : isLocation h = false := by
  rw [isStatus, strcaseeq_iff] at hs
  rw [isLocation, strcaseeq, hs]
  decide

theorem statusloop_eq (hs : List (Bytes × Bytes)) (status location : Option Bytes) :
    statusloop (flat hs) status location =
      (flat (hs.map fun h => (if isStatus h then [] else h.1, h.2)),
        lastof isStatus hs status, lastof isLocation hs location) := by
  induction hs generalizing status location with
  | nil => rfl
  | cons h hs ih =>
    have hcons : ∀ h : Bytes × Bytes, ∀ hs, flat (h :: hs) = h.1 :: h.2 :: flat hs := fun _ _ => rfl
    rw [List.map_cons, hcons, hcons, statusloop, lastof, lastof, List.foldl_cons, List.foldl_cons]
    by_cases hst : isStatus h = true
    · have hname : strcaseeq h.1 (bytes "status") = true := hst
      rw [if_pos hname, ih, if_pos hst, if_pos hst, not_isLocation hst]
      rfl
    · have hname : ¬ strcaseeq h.1 (bytes "status") = true := hst
      rw [if_neg hname, if_neg hst, if_neg hst]
      by_cases hloc : isLocation h = true
      · have hname : strcaseeq h.1 (bytes "location") = true := hloc
        rw [if_pos hname, ih, if_pos hloc]
        rfl
      · have hname : ¬ strcaseeq h.1 (bytes "location") = true := hloc
        rw [if_neg hname, ih, if_neg hloc]
        rfl

/-- The headers that are sent. -/
def kept (h : Bytes × Bytes) : Bool := !isStatus h && decide (h.1 ≠ [])

theorem sendheaders_eq (hs : List (Bytes × Bytes)) :
    sendheaders (flat (hs.map fun h => (if isStatus h then [] else h.1, h.2))) =
      ((hs.filter kept).map line).flatMap (· ++ [10]) := by
  induction hs with
  | nil => rfl
  | cons h hs ih =>
    have hcons : ∀ h : Bytes × Bytes, ∀ hs, flat (h :: hs) = h.1 :: h.2 :: flat hs := fun _ _ => rfl
    rw [List.map_cons, hcons, sendheaders, ih]
    by_cases hst : isStatus h = true
    · rw [List.filter_cons_of_neg (by simp [kept, hst])]
      simp [hst]
    · by_cases hname : h.1 = []
      · rw [List.filter_cons_of_neg (by simp [kept, hname])]
        simp [hname]
      · rw [List.filter_cons_of_pos (by simp [kept, hst, hname])]
        simp [hst, hname, line]

/-- What `callcgi` sends, line by line. -/
theorem sendhead_eq (hs : List (Bytes × Bytes)) (body : Bytes) :
    sendhead (flat hs) ++ body =
      text [10] (statusline (lastof isStatus hs none) (lastof isLocation hs none) ::
        (hs.filter kept).map line) body := by
  unfold sendhead
  rw [statusloop_eq]
  dsimp only
  rw [sendheaders_eq, text_cons]
  simp only [text, List.append_assoc, List.cons_append, List.nil_append]

end Callcgi

namespace Callscgi

/-- The first line of what is written. -/
def statusline (resp : Resp) : Bytes := resp.ver ++ 32 :: intmax resp.code ++ 32 :: resp.msg

theorem writeresp_eq (resp : Resp) (body : Bytes) :
    writeresp resp ++ 10 :: body =
      text [13, 10] (statusline resp :: resp.headers.map line) body := by
  have hhead : resp.headers.flatMap headerLine =
      (resp.headers.map line).flatMap (· ++ [13, 10]) := by
    rw [List.flatMap_map]
    exact List.flatMap_congr fun h _ => headerLine_eq h
  rw [writeresp, text_cons, hhead]
  simp only [text, statusline, List.append_assoc, List.cons_append, List.nil_append]

/-- The headers that are written. -/
theorem respof_headers (ver : Bytes) (hs : List (Bytes × Bytes)) :
    (respof { ver := ver, headers := hs }).headers = hs.eraseP isStatus := by
  have hfind : getheader { ver := ver, headers := hs } (bytes "Status") =
      (hs.find? isStatus).map Prod.snd := rfl
  unfold respof
  rw [hfind]
  cases hst : hs.find? isStatus with
  | some h => rfl
  | none =>
    have hno : ∀ h ∈ hs, ¬ isStatus h = true := List.find?_eq_none.mp hst
    rw [List.eraseP_of_forall_not hno]
    simp only [Option.map_none]
    split_ifs <;> rfl

end Callscgi

/-! ## The same headers are sent -/

namespace Cgi

open Callcgi

/-- The first header that says what the status is, if there is one. -/
theorem status_cases (hs : List (Bytes × Bytes)) :
    ((∀ h ∈ hs, ¬ isStatus h = true) ∧ hs.eraseP isStatus = hs) ∨
      ∃ a l₁ l₂, (∀ h ∈ l₁, ¬ isStatus h = true) ∧ isStatus a = true ∧ hs = l₁ ++ a :: l₂ ∧
        hs.eraseP isStatus = l₁ ++ l₂ := by
  by_cases hex : ∃ h ∈ hs, isStatus h = true
  · obtain ⟨h, hmem, hst⟩ := hex
    exact .inr (List.exists_of_eraseP hmem hst)
  · push Not at hex
    exact .inl ⟨hex, List.eraseP_of_forall_not hex⟩

theorem kept_iff (h : Bytes × Bytes) :
    kept h = true ↔ ¬ isStatus h = true ∧ h.1 ≠ [] := by
  simp [kept]

/-- Only headers that are not kept are left out of the others by `callcgi`. -/
theorem filter_kept (hs : List (Bytes × Bytes)) :
    hs.filter kept = (hs.eraseP isStatus).filter kept := by
  rcases status_cases hs with ⟨-, heq⟩ | ⟨a, l₁, l₂, -, ha, rfl, heq⟩
  · rw [heq]
  · rw [heq, List.filter_append, List.filter_cons_of_neg (by simp [kept, ha]), List.filter_append]

theorem status_named {h : Bytes × Bytes} (hst : isStatus h = true) : h.1 ≠ [] := by
  intro hnil
  rw [isStatus, hnil] at hst
  revert hst
  decide

/-- All that `callscgi` sends is kept. -/
theorem all_kept_iff (hs : List (Bytes × Bytes)) :
    (∀ h ∈ hs.eraseP isStatus, kept h = true) ↔
      (∀ h ∈ hs, h.1 ≠ []) ∧ (hs.filter isStatus).length ≤ 1 := by
  rcases status_cases hs with ⟨hno, heq⟩ | ⟨a, l₁, l₂, hl₁, ha, rfl, heq⟩
  · have hnone : hs.filter isStatus = [] := List.filter_eq_nil_iff.mpr hno
    rw [heq, hnone]
    constructor
    · exact fun h => ⟨fun x hx => ((kept_iff x).mp (h x hx)).2, Nat.zero_le 1⟩
    · exact fun h x hx => (kept_iff x).mpr ⟨hno x hx, h.1 x hx⟩
  · have hnone : l₁.filter isStatus = [] := List.filter_eq_nil_iff.mpr hl₁
    rw [heq, List.filter_append, hnone, List.nil_append, List.filter_cons_of_pos ha,
      List.length_cons]
    constructor
    · intro h
      have hl₂ : l₂.filter isStatus = [] := List.filter_eq_nil_iff.mpr fun x hx =>
        ((kept_iff x).mp (h x (List.mem_append_right l₁ hx))).1
      refine ⟨fun x hx => ?_, by rw [hl₂, List.length_nil]⟩
      rcases List.mem_append.mp hx with hx | hx
      · exact ((kept_iff x).mp (h x (List.mem_append_left l₂ hx))).2
      · rcases List.mem_cons.mp hx with rfl | hx
        · exact status_named ha
        · exact ((kept_iff x).mp (h x (List.mem_append_right l₁ hx))).2
    · rintro ⟨hnamed, hlen⟩ x hx
      have hl₂ : l₂.filter isStatus = [] := List.length_eq_zero_iff.mp (by omega)
      rcases List.mem_append.mp hx with hx | hx
      · exact (kept_iff x).mpr ⟨hl₁ x hx, hnamed x (List.mem_append_left _ hx)⟩
      · refine (kept_iff x).mpr ⟨List.filter_eq_nil_iff.mp hl₂ x hx, ?_⟩
        exact hnamed x (List.mem_append_right l₁ (List.mem_cons_of_mem a hx))

theorem headers_eq_iff (hs : List (Bytes × Bytes)) :
    (hs.filter kept).map line = (hs.eraseP isStatus).map line ↔
      (∀ h ∈ hs, h.1 ≠ []) ∧ (hs.filter isStatus).length ≤ 1 := by
  rw [← all_kept_iff, filter_kept]
  constructor
  · intro h
    have hlen := congrArg List.length h
    rw [List.length_map, List.length_map] at hlen
    exact List.length_filter_eq_length_iff.mp hlen
  · intro h
    rw [List.filter_eq_self.mpr h]

/-! ## The same first line is sent -/

/-- The two tables are the same. -/
theorem defstatus_eq (code : ℤ) : defstatus code = httpdefstatus code := rfl

theorem lastof_none {p : Bytes × Bytes → Bool} {hs : List (Bytes × Bytes)}
    (h : ∀ x ∈ hs, ¬ p x = true) (d : Option Bytes) : lastof p hs d = d := by
  induction hs with
  | nil => rfl
  | cons x hs ih =>
    rw [lastof, List.foldl_cons, if_neg (h x (List.mem_cons_self ..))]
    exact ih fun y hy => h y (List.mem_cons_of_mem x hy)

theorem lastof_isSome {p : Bytes × Bytes → Bool} (hs : List (Bytes × Bytes)) (d : Option Bytes) :
    (lastof p hs d).isSome = (hs.any p || d.isSome) := by
  induction hs generalizing d with
  | nil => rfl
  | cons x hs ih =>
    have hcons : lastof p (x :: hs) d = lastof p hs (if p x then some x.2 else d) := rfl
    rw [hcons, ih, List.any_cons]
    cases p x <;> simp

theorem takeWhile_space {v : Bytes} (h : (32 : UInt8) ∈ v) :
    v = v.takeWhile (· ≠ 32) ++ 32 :: (v.dropWhile (· ≠ 32)).drop 1 := by
  obtain ⟨l, r, rfl, hl⟩ := List.eq_append_cons_of_mem h
  have hl' : ∀ c ∈ l, decide (c ≠ 32) = true := fun c hc => by
    simpa using fun h0 : c = 32 => hl (h0 ▸ hc)
  rw [List.takeWhile_append_of_pos hl', List.dropWhile_append_of_pos hl']
  simp

theorem ver_append (s : Bytes) : bytes "HTTP/1.1 " ++ s = bytes "HTTP/1.1" ++ 32 :: s := rfl

/-- The first lines are the same if there is at most one status, unless its number is written in
    another way. -/
theorem firstline_iff (hs : List (Bytes × Bytes)) (honce : (hs.filter isStatus).length ≤ 1) :
    Callcgi.statusline (lastof isStatus hs none) (lastof isLocation hs none) =
        Callscgi.statusline (Callscgi.respof { ver := bytes "HTTP/1.1", headers := hs }) ↔
      ∀ h ∈ hs, isStatus h = true → (32 : UInt8) ∈ h.2 →
        h.2.takeWhile (· ≠ 32) = intmax (atoi (h.2.takeWhile (· ≠ 32))) := by
  have hget : getheader { ver := bytes "HTTP/1.1", headers := hs } (bytes "Status") =
      (hs.find? isStatus).map Prod.snd := rfl
  unfold Callscgi.respof
  rw [hget]
  rcases status_cases hs with ⟨hno, -⟩ | ⟨a, l₁, l₂, hl₁, ha, rfl, -⟩
  · have hfind : hs.find? isStatus = none := List.find?_eq_none.mpr hno
    refine iff_of_true ?_ fun h hh hst => absurd hst (hno h hh)
    have hloc : (getheader { ver := bytes "HTTP/1.1", headers := hs } (bytes "Location")).isSome =
        (lastof isLocation hs none).isSome := by
      have hget' : getheader { ver := bytes "HTTP/1.1", headers := hs } (bytes "Location") =
        (hs.find? isLocation).map Prod.snd := rfl
      rw [hget', Option.isSome_map, lastof_isSome, Bool.eq_iff_iff, List.find?_isSome]
      simp
    rw [hfind, lastof_none hno, Option.map_none]
    dsimp only
    rw [hloc, Callcgi.statusline]
    split_ifs <;> rfl
  · rw [List.filter_append, List.filter_eq_nil_iff.mpr hl₁, List.nil_append,
      List.filter_cons_of_pos ha, List.length_cons] at honce
    have hl₂ : l₂.filter isStatus = [] := List.length_eq_zero_iff.mp (by omega)
    have hfind : (l₁ ++ a :: l₂).find? isStatus = some a := by
      rw [List.find?_append, List.find?_eq_none.mpr hl₁, List.find?_cons_of_pos ha, Option.none_or]
    have hlast : lastof isStatus (l₁ ++ a :: l₂) none = some a.2 := by
      rw [lastof, List.foldl_append, List.foldl_cons, if_pos ha]
      exact lastof_none (List.filter_eq_nil_iff.mp hl₂) (some a.2)
    have honly : (∀ h ∈ l₁ ++ a :: l₂, isStatus h = true → (32 : UInt8) ∈ h.2 →
          h.2.takeWhile (· ≠ 32) = intmax (atoi (h.2.takeWhile (· ≠ 32)))) ↔
        ((32 : UInt8) ∈ a.2 → a.2.takeWhile (· ≠ 32) = intmax (atoi (a.2.takeWhile (· ≠ 32)))) := by
      constructor
      · exact fun h => h a (List.mem_append_right l₁ (List.mem_cons_self ..)) ha
      · intro h x hx hst
        rcases List.mem_append.mp hx with hx | hx
        · exact absurd hst (hl₁ x hx)
        · rcases List.mem_cons.mp hx with rfl | hx
          · exact h
          · exact absurd hst (List.filter_eq_nil_iff.mp hl₂ x hx)
    rw [honly, hfind, hlast, Option.map_some]
    dsimp only
    rw [Callcgi.statusline, Callscgi.statusline]
    dsimp only
    by_cases hsp : (32 : UInt8) ∈ a.2
    · rw [if_pos hsp, if_pos hsp, if_pos hsp, ver_append, imp_iff_right hsp]
      conv_lhs => lhs; rw [takeWhile_space hsp]
      simp only [List.append_assoc, List.cons_append, List.append_cancel_left_eq, List.cons.injEq,
        true_and, List.append_cancel_right_eq]
    · rw [if_neg hsp, if_neg hsp, if_neg hsp, defstatus_eq]
      refine iff_of_true ?_ fun h => absurd h hsp
      rw [List.append_assoc, ver_append]
      simp only [List.append_assoc, List.cons_append]

/-! ## What is sent has lines -/

theorem line_ok {h : Bytes × Bytes} (hf : HeaderField h) : Line (line h) where
  ne_nil := by simp [line]
  lf := by
    simp only [line, List.mem_append, List.mem_cons, not_or]
    exact ⟨fun hc => (hf.name.clean 10 hc).2.1 rfl, by decide, by decide,
      fun hc => (hf.val.clean 10 hc).2.1 rfl⟩
  cr := by
    simp only [line, List.mem_append, List.mem_cons, not_or]
    exact ⟨fun hc => (hf.name.clean 13 hc).2.2 rfl, by decide, by decide,
      fun hc => (hf.val.clean 13 hc).2.2 rfl⟩

theorem intmax_clean (n : ℤ) : ∀ c ∈ intmax n, c ≠ 10 ∧ c ≠ 13 := by
  have hnum : ∀ c ∈ numeral 10 n.natAbs, c ≠ 10 ∧ c ≠ 13 := by
    intro c hc
    obtain ⟨d, hd, rfl⟩ := numeral_digits (by decide) c hc
    interval_cases d <;> decide
  unfold intmax
  split_ifs
  · exact List.forall_mem_cons.mpr ⟨by decide, hnum⟩
  · exact hnum

theorem clean_of_all {s : Bytes} (h : (s.all fun c => c != 10 && c != 13) = true) :
    ∀ c ∈ s, c ≠ 10 ∧ c ≠ 13 := by
  simpa using h

theorem clean_ite {p : Prop} [Decidable p] {s t : Bytes} (hs : ∀ c ∈ s, c ≠ 10 ∧ c ≠ 13)
    (ht : ∀ c ∈ t, c ≠ 10 ∧ c ≠ 13) : ∀ c ∈ if p then s else t, c ≠ 10 ∧ c ≠ 13 := by
  split_ifs
  · exact hs
  · exact ht

theorem httpdefstatus_clean (code : ℤ) : ∀ c ∈ httpdefstatus code, c ≠ 10 ∧ c ≠ 13 := by
  unfold httpdefstatus
  repeat refine clean_ite (clean_of_all (by decide)) ?_
  exact clean_of_all (by decide)

/-- A line that starts with the version. -/
theorem line_ver {s : Bytes} (h : ∀ c ∈ s, c ≠ 10 ∧ c ≠ 13) :
    Line (bytes "HTTP/1.1" ++ 32 :: s) where
  ne_nil := by
    intro hnil
    exact absurd (List.append_eq_nil_iff.mp hnil).1 (by decide)
  lf hc := by
    rcases List.mem_append.mp hc with hc | hc
    · exact absurd hc (by decide)
    · rcases List.mem_cons.mp hc with hc | hc
      · exact absurd hc (by decide)
      · exact (h 10 hc).1 rfl
  cr hc := by
    rcases List.mem_append.mp hc with hc | hc
    · exact absurd hc (by decide)
    · rcases List.mem_cons.mp hc with hc | hc
      · exact absurd hc (by decide)
      · exact (h 13 hc).2 rfl

theorem clean_append {s t : Bytes} (hs : ∀ c ∈ s, c ≠ 10 ∧ c ≠ 13)
    (ht : ∀ c ∈ t, c ≠ 10 ∧ c ≠ 13) : ∀ c ∈ s ++ 32 :: t, c ≠ 10 ∧ c ≠ 13 :=
  List.forall_mem_append.mpr ⟨hs, List.forall_mem_cons.mpr ⟨by decide, ht⟩⟩

theorem lastof_mem {p : Bytes × Bytes → Bool} {hs : List (Bytes × Bytes)} {d : Option Bytes}
    {v : Bytes} (h : lastof p hs d = some v) : (∃ x ∈ hs, x.2 = v) ∨ d = some v := by
  induction hs generalizing d with
  | nil => exact .inr h
  | cons x hs ih =>
    rw [lastof, List.foldl_cons] at h
    rcases ih h with ⟨y, hy, hv⟩ | heq
    · exact .inl ⟨y, List.mem_cons_of_mem x hy, hv⟩
    · split_ifs at heq
      · exact .inl ⟨x, List.mem_cons_self .., Option.some.inj heq⟩
      · exact .inr heq

theorem callcgi_line {hs : List (Bytes × Bytes)} (hf : ∀ h ∈ hs, HeaderField h)
    (location : Option Bytes) :
    Line (Callcgi.statusline (lastof isStatus hs none) location) := by
  unfold Callcgi.statusline
  cases hst : lastof isStatus hs none with
  | none =>
    dsimp only
    split_ifs
    · exact line_ver (clean_of_all (s := bytes "303 See Other") (by decide))
    · exact line_ver (clean_of_all (s := bytes "200 OK") (by decide))
  | some v =>
    obtain ⟨x, hx, rfl⟩ := (lastof_mem hst).resolve_right nofun
    dsimp only
    split_ifs
    · exact line_ver fun c hc => ((hf x hx).val.clean c hc).2
    · rw [List.append_assoc]
      exact line_ver (clean_append (intmax_clean _) (httpdefstatus_clean _))

theorem callscgi_line {hs : List (Bytes × Bytes)} (hf : ∀ h ∈ hs, HeaderField h) :
    Line (Callscgi.statusline (Callscgi.respof { ver := bytes "HTTP/1.1", headers := hs })) := by
  have hget : getheader { ver := bytes "HTTP/1.1", headers := hs } (bytes "Status") =
      (hs.find? isStatus).map Prod.snd := rfl
  unfold Callscgi.respof
  rw [hget]
  cases hst : hs.find? isStatus with
  | none =>
    rw [Option.map_none]
    dsimp only
    split_ifs
    · exact line_ver (clean_append (intmax_clean 303)
        (clean_of_all (s := bytes "See Other") (by decide)))
    · exact line_ver (clean_append (intmax_clean 200)
        (clean_of_all (s := bytes "OK") (by decide)))
  | some x =>
    have hv := (hf x (List.mem_of_find?_eq_some hst)).val.clean
    rw [Option.map_some]
    dsimp only [Callscgi.statusline]
    rw [List.append_assoc]
    refine line_ver (clean_append (intmax_clean _) ?_)
    split_ifs
    · intro c hc
      exact (hv c ((List.dropWhile_sublist _).subset (List.mem_of_mem_drop hc))).2
    · exact httpdefstatus_clean _

/-! ## The responses -/

theorem callscgi_respond {lines : List Bytes} {h : Bytes} (hh : HeaderText lines h)
    (hlen : h.length < 65536) (body : Bytes) :
    Callscgi.respond (h ++ body) =
        some (text [13, 10]
          (Callscgi.statusline (Callscgi.respof
              { ver := bytes "HTTP/1.1", headers := lines.map lineField }) ::
            ((lines.map lineField).eraseP isStatus).map line) body) ∧
      ∀ x ∈ lines.map lineField, HeaderField x := by
  have hparse : parseheaders getcList { ver := bytes "HTTP/1.1" } (h ++ body) =
      (some { ver := bytes "HTTP/1.1", headers := lines.map lineField }, body) :=
    parseheaders_list.mpr ⟨lines, h, hh, Nat.le_of_lt_succ hlen, rfl, rfl⟩
  constructor
  · rw [Callscgi.respond, Callscgi.parseresp, hparse]
    dsimp only
    rw [Callscgi.writeresp_eq, Callscgi.respof_headers]
  · obtain ⟨hs, heq, hfields⟩ := parseheaders_fields hparse
    have : lines.map lineField = hs := congrArg Hthead.headers heq
    rw [this]
    exact hfields

theorem callcgi_respond (heap : Heap) {lines : List Bytes} {h : Bytes} (hh : HeaderText lines h)
    (hlen : h.length < 65536) (body : Bytes) (hfill : Filled h) :
    Callcgi.respond heap (h ++ body) = some (some (text [10]
      (Callcgi.statusline (lastof isStatus (lines.map lineField) none)
          (lastof isLocation (lines.map lineField) none) ::
        ((lines.map lineField).filter kept).map line) body)) := by
  have hscan := parsecgiheaders_filled heap _ h [] (Nat.lt_succ_self _) hlen hfill
  have hlines := headerLines_complete hh [] (h.length + 1) (Nat.lt_succ_self _)
  rw [List.append_nil] at hlines
  rw [hlines, Option.map_some] at hscan
  have hparse : parsecgiheaders heap (h ++ body) = some (some (flat (lines.map lineField)), body) :=
    scanList_append hscan body
  rw [Callcgi.respond, hparse]
  dsimp only
  rw [sendhead_eq]

theorem callcgi_wild (heap : Heap) {h : Bytes} (hlen : h.length < 65536) (body : Bytes)
    (hfill : ¬ Filled h) : Callcgi.respond heap (h ++ body) = none := by
  obtain ⟨rest, hscan⟩ := parsecgiheaders_unfilled heap _ h [] (Nat.lt_succ_self _) hlen hfill
  have hparse : parsecgiheaders heap (h ++ body) = some (none, rest ++ body) :=
    scanList_append hscan body
  rw [Callcgi.respond, hparse]

/-- **The bridges send the same response.** For headers of less than 65536 bytes and any body,
    `callcgi` and the other two bridges send the same lines, but for carriage returns, and the same
    body, exactly if no line of the headers makes `callcgi` leave its buffers, no header is without
    a name, there is at most one status, and its number, if a text follows it, is written as it
    would be printed. -/
theorem responses_same_iff (heap : Heap) {lines : List Bytes} {h : Bytes}
    (hh : HeaderText lines h) (hlen : h.length < 65536) (body : Bytes) :
    (∃ a b, Callcgi.respond heap (h ++ body) = some (some a) ∧
        Callscgi.respond (h ++ body) = some b ∧ Same a b) ↔
      Filled h ∧ Plain (lines.map lineField) := by
  obtain ⟨hscgi, hf⟩ := callscgi_respond hh hlen body
  by_cases hfill : Filled h
  · have hcgi := callcgi_respond heap hh hlen body hfill
    have hlinesA : ∀ l ∈ Callcgi.statusline (lastof isStatus (lines.map lineField) none)
        (lastof isLocation (lines.map lineField) none) ::
          ((lines.map lineField).filter kept).map line, Line l :=
      List.forall_mem_cons.mpr ⟨callcgi_line hf _, List.forall_mem_map.mpr fun x hx =>
        line_ok (hf x (List.mem_of_mem_filter hx))⟩
    have hlinesB : ∀ l ∈ Callscgi.statusline (Callscgi.respof
        { ver := bytes "HTTP/1.1", headers := lines.map lineField }) ::
          ((lines.map lineField).eraseP isStatus).map line, Line l :=
      List.forall_mem_cons.mpr ⟨callscgi_line hf, List.forall_mem_map.mpr fun x hx =>
        line_ok (hf x (List.mem_of_mem_eraseP hx))⟩
    rw [hcgi, hscgi, and_iff_right hfill]
    constructor
    · rintro ⟨a, b, ha, hb, hsame⟩
      cases ha
      cases hb
      obtain ⟨hfirst, hrest⟩ := List.cons.inj ((sameText_iff hlinesA hlinesB).mp hsame)
      obtain ⟨hnamed, honce⟩ := (headers_eq_iff _).mp hrest
      exact ⟨hnamed, honce, (firstline_iff _ honce).mp hfirst⟩
    · intro hplain
      refine ⟨_, _, rfl, rfl, (sameText_iff hlinesA hlinesB).mpr ?_⟩
      rw [(firstline_iff _ hplain.once).mpr hplain.number,
        (headers_eq_iff _).mpr ⟨hplain.named, hplain.once⟩]
  · rw [callcgi_wild heap hlen body hfill]
    refine iff_of_false ?_ fun hboth => hfill hboth.1
    rintro ⟨a, b, ha, -⟩
    cases ha

/-- A status with its text. -/
theorem responses_same_iff_status :
    ∃ a b, Callcgi.respond lowHeap (bytes "Status: 404 Not Found\n\n" ++ bytes "gone") =
        some (some a) ∧
      Callscgi.respond (bytes "Status: 404 Not Found\n\n" ++ bytes "gone") = some b ∧
        Same a b := by
  have hh : HeaderText [bytes "Status: 404 Not Found"] (bytes "Status: 404 Not Found\n\n") :=
    .line (l := bytes "Status: 404 Not Found") (by decide) (by decide)
      (@HeaderText.last [] fun _ h => absurd h List.not_mem_nil)
  have hlines : bytes "Status: 404 Not Found\n\n" =
      bytes "Status: 404 Not Found" ++ 10 :: ([] ++ 10 :: []) := rfl
  refine (responses_same_iff lowHeap hh (by decide) (bytes "gone")).mpr
    ⟨?_, by decide, by decide, ?_⟩
  · rw [hlines, filled_line (by decide) (by decide)]
    exact ⟨by decide, by decide, filled_nocolon (by decide) (by decide) []⟩
  · decide +kernel

end Cgi

end Ashd
