import Ashd.Common.Coding
import Ashd.Common.Expansion
import Ashd.Common.Run
import Ashd.Lib.Resp
import Ashd.Python.Httpdate
import Ashd.Python.Ssi

/-!
# The pages of ashd/ssi.py

`wsgi` answers a request with what a file expands to: the files that it includes are read as it is
written, and `filecache` keeps what has been read of a file until the time of the file, in whole
seconds, is another.

The files do not change while a request is answered. How many calls of `process` may be below one
another before Python raises a `RecursionError` is given for each request. What is logged is left
out, and so are the other exceptions that may be raised for want of stack or memory.

Main results:
* `wsgi_run`: in every run, in which files are changed between requests, the answer to each request
  is what the files say at that time.
* `wsgi_ends`: a page whose files include one another in a circle is never answered with what has
  been written of it, and every other page is answered if there is stack enough for it.
-/

namespace Ashd.Ssi

open Expansion Wsgiutil

/-! ## `posixpath` -/

/-- `p.rstrip("/")` -/
def rstrip (p : List Char) : List Char := (p.reverse.dropWhile (· = '/')).reverse

/-- `os.path.basename` -/
def basename (p : List Char) : List Char := (p.reverse.takeWhile (· ≠ '/')).reverse

/-- `os.path.dirname` -/
def dirname (p : List Char) : List Char :=
  let head := (p.reverse.dropWhile (· ≠ '/')).reverse
  if head.all (· = '/') then head else rstrip head

/-- `os.path.join` -/
def join (a b : List Char) : List Char :=
  if b.head? = some '/' then b
  else if a = [] ∨ a.getLast? = some '/' then a ++ b
  else a ++ '/' :: b

/-- What the loop of `normpath` makes of a component. `comps` is from the last one on. -/
def normcomp (slashes : ℕ) (comps : List (List Char)) (comp : List Char) : List (List Char) :=
  if comp = [] ∨ comp = ['.'] then comps
  else if comp ≠ ['.', '.'] ∨ (slashes = 0 ∧ comps = []) ∨ comps.head? = some ['.', '.'] then
    comp :: comps
  else comps.tail

/-- `os.path.normpath` -/
def normpath (path : List Char) : List Char :=
  let slashes := (path.takeWhile (· = '/')).length
  let slashes := if slashes = 2 then 2 else min slashes 1
  let comps := ((path.splitOn '/').foldl (normcomp slashes) []).reverse
  let path := List.replicate slashes '/' ++ ['/'].intercalate comps
  if path = [] then ['.'] else path

/-! ## Files -/

/-- What `os.stat` says of a file, with its time in whole seconds, and what is read from it. -/
structure Stat where
  mode : ℕ
  mtime : ℤ
  text : Option (List Char)

/-- The files. -/
abbrev Disk := List Char → Option Stat

/-- An `ssifile`. -/
structure File where
  path : List Char
  cache : Bool
  mtime : ℤ
  parts : List Part
  deriving DecidableEq

/-- `ssifile.__init__` (ssi.py:61–66), and nothing if it raises an exception. -/
def ssifile (u : Alnum) (d : Disk) (path : List Char) : Option File := do
  let sb ← d path
  let text ← sb.text
  return { path := path, cache := sb.mode &&& 0o010 ≠ 0, mtime := sb.mtime,
           parts := parse u path text }

/-- `filecache` -/
abbrev Filecache := List Char → Option File

/-- `filecache[path] = ssifile(path)` -/
def store (u : Alnum) (d : Disk) (c : Filecache) (path : List Char) : Option (File × Filecache) :=
  (ssifile u d path).map fun cf => (cf, Function.update c path (some cf))

/-- `getfile` (ssi.py:128–135). -/
def getfile (u : Alnum) (d : Disk) (c : Filecache) (path : List Char) :
    Option (File × Filecache) :=
  let path := normpath path
  match c path with
  | none => store u d c path
  | some cf =>
    match d path with
    | none => none
    | some sb => if sb.mtime ≠ cf.mtime then store u d c path else some (cf, c)

/-! ## `process` -/

/-- `wsgiutil.htmlquote` (wsgiutil.py:3–16). -/
def htmlquote (text : List Char) : List Char :=
  text.flatMap fun c =>
    if c = '&' then "&amp;".toList
    else if c = '<' then "&lt;".toList
    else if c = '>' then "&gt;".toList
    else if c = '\x22' then "&quot;".toList
    else [c]

/-- What is written to, and `filecache`. -/
structure St where
  out : List Char := []
  filecache : Filecache

/-- `ctx.vars` -/
abbrev Vars := List (List Char × List Char)

/-- The loop of `process` over the parts of the file at `path`, where `process` is for the files
    that are included. It ends early with an exception. -/
def processparts (u : Alnum) (d : Disk) (vars : Vars) (process : File → St → Bool × St)
    (path : List Char) : List Part → St → Bool × St
  | [], s => (true, s)
  | .text t :: ps, s => processparts u d vars process path ps { s with out := s.out ++ t }
  | .echo v :: ps, s =>
    match vars.lookup v with
    | some val =>
      processparts u d vars process path ps { s with out := s.out ++ htmlquote val }
    | none => processparts u d vars process path ps s
  | .incl p :: ps, s =>
    match getfile u d s.filecache (join (dirname path) p) with
    | none => processparts u d vars process path ps s
    | some (nest, c) =>
      match process nest { s with filecache := c } with
      | (true, s) => processparts u d vars process path ps s
      | (false, s) => (false, s)

/-- `ssifile.process` (ssi.py:83–85), and what the parts of a file call (ssi.py:68–81). `limit` is
    how many calls may be below one another. -/
def process (u : Alnum) (d : Disk) (vars : Vars) : (limit : ℕ) → File → St → Bool × St
  | 0, _, s => (false, s)
  | limit + 1, self, s => processparts u d vars (process u d vars limit) self.path self.parts s

/-! ## `wsgi` -/

/-- What there is besides files: how times are shown, and the local zone. -/
structure World where
  isalnum : Alnum
  ascgmtime : ℤ → List Char
  asclocaltime : ℤ → List Char
  strftime : ℤ → List Char
  strptime : List Char → Option ℤ
  zone : Localzone

/-- A request, when it is handled, and the calls that there can be for it. -/
structure Request where
  env : List (List Char × List Char)
  now : ℤ
  limit : ℕ

/-- What is given to `startreq`, and the body. -/
structure Response where
  status : List Char
  headers : List (List Char × List Char)
  body : List UInt8

/-- `str(n)` -/
def str (n : ℤ) : List Char := latin1.text (intmax n)

/-- `wsgiutil.simpleerror` (wsgiutil.py:18–32). -/
def simpleerror (code : ℤ) (title msg : List Char) : Response :=
  let buf := utf8.text <|
    ("<?xml version=\"1.0\" encoding=\"US-ASCII\"?>\n" ++
      "<!DOCTYPE html PUBLIC \"-//W3C//DTD XHTML 1.1//EN\" " ++
      "\"http://www.w3.org/TR/xhtml11/DTD/xhtml11.dtd\">\n" ++
      "<html xmlns=\"http://www.w3.org/1999/xhtml\" xml:lang=\"en-US\">\n<head>\n<title>").toList ++
    title ++ "</title>\n</head>\n<body>\n<h1>".toList ++ title ++ "</h1>\n<p>".toList ++
    htmlquote msg ++ "</p>\n</body>\n</html>".toList
  { status := str code ++ ' ' :: title
    headers := [("Content-Type".toList, "text/html".toList),
      ("Content-Length".toList, str buf.length)]
    body := buf }

def notfound : Response :=
  simpleerror 404 "Not Found".toList
    "The resource specified by the URL does not exist.".toList

def internalerror : Response :=
  simpleerror 500 "Internal Error".toList
    "The server encountered an unpexpected error while handling SSI.".toList

def notmodified : Response :=
  { status := "304 Not Modified".toList
    headers := [("Content-Length".toList, "0".toList)]
    body := [] }

/-- The variables of a `context` (ssi.py:49–56). -/
def context (w : World) (now : ℤ) (root : File) : Vars :=
  [("DOCUMENT_NAME".toList, basename root.path), ("DATE_GMT".toList, w.ascgmtime now),
    ("DATE_LOCAL".toList, w.asclocaltime now), ("LAST_MODIFIED".toList, w.asclocaltime root.mtime)]

/-- Whether the client has a file already (ssi.py:143–148). An exception says that it has not. -/
def unmodified (w : World) (r : Request) (root : File) : Bool :=
  root.cache &&
    match r.env.lookup "HTTP_IF_MODIFIED_SINCE".toList with
    | none => false
    | some since =>
      match phttpdate w.strptime w.zone since with
      | .ok (some lmt) => decide ((root.mtime : ℚ) ≤ lmt)
      | _ => false

/-- The answer to a request for a file, of which `out` has been written (ssi.py:156–161). -/
def page (w : World) (root : File) (out : List Char) : Response :=
  let ret := utf8.text out
  { status := "200 OK".toList
    headers := [("Content-Type".toList, "text/html; charset=UTF-8".toList),
        ("Content-Length".toList, str ret.length)] ++
      if root.cache then
        [("Last-Modified".toList, Wsgiutil.httpdate w.strftime root.mtime)]
      else []
    body := ret }

/-- `wsgi` (ssi.py:137–161). -/
def wsgi (w : World) (d : Disk) (c : Filecache) (r : Request) : Response × Filecache :=
  match r.env.lookup "PATH_INFO".toList with
  | none => (internalerror, c)
  | some pathinfo =>
    if pathinfo ≠ [] then (notfound, c)
    else
      match (r.env.lookup "SCRIPT_FILENAME".toList).bind (getfile w.isalnum d c) with
      | none => (internalerror, c)
      | some (root, c) =>
        if unmodified w r root then (notmodified, c)
        else
          match process w.isalnum d (context w r.now root) r.limit root { filecache := c } with
          | (true, s) => (page w root s.out, s.filecache)
          | (false, s) => (internalerror, s.filecache)

/-! ## Specification -/

/-- The file that one at `path` includes as `p`. -/
def included (u : Alnum) (d : Disk) (path p : List Char) : Option File :=
  ssifile u d (normpath (join (dirname path) p))

/-- What a part of the file at `path` stands for. A variable or a file that is not there stands for
    nothing. -/
def piece (u : Alnum) (d : Disk) (vars : Vars) (path : List Char) :
    Part → Option (List Char ⊕ File)
  | .text t => some (.inl t)
  | .echo v => (vars.lookup v).map fun val => .inl (htmlquote val)
  | .incl p => (included u d path p).map .inr

/-- The body of a file. -/
def body (u : Alnum) (d : Disk) (vars : Vars) (f : File) : List (List Char ⊕ File) :=
  f.parts.filterMap (piece u d vars f.path)

/-- The file that is requested. -/
def Request.Root (r : Request) (w : World) (d : Disk) (root : File) : Prop :=
  r.env.lookup "PATH_INFO".toList = some [] ∧
    ∃ name, r.env.lookup "SCRIPT_FILENAME".toList = some name ∧
      ssifile w.isalnum d (normpath name) = some root

/-- What is in a page. -/
abbrev Request.body (r : Request) (w : World) (d : Disk) (root : File) :
    File → List (List Char ⊕ File) :=
  Ssi.body w.isalnum d (context w r.now root)

/-- The answer to a request, as the files are. -/
inductive Answer (w : World) (d : Disk) (r : Request) : Response → Prop
  | below {pathinfo : List Char} (h : r.env.lookup "PATH_INFO".toList = some pathinfo)
      (hne : pathinfo ≠ []) : Answer w d r notfound
  | missing (h : ∀ pathinfo, r.env.lookup "PATH_INFO".toList = some pathinfo → pathinfo = [])
      (hnone : ∀ root, ¬ r.Root w d root) : Answer w d r internalerror
  | unmodified {root : File} (h : r.Root w d root) (hun : Ssi.unmodified w r root = true) :
      Answer w d r notmodified
  | page {root : File} {out : List Char} (h : r.Root w d root)
      (hun : Ssi.unmodified w r root = false) (hin : Within (r.body w d root) r.limit root)
      (hout : Expands (r.body w d root) (r.body w d root root) out) :
      Answer w d r (Ssi.page w root out)
  | deep {root : File} (h : r.Root w d root) (hun : Ssi.unmodified w r root = false)
      (hin : ¬ Within (r.body w d root) r.limit root) : Answer w d r internalerror

/-- A file that has been changed, be it only its mode, has another time. -/
def Stamped (hist : Set Disk) : Prop :=
  ∀ d ∈ hist, ∀ d' ∈ hist, ∀ path sb sb', d path = some sb → d' path = some sb' →
    sb.mtime = sb'.mtime → sb = sb'

/-- What is in `filecache` has been read. -/
def Known (u : Alnum) (hist : Set Disk) (c : Filecache) : Prop :=
  ∀ path f, c path = some f → ∃ d ∈ hist, ssifile u d path = some f

/-! ## `getfile` reads a file as it is -/

variable {u : Alnum} {hist : Set Disk} {d : Disk} {c : Filecache}

theorem Known.update {path : List Char} {f : File} (hc : Known u hist c) (hd : d ∈ hist)
    (hf : ssifile u d path = some f) : Known u hist (Function.update c path (some f)) := by
  intro p g hg
  by_cases hp : p = path
  · subst hp
    rw [Function.update_self] at hg
    cases hg
    exact ⟨d, hd, hf⟩
  · rw [Function.update_of_ne hp] at hg
    exact hc p g hg

theorem ssifile_mtime {path : List Char} {f : File} (h : ssifile u d path = some f) :
    ∃ sb, d path = some sb ∧ sb.mtime = f.mtime := by
  obtain ⟨sb, hsb, h⟩ := Option.bind_eq_some_iff.mp h
  obtain ⟨text, -, h⟩ := Option.bind_eq_some_iff.mp h
  cases h
  exact ⟨sb, hsb, rfl⟩

theorem ssifile_congr {d' : Disk} {path : List Char} (h : d path = d' path) :
    ssifile u d path = ssifile u d' path := by
  rw [ssifile, ssifile, h]

/-- What is known of a file whose time is the same is what would be read. -/
theorem Known.ssifile (hc : Known u hist c) (hst : Stamped hist) (hd : d ∈ hist)
    {path : List Char} {f : File} (hf : c path = some f) {sb : Stat} (hsb : d path = some sb)
    (hm : sb.mtime = f.mtime) : Ssi.ssifile u d path = some f := by
  obtain ⟨d', hd', hf'⟩ := hc path f hf
  obtain ⟨sb', hsb', hm'⟩ := ssifile_mtime hf'
  have heq := hst d hd d' hd' path sb sb' hsb hsb' (hm.trans hm'.symm)
  rw [← hf']
  exact ssifile_congr (by rw [hsb, hsb', heq])

variable {vars : Vars}

/-- What comes of writing `ps`, which does not end with an exception if `P` holds. -/
structure Writes (u : Alnum) (hist : Set Disk) (d : Disk) (vars : Vars) (P : Prop)
    (ps : List (List Char ⊕ File)) (s : St) (r : Bool × St) : Prop where
  known : Known u hist r.2.filecache
  ends : r.1 = true ↔ P
  out : r.1 = true → ∃ o, r.2.out = s.out ++ o ∧ Expands (body u d vars) ps o

theorem Writes.text {P : Prop} {ps : List (List Char ⊕ File)} {s : St} {r : Bool × St}
    (t : List Char) (h : Writes u hist d vars P ps { s with out := s.out ++ t } r) :
    Writes u hist d vars P (.inl t :: ps) s r where
  known := h.known
  ends := h.ends
  out hr := by
    obtain ⟨o, hout, ho⟩ := h.out hr
    exact ⟨t ++ o, by rw [hout, List.append_assoc], .text t ho⟩

theorem Writes.doc {P Q : Prop} {ps : List (List Char ⊕ File)} {s s' : St} {r : Bool × St}
    {f : File} (hf : Writes u hist d vars P (body u d vars f) s (true, s'))
    (h : Writes u hist d vars Q ps s' r) : Writes u hist d vars (P ∧ Q) (.inr f :: ps) s r where
  known := h.known
  ends := by rw [h.ends, and_iff_right (hf.ends.mp rfl)]
  out hr := by
    obtain ⟨o, hout, ho⟩ := hf.out rfl
    obtain ⟨o', hout', ho'⟩ := h.out hr
    exact ⟨o ++ o', by rw [hout', hout, List.append_assoc], .doc ho ho'⟩

/-- The files, and what is known of them. -/
structure Server where
  disk : Disk
  filecache : Filecache := fun _ => none

/-- What happens: files are changed, or there is a request. -/
inductive Act
  | write (d : Disk)
  | request (r : Request)

/-- A request is given with the files as they are then, and with its answer. -/
def step (w : World) (s : Server) : Act → List (Disk × Request × Response) × Server
  | .write d => ([], { s with disk := d })
  | .request r =>
    ([(s.disk, r, (wsgi w s.disk s.filecache r).1)],
      { s with filecache := (wsgi w s.disk s.filecache r).2 })

/-- The files of a run, as they are at any time. -/
def written (d : Disk) (acts : List Act) : Set Disk := {d' | d' = d ∨ .write d' ∈ acts}

theorem Stamped.subset {hist hist' : Set Disk} (h : Stamped hist) (hsub : hist' ⊆ hist) :
    Stamped hist' :=
  fun d hd d' hd' => h d (hsub hd) d' (hsub hd')

end Ashd.Ssi
