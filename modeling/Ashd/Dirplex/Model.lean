import Ashd.Lib.Req
import Mathlib.Data.List.DropRight

/-!
# The directory multiplexer

What `dirplex` does with a request: it follows the rest string from the served directory to a
file or a directory, and passes the request on to the handler for it, or answers it. Strings
hold no NUL.

The file system is what `stat` and `readdir` say during one request, and the `.htrc` files in
it are given as `getconfig` returns them. `fnmatch` has a meaning of its own, and so has what
becomes of a request that is passed to a child.

Main definitions:
* `findchild`, `findmatch`: the search of the configurations.
* `handlefile`, `handledir`, `handle404`: what is done with what has been found.
* `checkpath`: the way from the rest string to a file or a directory.
* `serve`: what is done with a request.
-/

namespace Ashd.Dirplex

/-! ## Configurations -/

/-- `PT_FILE`, `PT_DIR` and `PT_NOTFOUND`. -/
inductive PatType
  | file
  | directory
  | notfound
  deriving DecidableEq

/-- `struct rule` (src/dirplex/dirplex.h:25–28), with `PAT_BASENAME`, `PAT_PATHNAME`, `PAT_ALL`,
    `PAT_DEFAULT` and `PAT_LOCAL`. -/
inductive Rule
  | basename (patterns : List Bytes)
  | pathname (patterns : List Bytes)
  | all
  | dflt
  | lcl

/-- `fchild` of a stanza if it is not `NULL`, and `childnm` if it is. -/
inductive Handler
  | fork (fchild : List Bytes)
  | child (childnm : Bytes)

/-- `struct pattern` (src/dirplex/dirplex.h:35–42). -/
structure Pattern where
  type : PatType
  headers : List (Bytes × Bytes) := []
  handler : Handler
  rules : List Rule

/-- `struct config` (src/dirplex/dirplex.h:14–23), with the names of the children. -/
structure Config where
  path : Option Bytes := none
  children : List Bytes := []
  patterns : List Pattern := []
  index : Option (List Bytes) := none
  dotallow : Option (List Bytes) := none
  capture : Option Bytes := none
  caproot : Bool := false
  reparse : Option Bytes := none
  parsecomb : Bool := false

/-- `S_ISDIR`, `S_ISREG` and neither. -/
inductive FileType
  | dir
  | reg
  | other
  deriving DecidableEq

/-- What is served: the file system, with the `.htrc` files, and the variables `lconfig` and
    `gconfig`. `readdir` gives the names in a directory, and none if it cannot be opened. -/
structure Site where
  stat : Bytes → Option FileType
  readdir : Bytes → List Bytes
  named : ∀ path, ∀ name ∈ readdir path, name ≠ [] ∧ 47 ∉ name
  dots : ∀ path, stat (path ++ [47, 46]) ≠ some .reg ∧ stat (path ++ [47, 46, 46]) ≠ some .reg
  htrc : Bytes → Config
  lconfig : Option Config := none
  gconfig : Option Config := none

/-- `getconfig` (src/dirplex/conf.c:299–339). During one request, `now` does not change, and so
    neither do the configurations. -/
def Site.getconfig (site : Site) (path : Bytes) : Config := { site.htrc path with path := some path }

/-- Skipping `./`. -/
def skipDot : Bytes → Bytes
  | 46 :: 47 :: path => path
  | path => path

/-- The values of `tmp` in the loop of `getconfigs`: what is before each slash, from the last
    one on. -/
def parents : Bytes → List Bytes
  | [] => []
  | c :: file => (parents file).map (c :: ·) ++ if c = 47 then [[]] else []

/-- `getconfigs` (src/dirplex/conf.c:341–373). -/
def Site.getconfigs (site : Site) (file : Bytes) : List Config :=
  (parents (skipDot file)).map site.getconfig ++ site.getconfig [46] :: (site.lconfig.toList ++ site.gconfig.toList)

/-- A child with the `path` of its configuration, and the child `notfound`. -/
inductive Child
  | declared (path : Option Bytes) (name : Bytes)
  | notfound

def Child.path : Child → Option Bytes
  | .declared path _ => path
  | .notfound => none

/-- Whether `getchild` (src/dirplex/conf.c:95–104) finds a child. -/
def Config.getchild (cf : Config) (name : Bytes) : Bool := cf.children.contains name

/-- `findchild` (src/dirplex/conf.c:375–394). -/
def Site.findchild (site : Site) (file name : Bytes) : Option Child :=
  match (site.getconfigs file).find? fun cf => cf.getchild name with
  | some cf => some (.declared cf.path name)
  | none => if name = bytes ".notfound" then some .notfound else none

section Serve

variable (fnmatch : (pattern string : Bytes) → (pathname : Bool) → Bool)

/-- Whether a rule matches, with the values of `bn` and `ln` (src/dirplex/conf.c:423–446). -/
def Rule.matches (trydefault : Bool) (bn ln : Bytes) : Rule → Bool
  | .basename patterns => patterns.any fun pattern => fnmatch pattern bn false
  | .pathname patterns => patterns.any fun pattern => fnmatch pattern ln true
  | .all => true
  | .dflt => trydefault
  | .lcl => 47 ∉ ln

/-- `ln` (src/dirplex/conf.c:411–419). -/
def Config.localName (cf : Config) (file : Bytes) : Bytes :=
  match cf.path with
  | none => file
  | some path => if path ++ [47] <+: file then file.drop (path.length + 1) else file

/-- The loop of `findmatch` over the configurations. -/
def Site.searchMatch (site : Site) (file : Bytes) (trydefault : Bool) (type : PatType) : Option Pattern :=
  (site.getconfigs file).findSome? fun cf =>
    cf.patterns.find? fun pat =>
      pat.type = type ∧
        pat.rules.all fun rule => rule.matches fnmatch trydefault (file.rtakeWhile (· ≠ 47)) (cf.localName file)

/-- `findmatch` (src/dirplex/conf.c:396–454). -/
def Site.findmatch (site : Site) (file : Bytes) (trydefault : Bool) (type : PatType) : Option Pattern :=
  match site.searchMatch fnmatch file trydefault type with
  | some pat => some pat
  | none => if trydefault then none else site.searchMatch fnmatch file true type

/-! ## Handlers -/

/-- What `childhandle` returns, and if it fails, whether `errno` is `EAGAIN`. -/
inductive ChildResult
  | handled
  | again
  | failed

/-- What is done with a request. First the functions that are called with a path, and then what
    answers the request: a process is forked for it, it is passed on to a child that runs in
    `twd`, or it is answered with a redirect or an error. -/
inductive Event
  | handlefile (path : Bytes)
  | handledir (path : Bytes)
  | handle404 (path : Bytes)
  | forked (fchild : List Bytes) (req : Hthead)
  | passed (childpath : Option Bytes) (childnm : Bytes) (twd : Option Bytes) (req : Hthead)
  | redirect (req : Hthead) (code : ℕ) (dst : Bytes)
  | error (code : ℕ) (msg text : Bytes)

/-- `childerror` (src/dirplex/dirplex.c:59–65). -/
def childerror : ChildResult → List Event
  | .again => [.error 500 (bytes "Server Error") (bytes "The request handler is overloaded.")]
  | _ => [.error 500 (bytes "Server Error") (bytes "The request handler crashed.")]

/-- The text of an error about a child that is not declared. -/
def undeclared (childnm : Bytes) : List Event :=
  [.error 500 (bytes "Configuration Error")
    (bytes "The server is erroneously configured. Handler " ++ childnm ++ bytes " was requested, but not declared.")]

variable (childhandle : Child → Hthead → ChildResult)

/-- Calling `childhandle`, and `childerror` if it fails; `donotfound` never does. -/
def dispatch (ch : Child) (req : Hthead) (twd : Option Bytes) : List Event :=
  match ch with
  | .notfound =>
    [.error 404 (bytes "Not Found") (bytes "The requested URL has no corresponding resource.")]
  | .declared path name =>
    match childhandle ch req with
    | .handled => [.passed path name twd req]
    | res => childerror res

/-- Where a child runs, and the name of the file from there (src/dirplex/dirplex.c:89–100). -/
def workdir (path : Bytes) : Option Bytes → Option (Bytes × Option Bytes)
  | none => some (path, none)
  | some twd =>
    if twd = [46] then some (path, none)
    else if twd ++ [47] <+: path then some (path.drop (twd.length + 1), some twd)
    else none

/-- `handle` (src/dirplex/dirplex.c:67–105). -/
def Site.handle (site : Site) (req : Hthead) (path : Bytes) (pat : Pattern) : List Event :=
  let req := pat.headers.foldl (fun req head => headappheader (headrmheader req head.1) head.1 head.2) req
  let path :=
    match path with
    | 46 :: 47 :: c :: path => c :: path
    | path => path
  match pat.handler with
  | .fork fchild => [.forked fchild (headappheader req (bytes "X-Ash-File") path)]
  | .child childnm =>
    match site.findchild path childnm with
    | none => undeclared childnm
    | some ch =>
      match workdir path ch.path with
      | none => [.error 500 (bytes "Server Error") (bytes "An internal server error occurred.")]
      | some (path, twd) => dispatch childhandle ch (headappheader req (bytes "X-Ash-File") path) twd

/-- `handle404` (src/dirplex/dirplex.c:107–122). -/
def Site.handle404 (site : Site) (req : Hthead) (path : Bytes) : List Event :=
  .handle404 path ::
    match site.findmatch fnmatch path false .notfound with
    | some pat => site.handle childhandle req path pat
    | none =>
      match site.findchild path (bytes ".notfound") with
      | some ch => dispatch childhandle ch req ch.path
      | none => []

/-- `handlefile` (src/dirplex/dirplex.c:124–133). -/
def Site.handlefile (site : Site) (req : Hthead) (path : Bytes) : List Event :=
  .handlefile path ::
    match site.findmatch fnmatch path false .file with
    | none => site.handle404 fnmatch childhandle req path
    | some pat => site.handle childhandle req path pat

/-- `checkaccess` (src/dirplex/dirplex.c:135–154). -/
def Site.checkaccess (site : Site) (path name : Bytes) : Bool :=
  if name.head? = some 46 then
    match (site.getconfigs (path ++ [47])).findSome? Config.dotallow with
    | some patterns => patterns.any fun pattern => fnmatch pattern name false
    | none => false
  else true

/-- `findfile` (src/dirplex/dirplex.c:156–198). -/
def Site.findfile (site : Site) (path name : Bytes) : Option Bytes :=
  ((site.readdir path).find? fun d =>
    d.getLast? ≠ some 126 ∧ 46 ∈ d ∧ d.takeWhile (· ≠ 46) = name ∧
      site.stat (path ++ 47 :: d) = some .reg ∧ site.checkaccess fnmatch path d = true).map fun d => path ++ 47 :: d

/-- The loop of `handledir` over the names of index files. -/
def Site.findindex (site : Site) (path : Bytes) (names : List Bytes) : Option Bytes :=
  names.findSome? fun inm =>
    if site.stat (path ++ 47 :: inm) = some .reg then some (path ++ 47 :: inm)
    else if 46 ∈ inm then none
    else site.findfile fnmatch path inm

/-- `handledir` (src/dirplex/dirplex.c:200–239). -/
def Site.handledir (site : Site) (req : Hthead) (path : Bytes) : List Event :=
  let cpath := path ++ [47]
  .handledir path ::
    match ((site.getconfigs cpath).findSome? Config.index).bind (site.findindex fnmatch path) with
    | some ipath => site.handlefile fnmatch childhandle req ipath
    | none =>
      match site.findmatch fnmatch cpath false .directory with
      | some pat => site.handle childhandle req cpath pat
      | none => [.error 403 (bytes "Not Authorized") (bytes "Will not send listings for this directory.")]

/-! ## The way to a file or directory -/

/-- `newpath` of `checkdir` (src/dirplex/dirplex.c:306). -/
def reparsePath (path reparse : Bytes) : Bytes :=
  if reparse.head? = some 47 then reparse else path ++ 47 :: reparse

/-- The handler that a directory is captured for. -/
def Config.captured (cf : Config) : Option Bytes :=
  if cf.caproot = true ∨ cf.path ≠ some [46] then cf.capture else none

/-- The first element of the rest string, and what is left of it, with its slash
    (src/dirplex/dirplex.c:337–346). -/
def splitRest (rest : Bytes) : Bytes × Bytes := (rest.takeWhile (· ≠ 47), rest.dropWhile (· ≠ 47))

/-- What has been done with the request, and the value that is returned: whether it has been
    answered. -/
abbrev Result := List Event × Bool

/-- `checkentry` (src/dirplex/dirplex.c:243–278), with what `checkpath` does. -/
def Site.checkentry (site : Site) (checkpath : Bytes → Bytes → Bool → Option Result) (req : Hthead)
    (path rest el : Bytes) (final : Bool) : Option Result :=
  match site.stat (path ++ 47 :: el) with
  | some type =>
    if site.checkaccess fnmatch path el = false then some ([], false)
    else
      match type with
      | .dir =>
        if rest = [] then some ([.redirect req 301 (el ++ [47])], true)
        else checkpath (path ++ 47 :: el) (rest.drop 1) final
      | .reg => some (site.handlefile fnmatch childhandle (replrest req rest) (path ++ 47 :: el), true)
      | .other => some (site.handle404 fnmatch childhandle req (path ++ [47]), true)
  | none =>
    if 46 ∈ el then some ([], false)
    else
      match site.findfile fnmatch path el with
      | some newpath => some (site.handlefile fnmatch childhandle (replrest req rest) newpath, true)
      | none => some ([], false)

/-- `checkdir` (src/dirplex/dirplex.c:280–322), with what `checkpath` does. -/
def Site.checkdir (site : Site) (checkpath : Bytes → Bytes → Bool → Option Result) (req : Hthead)
    (path rest : Bytes) : Option Result :=
  let cf := site.getconfig path
  match cf.captured with
  | some capture =>
    match site.findchild (path ++ [47]) capture with
    | none => some (undeclared capture, true)
    | some ch =>
      let rest := if rest.head? = some 47 then rest.drop 1 else rest
      some (dispatch childhandle ch (replrest req rest) ch.path, true)
  | none =>
    match cf.reparse with
    | some reparse =>
      let newpath := reparsePath path reparse
      match site.stat newpath with
      | some .dir => checkpath newpath rest (!cf.parsecomb)
      | some .reg => some (site.handlefile fnmatch childhandle (replrest req rest) newpath, true)
      | _ => some ([], !cf.parsecomb)
    | none => some ([], false)

/-- What `checkpath` does after `checkdir`, up to the label `out`
    (src/dirplex/dirplex.c:337–362). -/
def Site.checkrest (site : Site) (checkpath : Bytes → Bytes → Bool → Option Result) (req : Hthead)
    (path rest : Bytes) (final : Bool) : Option Result :=
  match splitRest rest with
  | (first, rest) =>
    match (unquoteurl first).map cstr with
    | none =>
      some ([.error 400 (bytes "Bad Request") (bytes "The requested URL contains an invalid escape sequence.")], true)
    | some el =>
      if 47 ∈ el ∨ (el = [] ∧ rest ≠ []) then some ([], false)
      else if el = [] then some (site.handledir fnmatch childhandle (replrest req rest) path, true)
      else site.checkentry fnmatch childhandle checkpath req path rest el final

/-- What is after the label `out` of `checkpath`. -/
def Site.finish (site : Site) (req : Hthead) (path : Bytes) (final : Bool) : Result → Result
  | (evs, rv) =>
    if final = true ∧ rv = false then (evs ++ site.handle404 fnmatch childhandle req (path ++ [47]), true)
    else (evs, rv)

/-- `checkpath` (src/dirplex/dirplex.c:324–372), for at most `n` calls that are within each
    other. -/
def Site.checkpath (site : Site) (req : Hthead) : ℕ → Bytes → Bytes → Bool → Option Result
  | 0, _, _, _ => none
  | n + 1, path, rest, final =>
    let path := skipDot path
    match site.checkdir fnmatch childhandle (site.checkpath req n) req path rest with
    | none => none
    | some (evs, true) => some (evs, true)
    | some (evs, false) =>
      match site.checkrest fnmatch childhandle (site.checkpath req n) req path rest final with
      | none => none
      | some res =>
        match site.finish fnmatch childhandle req path final res with
        | (evs', rv) => some (evs ++ evs', rv)

/-- `serve` (src/dirplex/dirplex.c:374–378), for at most `n` nested calls of `checkpath`. -/
def Site.serve (site : Site) (n : ℕ) (req : Hthead) : Option (List Event) :=
  (site.checkpath fnmatch childhandle req n [46] req.rest true).map Prod.fst

end Serve

end Ashd.Dirplex
