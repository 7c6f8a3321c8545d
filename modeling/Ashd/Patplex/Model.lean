import Ashd.Lib.Req

/-!
# The pattern matcher

What `patplex` does with a request: it looks for the stanza of its two configurations that
matches the request, makes the changes to the request that the stanza asks for, and passes it
on to a child, or looks for another stanza if this one says `reparse`. Strings hold no NUL.

Regular expressions are values of a type `ρ`, which `regexec` gives a meaning. Of the memory,
only the submatch vectors are modelled: a pointer to one is the number of its allocation, and
`frees` counts how often it has been freed. Nothing else happens when one is freed or read that
had been freed before.

Main definitions:
* `findmatch`: the selection of a stanza.
* `execmatch`, `exprestpat`: the changes to the request.
* `serve`: what is done with a request.
-/

namespace Ashd.Patplex

/-! ## Configurations -/

/-- `PAT_REST`, `PAT_URL`, `PAT_METHOD`, `PAT_HEADER` and `PAT_ALL`. -/
inductive RuleType
  | rest
  | url
  | method
  | header
  | all
  deriving DecidableEq

/-- `struct rule` (src/patplex.c:57–62), with `PATFL_MSS` and `PATFL_UNQ` of `fl`; `header` is
    that of a `header` rule, and `pattern` is not used by an `all` rule. -/
structure Rule (ρ : Type*) where
  type : RuleType
  mss : Bool := false
  unq : Bool := false
  header : Bytes := []
  pattern : ρ

/-- `HND_CHILD` with `childnm`, and `HND_REPARSE`. -/
inductive Handler
  | child (childnm : Bytes)
  | reparse
  deriving DecidableEq

/-- `struct pattern` (src/patplex.c:69–76). -/
structure Pattern (ρ : Type*) where
  headers : List (Bytes × Bytes) := []
  rules : List (Rule ρ)
  restpat : Option Bytes := none
  handler : Handler
  prio : ℤ := 0
  disable : Bool := false

/-- `struct config` (src/patplex.c:52–55), with the names of the children. -/
structure Config (ρ : Type*) where
  children : List Bytes := []
  patterns : List (Pattern ρ)

/-- The variables `lconfig` and `gconfig`. -/
structure Configs (ρ : Type*) where
  lconfig : Config ρ
  gconfig : Option (Config ρ) := none

/-- In which configuration a stanza is, and where. -/
structure Place where
  lcl : Bool
  index : ℕ
  deriving DecidableEq

variable {ρ : Type*}

/-- The stanzas of a configuration, with their places. -/
def Config.stanzas (cf : Config ρ) (lcl : Bool) : List (Place × Pattern ρ) :=
  cf.patterns.zipIdx.map fun (pat, i) => (⟨lcl, i⟩, pat)

def Config.setDisable (cf : Config ρ) (i : ℕ) (disable : Bool) : Config ρ :=
  { cf with patterns := cf.patterns.modify i fun pat => { pat with disable := disable } }

/-- `match->pat->disable = disable`. -/
def Configs.setDisable (cfs : Configs ρ) (pl : Place) (disable : Bool) : Configs ρ :=
  if pl.lcl then { cfs with lconfig := cfs.lconfig.setDisable pl.index disable }
  else { cfs with gconfig := cfs.gconfig.map fun cf => cf.setDisable pl.index disable }

/-! ## Memory -/

structure Mem where
  next : ℕ := 0
  vec : ℕ → List Bytes := fun _ => []
  frees : ℕ → ℕ := fun _ => 0

/-- `freeca`, of a pointer that may be `NULL`. -/
def freeca (mstr : Option ℕ) (mem : Mem) : Mem :=
  match mstr with
  | none => mem
  | some v => { mem with frees := Function.update mem.frees v (mem.frees v + 1) }

@[simp] theorem freeca_next (mstr : Option ℕ) (mem : Mem) : (freeca mstr mem).next = mem.next := by
  cases mstr <;> rfl

@[simp] theorem freeca_vec (mstr : Option ℕ) (mem : Mem) : (freeca mstr mem).vec = mem.vec := by
  cases mstr <;> rfl

/-- A new submatch vector. -/
def alloc (strs : List Bytes) (mem : Mem) : ℕ × Mem :=
  (mem.next, { mem with next := mem.next + 1, vec := Function.update mem.vec mem.next strs })

/-! ## Matching -/

/-- The groups of a match in a string of the length `len`, as `regexec` sets the ten elements
    of `gr`; `rm_so` is -1 for a group that takes no part in the match. -/
structure Groups (len : ℕ) where
  gr : ℕ → Option (ℕ × ℕ)
  whole : (gr 0).isSome
  bounds : ∀ o so eo, gr o = some (so, eo) → so ≤ eo ∧ eo ≤ len

/-- `hexdigit` (lib/utils.c:311–317). -/
def hexdigit (c : UInt8) : Option ℕ := digitVal c

/-- The loop of `qoffsets` that unquotes, from the offset `i`. -/
def unquoteLoop : ℕ → Bytes → Bytes × List ℕ
  | i, [] => ([], [i])
  | i, c :: pstr =>
    let plain :=
      match unquoteLoop (i + 1) pstr with
      | (buf, obuf) => (c :: buf, i :: obuf)
    match pstr with
    | x1 :: x2 :: rest =>
      if c = 37 then
        match hexdigit x1, hexdigit x2 with
        | some d1, some d2 =>
          match unquoteLoop (i + 3) rest with
          | (buf, obuf) => (UInt8.ofNat (d1 * 16 + d2) :: buf, i :: obuf)
        | _, _ => plain
      else plain
    | _ => plain

/-- `qoffsets` (src/patplex.c:382–409): `buf` and `obuf`. -/
def qoffsets (pstr : Bytes) (unquote : Bool) : Bytes × List ℕ :=
  if unquote then unquoteLoop 0 pstr else (pstr, List.range (pstr.length + 1))

/-- What a rule is about (src/patplex.c:443–456). -/
def Rule.subject (req : Hthead) (rule : Rule ρ) : Option Bytes :=
  match rule.type with
  | .rest => some req.rest
  | .url => some req.url
  | .method => some req.method
  | .header => getheader req rule.header
  | .all => none

/-- The text of `pstr` from `obuf[so]` to `obuf[eo]`. -/
def substr (pstr : Bytes) (obuf : List ℕ) (g : ℕ × ℕ) : Bytes :=
  (pstr.drop (obuf.getD g.1 0)).take (obuf.getD g.2 0 - obuf.getD g.1 0)

/-- The loop that fills a submatch vector, from group `o` on, for `n` groups. -/
def mstrLoop (str : ℕ → Option Bytes) : ℕ → ℕ → List Bytes
  | 0, _ => []
  | n + 1, o =>
    match str o with
    | none => []
    | some s => s :: mstrLoop str n (o + 1)

section Serve

variable (regexec : ρ → (s : Bytes) → Option (Groups s.length))

/-- The loop of `findmatch` over the rules of a stanza: whether all of them match, and the
    values of `rmo` (where -1 is `none`) and `mstr`. -/
def ruleLoop (req : Hthead) : List (Rule ρ) → Option ℕ → Option ℕ → Mem → Bool × Option ℕ × Option ℕ × Mem
  | [], rmo, mstr, mem => (true, rmo, mstr, mem)
  | rule :: rules, rmo, mstr, mem =>
    if rule.type = .all then ruleLoop req rules rmo mstr mem
    else
      match rule.subject req with
      | none => (false, rmo, mstr, mem)
      | some pstr =>
        match qoffsets pstr rule.unq with
        | (pbuf, obuf) =>
          match regexec rule.pattern (cstr pbuf) with
          | none => (false, rmo, mstr, mem)
          | some gs =>
            let rmo := if rule.type = .rest then (gs.gr 0).map fun g => obuf.getD g.2 0 else rmo
            if rule.mss then
              let mem := freeca mstr mem
              let str := fun o => (gs.gr o).map (substr pstr obuf)
              match alloc (mstrLoop str 10 0) mem with
              | (v, mem) => ruleLoop req rules rmo (some v) mem
            else ruleLoop req rules rmo mstr mem

/-- `struct match` (src/patplex.c:411–415), with the place of the stanza. -/
structure Match (ρ : Type*) where
  place : Place
  pat : Pattern ρ
  mstr : Option ℕ
  rmo : Option ℕ

/-- `freematch` (src/patplex.c:417–421). -/
def freematch (m : Match ρ) (mem : Mem) : Mem := freeca m.mstr mem

/-- `findmatch` (src/patplex.c:423–494), from a stanza on; `mstr` is the variable of that
    name. -/
def findmatch (req : Hthead) : List (Place × Pattern ρ) → Option ℕ → Option (Match ρ) → Mem →
    Option (Match ρ) × Mem
  | [], _, m, mem => (m, mem)
  | (place, pat) :: pats, mstr, m, mem =>
    if pat.disable ∨ m.any (fun m => pat.prio ≤ m.pat.prio) then findmatch req pats mstr m mem
    else
      match ruleLoop regexec req pat.rules none mstr mem with
      | (true, rmo, mstr, mem) =>
        let mem :=
          match m with
          | some m => freematch m mem
          | none => mem
        findmatch req pats mstr (some ⟨place, pat, mstr, rmo⟩) mem
      | (false, _, mstr, mem) => findmatch req pats mstr m mem

/-! ## Changes to the request -/

/-- The loop of `exprestpat`. After `${NAME}`, the pointer is still at the brace. -/
def restpatLoop (req : Hthead) (mstr : List Bytes) : Bytes → Bytes
  | [] => []
  | [c] => if c = 36 then [] else [c]
  | c :: d :: p =>
    if c = 36 then
      if 48 ≤ d ∧ d ≤ 57 then mstr.getD (d.toNat - 48) [] ++ restpatLoop req mstr p
      else if d = 95 then req.rest ++ restpatLoop req mstr p
      else if d = 36 then 36 :: restpatLoop req mstr p
      else if d = 123 then
        if 125 ∈ p then (getheader req (p.takeWhile (· ≠ 125))).getD [] ++ restpatLoop req mstr (d :: p)
        else restpatLoop req mstr p
      else restpatLoop req mstr (d :: p)
    else c :: restpatLoop req mstr (d :: p)

/-- `exprestpat` (src/patplex.c:339–380). -/
def exprestpat (req : Hthead) (restpat : Bytes) (mstr : List Bytes) : Hthead :=
  replrest req (restpatLoop req mstr restpat)

/-- `execmatch` (src/patplex.c:496–508). -/
def execmatch (mem : Mem) (req : Hthead) (m : Match ρ) : Hthead :=
  let req :=
    match m.pat.restpat with
    | some restpat => exprestpat req restpat (m.mstr.elim [] mem.vec)
    | none =>
      match m.rmo with
      | some rmo => replrest req (req.rest.drop rmo)
      | none => req
  m.pat.headers.foldl (fun req head => headappheader (headrmheader req head.1) head.1 head.2) req

/-! ## Requests -/

/-- What `childhandle` returns, and if it fails, whether `errno` is `EAGAIN`. -/
inductive ChildResult
  | handled
  | again
  | failed

/-- What is done with a request: it is passed on to a child, or answered with an error. -/
inductive Action
  | passed (childnm : Bytes) (req : Hthead)
  | error (code : ℕ) (msg text : Bytes)

/-- `childerror` (src/patplex.c:510–516). -/
def childerror : ChildResult → Action
  | .again => .error 500 (bytes "Server Error") (bytes "The request handler is overloaded.")
  | _ => .error 500 (bytes "Server Error") (bytes "The request handler crashed.")

variable (childhandle : Bytes → Hthead → ChildResult)

/-- Passing a request to a child that both configurations are searched for
    (src/patplex.c:532–544). -/
def handle (cfs : Configs ρ) (childnm : Bytes) (req : Hthead) : Action :=
  if childnm ∈ cfs.lconfig.children ∨ cfs.gconfig.any (fun cf => childnm ∈ cf.children) then
    match childhandle childnm req with
    | .handled => .passed childnm req
    | res => childerror res
  else
    .error 500 (bytes "Configuration Error")
      (bytes "The server is erroneously configured. Handler " ++ childnm ++
        bytes " was requested, but not declared.")

/-- The two calls of `findmatch` in `serve`. -/
def findmatches (cfs : Configs ρ) (req : Hthead) (mem : Mem) : Option (Match ρ) × Mem :=
  match findmatch regexec req (cfs.lconfig.stanzas true) none none mem with
  | (m, mem) =>
    match cfs.gconfig with
    | some cf => findmatch regexec req (cf.stanzas false) none m mem
    | none => (m, mem)

/-- `serve` (src/patplex.c:518–556), for at most `n` calls: what has been done with the
    request, and the configurations and the memory afterwards. -/
def serve : ℕ → Configs ρ → Mem → Hthead → Option (List Action × Configs ρ × Mem)
  | 0, _, _, _ => none
  | n + 1, cfs, mem, req =>
    match findmatches regexec cfs req mem with
    | (none, mem) =>
      some ([.error 404 (bytes "Not Found")
        (bytes "The requested resource could not be found on this server.")], cfs, mem)
    | (some m, mem) =>
      let req := execmatch mem req m
      match m.pat.handler with
      | .child childnm => some ([handle childhandle cfs childnm req], cfs, freematch m mem)
      | .reparse =>
        match serve n (cfs.setDisable m.place true) mem req with
        | none => none
        | some (acts, cfs, mem) => some (acts, cfs.setDisable m.place false, freematch m mem)

end Serve

end Ashd.Patplex
