import Mathlib.Data.List.DropRight
import Ashd.Common.Nesting
import Ashd.Lib.Utils

/-!
# `lib/cf.c`: configuration files

The parser of configuration files, which runs as a coroutine of the program that reads them:
`getcfline` resumes it, and it yields when it has a line. In between, the program may set
`expstart`.

The parser is a function that makes the whole sequence of the lines, with what happens at each
of them, from the files and the consumer, who decides on `expstart` by the lines received so
far. The recursion for included files is bounded: a run that goes deeper, and in particular one
in which a file includes itself, is cut off there, and so is one that nests 80 blocks, for which
there is no room in `indst`.

Main definitions:
* `parseline`, `parsefile`, `doinclude`: the parser.
* `getcflines`: what happens when a file is parsed.
* `marks`: the blocks that are opened and closed by it.
-/

namespace Ashd.Cf

/-! ## Lines -/

/-- What the parser yields: `start`, `end` or `eof`, or the words of a line of a file, with the
    column at which it starts. -/
inductive Line
  | start
  | stop
  | eof
  | words (w : List Bytes) (ind : ℕ)
  deriving DecidableEq

/-- `s->res`. -/
def Line.argv : Line → List Bytes
  | .start => [bytes "start"]
  | .stop => [bytes "end"]
  | .eof => [bytes "eof"]
  | .words w _ => w

/-- A line that has been received, after which the consumer may have set `expstart`, or the
    beginning or the end of an included file. -/
inductive Event
  | got (line : Line) (request : Bool)
  | enter
  | leave
  deriving DecidableEq

/-- Whether the consumer sets `expstart` when the last of these lines has been received. -/
abbrev Consumer := List (List Bytes) → Bool

/-- The files, and what `tokenize` makes of a line with an open quote, which depends on what is
    behind it in memory. -/
structure Files where
  glob : Bytes → List Bytes
  fopen : Bytes → Option Bytes
  stray : List Event → Bytes → List Bytes

/-- The state of the parser and the consumer: the flag, the lines received, what has happened,
    and whether the run has been cut off. -/
structure State where
  expstart : Bool := false
  received : List (List Bytes) := []
  trace : List Event := []
  halted : Bool := false

def State.halt (s : State) : State := { s with halted := true }

/-- `s->res = …; if(yield()) return(1);`, the consumer receiving the line. -/
def State.emit (consumer : Consumer) (line : Line) (s : State) : State :=
  if s.halted then s
  else
    let received := s.received ++ [line.argv]
    { s with expstart := s.expstart || consumer received
             received := received
             trace := s.trace ++ [.got line (consumer received)] }

def State.enter (s : State) : State :=
  if s.halted then s else { s with trace := s.trace ++ [.enter] }

def State.leave (s : State) : State :=
  if s.halted then s else { s with trace := s.trace ++ [.leave] }

/-! ## Reading -/

/-- The lines that `fgets` reads into `line`, which has room for 1023 bytes. -/
def fgetsLines (line : Bytes) : Bytes → List Bytes
  | [] => if line = [] then [] else [line]
  | c :: text =>
    let line := line ++ [c]
    if c = 10 ∨ line.length = 1023 then line :: fgetsLines [] text else fgetsLines line text

/-- The loop that finds the column of a line (lib/cf.c:118–126): the column and the rest. -/
def indent : ℕ → Bytes → ℕ × Bytes
  | ind, [] => (ind, [])
  | ind, c :: p =>
    if c = 32 then indent (ind + 1) p
    else if c = 9 then indent (ind - ind % 8 + 8) p
    else (ind, c :: p)

section Parser

variable (consumer : Consumer)

/-- `indst[++indl] = ind`, and what comes with it (lib/cf.c:132–139). -/
def push (ind : ℕ) (indst : List ℕ) (s : State) : List ℕ × State :=
  if indst.length ≥ 80 then (indst, s.halt)
  else if s.expstart = false then (ind :: indst, s.emit consumer .start)
  else (ind :: indst, { s with expstart := false })

/-- The loop over the blocks that end (lib/cf.c:147–152). -/
def dedent (ind : ℕ) : List ℕ → State → List ℕ × State
  | [], s => ([], s)
  | top :: indst, s =>
    if ind < top then dedent ind indst (s.emit consumer .stop) else (top :: indst, s)

/-- `s->expstart`, when the line is not further to the right (lib/cf.c:141–146). -/
def expired (s : State) : State :=
  if s.expstart then { s.emit consumer .stop with expstart := false } else s

/-- The part at `reindent` (lib/cf.c:130–157). It is gone through again at most once, to push. -/
def reindent (ind : ℕ) (indst : List ℕ) (s : State) : List ℕ × State :=
  if ind > indst.headD 0 then push consumer ind indst s
  else
    let (indst, s) := dedent consumer ind indst (expired consumer s)
    if ind > indst.headD 0 then push consumer ind indst s else (indst, s)

/-- The body of the loop of `parsefile` for a line that is read (lib/cf.c:109–190), `doinclude`
    being given. -/
def parseline (files : Files) (doinclude : Bytes → State → State) (line : Bytes)
    (st : List ℕ × State) : List ℕ × State :=
  let line := (cstr line).rdropWhile isspace
  let (ind, p) := indent 0 line
  if p = [] ∨ p.head? = some 35 then st
  else
    let (indst, s) := reindent consumer ind st.1 st.2
    let w := (tokenize line).getD (files.stray s.trace line)
    if w.length < 1 then (indst, s)
    else if indst.length = 1 ∧ w.head? = some (bytes "include") then
      (indst, w.tail.foldl (fun s spec => doinclude spec s) s)
    else if w.head? = some (bytes "start") ∨ w.head? = some (bytes "end") ∨
        w.head? = some (bytes "eof") then (indst, s)
    else (indst, s.emit consumer (.words w ind))

/-- `parsefile` (lib/cf.c:93–192), up to its return when the end of the text is reached. -/
def parselines (files : Files) (doinclude : Bytes → State → State) (text : Bytes) (s : State) :
    State :=
  let st := (fgetsLines [] text).foldl (fun st line => parseline consumer files doinclude line st)
    ([0], s)
  (reindent consumer 0 st.1 st.2).2

end Parser

/-! ## Included files -/

/-- `dirname` of the C library. -/
def dirname (path : Bytes) : Bytes :=
  let p := path.rdropWhile (· = 47)
  if p = [] then if path = [] then bytes "." else bytes "/"
  else
    let d := p.rdropWhile (· ≠ 47)
    if d = [] then bytes "."
    else if d.rdropWhile (· = 47) = [] then bytes "/"
    else d.rdropWhile (· = 47)

/-- `fspec` in `doinclude` (lib/cf.c:64–70). -/
def fspec (file spec : Bytes) : Bytes :=
  if spec.head? = some 47 then spec else dirname file ++ 47 :: spec

/-- The loop of `doinclude` (lib/cf.c:73–84), `parsefile` being given. -/
def doinclude (files : Files) (parsefile : Bytes → Bytes → State → State) (file spec : Bytes)
    (s : State) : State :=
  (files.glob (fspec file spec)).foldl (fun s path =>
    match files.fopen path with
    | none => s
    | some text => (parsefile path text s.enter).leave) s

/-- `parsefile`, with at most `fuel` files open at a time. -/
def parsefile (consumer : Consumer) (files : Files) : ℕ → Bytes → Bytes → State → State
  | 0, _, _, s => s.halt
  | fuel + 1, file, text, s =>
    parselines consumer files (doinclude files (parsefile consumer files fuel) file) text s

/-- `parsefn` (lib/cf.c:194–208), `getcfline` being called up to `n` times after the end. -/
def parsefn (consumer : Consumer) (files : Files) (fuel n : ℕ) (file text : Bytes) : State :=
  (State.emit consumer .eof)^[n] (parsefile consumer files fuel file text {})

/-- What happens when a file is parsed. -/
def getcflines (consumer : Consumer) (files : Files) (fuel n : ℕ) (file text : Bytes) : List Event :=
  (parsefn consumer files fuel n file text).trace

/-! ## Blocks -/

/-- The marks of a line: a `start` and a request open a block, an `end` closes one, and none may
    be open at a line that is not indented, or at the end. -/
def Line.marks : Line → List Mark
  | .start => [.opens]
  | .stop => [.closes]
  | .eof => [.finish]
  | .words _ ind => if ind = 0 then [.flat] else []

def Event.marks : Event → List Mark
  | .got line request => line.marks ++ if request then [.opens] else []
  | .enter => [.enter]
  | .leave => [.leave]

def marks (trace : List Event) : List Mark := trace.flatMap Event.marks

end Ashd.Cf
