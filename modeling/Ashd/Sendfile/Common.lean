import Ashd.Lib.Utils
import Ashd.Lib.Resp

/-!
# What `sendfile` and `psendfile` share

`compress.c` is linked into both programs. The other functions here stand in `sendfile.c` and in
`psendfile.c` with the same text, but for where a result is kept.

The file system, the clock, *libmagic* and the functions on HTTP dates are parameters (`World`):
both programs ask them the same questions.
-/

namespace Ashd.Sendfile

/-- A file that is open for reading: what `fstat` tells of it, what `read` gives from its start,
    and whether `lseek` works on it. -/
structure File where
  content : Bytes
  size : ℤ
  mtime : ℤ
  seekable : Bool

/-- What the programs get from outside. -/
structure World where
  /-- `open` for reading and `fstat`. -/
  file : Bytes → Option File
  /-- `openbytype` (compress.c:183–233), from the name of the type and of the file. -/
  openbytype : Bytes → Bytes → Option File
  /-- `getxattr`, from the name of the file and of the attribute. -/
  getxattr : Bytes → Bytes → Option Bytes
  /-- `magic_file`. -/
  magicFile : Bytes → Option Bytes
  /-- `nl_langinfo(CODESET)`. -/
  codeset : Bytes
  parsehttpdate : Bytes → ℤ
  fmthttpdate : ℤ → Bytes
  /-- `time(NULL)`. -/
  now : ℤ

/-! ## `compress.c` -/

/-- `types` (compress.c:121–126), by name. -/
def types : List Bytes := [bytes "deflate"]

/-- `findtype` (compress.c:128–137). -/
def findtype (name : Bytes) : Option Bytes := types.find? (· == name)

/-- `parsetypes` (compress.c:235–253). Every round takes up a byte of the header. -/
def parsetypes : ℕ → Bytes → List Bytes
  | 0, _ => []
  | fuel + 1, p =>
    if p = [] then []
    else
      let p := p.dropWhile isspace
      let type := p.takeWhile fun c => c ≠ 44 ∧ c ≠ 59 ∧ ¬ isspace c
      let p := (p.drop type.length).dropWhile (· ≠ 44)
      (if type = [] then [] else [type]) ++ parsetypes fuel (p.drop 1)

/-- The body of the loop of `ccopen` over the types, with `mfd`, `minsz`, `msb` and `mtype`. -/
def cctype (w : World) (path : Bytes) (sb : File) (m : Option (File × Bytes)) (name : Bytes) :
    Option (File × Bytes) :=
  match findtype name with
  | none => m
  | some type =>
    match w.openbytype type path with
    | none => m
    | some e =>
      if e.size < sb.size ∧ ∀ m' ∈ m, e.size < m'.1.size then some (e, type) else m

/-- `ccopen` (compress.c:255–305): the file to send, and its encoding. A compressed file is sent
    as one that was modified when the original was. -/
def ccopen (w : World) (path : Bytes) (accept : Option Bytes) : Option (File × Option Bytes) :=
  match w.file path with
  | none => none
  | some sb =>
    match accept with
    | none => some (sb, none)
    | some accept =>
      match (parsetypes accept.length accept).foldl (cctype w path sb) none with
      | none => some (sb, none)
      | some (m, type) => some ({ m with mtime := sb.mtime }, some type)

/-! ## Content types -/

/-- The attributes that `attrmimetype` looks at. -/
def attrs : List Bytes :=
  [bytes "user.ash-mime-type", bytes "user.mime-type", bytes "user.mime_type",
    bytes "user.Content-Type"]

/-- `attrmimetype` (sendfile.c:79–105, psendfile.c:52–78). The buffer has room for 1023 bytes. -/
def attrmimetype (w : World) (file : Bytes) : Option Bytes :=
  match attrs.findSome? fun n =>
      (w.getxattr file n).filter fun buf => 0 < buf.length ∧ buf.length ≤ 1023 with
  | none => none
  | some buf => if ∃ c ∈ buf, c < 32 ∨ 128 ≤ c then none else some buf

/-- `getmimetype` (sendfile.c:107–120, psendfile.c:80–90). -/
def getmimetype (w : World) (file : Bytes) : Bytes :=
  match attrmimetype w file with
  | some ret => ret
  | none => (w.magicFile file).getD (bytes "application/octet-stream")

/-- `ckctype` (sendfile.c:124–129, psendfile.c:94–104). -/
def ckctype (w : World) (ctype : Bytes) : Bytes :=
  if bytes "text/" <+: ctype ∧ (59 : UInt8) ∉ ctype then
    ctype ++ bytes "; charset=" ++ w.codeset
  else ctype

/-! ## Requests -/

/-- The comparisons of the method: whether it is HEAD, if it is defined. -/
def ishead (method : Bytes) : Option Bool :=
  if strcaseeq method (bytes "get") then some false
  else if strcaseeq method (bytes "head") then some true
  else none

/-- What `checkcache` finds out: the client has the file as it is. -/
def NotModified (w : World) (sb : File) (hdr : Option Bytes) : Prop :=
  ∃ date ∈ hdr, ¬ w.parsehttpdate date < sb.mtime

instance (w : World) (sb : File) (hdr : Option Bytes) : Decidable (NotModified w sb hdr) :=
  match hdr with
  | none => .isFalse (by simp [NotModified])
  | some date => decidable_of_iff (¬ w.parsehttpdate date < sb.mtime) (by simp [NotModified])

/-- The header line `Content-Encoding`, if there is to be one. -/
def encoding (enctype : Option Bytes) : List (Bytes × Bytes) :=
  (enctype.map fun e => (bytes "Content-Encoding", e)).toList

/-- `strtoll(s, &e, 10)`, with `e`. -/
def strtoll (s : Bytes) : ℤ × Bytes :=
  let t := s.dropWhile isspace
  let t := if t.head? = some 45 ∨ t.head? = some 43 then t.drop 1 else t
  (atoo s, if t.takeWhile isdigit = [] then s else t.dropWhile isdigit)

/-- Arithmetic on `off_t`, in two's complement. -/
def wrap (n : ℤ) : ℤ := Int.bmod n (2 ^ 64)

/-- What `sendrange` makes of a `Range` header: it sends the whole file, or no part of it, or the
    bytes from `start` on that are before `stop`. -/
inductive Range where
  | whole
  | unsatisfiable
  | slice (start stop : ℤ)
  deriving DecidableEq

/-- `sendrange` with `start` and `end` known (sendfile.c:194–206, psendfile.c:190–202). -/
def rangeof (size start stop : ℤ) : Range :=
  if start ≥ size then .unsatisfiable
  else if start < 0 ∨ start ≥ stop then .whole
  else .slice start (if stop > size then size else stop)

/-- `sendrange` up to what it writes (sendfile.c:167–206, psendfile.c:163–202). -/
def rangespec (size : ℤ) (spec : Bytes) : Range :=
  if ¬ bytes "bytes=" <+: spec then .whole
  else
    let buf := spec.drop 6
    if (45 : UInt8) ∉ buf then .whole
    else
      let first := buf.takeWhile (· ≠ 45)
      let p := buf.drop (first.length + 1)
      if first = [] then
        if p = [] then .whole
        else
          let start := wrap (size - (strtoll p).1)
          if (strtoll p).2 ≠ [] then .whole
          else rangeof size (if start < 0 then 0 else start) size
      else
        let start := (strtoll first).1
        if (strtoll first).2 ≠ [] then .whole
        else if p = [] then rangeof size start size
        else if (strtoll p).2 ≠ [] then .whole
        else rangeof size start (wrap ((strtoll p).1 + 1))

/-- A part is not empty, and within the file. -/
theorem rangeof_slice {size start stop s e : ℤ} (h : rangeof size start stop = .slice s e) :
    0 ≤ s ∧ s < e ∧ e ≤ size := by
  unfold rangeof at h
  split_ifs at h with h1 h2 h3
  · obtain ⟨rfl, rfl⟩ := Range.slice.inj h
    omega
  · obtain ⟨rfl, rfl⟩ := Range.slice.inj h
    omega

theorem rangespec_slice {size s e : ℤ} {spec : Bytes} (h : rangespec size spec = .slice s e) :
    0 ≤ s ∧ s < e ∧ e ≤ size := by
  unfold rangespec at h
  simp only at h
  split_ifs at h
  all_goals exact rangeof_slice h

end Ashd.Sendfile
