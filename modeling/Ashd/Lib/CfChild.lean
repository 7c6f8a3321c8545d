import Ashd.Lib.CfBlocks
import Ashd.Lib.Children

/-!
# Declarations of children

`parsechild` (lib/cf.c:458–522), which the programs call for every line that is not in a block.

Main results:
* `decl_item`: a declaration that has been written is read.
* `closes_argv`: a child that is declared has a program.
-/

namespace Ashd.Cf.Blocks

/-- `struct child` with its `struct stdchild`, as `parsechild` makes it. -/
structure Decl where
  type : ChildType
  name : Bytes
  argv : List Bytes
  envp : List (Bytes × Bytes) := []
  deriving DecidableEq

/-- A declaration that is read. -/
structure DeclBlock where
  type : ChildType
  name : Bytes
  argv : Option (List Bytes) := none
  envp : List (Bytes × Bytes) := []

/-- The start of `parsechild` (lib/cf.c:466–488). There is a block, which is skipped if it has no
    name. -/
def openchild : List Bytes → Option (Option DeclBlock)
  | [] => none
  | cmd :: args =>
    if cmd = bytes "child" then some (args.head?.map fun name => { type := .socket, name := name })
    else if cmd = bytes "fchild" then
      some (args.head?.map fun name => { type := .fork, name := name })
    else none

/-- The loop of `parsechild` (lib/cf.c:491–513). -/
def DeclBlock.inside (d : DeclBlock) : List Bytes → DeclBlock
  | [] => d
  | cmd :: args =>
    if cmd = bytes "exec" then if args = [] then d else { d with argv := some args }
    else if cmd = bytes "env" then
      match args with
      | name :: value :: _ => { d with envp := d.envp ++ [(name, value)] }
      | _ => d
    else d

/-- The end of `parsechild` (lib/cf.c:514–521). -/
def DeclBlock.closes (d : DeclBlock) : Option Decl :=
  d.argv.map fun argv => { type := d.type, name := d.name, argv := argv, envp := d.envp }

/-! ## Writing -/

/-- The word that declares a child of this type. -/
def declares : ChildType → Bytes
  | .socket => bytes "child"
  | .fork => bytes "fchild"

def Decl.head (decl : Decl) : List Bytes := [declares decl.type, decl.name]

def Decl.body (decl : Decl) : List (List Bytes) :=
  decl.envp.map (fun e => [bytes "env", e.1, e.2]) ++ [bytes "exec" :: decl.argv]

def Decl.item (decl : Decl) : Item := .block decl.head decl.body

/-! ## Reading -/

theorem openchild_ordinary {w : List Bytes} {d : Option DeclBlock} (h : openchild w = some d) :
    Ordinary w := by
  cases w with
  | nil => cases h
  | cons cmd args =>
    rw [openchild] at h
    split_ifs at h with hchild hfchild
    · have hord : Ordinary [bytes "child"] := by decide
      rwa [← hchild] at hord
    · have hord : Ordinary [bytes "fchild"] := by decide
      rwa [← hfchild] at hord

/-- A program that is executed has a name. -/
theorem inside_argv (d : DeclBlock) (w : List Bytes) (h : d.argv ≠ some []) :
    (d.inside w).argv ≠ some [] := by
  cases w with
  | nil => exact h
  | cons cmd args =>
    unfold DeclBlock.inside
    simp only
    split_ifs with hexec hargs henv
    · exact h
    · simpa using hargs
    · split
      · exact h
      · exact h
    · exact h

theorem closes_argv {d : DeclBlock} {decl : Decl} (h : d.argv ≠ some [])
    (hd : d.closes = some decl) : decl.argv ≠ [] := by
  obtain ⟨argv, hargv, rfl⟩ := Option.map_eq_some_iff.mp hd
  exact fun h0 => h (hargv.trans (congrArg some h0))

theorem openchild_argv {w : List Bytes} {d : DeclBlock} (h : openchild w = some (some d)) :
    d.argv ≠ some [] := by
  cases w with
  | nil => cases h
  | cons cmd args =>
    rw [openchild] at h
    split_ifs at h
    all_goals
      obtain ⟨name, -, rfl⟩ := Option.map_eq_some_iff.mp (Option.some.inj h)
      exact nofun

theorem openchild_head (decl : Decl) :
    openchild decl.head = some (some { type := decl.type, name := decl.name }) := by
  rw [openchild.eq_def, Decl.head]
  cases decl.type <;> rfl

theorem foldl_env (envp : List (Bytes × Bytes)) (d : DeclBlock) :
    (envp.map fun e => [bytes "env", e.1, e.2]).foldl DeclBlock.inside d =
      { d with envp := d.envp ++ envp } := by
  induction envp generalizing d with
  | nil => rw [List.map_nil, List.foldl_nil, List.append_nil]
  | cons e envp ih =>
    have henv : d.inside [bytes "env", e.1, e.2] = { d with envp := d.envp ++ [e] } := by
      rw [DeclBlock.inside, if_neg (by decide), if_pos rfl]
    rw [List.map_cons, List.foldl_cons, henv, ih, List.append_assoc]
    rfl

/-- A declaration is read as it has been written. -/
theorem decl_item (decl : Decl) (h : decl.argv ≠ []) :
    (decl.body.foldl DeclBlock.inside { type := decl.type, name := decl.name }).closes =
      some decl := by
  rw [Decl.body, List.foldl_append, foldl_env, List.foldl_cons, List.foldl_nil]
  unfold DeclBlock.inside
  simp only
  rw [if_pos trivial, if_neg h]
  rfl

theorem decl_body_legal (decl : Decl) : ∀ w ∈ decl.body, w ≠ [] ∧ Legal w := by
  intro w hw
  rcases List.mem_append.mp hw with hw | hw
  · obtain ⟨e, -, rfl⟩ := List.mem_map.mp hw
    exact ⟨List.cons_ne_nil _ _, show Legal [bytes "env"] by decide⟩
  · rw [List.mem_singleton.mp hw]
    exact ⟨List.cons_ne_nil _ _, show Legal [bytes "exec"] by decide⟩

end Ashd.Cf.Blocks
