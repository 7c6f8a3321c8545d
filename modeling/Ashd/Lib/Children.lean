import Ashd.Common.Bytes
import Mathlib.Logic.Relation

/-!
# `lib/cf.c`: the sockets of children

A child that is declared with `child` holds the socket to its program, once it has been started.
When a configuration is read again, `mergechildren` moves the sockets from the old children to new
ones of the same names, and the others are closed as the old children are freed.

Main results:
* `mergechildren_held`: the sockets are moved, with the names of the children that hold them.
* `mergechildren_first`: where the socket of the first child of a name goes.
* `reachable_owned`: in every run, each open socket is held by exactly one child.
* `reload_handover`: what becomes of the sockets of a configuration that is read again.
-/

namespace Ashd.Cf

/-! ## Model -/

/-- `type` of a `struct stdchild`: `child` and `fchild`. -/
inductive ChildType
  | socket
  | fork
  deriving DecidableEq

/-- `struct stdchild`, without what is executed. A negative `fd` is `none`. -/
structure Stdchild where
  type : ChildType
  fd : Option ℕ := none
  deriving DecidableEq

/-- `iface` and `pdata` of a child. Other than `stdhandler` there is `i_notfound` of `dirplex`, which
    has neither `merge` nor `destroy`. -/
inductive Iface
  | std (d : Stdchild)
  | notfound
  deriving DecidableEq

/-- `struct child`. -/
structure Child where
  name : Bytes
  iface : Iface
  deriving DecidableEq

/-- The socket that a child holds. -/
def Child.fd (ch : Child) : Option ℕ :=
  match ch.iface with
  | .std d => d.fd
  | .notfound => none

/-- Whether `iface->merge` is set. -/
def Child.merges (ch : Child) : Bool :=
  match ch.iface with
  | .std _ => true
  | .notfound => false

/-- What is done with descriptors. -/
inductive FdEvent
  | opened (fd : ℕ)
  | closed (fd : ℕ)
  deriving DecidableEq

/-- `stdmkchild`, which has returned `fd`. -/
def opens (fd : Option ℕ) : List FdEvent := fd.toList.map .opened

/-- `close`, which does nothing to a negative `fd`. -/
def closes (fd : Option ℕ) : List FdEvent := fd.toList.map .closed

/-- What a call of `sendreq2` comes to: `reset` is `EPIPE` or `ECONNRESET`, `again` is `EAGAIN`. -/
inductive Sent
  | ok
  | reset
  | again
  | failed

/-- Nothing is sent on a negative descriptor. -/
def Sent.on (sent : Sent) : Option ℕ → Sent
  | some _ => sent
  | none => .failed

/-- A child without a socket is started (lib/cf.c:388–392). -/
def startchild (fd mk : Option ℕ) : Option ℕ × List FdEvent :=
  match fd with
  | some fd => (some fd, [])
  | none => (mk, opens mk)

/-- `stdhandle` (lib/cf.c:379–431), where `stdmkchild` returns `mk₁` and, when the child is started
    again, `mk₂`. -/
def stdhandle (d : Stdchild) (mk₁ mk₂ : Option ℕ) (sent₁ sent₂ : Sent) : Stdchild × List FdEvent :=
  match d.type with
  | .fork => (d, [])
  | .socket =>
    let (fd, evs) := startchild d.fd mk₁
    match sent₁.on fd with
    | .ok => ({ d with fd := fd }, evs)
    | .again => ({ d with fd := fd }, evs)
    | .failed => ({ d with fd := none }, evs ++ closes fd)
    | .reset =>
      let evs := evs ++ closes fd ++ opens mk₂
      match sent₂.on mk₂ with
      | .ok => ({ d with fd := mk₂ }, evs)
      | .again => ({ d with fd := mk₂ }, evs)
      | _ => ({ d with fd := none }, evs ++ closes mk₂)

/-- `stdmerge` (lib/cf.c:433–443): the two children after it. -/
def stdmerge (dst src : Child) : Child × Child :=
  match dst.iface, src.iface with
  | .std nd, .std od =>
    ({ dst with iface := .std { nd with fd := od.fd } }, { src with iface := .std { od with fd := none } })
  | _, _ => (dst, src)

/-- The inner loop of `mergechildren` (lib/cf.c:289–294). -/
def mergechild (ch1 : Child) : List Child → Child × List Child
  | [] => (ch1, [])
  | ch2 :: src =>
    if ch1.merges = true ∧ ch1.name = ch2.name then ((stdmerge ch1 ch2).1, (stdmerge ch1 ch2).2 :: src)
    else ((mergechild ch1 src).1, ch2 :: (mergechild ch1 src).2)

/-- `mergechildren` (lib/cf.c:284–296): the two lists after it. -/
def mergechildren : (dst src : List Child) → List Child × List Child
  | [], src => ([], src)
  | ch1 :: dst, src =>
    let (ch1, src) := mergechild ch1 src
    let (dst, src) := mergechildren dst src
    (ch1 :: dst, src)

/-- `freechild` (lib/cf.c:275–282), with `stddestroy` (lib/cf.c:445–456). -/
def freechild (ch : Child) : List FdEvent :=
  match ch.iface with
  | .std d => closes d.fd
  | .notfound => []

/-- What `parsechild` (lib/cf.c:458–522) returns for a declaration. -/
def parsechild (decl : Bytes × ChildType) : Child where
  name := decl.1
  iface := .std { type := decl.2 }

/-- What `reloadconf` (src/patplex.c:558–569) and `getconfig` (src/dirplex/conf.c:325–328) do with the
    children of a configuration that has been read again. -/
def reloadchildren (decls : List (Bytes × ChildType)) (children : List Child) : List Child × List FdEvent :=
  let (new, old) := mergechildren (decls.map parsechild) children
  (new, old.flatMap freechild)

/-- The descriptors that are open after events, where none that is open is opened. -/
def perform : List FdEvent → List ℕ → Option (List ℕ)
  | [], opened => some opened
  | .opened fd :: evs, opened => if fd ∈ opened then none else perform evs (fd :: opened)
  | .closed fd :: evs, opened => perform evs (opened.erase fd)

/-- The children of each configuration, and the sockets that `stdmkchild` has returned and that have
    not been closed. -/
structure Process where
  configs : List (List Child) := []
  opened : List ℕ := []

/-- A configuration is read for the first time, a request is passed on to a child, or a configuration
    is read again. -/
inductive Process.Step : Process → Process → Prop
  | getconfig (decls : List (Bytes × ChildType)) (p : Process) :
      Step p { p with configs := decls.map parsechild :: p.configs }
  | handle {l r : List (List Child)} {pre post : List Child} {name : Bytes} {d : Stdchild} {opened opened' : List ℕ}
      (mk₁ mk₂ : Option ℕ) (sent₁ sent₂ : Sent) :
      perform (stdhandle d mk₁ mk₂ sent₁ sent₂).2 opened = some opened' →
      Step ⟨l ++ (pre ++ ⟨name, .std d⟩ :: post) :: r, opened⟩
        ⟨l ++ (pre ++ ⟨name, .std (stdhandle d mk₁ mk₂ sent₁ sent₂).1⟩ :: post) :: r, opened'⟩
  | reload {l r : List (List Child)} {old : List Child} {opened opened' : List ℕ} (decls : List (Bytes × ChildType)) :
      perform (reloadchildren decls old).2 opened = some opened' →
      Step ⟨l ++ old :: r, opened⟩ ⟨(reloadchildren decls old).1 :: (l ++ r), opened'⟩

/-- The states that a process can be in. -/
def Process.Reachable (p : Process) : Prop := Relation.ReflTransGen Step {} p

/-! ## What is claimed -/

/-- One of the children holds the socket, and it has the name. -/
def HeldBy (fd : ℕ) (name : Bytes) (children : List Child) : Prop :=
  ∃ pre ch post, children = pre ++ ch :: post ∧ ch.name = name ∧ ch.fd = some fd ∧ ∀ ch' ∈ pre ++ post, ch'.fd ≠ some fd

/-- The first child of the name holds the socket. -/
def FirstHolds (fd : ℕ) (name : Bytes) (children : List Child) : Prop :=
  ∃ pre ch post, children = pre ++ ch :: post ∧ ch.name = name ∧ (∀ ch' ∈ pre, ch'.name ≠ name) ∧ ch.fd = some fd

/-- Each socket of an old child is held by one new child of its name, or it has been closed once; no
    socket is held by two new children; and the first old child of a name hands its socket to the
    first new child of the name. -/
structure Handover (old new : List Child) (evs : List FdEvent) : Prop where
  settled : ∀ ch ∈ old, ∀ fd, ch.fd = some fd →
    (HeldBy fd ch.name new ∧ .closed fd ∉ evs) ∨ ((∀ ch' ∈ new, ch'.fd ≠ some fd) ∧ evs.count (.closed fd) = 1)
  unshared : (new.filterMap Child.fd).Nodup
  first : ∀ fd name, FirstHolds fd name old → (∃ ch ∈ new, ch.name = name) →
    FirstHolds fd name new ∧ .closed fd ∉ evs

/-! ## Names -/

variable {ch ch1 ch2 : Child} {dst src : List Child}

theorem stdmerge_name (dst src : Child) : (stdmerge dst src).1.name = dst.name ∧ (stdmerge dst src).2.name = src.name := by
  unfold stdmerge
  split <;> exact ⟨rfl, rfl⟩

theorem mergechild_name (ch1 : Child) (src : List Child) :
    (mergechild ch1 src).1.name = ch1.name ∧ (mergechild ch1 src).2.map Child.name = src.map Child.name := by
  induction src with
  | nil => exact ⟨rfl, rfl⟩
  | cons ch2 src ih =>
    rw [mergechild]
    obtain ⟨hdst, hsrc⟩ := stdmerge_name ch1 ch2
    split
    · exact ⟨hdst, by rw [List.map_cons, List.map_cons, hsrc]⟩
    · exact ⟨ih.1, by rw [List.map_cons, List.map_cons, ih.2]⟩

theorem mergechildren_name (dst src : List Child) :
    (mergechildren dst src).1.map Child.name = dst.map Child.name ∧
      (mergechildren dst src).2.map Child.name = src.map Child.name := by
  induction dst generalizing src with
  | nil => exact ⟨rfl, rfl⟩
  | cons ch1 dst ih =>
    obtain ⟨hch, hsrc⟩ := mergechild_name ch1 src
    obtain ⟨hdst, hsrc'⟩ := ih (mergechild ch1 src).2
    exact ⟨by rw [mergechildren, List.map_cons, List.map_cons, hch, hdst], hsrc'.trans hsrc⟩

/-! ## The sockets are moved -/

/-- The sockets that are held, with the names of the children that hold them. -/
def held (children : List Child) : List (Bytes × ℕ) := children.filterMap fun ch => ch.fd.map (ch.name, ·)

theorem held_cons (ch : Child) (children : List Child) :
    held (ch :: children) = (ch.fd.map (ch.name, ·)).toList ++ held children := by
  unfold held
  rw [List.filterMap_cons]
  cases ch.fd <;> rfl

theorem held_fd (children : List Child) : (held children).map Prod.snd = children.filterMap Child.fd := by
  induction children with
  | nil => rfl
  | cons ch children ih =>
    rw [held_cons, List.map_append, ih, List.filterMap_cons]
    cases ch.fd <;> rfl

theorem held_swap (a b : Child) (children : List Child) :
    (held (a :: b :: children)).Perm (held (b :: a :: children)) := (List.Perm.swap b a children).filterMap _

/-- A child without a socket takes that of the other, or leaves it. -/
theorem stdmerge_fd (ch2 : Child) (hfd : ch1.fd = none) :
    ((stdmerge ch1 ch2).1.fd = ch2.fd ∧ (stdmerge ch1 ch2).2.fd = none) ∨
      ((stdmerge ch1 ch2).1.fd = none ∧ (stdmerge ch1 ch2).2.fd = ch2.fd) := by
  unfold stdmerge
  split
  · rename_i nd od _ hod
    left
    exact ⟨by simp only [Child.fd, hod], rfl⟩
  · exact .inr ⟨hfd, rfl⟩

theorem stdmerge_held (hfd : ch1.fd = none) (hname : ch1.name = ch2.name) (children : List Child) :
    held ((stdmerge ch1 ch2).1 :: (stdmerge ch1 ch2).2 :: children) = held (ch2 :: children) := by
  obtain ⟨hdst, hsrc⟩ := stdmerge_name ch1 ch2
  simp only [held_cons, hdst, hsrc, hname]
  obtain ⟨h1, h2⟩ | ⟨h1, h2⟩ := stdmerge_fd ch2 hfd
  · rw [h1, h2]
    rfl
  · rw [h1, h2]
    rfl

theorem mergechild_held (hfd : ch1.fd = none) (src : List Child) :
    (held ((mergechild ch1 src).1 :: (mergechild ch1 src).2)).Perm (held src) := by
  induction src with
  | nil =>
    rw [mergechild, held_cons, hfd]
    rfl
  | cons ch2 src ih =>
    rw [mergechild]
    split
    · rename_i h
      rw [stdmerge_held hfd h.2]
    · refine (held_swap _ _ _).trans ?_
      rw [held_cons, held_cons ch2 src]
      exact ih.append_left _

/-- The sockets of the old children are held by children of the same names afterwards, in one list
    or the other. -/
theorem mergechildren_held (hfd : ∀ ch ∈ dst, ch.fd = none) (src : List Child) :
    (held (mergechildren dst src).1 ++ held (mergechildren dst src).2).Perm (held src) := by
  induction dst generalizing src with
  | nil => exact .refl _
  | cons ch1 dst ih =>
    obtain ⟨hch, hdst⟩ := List.forall_mem_cons.mp hfd
    have hmore := (ih hdst (mergechild ch1 src).2).append_left ((mergechild ch1 src).1.fd.map ((mergechild ch1 src).1.name, ·)).toList
    rw [← held_cons] at hmore
    simp only [mergechildren, held_cons, List.append_assoc]
    exact hmore.trans (mergechild_held hch src)

/-! ## The first child of a name -/

/-- A child of another name leaves the first child of a name where it is. -/
theorem mergechild_other {fd : ℕ} {name : Bytes} (hne : ch1.name ≠ name) (h : FirstHolds fd name src) :
    FirstHolds fd name (mergechild ch1 src).2 := by
  obtain ⟨pre, ch, post, rfl, hname, hpre, hfd⟩ := h
  induction pre with
  | nil =>
    rw [List.nil_append, mergechild, if_neg fun h => hne (h.2.trans hname)]
    exact ⟨[], ch, _, rfl, hname, nofun, hfd⟩
  | cons ch2 pre ih =>
    obtain ⟨hch2, hpre⟩ := List.forall_mem_cons.mp hpre
    rw [List.cons_append, mergechild]
    split
    · refine ⟨(stdmerge ch1 ch2).2 :: pre, ch, post, rfl, hname, List.forall_mem_cons.mpr ⟨?_, hpre⟩, hfd⟩
      rw [(stdmerge_name ch1 ch2).2]
      exact hch2
    · obtain ⟨pre', ch', post', heq, hname', hpre', hfd'⟩ := ih hpre
      exact ⟨ch2 :: pre', ch', post', by rw [heq, List.cons_append], hname',
        List.forall_mem_cons.mpr ⟨hch2, hpre'⟩, hfd'⟩

/-- A child of the name takes the socket of the first one. -/
theorem mergechild_first {fd : ℕ} {d : Stdchild} (hstd : ch1.iface = .std d) (h : FirstHolds fd ch1.name src) :
    (mergechild ch1 src).1.fd = some fd := by
  obtain ⟨pre, ch, post, rfl, hname, hpre, hfd⟩ := h
  have hmerges : ch1.merges = true := by rw [Child.merges, hstd]
  induction pre with
  | nil =>
    rw [List.nil_append, mergechild, if_pos ⟨hmerges, hname.symm⟩, stdmerge, hstd]
    cases hod : ch.iface with
    | std od =>
      rw [Child.fd, hod] at hfd
      exact hfd
    | notfound =>
      rw [Child.fd, hod] at hfd
      cases hfd
  | cons ch2 pre ih =>
    obtain ⟨hch2, hpre⟩ := List.forall_mem_cons.mp hpre
    rw [List.cons_append, mergechild, if_neg fun h => hch2 h.2.symm]
    exact ih hpre

/-- The first old child of a name hands its socket to the first new child of the name. -/
theorem mergechildren_first {fd : ℕ} {name : Bytes} (hstd : ∀ ch ∈ dst, ∃ d, ch.iface = .std d)
    (hmem : ∃ ch ∈ dst, ch.name = name) (h : FirstHolds fd name src) : FirstHolds fd name (mergechildren dst src).1 := by
  induction dst generalizing src with
  | nil =>
    obtain ⟨_, hch, -⟩ := hmem
    cases hch
  | cons ch1 dst ih =>
    obtain ⟨⟨d, hd⟩, hstd⟩ := List.forall_mem_cons.mp hstd
    have hname1 := (mergechild_name ch1 src).1
    by_cases hname : ch1.name = name
    · subst hname
      exact ⟨[], _, _, rfl, hname1, nofun, mergechild_first hd h⟩
    · have hmem' : ∃ ch ∈ dst, ch.name = name := by
        obtain ⟨ch, hch, hchname⟩ := hmem
        obtain rfl | hch := List.mem_cons.mp hch
        · exact absurd hchname hname
        · exact ⟨ch, hch, hchname⟩
      obtain ⟨pre, ch, post, heq, hch, hpre, hfd⟩ := ih hstd hmem' (mergechild_other hname h)
      refine ⟨(mergechild ch1 src).1 :: pre, ch, post, ?_, hch, List.forall_mem_cons.mpr ⟨?_, hpre⟩, hfd⟩
      · exact congrArg ((mergechild ch1 src).1 :: ·) heq
      · rw [hname1]
        exact hname

/-! ## What is open -/

/-- Of the descriptors that are open, `fd` is held by one child, and `others` by the others. -/
def Holds (opened others : List ℕ) (fd : Option ℕ) : Prop := opened.Nodup ∧ opened.Perm (fd.toList ++ others)

variable {opened opened' others : List ℕ} {fd : Option ℕ} {evs evs' : List FdEvent}

theorem perform_append (evs evs' : List FdEvent) (opened : List ℕ) :
    perform (evs ++ evs') opened = (perform evs opened).bind (perform evs') := by
  induction evs generalizing opened with
  | nil => rfl
  | cons e evs ih =>
    cases e with
    | opened fd =>
      rw [List.cons_append, perform, perform]
      split
      · rfl
      · exact ih _
    | closed fd =>
      rw [List.cons_append, perform, perform]
      exact ih _

theorem Holds.opens (h : Holds opened others none) (hp : perform (opens fd) opened = some opened') :
    Holds opened' others fd := by
  cases fd with
  | none =>
    cases hp
    exact h
  | some fd =>
    rw [Cf.opens, Option.toList_some, List.map_singleton, perform] at hp
    split at hp
    · cases hp
    · rename_i hfresh
      cases hp
      exact ⟨List.nodup_cons.mpr ⟨hfresh, h.1⟩, h.2.cons fd⟩

theorem Holds.closes (h : Holds opened others fd) (hp : perform (closes fd) opened = some opened') :
    Holds opened' others none := by
  cases fd with
  | none =>
    cases hp
    exact h
  | some fd =>
    cases hp
    refine ⟨h.1.erase fd, ?_⟩
    have herase := h.2.erase fd
    rwa [Option.toList_some, List.singleton_append, List.erase_cons_head] at herase

/-- A request that is passed on. -/
theorem Holds.stdhandle {d : Stdchild} (mk₁ mk₂ : Option ℕ) (sent₁ sent₂ : Sent) (h : Holds opened others d.fd)
    (hp : perform (stdhandle d mk₁ mk₂ sent₁ sent₂).2 opened = some opened') :
    Holds opened' others (Cf.stdhandle d mk₁ mk₂ sent₁ sent₂).1.fd := by
  have hstart : ∀ o, perform (startchild d.fd mk₁).2 opened = some o → Holds o others (startchild d.fd mk₁).1 := by
    intro o ho
    unfold startchild at ho ⊢
    split at ho
    · rename_i hfd
      cases ho
      rwa [hfd] at h
    · rename_i hfd
      rw [hfd] at h
      exact h.opens ho
  unfold Cf.stdhandle at hp ⊢
  split at hp
  · cases hp
    exact h
  · simp only at hp ⊢
    -- the socket is kept, or given up, or the child is started again
    split at hp
    · exact hstart _ hp
    · exact hstart _ hp
    · rw [perform_append] at hp
      obtain ⟨o, ho, hp⟩ := Option.bind_eq_some_iff.mp hp
      exact (hstart o ho).closes hp
    · have hagain : ∀ o, perform ((startchild d.fd mk₁).2 ++ Cf.closes (startchild d.fd mk₁).1 ++ Cf.opens mk₂) opened =
          some o → Holds o others mk₂ := by
        intro o ho
        rw [perform_append, perform_append] at ho
        obtain ⟨o₂, ho₂, ho⟩ := Option.bind_eq_some_iff.mp ho
        obtain ⟨o₁, ho₁, ho₂⟩ := Option.bind_eq_some_iff.mp ho₂
        exact ((hstart o₁ ho₁).closes ho₂).opens ho
      split at hp
      · exact hagain _ hp
      · exact hagain _ hp
      · rw [perform_append] at hp
        obtain ⟨o, ho, hp⟩ := Option.bind_eq_some_iff.mp hp
        exact (hagain o ho).closes hp

theorem freechild_eq (ch : Child) : freechild ch = ch.fd.toList.map .closed := by
  cases hi : ch.iface <;> simp only [freechild, Child.fd, hi] <;> rfl

theorem filterMap_fd_cons (ch : Child) (children : List Child) :
    (ch :: children).filterMap Child.fd = ch.fd.toList ++ children.filterMap Child.fd := by
  rw [List.filterMap_cons]
  cases ch.fd <;> rfl

/-- What is closed when children are freed. -/
theorem flatMap_freechild (children : List Child) :
    children.flatMap freechild = (children.filterMap Child.fd).map .closed := by
  induction children with
  | nil => rfl
  | cons ch children ih => rw [List.flatMap_cons, ih, freechild_eq, filterMap_fd_cons, List.map_append]

theorem perform_closed {fds : List ℕ} (hnodup : opened.Nodup) (hperm : opened.Perm (fds ++ others)) :
    ∃ opened', perform (fds.map .closed) opened = some opened' ∧ opened'.Nodup ∧ opened'.Perm others := by
  induction fds generalizing opened with
  | nil => exact ⟨opened, rfl, hnodup, hperm⟩
  | cons fd fds ih =>
    have herase := hperm.erase fd
    rw [List.cons_append, List.erase_cons_head] at herase
    exact ih (hnodup.erase fd) herase

/-! ## Runs -/

/-- Each socket that is open is held by one child. -/
structure Process.Owned (p : Process) : Prop where
  nodup : p.opened.Nodup
  held : p.opened.Perm (p.configs.flatten.filterMap Child.fd)

/-- One child among all. -/
theorem configs_child (l r : List (List Child)) (pre post : List Child) (ch : Child) :
    ((l ++ (pre ++ ch :: post) :: r).flatten.filterMap Child.fd).Perm
      (ch.fd.toList ++ (l.flatten ++ pre ++ (post ++ r.flatten)).filterMap Child.fd) := by
  have hmid : ((l.flatten ++ pre) ++ ch :: (post ++ r.flatten)).Perm (ch :: (l.flatten ++ pre ++ (post ++ r.flatten))) :=
    List.perm_middle
  have hflat : (l ++ (pre ++ ch :: post) :: r).flatten = (l.flatten ++ pre) ++ ch :: (post ++ r.flatten) := by
    simp only [List.flatten_append, List.flatten_cons, List.append_assoc, List.cons_append]
  rw [hflat, ← filterMap_fd_cons]
  exact hmid.filterMap _

/-- One configuration among all. -/
theorem configs_config (l r : List (List Child)) (children : List Child) :
    ((l ++ children :: r).flatten.filterMap Child.fd).Perm
      (children.filterMap Child.fd ++ (l ++ r).flatten.filterMap Child.fd) := by
  have hmid : (l ++ children :: r).Perm (children :: (l ++ r)) := List.perm_middle
  rw [← List.filterMap_append, ← List.flatten_cons]
  exact hmid.flatten.filterMap _

theorem parsed_fd (decls : List (Bytes × ChildType)) : ∀ ch ∈ decls.map parsechild, ch.fd = none := by
  intro ch hch
  obtain ⟨decl, -, rfl⟩ := List.mem_map.mp hch
  rfl

theorem parsed_std (decls : List (Bytes × ChildType)) : ∀ ch ∈ decls.map parsechild, ∃ d, ch.iface = .std d := by
  intro ch hch
  obtain ⟨decl, -, rfl⟩ := List.mem_map.mp hch
  exact ⟨_, rfl⟩

/-- The sockets of the old children are those of the new ones and those that are closed. -/
theorem reload_sockets (decls : List (Bytes × ChildType)) (old : List Child) :
    ((reloadchildren decls old).1.filterMap Child.fd ++
      (mergechildren (decls.map parsechild) old).2.filterMap Child.fd).Perm (old.filterMap Child.fd) := by
  rw [← held_fd, ← held_fd, ← held_fd, ← List.map_append]
  exact (mergechildren_held (parsed_fd decls) old).map _

theorem reload_events (decls : List (Bytes × ChildType)) (old : List Child) :
    (reloadchildren decls old).2 = ((mergechildren (decls.map parsechild) old).2.filterMap Child.fd).map .closed :=
  flatMap_freechild _

theorem Process.Owned.reload {l r : List (List Child)} {old : List Child} (h : Owned ⟨l ++ old :: r, opened⟩)
    (decls : List (Bytes × ChildType)) :
    ∃ opened', perform (reloadchildren decls old).2 opened = some opened' ∧
      Owned ⟨(reloadchildren decls old).1 :: (l ++ r), opened'⟩ := by
  have hperm : opened.Perm ((mergechildren (decls.map parsechild) old).2.filterMap Child.fd ++
      ((reloadchildren decls old).1 :: (l ++ r)).flatten.filterMap Child.fd) := by
    rw [List.flatten_cons, List.filterMap_append, ← List.append_assoc]
    exact h.held.trans ((configs_config l r old).trans
      (((reload_sockets decls old).symm.trans List.perm_append_comm).append_right _))
  obtain ⟨opened', hp, hnodup, hperm'⟩ := perform_closed h.nodup hperm
  exact ⟨opened', by rw [reload_events]; exact hp, hnodup, hperm'⟩

theorem Process.Step.owned {p p' : Process} (hstep : Step p p') (h : Owned p) : Owned p' := by
  cases hstep with
  | getconfig decls =>
    refine ⟨h.nodup, ?_⟩
    rw [List.flatten_cons, List.filterMap_append, List.filterMap_eq_nil_iff.mpr (parsed_fd decls)]
    exact h.held
  | @handle l r pre post name d opened opened' mk₁ mk₂ sent₁ sent₂ hp =>
    have hbefore := configs_child l r pre post ⟨name, .std d⟩
    have hafter := configs_child l r pre post ⟨name, .std (stdhandle d mk₁ mk₂ sent₁ sent₂).1⟩
    obtain ⟨hnodup, hperm⟩ := Holds.stdhandle mk₁ mk₂ sent₁ sent₂ ⟨h.nodup, h.held.trans hbefore⟩ hp
    exact ⟨hnodup, hperm.trans hafter.symm⟩
  | reload decls hp =>
    obtain ⟨opened', hp', howned⟩ := h.reload decls
    rw [hp] at hp'
    cases hp'
    exact howned

/-- In every run, each socket that is open is held by one child. -/
theorem reachable_owned {p : Process} (h : p.Reachable) : p.Owned := by
  induction h with
  | refl => exact ⟨List.nodup_nil, .refl _⟩
  | tail _ hstep ih => exact hstep.owned ih

theorem heldBy_of_mem {fd : ℕ} {name : Bytes} {children : List Child} (hnodup : (children.filterMap Child.fd).Nodup)
    (h : (name, fd) ∈ held children) : HeldBy fd name children := by
  obtain ⟨ch, hch, hheld⟩ := List.mem_filterMap.mp h
  obtain ⟨fd', hfd, heq⟩ := Option.map_eq_some_iff.mp hheld
  cases heq
  obtain ⟨pre, post, rfl⟩ := List.append_of_mem hch
  refine ⟨pre, ch, post, rfl, rfl, hfd, fun ch' hch' hfd' => ?_⟩
  have hperm : ((pre ++ ch :: post).filterMap Child.fd).Perm (fd :: (pre ++ post).filterMap Child.fd) := by
    have hmid : (pre ++ ch :: post).Perm (ch :: (pre ++ post)) := List.perm_middle
    have hmid := hmid.filterMap Child.fd
    rwa [filterMap_fd_cons, hfd] at hmid
  exact (List.nodup_cons.mp (hperm.nodup_iff.mp hnodup)).1 (List.mem_filterMap.mpr ⟨ch', hch', hfd'⟩)

theorem mem_held {fd : ℕ} {ch : Child} {children : List Child} (hch : ch ∈ children) (hfd : ch.fd = some fd) :
    (ch.name, fd) ∈ held children :=
  List.mem_filterMap.mpr ⟨ch, hch, by rw [hfd]; rfl⟩

/-- When a configuration is read again in a run, the sockets of its children are handed over, and
    each socket that is then open is held by one child. -/
theorem reload_handover {l r : List (List Child)} {old : List Child} {opened : List ℕ}
    (h : Process.Reachable ⟨l ++ old :: r, opened⟩) (decls : List (Bytes × ChildType)) :
    Handover old (reloadchildren decls old).1 (reloadchildren decls old).2 ∧
      ∃ opened', perform (reloadchildren decls old).2 opened = some opened' ∧
        Process.Owned ⟨(reloadchildren decls old).1 :: (l ++ r), opened'⟩ := by
  have howned := reachable_owned h
  refine ⟨?_, howned.reload decls⟩
  have hnodup : ((reloadchildren decls old).1.filterMap Child.fd ++
      (mergechildren (decls.map parsechild) old).2.filterMap Child.fd).Nodup := by
    rw [(reload_sockets decls old).nodup_iff]
    have hall := howned.held.nodup_iff.mp howned.nodup
    rw [(configs_config l r old).nodup_iff] at hall
    exact hall.of_append_left
  obtain ⟨hnew, hleft, hdisj⟩ := List.nodup_append.mp hnodup
  have hopen : ∀ fd ∈ (reloadchildren decls old).1.filterMap Child.fd, .closed fd ∉ (reloadchildren decls old).2 := by
    intro fd hfd hclosed
    rw [reload_events] at hclosed
    obtain ⟨fd', hfd', heq⟩ := List.mem_map.mp hclosed
    cases heq
    exact hdisj fd hfd fd hfd' rfl
  refine ⟨fun ch hch fd hfd => ?_, hnew, fun fd name hfirst hname => ?_⟩
  · have hmem := (mergechildren_held (parsed_fd decls) old).mem_iff.mpr (mem_held hch hfd)
    obtain hkept | hgone := List.mem_append.mp hmem
    · refine .inl ⟨heldBy_of_mem hnew hkept, hopen fd ?_⟩
      rw [← held_fd]
      exact List.mem_map_of_mem hkept
    · have hfd' : fd ∈ (mergechildren (decls.map parsechild) old).2.filterMap Child.fd := by
        rw [← held_fd]
        exact List.mem_map_of_mem hgone
      refine .inr ⟨fun ch' hch' hheld => ?_, ?_⟩
      · exact hdisj fd (List.mem_filterMap.mpr ⟨ch', hch', hheld⟩) fd hfd' rfl
      · rw [reload_events, List.count_map_of_injective _ _ fun a b hab => FdEvent.closed.inj hab]
        exact List.count_eq_one_of_mem hleft hfd'
  · have hmem : ∃ ch ∈ decls.map parsechild, ch.name = name := by
      obtain ⟨ch, hch, rfl⟩ := hname
      have hname := List.mem_map_of_mem (f := Child.name) hch
      rw [reloadchildren, (mergechildren_name (decls.map parsechild) old).1] at hname
      exact List.mem_map.mp hname
    have hholds := mergechildren_first (parsed_std decls) hmem hfirst
    have ⟨pre, ch, post, heq, _, _, hfd⟩ := hholds
    refine ⟨hholds, hopen fd (List.mem_filterMap.mpr ⟨ch, ?_, hfd⟩)⟩
    rw [reloadchildren, heq]
    exact List.mem_append_right pre List.mem_cons_self

/-- Two children of one name and one of another, each of which has been started. -/
def startedChildren : List Child :=
  [⟨bytes "a", .std ⟨.socket, some 3⟩⟩, ⟨bytes "a", .std ⟨.socket, some 4⟩⟩, ⟨bytes "b", .std ⟨.socket, some 5⟩⟩]

theorem started_reachable : Process.Reachable ⟨[] ++ startedChildren :: [], [5, 4, 3]⟩ := by
  let a (fd : Option ℕ) : Child := ⟨bytes "a", .std ⟨.socket, fd⟩⟩
  let b (fd : Option ℕ) : Child := ⟨bytes "b", .std ⟨.socket, fd⟩⟩
  have h₁ : Process.Reachable ⟨[[a none, a none, b none]], []⟩ :=
    .single (.getconfig [(bytes "a", .socket), (bytes "a", .socket), (bytes "b", .socket)] {})
  have h₂ : Process.Reachable ⟨[[a (some 3), a none, b none]], [3]⟩ :=
    h₁.tail (@Process.Step.handle [] [] [] [a none, b none] _ ⟨.socket, none⟩ [] [3] (some 3) none .ok .ok rfl)
  have h₃ : Process.Reachable ⟨[[a (some 3), a (some 4), b none]], [4, 3]⟩ :=
    h₂.tail (@Process.Step.handle [] [] [a (some 3)] [b none] _ ⟨.socket, none⟩ [3] [4, 3] (some 4) none .ok .ok rfl)
  exact h₃.tail (@Process.Step.handle [] [] [a (some 3), a (some 4)] [] _ ⟨.socket, none⟩ [4, 3] [5, 4, 3] (some 5) none
    .ok .ok rfl)

/-- The first child of the name `a` hands its socket to an `fchild`, and the other two are closed. -/
theorem reload_handover_started :
    Handover startedChildren [⟨bytes "a", .std ⟨.fork, some 3⟩⟩, ⟨bytes "c", .std ⟨.socket, none⟩⟩] [.closed 4, .closed 5] :=
  (reload_handover started_reachable [(bytes "a", .fork), (bytes "c", .socket)]).1

end Ashd.Cf
