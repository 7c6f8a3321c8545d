import Ashd.Common.Paths
import Ashd.Dirplex.Headmods
import Ashd.Dirplex.Selection

/-!
# `X-Ash-File`

The name of the file that a handler is given, and where the handler is started. The name is made
of the path by taking off the directory of the configuration in which the handler is declared,
which is found in another spelling of the path.

Main results:
* `handle_fork`, `handle_child`: the name that a handler is given.
* `handle_named_iff`: when it is the name of what the path is.
* `spelled_file`, `spelled_directory`: which paths without any dots are.
-/

namespace Ashd.Dirplex

/-! ## What is expected -/

/-- The path without a leading `./`, unless nothing else is in it. -/
def stripDot : Bytes → Bytes
  | 46 :: 47 :: c :: path => c :: path
  | path => path

/-- What a path is the name of. -/
abbrev locate (path : Bytes) : Option (Paths.Location UInt8) := Paths.locate 47 46 path

/-- The directory, relative to the served one, in which the handler of a stanza is started: that
    of the configuration in which it is declared, if it is not of a stanza of its own. -/
inductive StartedIn (site : Site) (path : Bytes) (pat : Pattern) : Option Bytes → Prop
  | fork (fchild : List Bytes) : pat.handler = .fork fchild → StartedIn site path pat none
  | child (childnm name : Bytes) (twd : Option Bytes) : pat.handler = .child childnm →
      site.findchild (stripDot path) childnm = some (.declared twd name) → StartedIn site path pat twd

/-- The request that a handler is given, and where the handler is started. -/
def Event.started : Event → Option (Hthead × Option Bytes)
  | .forked _ req => some (req, none)
  | .passed _ _ twd req => some (req, twd)
  | _ => none

/-- However the handler does, it is not refused by the internal error, and `X-Ash-File` is the name
    of what the path is, from where it is started. -/
def Named (site : Site) (path : Bytes) (pat : Pattern) : Prop :=
  ∀ (childhandle : Child → Hthead → ChildResult) (req : Hthead), ∀ e ∈ site.handle childhandle req path pat,
    e ≠ .error 500 (bytes "Server Error") (bytes "An internal server error occurred.") ∧
      ∀ q twd, e.started = some (q, twd) →
        ∃ (q' : Hthead) (file : Bytes) (l : Paths.Location UInt8), q = headappheader q' (bytes "X-Ash-File") file ∧
          locate path = some l ∧ Paths.resolve 47 46 (twd.getD [46]) file = some l

/-- The path is not empty, nor made absolute by taking off `./`, and the directory, unless it is
    the served one, is spelled as in the path and followed there by a name. -/
def Spelled (path : Bytes) (twd : Option Bytes) : Prop :=
  path ≠ [] ∧ ¬ bytes ".//" <+: path ∧
    ∀ dir, twd = some dir → dir ≠ [46] → dir ≠ [] ∧ ∃ file, stripDot path = dir ++ 47 :: file ∧ file ≠ [] ∧
      (file.head? = some 47 → locate dir = some ⟨true, []⟩)

/-! ## What is done -/

variable {childhandle : Child → Hthead → ChildResult} {site : Site} {req : Hthead} {path : Bytes} {pat : Pattern}

/-- The request with the headers of the stanza, and the name of the file. -/
def given (pat : Pattern) (req : Hthead) (file : Bytes) : Hthead :=
  headappheader { req with headers := Keyed.puts headerKey req.headers pat.headers } (bytes "X-Ash-File") file

theorem handle_fork {fchild : List Bytes} (h : pat.handler = .fork fchild) :
    site.handle childhandle req path pat = [.forked fchild (given pat req (stripDot path))] := by
  unfold Site.handle
  rw [headmods_eq, h]
  rfl

theorem handle_child {childnm name : Bytes} {cp : Option Bytes} (h : pat.handler = .child childnm)
    (hfind : site.findchild (stripDot path) childnm = some (.declared cp name)) :
    site.handle childhandle req path pat =
      match workdir (stripDot path) cp with
      | none => [.error 500 (bytes "Server Error") (bytes "An internal server error occurred.")]
      | some (file, twd) => dispatch childhandle (.declared cp name) (given pat req file) twd := by
  unfold Site.handle
  rw [headmods_eq, h]
  extract_lets req' path'
  rw [show path' = stripDot path from rfl]
  simp only [hfind]
  rfl

theorem given_file {req q' : Hthead} {file file' : Bytes}
    (h : given pat req file = headappheader q' (bytes "X-Ash-File") file') : file = file' := by
  have hlast := congrArg (fun q : Hthead => q.headers.getLast?) h
  simpa [given, headappheader] using hlast

/-- A handler of a stanza of its own. -/
theorem named_fork {fchild : List Bytes} (h : pat.handler = .fork fchild) : Named site path pat ↔
    ∃ l, locate path = some l ∧ Paths.resolve 47 46 [46] (stripDot path) = some l := by
  constructor
  · intro hn
    obtain ⟨-, hfile⟩ := hn (fun _ _ => .handled) {} (.forked fchild (given pat {} (stripDot path)))
      (by rw [handle_fork h]; exact List.mem_singleton_self _)
    obtain ⟨q', file, l, hq, hl, hres⟩ := hfile _ none rfl
    rw [← given_file hq] at hres
    exact ⟨l, hl, hres⟩
  · rintro ⟨l, hl, hres⟩ childhandle req e he
    rw [handle_fork h] at he
    rw [List.mem_singleton.mp he]
    refine ⟨nofun, fun q twd hq => ?_⟩
    cases hq
    exact ⟨_, _, l, rfl, hl, hres⟩

theorem childerror_started (res : ChildResult) : ∀ e ∈ childerror res,
    e ≠ .error 500 (bytes "Server Error") (bytes "An internal server error occurred.") ∧
      ∀ q twd, e.started = some (q, twd) →
        ∃ (q' : Hthead) (file : Bytes) (l : Paths.Location UInt8), q = headappheader q' (bytes "X-Ash-File") file ∧
          locate path = some l ∧ Paths.resolve 47 46 (twd.getD [46]) file = some l := by
  have herror : ∃ text, text ≠ bytes "An internal server error occurred." ∧
      childerror res = [.error 500 (bytes "Server Error") text] := by
    cases res <;> exact ⟨_, by decide, rfl⟩
  obtain ⟨text, hne, heq⟩ := herror
  intro e he
  rw [heq] at he
  rw [List.mem_singleton.mp he]
  exact ⟨fun h => hne (Event.error.inj h).2.2, nofun⟩

/-- A handler that is declared. -/
theorem named_child {childnm name : Bytes} {cp : Option Bytes} (h : pat.handler = .child childnm)
    (hfind : site.findchild (stripDot path) childnm = some (.declared cp name)) : Named site path pat ↔
      ∃ file twd, workdir (stripDot path) cp = some (file, twd) ∧
        ∃ l, locate path = some l ∧ Paths.resolve 47 46 (twd.getD [46]) file = some l := by
  constructor
  · intro hn
    have hn' := hn (fun _ _ => .handled) {}
    rw [handle_child h hfind] at hn'
    cases hw : workdir (stripDot path) cp with
    | none =>
      rw [hw] at hn'
      exact absurd rfl (hn' _ (List.mem_singleton_self _)).1
    | some w =>
      obtain ⟨file, twd⟩ := w
      rw [hw] at hn'
      obtain ⟨q', file', l, hq, hl, hres⟩ := (hn' _ (List.mem_singleton_self _)).2 _ _ rfl
      rw [← given_file hq] at hres
      exact ⟨file, twd, rfl, l, hl, hres⟩
  · rintro ⟨file, twd, hw, l, hl, hres⟩ childhandle req e he
    rw [handle_child h hfind, hw] at he
    simp only [dispatch] at he
    split at he
    · rw [List.mem_singleton.mp he]
      constructor
      · intro heq
        cases heq
      · intro q twd hq
        cases hq
        exact ⟨_, _, l, rfl, hl, hres⟩
    · exact childerror_started _ e he

/-! ## Spelling -/

theorem stripDot_cases (path : Bytes) :
    (∃ c p, path = 46 :: 47 :: c :: p ∧ stripDot path = c :: p) ∨ stripDot path = path := by
  unfold stripDot
  split
  · exact .inl ⟨_, _, rfl, rfl⟩
  · exact .inr rfl

theorem locate_dot (p : Bytes) : locate (46 :: 47 :: p) = some ⟨false, Paths.names 47 46 p⟩ := by
  unfold locate
  rw [Paths.locate_of_ne (List.cons_ne_nil _ _)]
  have hnames : Paths.names (47 : UInt8) 46 ([46] ++ 47 :: p) = _ := Paths.names_join [46] p
  rw [Paths.names_dot (by decide), List.nil_append, List.singleton_append] at hnames
  rw [hnames]
  rfl

/-- Taking off `./` does not change what the path is the name of. -/
theorem locate_stripDot {path : Bytes} (h : ¬ bytes ".//" <+: path) : locate (stripDot path) = locate path := by
  obtain ⟨c, p, rfl, hstrip⟩ | hstrip := stripDot_cases path
  · have hc : c ≠ 47 := by
      rintro rfl
      exact h ⟨p, rfl⟩
    rw [hstrip, locate_dot, locate, Paths.locate_of_ne (List.cons_ne_nil _ _)]
    simpa using hc
  · rw [hstrip]

/-- Unless it makes the path absolute. -/
theorem stripDot_absolute {path : Bytes} (h : bytes ".//" <+: path) :
    (∃ ns, locate path = some ⟨false, ns⟩) ∧ (stripDot path).head? = some 47 := by
  obtain ⟨p, rfl⟩ := h
  exact ⟨⟨_, locate_dot (47 :: p)⟩, rfl⟩

/-- What `workdir` takes off. -/
theorem workdir_dir {dir path : Bytes} (hdot : dir ≠ [46]) :
    (∃ file, path = dir ++ 47 :: file ∧ workdir path (some dir) = some (file, some dir)) ∨
      (¬ dir ++ [47] <+: path ∧ workdir path (some dir) = none) := by
  unfold workdir
  simp only [if_neg hdot]
  by_cases hpre : dir ++ [47] <+: path
  · obtain ⟨file, rfl⟩ := hpre
    refine .inl ⟨file, by simp, ?_⟩
    rw [if_pos (List.prefix_append _ _)]
    simp
  · rw [if_neg hpre]
    exact .inr ⟨hpre, rfl⟩

/-- In the served directory. -/
theorem resolve_plain_iff (path : Bytes) :
    (∃ l, locate path = some l ∧ Paths.resolve 47 46 [46] (stripDot path) = some l) ↔
      path ≠ [] ∧ ¬ bytes ".//" <+: path := by
  rw [Paths.resolve_dot (by decide)]
  constructor
  · rintro ⟨l, hl, hres⟩
    refine ⟨?_, fun hpre => ?_⟩
    · rintro rfl
      cases hl
    · obtain ⟨⟨ns, hloc⟩, hhead⟩ := stripDot_absolute hpre
      rw [Paths.locate_of_ne (by rintro h; rw [h] at hhead; cases hhead), Option.some_inj] at hres
      rw [hloc, Option.some_inj, ← hres] at hl
      simp [hhead] at hl
  · rintro ⟨hne, hpre⟩
    exact ⟨_, Paths.locate_of_ne hne, (locate_stripDot hpre).trans (Paths.locate_of_ne hne)⟩

/-- In another directory, what follows it in the path is its name there. -/
theorem resolve_dir_iff {path dir file : Bytes} (hstrip : stripDot path = dir ++ 47 :: file) :
    (∃ l, locate path = some l ∧ Paths.resolve 47 46 dir file = some l) ↔
      path ≠ [] ∧ ¬ bytes ".//" <+: path ∧ dir ≠ [] ∧ file ≠ [] ∧ (file.head? = some 47 → locate dir = some ⟨true, []⟩) := by
  constructor
  · rintro ⟨l, hl, hres⟩
    have hdir : dir ≠ [] := by
      rintro rfl
      rw [Paths.resolve_from_nil] at hres
      cases hres
    have hfile : file ≠ [] := by
      rintro rfl
      rw [Paths.resolve_nil] at hres
      cases hres
    have hpath : path ≠ [] := by
      rintro rfl
      cases hl
    have hpre : ¬ bytes ".//" <+: path := by
      intro hpre
      obtain ⟨⟨ns, hloc⟩, hhead⟩ := stripDot_absolute hpre
      rw [hstrip, List.head?_append_of_ne_nil _ hdir] at hhead
      rw [hloc, Option.some_inj] at hl
      by_cases habs : file.head? = some 47
      · rw [Paths.resolve_absolute hdir habs, Paths.locate_of_ne hfile, Option.some_inj, ← hl] at hres
        simp [habs] at hres
      · rw [Paths.resolve_join hdir hfile habs, Paths.locate_of_ne (by simp), Option.some_inj, ← hl,
          List.head?_append_of_ne_nil _ hdir] at hres
        simp [hhead] at hres
    refine ⟨hpath, hpre, hdir, hfile, fun habs => ?_⟩
    rw [← locate_stripDot hpre, hstrip, locate, Paths.locate_of_ne (by simp), Paths.names_join, Option.some_inj,
      List.head?_append_of_ne_nil _ hdir] at hl
    rw [Paths.resolve_absolute hdir habs, Paths.locate_of_ne hfile, Option.some_inj, ← hl] at hres
    simp only [habs, decide_true, Paths.Location.mk.injEq] at hres
    rw [locate, Paths.locate_of_ne hdir, ← hres.1, List.self_eq_append_left.mp hres.2]
  · rintro ⟨hpath, hpre, hdir, hfile, habs⟩
    refine ⟨_, Paths.locate_of_ne hpath, ?_⟩
    have hloc := locate_stripDot hpre
    rw [locate, hstrip, locate, Paths.locate_of_ne hpath] at hloc
    by_cases hhead : file.head? = some 47
    · have hroot := habs hhead
      rw [locate, Paths.locate_of_ne hdir, Option.some_inj, Paths.Location.mk.injEq] at hroot
      rw [Paths.resolve_absolute hdir hhead, ← hloc, Paths.locate_of_ne hfile, Paths.locate_of_ne (by simp),
        Paths.names_join, hroot.2, List.head?_append_of_ne_nil _ hdir, hroot.1, hhead]
      rfl
    · rw [Paths.resolve_join hdir hfile hhead, hloc]

/-- The name that a handler is given, for any path and directory. -/
theorem resolve_workdir_iff (path : Bytes) (cp : Option Bytes) :
    (∃ file twd, workdir (stripDot path) cp = some (file, twd) ∧
      ∃ l, locate path = some l ∧ Paths.resolve 47 46 (twd.getD [46]) file = some l) ↔ Spelled path cp := by
  have hserved : (cp = none ∨ cp = some [46]) → workdir (stripDot path) cp = some (stripDot path, none) := by
    rintro (rfl | rfl) <;> rfl
  by_cases hcp : cp = none ∨ cp = some [46]
  · rw [hserved hcp]
    constructor
    · rintro ⟨file, twd, hw, hl⟩
      cases hw
      obtain ⟨hne, hpre⟩ := (resolve_plain_iff path).mp hl
      refine ⟨hne, hpre, fun dir hdir hdot => ?_⟩
      rw [hdir] at hcp
      exact absurd (Option.some.inj (hcp.resolve_left nofun)) hdot
    · rintro ⟨hne, hpre, -⟩
      exact ⟨_, none, rfl, (resolve_plain_iff path).mpr ⟨hne, hpre⟩⟩
  · rw [not_or] at hcp
    obtain ⟨dir, rfl⟩ := Option.ne_none_iff_exists'.mp hcp.1
    have hdot : dir ≠ [46] := fun h => hcp.2 (congrArg some h)
    obtain ⟨file, hstrip, hw⟩ | ⟨hno, hw⟩ := @workdir_dir dir (stripDot path) hdot
    · rw [hw]
      constructor
      · rintro ⟨_, _, hw', hl⟩
        cases hw'
        obtain ⟨hne, hpre, hdir, hfile, habs⟩ := (resolve_dir_iff hstrip).mp hl
        refine ⟨hne, hpre, fun dir' hdir' _ => ?_⟩
        cases hdir'
        exact ⟨hdir, file, hstrip, hfile, habs⟩
      · rintro ⟨hne, hpre, hdir⟩
        obtain ⟨hdirne, file', hstrip', hfile, habs⟩ := hdir dir rfl hdot
        obtain rfl : file = file' := by simpa using hstrip.symm.trans hstrip'
        exact ⟨file, some dir, rfl, (resolve_dir_iff hstrip).mpr ⟨hne, hpre, hdirne, hfile, habs⟩⟩
    · rw [hw]
      constructor
      · rintro ⟨_, _, hw', -⟩
        cases hw'
      · rintro ⟨-, -, hdir⟩
        obtain ⟨-, file, hstrip, -⟩ := hdir dir rfl hdot
        exact absurd ⟨file, by rw [hstrip]; simp⟩ hno

/-- **The name of the file.** Wherever the handler of a stanza is started, `X-Ash-File` is the name
    of what the path is, from there, and no internal error is made, if and only if the path is
    spelled with the directory. -/
theorem handle_named_iff (site : Site) (path : Bytes) (pat : Pattern) (twd : Option Bytes)
    (h : StartedIn site path pat twd) : Named site path pat ↔ Spelled path twd := by
  cases h with
  | fork fchild hfork =>
    rw [named_fork hfork, ← resolve_workdir_iff]
    refine ⟨fun hl => ⟨_, none, rfl, hl⟩, ?_⟩
    rintro ⟨file, twd, hw, hl⟩
    cases hw
    exact hl
  | child childnm name _ hchild hfind => rw [named_child hchild hfind, resolve_workdir_iff]

/-- A stanza with a declared handler. -/
def lister : Pattern := { type := .directory, handler := .child (bytes "ls"), rules := [] }

/-- A directory with the directory `sub`, in whose `.htrc` file a handler is declared. -/
def listed : Site where
  stat path := if path = bytes "./sub" then some .dir else none
  readdir _ := []
  named := noNames
  dots path := by
    constructor <;> split <;> simp
  htrc path := if path = bytes "sub" then { children := [bytes "ls"], patterns := [lister] } else {}

/-- A file in that directory. -/
theorem handle_named_iff_file : Named listed (bytes "sub/x") lister := by
  refine (handle_named_iff listed (bytes "sub/x") lister (some (bytes "sub")) (.child _ (bytes "ls") _ rfl rfl)).mpr
    ⟨by decide, by decide, fun dir hdir _ => ?_⟩
  cases hdir
  exact ⟨by decide, bytes "x", rfl, by decide, fun h => absurd h (by decide)⟩

/-- The directory itself. -/
theorem handle_unnamed :
    ∃ (site : Site) (pat : Pattern) (evs : List Event) (q : Hthead),
      site.serve (fun _ _ _ => false) (fun _ _ => .handled) 3 { rest := bytes "sub/" } = some evs ∧
        .handledir (bytes "sub") ∈ evs ∧ .passed (some (bytes "sub")) (bytes "ls") (some (bytes "sub")) q ∈ evs ∧
          getheader q (bytes "X-Ash-File") = some [] ∧ StartedIn site (bytes "sub/") pat (some (bytes "sub")) ∧
            ¬ Named site (bytes "sub/") pat := by
  refine ⟨listed, lister, _, _, rfl, List.mem_cons_self, List.mem_cons_of_mem _ List.mem_cons_self, rfl,
    .child _ (bytes "ls") _ rfl rfl, fun hn => ?_⟩
  have hfind : listed.findchild (stripDot (bytes "sub/")) (bytes "ls") =
      some (.declared (some (bytes "sub")) (bytes "ls")) := rfl
  obtain ⟨file, twd, hw, l, -, hres⟩ := (named_child rfl hfind).mp hn
  cases hw
  cases hres

/-! ## Paths without dots -/

theorem mem_parents {dir file : Bytes} (h : dir ∈ parents file) : ∃ name, file = dir ++ 47 :: name := by
  rw [← cuts_fst] at h
  obtain ⟨⟨_, name⟩, hcut, rfl⟩ := List.mem_map.mp h
  exact ⟨name, mem_cuts.mp hcut⟩

/-- Where a handler can be started, if the configurations that are not `.htrc` files are in no
    directory. -/
theorem StartedIn.dir {twd : Option Bytes} (h : StartedIn site path pat twd)
    (hpath : ∀ cf ∈ site.lconfig.toList ++ site.gconfig.toList, cf.path = none) :
    twd = none ∨ twd = some [46] ∨ ∃ dir file, twd = some dir ∧ skipDot (stripDot path) = dir ++ 47 :: file := by
  cases h with
  | fork => exact .inl rfl
  | child childnm name _ _ hfind =>
    unfold Site.findchild at hfind
    split at hfind
    · rename_i cf hcf
      cases hfind
      have hmem := List.mem_of_find?_eq_some hcf
      unfold Site.getconfigs at hmem
      obtain hmem | hmem := List.mem_append.mp hmem
      · obtain ⟨dir, hdir, rfl⟩ := List.mem_map.mp hmem
        obtain ⟨file, hfile⟩ := mem_parents hdir
        exact .inr (.inr ⟨dir, file, rfl, hfile⟩)
      · obtain rfl | hmem := List.mem_cons.mp hmem
        · exact .inr (.inl rfl)
        · exact .inl (hpath cf hmem)
    · split_ifs at hfind
      cases hfind

/-- Components that are joined, cut at a slash. -/
theorem join_cut {comps : List Bytes} (hcomps : ∀ d ∈ comps, Plain d) {c dir file : Bytes} (hc : Plain c)
    (h : c ++ comps.flatMap (47 :: ·) = dir ++ 47 :: file) : dir ≠ [] ∧ file ≠ [] ∧ file.head? ≠ some 47 := by
  induction comps generalizing c dir with
  | nil =>
    rw [List.flatMap_nil, List.append_nil] at h
    exact absurd (by simp [h]) hc.2.1
  | cons d comps ih =>
    rw [List.forall_mem_cons] at hcomps
    obtain ⟨hd, hcomps⟩ := hcomps
    have hnext : d ++ comps.flatMap (47 :: ·) ≠ [] ∧ (d ++ comps.flatMap (47 :: ·)).head? ≠ some 47 := by
      rw [List.head?_append_of_ne_nil _ hd.1]
      exact ⟨by simp [hd.1], fun h0 => hd.2.1 (List.mem_of_head? h0)⟩
    rw [List.flatMap_cons, List.cons_append] at h
    obtain ⟨a, rfl, ha⟩ | ⟨a, rfl, ha⟩ := List.append_eq_append_iff.mp h
    · refine ⟨by simp [hc.1], ?_⟩
      cases a with
      | nil =>
        rw [← (List.cons.inj ha).2]
        exact hnext
      | cons x a => exact (ih hcomps hd (List.cons.inj ha).2).2
    · cases a with
      | nil =>
        rw [List.append_nil] at hc
        rw [(List.cons.inj ha).2]
        exact ⟨hc.1, hnext⟩
      | cons x a => exact absurd (by simp [(List.cons.inj ha).1]) hc.2.1

/-- Nothing is taken off a path that begins with a plain component. -/
theorem plain_dot {d : Bytes} (hd : Plain d) (t p : Bytes) : d ++ t ≠ 46 :: 47 :: p := by
  intro h
  have hskip := skipDot_of_ne hd.1 hd.2.1 hd.2.2.1 t
  rw [h] at hskip
  have hlen := congrArg List.length hskip
  simp [skipDot] at hlen
  omega

theorem stripDot_plain {d : Bytes} (hd : Plain d) (t : Bytes) :
    stripDot (d ++ t) = d ++ t ∧ skipDot (d ++ t) = d ++ t ∧ ¬ bytes ".//" <+: d ++ t := by
  refine ⟨?_, skipDot_of_ne hd.1 hd.2.1 hd.2.2.1 t, ?_⟩
  · obtain ⟨c, p, h, -⟩ | h := stripDot_cases (d ++ t)
    · exact absurd h (plain_dot hd t _)
    · exact h
  · rintro ⟨p, h⟩
    exact plain_dot hd t _ h.symm

/-- A file on a path of plain components. -/
theorem spelled_file {comps : List Bytes} (hcomps : ∀ d ∈ comps, Plain d) {name : Bytes} (hname : Plain name)
    {twd : Option Bytes} (h : StartedIn site (served comps ++ 47 :: name) pat twd)
    (hpath : ∀ cf ∈ site.lconfig.toList ++ site.gconfig.toList, cf.path = none) :
    Spelled (served comps ++ 47 :: name) twd := by
  -- what is left of the path is components that are joined
  have hjoin : ∃ (c : Bytes) (cs : List Bytes), Plain c ∧ (∀ d ∈ cs, Plain d) ∧
      stripDot (served comps ++ 47 :: name) = c ++ cs.flatMap (47 :: ·) ∧ ¬ bytes ".//" <+: served comps ++ 47 :: name := by
    cases comps with
    | nil =>
      refine ⟨name, [], hname, List.forall_mem_nil _, ?_, ?_⟩
      · obtain ⟨c, p, rfl⟩ := List.exists_cons_of_ne_nil hname.1
        rw [List.flatMap_nil, List.append_nil]
        rfl
      · rintro ⟨p, hp⟩
        obtain rfl : 47 :: p = name := (List.cons.inj (List.cons.inj hp).2).2
        exact hname.2.1 List.mem_cons_self
    | cons d ds =>
      rw [List.forall_mem_cons] at hcomps
      obtain ⟨hd, hds⟩ := hcomps
      rw [served_cons hd.1 hd.2.1 hd.2.2.1, List.append_assoc]
      obtain ⟨hstrip, -, hpre⟩ := stripDot_plain hd (ds.flatMap (47 :: ·) ++ 47 :: name)
      refine ⟨d, ds ++ [name], hd, ?_, ?_, hpre⟩
      · intro e he
        obtain he | he := List.mem_append.mp he
        · exact hds e he
        · rwa [List.mem_singleton.mp he]
      · rw [hstrip, List.flatMap_append, List.flatMap_singleton]
  obtain ⟨c, cs, hc, hcs, hstrip, hpre⟩ := hjoin
  refine ⟨by simp, hpre, fun dir hdir hdot => ?_⟩
  obtain rfl | rfl | ⟨dir', file, rfl, hfile⟩ := h.dir hpath
  · cases hdir
  · exact absurd (Option.some.inj hdir).symm hdot
  · cases hdir
    rw [hstrip, (stripDot_plain hc _).2.1] at hfile
    obtain ⟨hne, hfne, hhead⟩ := join_cut hcs hc hfile
    exact ⟨hne, file, by rw [hstrip, hfile], hfne, fun h0 => absurd h0 hhead⟩

/-- A directory on a path of plain components: its own configuration is of no use to it. -/
theorem spelled_directory {d : Bytes} {ds : List Bytes} (hcomps : ∀ e ∈ d :: ds, Plain e) {twd : Option Bytes}
    (h : StartedIn site (served (d :: ds) ++ [47]) pat twd)
    (hpath : ∀ cf ∈ site.lconfig.toList ++ site.gconfig.toList, cf.path = none) :
    Spelled (served (d :: ds) ++ [47]) twd ↔ twd ≠ some (served (d :: ds)) := by
  rw [List.forall_mem_cons] at hcomps
  obtain ⟨hd, hds⟩ := hcomps
  have hserved := served_cons hd.1 hd.2.1 hd.2.2.1 ds
  obtain ⟨hstrip, hskip, hpre⟩ := stripDot_plain hd (ds.flatMap (47 :: ·) ++ [47])
  rw [← List.append_assoc, ← hserved] at hstrip hskip hpre
  have hdot : served (d :: ds) ≠ [46] := by
    rw [hserved]
    intro h0
    obtain ⟨x, d', rfl⟩ := List.exists_cons_of_ne_nil hd.1
    rw [List.cons_append, List.cons.injEq, List.append_eq_nil_iff] at h0
    exact hd.2.2.1 (by rw [h0.1, h0.2.1])
  constructor
  · rintro ⟨-, -, hdir⟩ rfl
    obtain ⟨-, file, heq, hfile, -⟩ := hdir _ rfl hdot
    rw [hstrip] at heq
    exact hfile (by simpa using heq)
  · intro hne
    refine ⟨by simp, hpre, fun dir hdir hdot => ?_⟩
    obtain rfl | rfl | ⟨dir', file, rfl, hfile⟩ := h.dir hpath
    · cases hdir
    · exact absurd (Option.some.inj hdir).symm hdot
    · cases hdir
      rw [hstrip, hskip] at hfile
      obtain rfl | ⟨file, c, rfl⟩ := List.eq_nil_or_concat file
      · exact absurd (by simpa using hfile) fun h0 : served (d :: ds) = dir => hne (congrArg some h0.symm)
      · -- the slash at the end is behind the directory
        rw [List.concat_eq_append, ← List.cons_append, ← List.append_assoc] at hfile
        obtain ⟨hjoin, hc⟩ := List.append_inj' hfile rfl
        rw [hserved] at hjoin
        obtain ⟨hdne, hfne, hhead⟩ := join_cut hds hd hjoin
        refine ⟨hdne, file.concat c, by rw [hstrip, List.concat_eq_append, hfile]; simp, by simp, fun h0 => ?_⟩
        rw [List.concat_eq_append, List.head?_append_of_ne_nil _ hfne] at h0
        exact absurd h0 hhead

end Ashd.Dirplex
