import Ashd.Dirplex.Confinement
import Ashd.Dirplex.Headmods

/-!
# How the rest string is consumed

Without captures, reparsing and index files, the elements of the rest string are the components
of the path that is handled, and what is left of it is passed on. An element is unescaped to a
string, which ends at an escaped NUL.

Main results:
* `checkpath_mapped`: what `checkpath` has consumed when it handles a file or a directory.
* `serve_mapped`: the same for `serve`.
-/

namespace Ashd.Dirplex

variable (fnmatch : (pattern string : Bytes) → (pathname : Bool) → Bool)
  (childhandle : Child → Hthead → ChildResult) (site : Site)

/-! ## What is consumed -/

/-- `unquoteurl`, as a string. -/
def unescape (el : Bytes) : Option Bytes := (unquoteurl el).map cstr

/-- The elements `els` of a rest string lead to the directory of the components `comps`. -/
inductive Descended : List Bytes → List Bytes → Prop
  | root : Descended [] []
  | down {els comps el c} : Descended els comps → 47 ∉ el → unescape el = some c →
      site.stat (served comps ++ 47 :: c) = some .dir → Descended (els ++ [el]) (comps ++ [c])

/-- Elements, each with its slash. -/
def slashed (els : List Bytes) : Bytes := els.flatMap (· ++ [47])

/-- The rest string `r` is elements that lead to a directory, an element for a file in it, and
    `rest`. The element is the name of the file, or the part of it before its first dot. -/
def MapsToFile (r path rest : Bytes) : Prop :=
  ∃ els el comps name, r = slashed els ++ el ++ rest ∧ (rest = [] ∨ rest.head? = some 47) ∧
    Descended site els comps ∧ 47 ∉ el ∧ path = served comps ++ 47 :: name ∧
      (unescape el = some name ∨
        ∃ c, unescape el = some c ∧ 46 ∉ c ∧ site.stat (served comps ++ 47 :: c) = none ∧
          46 ∈ name ∧ name.takeWhile (· ≠ 46) = c)

/-- The rest string `r` is elements that lead to a directory, and nothing else but what an escaped
    NUL makes nothing of. -/
def MapsToDir (r path rest : Bytes) : Prop :=
  rest = [] ∧ ∃ els el comps, r = slashed els ++ el ∧ Descended site els comps ∧ path = served comps ∧
    (el = [] ∨ 47 ∉ el ∧ bytes "%00" <+: el)

/-- What is done passes on only requests with the rest string `rest`. -/
def Passes (rest : Bytes) (evs : List Event) : Prop := ∀ e ∈ evs, ∀ q, e.request = some q → q.rest = rest

/-- What has been done with a request with the rest string `r`: if a file or a directory has been
    handled, what is passed on is what is left of it. -/
def Mapped (r : Bytes) (evs : List Event) : Prop :=
  (∀ path, .handlefile path ∈ evs → ∃ rest, MapsToFile site r path rest ∧ Passes rest evs) ∧
    ∀ path, .handledir path ∈ evs → ∃ rest, MapsToDir site r path rest ∧ Passes rest evs

/-- No directory is captured or reparsed, and no index files are named. -/
structure Site.Bare : Prop where
  capture : ∀ path, (site.htrc path).capture = none
  reparse : ∀ path, (site.htrc path).reparse = none
  index : ∀ path, (site.htrc path).index = none
  index' : ∀ cf ∈ site.lconfig.toList ++ site.gconfig.toList, cf.index = none

variable {fnmatch childhandle site}

/-! ## Handlers -/

/-- Neither a file nor a directory is handled. -/
def Quiet (evs : List Event) : Prop := ∀ path, .handlefile path ∉ evs ∧ .handledir path ∉ evs

theorem Quiet.mapped {evs : List Event} (h : Quiet evs) (r : Bytes) : Mapped site r evs :=
  ⟨fun path he => absurd he (h path).1, fun path he => absurd he (h path).2⟩

theorem Answer.quiet {evs : List Event} (h : Answer evs) : Quiet evs := by
  obtain ⟨e, rfl, he⟩ := h
  intro path
  constructor
  · rw [List.mem_singleton]
    rintro rfl
    cases he
  · rw [List.mem_singleton]
    rintro rfl
    cases he

theorem Passes.cons {rest : Bytes} {e : Event} {evs : List Event} (he : e.request = none) (h : Passes rest evs) :
    Passes rest (e :: evs) := by
  refine List.forall_mem_cons.mpr ⟨fun q hq => ?_, h⟩
  rw [he] at hq
  cases hq

/-- A file or a directory is handled first, and then neither. -/
theorem Quiet.mapped_cons {r rest : Bytes} {e : Event} {evs : List Event} (hq : Quiet evs) (hp : Passes rest evs)
    (he : e.request = none) (hfile : ∀ path, e = .handlefile path → MapsToFile site r path rest)
    (hdir : ∀ path, e = .handledir path → MapsToDir site r path rest) : Mapped site r (e :: evs) := by
  refine ⟨fun path hmem => ?_, fun path hmem => ?_⟩
  · obtain heq | hmem := List.mem_cons.mp hmem
    · exact ⟨rest, hfile path heq.symm, hp.cons he⟩
    · exact absurd hmem (hq path).1
  · obtain heq | hmem := List.mem_cons.mp hmem
    · exact ⟨rest, hdir path heq.symm, hp.cons he⟩
    · exact absurd hmem (hq path).2

theorem passes_nil (rest : Bytes) : Passes rest [] := List.forall_mem_nil _

theorem dispatch_passes (ch : Child) (req : Hthead) (twd : Option Bytes) :
    Passes req.rest (dispatch childhandle ch req twd) :=
  fun _ he _ hq => congrArg Hthead.rest (dispatch_request he hq)

theorem handle_passes (req : Hthead) (path : Bytes) (pat : Pattern) :
    Passes req.rest (site.handle childhandle req path pat) := by
  intro e he q hq
  obtain ⟨file, rfl⟩ := handle_request he hq
  rfl

theorem handle404_passes (req : Hthead) (path : Bytes) :
    Passes req.rest (site.handle404 fnmatch childhandle req path) := by
  unfold Site.handle404
  refine .cons rfl ?_
  split
  · exact handle_passes _ _ _
  · split
    · exact dispatch_passes _ _ _
    · exact passes_nil _

theorem handle404_quiet (req : Hthead) (path : Bytes) : Quiet (site.handle404 fnmatch childhandle req path) := by
  have htail : ∀ evs : List Event, Quiet evs → Quiet (.handle404 path :: evs) := by
    intro evs h path'
    simpa using h path'
  unfold Site.handle404
  apply htail
  split
  · exact (handle_answer ..).quiet
  · split
    · exact (dispatch_answer ..).quiet
    · exact fun _ => ⟨List.not_mem_nil, List.not_mem_nil⟩

/-- What `handlefile` does beside saying so. -/
theorem handlefile_mapped {r path : Bytes} {req : Hthead} (h : MapsToFile site r path req.rest) :
    Mapped site r (site.handlefile fnmatch childhandle req path) := by
  have htail : ∀ evs : List Event, Quiet evs → Passes req.rest evs → Mapped site r (.handlefile path :: evs) := by
    intro evs hq hp
    refine hq.mapped_cons hp rfl (fun path' he => ?_) (fun path' he => ?_)
    · cases he
      exact h
    · cases he
  unfold Site.handlefile
  split
  · exact htail _ (handle404_quiet _ _) (handle404_passes _ _)
  · exact htail _ (handle_answer ..).quiet (handle_passes _ _ _)

theorem Site.Bare.index_none (hb : site.Bare) (file : Bytes) :
    (site.getconfigs file).findSome? Config.index = none := by
  rw [List.findSome?_eq_none_iff]
  intro cf hcf
  unfold Site.getconfigs at hcf
  obtain hcf | hcf := List.mem_append.mp hcf
  · obtain ⟨path, -, rfl⟩ := List.mem_map.mp hcf
    exact hb.index path
  · obtain rfl | hcf := List.mem_cons.mp hcf
    · exact hb.index [46]
    · exact hb.index' cf hcf

theorem handledir_mapped (hb : site.Bare) {r path : Bytes} {req : Hthead} (h : MapsToDir site r path req.rest) :
    Mapped site r (site.handledir fnmatch childhandle req path) := by
  have htail : ∀ evs : List Event, Quiet evs → Passes req.rest evs → Mapped site r (.handledir path :: evs) := by
    intro evs hq hp
    refine hq.mapped_cons hp rfl (fun path' he => ?_) (fun path' he => ?_)
    · cases he
    · cases he
      exact h
  unfold Site.handledir
  extract_lets cpath
  rw [hb.index_none, Option.bind_none]
  simp only
  split
  · exact htail _ (handle_answer ..).quiet (handle_passes _ _ _)
  · exact htail _ (Answer.quiet ⟨_, rfl, rfl⟩) fun e he q hq => by
      rw [List.mem_singleton.mp he] at hq
      cases hq

/-! ## The way to a file or directory -/

/-- The result of a call: if it is to be gone on from, nothing has been done. -/
def Good (site : Site) (r : Bytes) (res : Result) : Prop := Mapped site r res.1 ∧ (res.2 = false → res.1 = [])

theorem good_nothing (r : Bytes) : Good site r ([], false) :=
  ⟨Quiet.mapped (fun _ => ⟨List.not_mem_nil, List.not_mem_nil⟩) r, fun _ => rfl⟩

theorem Mapped.good {r : Bytes} {evs : List Event} (h : Mapped site r evs) : Good site r (evs, true) :=
  ⟨h, nofun⟩

theorem splitRest_spec (rest : Bytes) :
    rest = (splitRest rest).1 ++ (splitRest rest).2 ∧ 47 ∉ (splitRest rest).1 ∧
      ((splitRest rest).2 = [] ∨ (splitRest rest).2.head? = some 47) := by
  refine ⟨List.takeWhile_append_dropWhile.symm, fun h => ?_, ?_⟩
  · simpa using List.mem_takeWhile_imp h
  · unfold splitRest
    cases hd : rest.dropWhile (· ≠ 47) with
    | nil => exact .inl rfl
    | cons c s =>
      have hne : rest.dropWhile (· ≠ 47) ≠ [] := by
        rw [hd]
        exact List.cons_ne_nil c s
      have hc := List.head_dropWhile_not (fun c : UInt8 => decide (c ≠ 47)) hne
      simp only [hd, List.head_cons] at hc
      right
      simpa using hc

theorem unquoteurl_cons {c : UInt8} (h : c ≠ 37) (p : Bytes) : unquoteurl (c :: p) = (unquoteurl p).map (c :: ·) := by
  conv_lhs => unfold unquoteurl
  rw [if_neg h]

theorem unquoteurl_plain {el : Bytes} (h : 37 ∉ el) : unquoteurl el = some el := by
  induction el with
  | nil => rfl
  | cons c p ih =>
    rw [List.mem_cons, not_or] at h
    rw [unquoteurl_cons (Ne.symm h.1), ih h.2, Option.map_some]

/-- An escape is longer than the byte that it stands for. -/
theorem unquoteurl_length {el u : Bytes} (h : unquoteurl el = some u) :
    u.length ≤ el.length ∧ (37 ∈ el → u.length < el.length) := by
  induction el using unquoteurl.induct generalizing u with
  | case1 =>
    cases h
    exact ⟨le_rfl, nofun⟩
  | case2 x1 x2 p d1 d2 hd2 hd1 ih =>
    unfold unquoteurl at h
    simp only [if_true, hd1, hd2, Option.map_eq_some_iff] at h
    obtain ⟨u, hu, rfl⟩ := h
    have hle := (ih hu).1
    simp only [List.length_cons]
    omega
  | case3 x1 x2 p hd =>
    unfold unquoteurl at h
    simp only [if_true] at h
    cases h
  | case4 p hp =>
    unfold unquoteurl at h
    simp only [if_true] at h
    cases h
  | case5 c p hc ih =>
    rw [unquoteurl_cons hc] at h
    obtain ⟨u, hu, rfl⟩ := Option.map_eq_some_iff.mp h
    obtain ⟨hle, hlt⟩ := ih hu
    simp only [List.length_cons, List.mem_cons]
    refine ⟨Nat.succ_le_succ hle, fun hmem => Nat.succ_lt_succ (hlt ?_)⟩
    exact hmem.resolve_left (Ne.symm hc)

/-- Only an element without escapes is left as it is. -/
theorem unescape_eq_self {el : Bytes} (hnul : NulFree el) : unescape el = some el ↔ 37 ∉ el := by
  refine ⟨fun h hmem => ?_, fun h => ?_⟩
  · obtain ⟨u, hu, hcstr⟩ := Option.map_eq_some_iff.mp h
    have hle : (cstr u).length ≤ u.length := (List.takeWhile_prefix _).length_le
    have hlt := (unquoteurl_length hu).2 hmem
    rw [hcstr] at hle
    omega
  · rw [unescape, unquoteurl_plain h, Option.map_some, cstr_eq_self hnul]

/-- Only an escaped NUL makes nothing of an element that is not empty. -/
theorem unescape_nil {el : Bytes} (hnul : NulFree el) (h : unescape el = some []) : el = [] ∨ bytes "%00" <+: el := by
  obtain ⟨u, hu, hcstr⟩ := Option.map_eq_some_iff.mp h
  match el with
  | [] => exact .inl rfl
  | c :: p =>
    right
    unfold unquoteurl at hu
    by_cases hc : c = 37
    · rw [if_pos hc] at hu
      match p with
      | [] => cases hu
      | [_] => cases hu
      | x1 :: x2 :: p =>
        simp only at hu
        cases hx1 : digitVal x1 with
        | none =>
          rw [hx1] at hu
          cases hu
        | some d1 =>
          cases hx2 : digitVal x2 with
          | none =>
            rw [hx1, hx2] at hu
            cases hu
          | some d2 =>
            rw [hx1, hx2] at hu
            obtain ⟨u', -, rfl⟩ := Option.map_eq_some_iff.mp hu
            have hzero : UInt8.ofNat (d1 * 16 + d2) = 0 := by
              by_contra hne
              rw [cstr, List.takeWhile_cons_of_pos (by simpa using hne)] at hcstr
              cases hcstr
            have h1 := digitVal_lt hx1
            have h2 := digitVal_lt hx2
            have hval := congrArg UInt8.toNat hzero
            rw [UInt8.toNat_ofNat', Nat.mod_eq_of_lt (by omega), UInt8.toNat_zero] at hval
            obtain rfl : d1 = 0 := by omega
            obtain rfl : d2 = 0 := by omega
            rw [hc, digitVal_eq_zero hx1, digitVal_eq_zero hx2]
            exact ⟨p, rfl⟩
    · rw [if_neg hc] at hu
      obtain ⟨u', -, rfl⟩ := Option.map_eq_some_iff.mp hu
      have hne : c ≠ 0 := fun h0 => hnul (h0 ▸ List.mem_cons_self)
      rw [cstr, List.takeWhile_cons_of_pos (by simpa using hne)] at hcstr
      cases hcstr

theorem checkentry_good {cp : Bytes → Bytes → Bool → Option Result} {req : Hthead} {els comps : List Bytes}
    {r el rest c : Bytes} {final : Bool} (hdesc : Descended site els comps) (hslash : 47 ∉ el)
    (hc : unescape el = some c) (hr : r = slashed els ++ el ++ rest) (hrest : rest = [] ∨ rest.head? = some 47)
    (hcp : ∀ els comps, Descended site els comps → ∀ path, skipDot path = served comps → ∀ rest,
      r = slashed els ++ rest → ∀ res, cp path rest final = some res → Good site r res)
    {res : Result} (h : site.checkentry fnmatch childhandle cp req (served comps) rest c final = some res) :
    Good site r res := by
  have hfile : ∀ name, (unescape el = some name ∨ ∃ c, unescape el = some c ∧ 46 ∉ c ∧
      site.stat (served comps ++ 47 :: c) = none ∧ 46 ∈ name ∧ name.takeWhile (· ≠ 46) = c) →
      MapsToFile site r (served comps ++ 47 :: name) rest :=
    fun name hname => ⟨els, el, comps, name, hr, hrest, hdesc, hslash, rfl, hname⟩
  unfold Site.checkentry at h
  split at h
  · rename_i type hstat
    split at h
    · cases h
      exact good_nothing r
    · split at h
      · split at h
        · cases h
          exact (Answer.quiet ⟨_, rfl, rfl⟩).mapped r |>.good
        · -- down into the directory
          rename_i hne
          obtain ⟨t, rfl⟩ := List.head?_eq_some_iff.mp (hrest.resolve_left hne)
          refine hcp (els ++ [el]) (comps ++ [c]) (hdesc.down hslash hc hstat) _ (served_concat ..).symm _ ?_ res h
          simp [hr, slashed]
      · cases h
        exact (handlefile_mapped (hfile c (.inl hc))).good
      · cases h
        exact ((handle404_quiet _ _).mapped r).good
  · rename_i hstat
    split at h
    · cases h
      exact good_nothing r
    · rename_i hdot
      split at h
      · rename_i newpath hfind
        cases h
        obtain ⟨d, hd, rfl⟩ := Option.map_eq_some_iff.mp hfind
        have hspec := List.find?_some hd
        simp only [decide_eq_true_eq] at hspec
        exact (handlefile_mapped (hfile d (.inr ⟨c, hc, hdot, hstat, hspec.2.1, hspec.2.2.1⟩))).good
      · cases h
        exact good_nothing r

theorem checkrest_good {cp : Bytes → Bytes → Bool → Option Result} {req : Hthead} {els comps : List Bytes}
    {r rest : Bytes} {final : Bool} (hb : site.Bare) (hnul : NulFree r) (hdesc : Descended site els comps)
    (hr : r = slashed els ++ rest)
    (hcp : ∀ els comps, Descended site els comps → ∀ path, skipDot path = served comps → ∀ rest,
      r = slashed els ++ rest → ∀ res, cp path rest final = some res → Good site r res)
    {res : Result} (h : site.checkrest fnmatch childhandle cp req (served comps) rest final = some res) :
    Good site r res := by
  obtain ⟨hsplit, hslash, hhead⟩ := splitRest_spec rest
  unfold Site.checkrest at h
  simp only at h
  split at h
  · cases h
    exact ((Answer.quiet ⟨_, rfl, rfl⟩).mapped r).good
  · rename_i c hc
    have hr' : r = slashed els ++ (splitRest rest).1 ++ (splitRest rest).2 := by
      rw [List.append_assoc, ← hsplit, hr]
    split at h
    · cases h
      exact good_nothing r
    · rename_i hbad
      split at h
      · -- the element is empty, and so is what follows it
        rename_i hempty
        have hend : (splitRest rest).2 = [] := by
          by_contra hne
          exact hbad (.inr ⟨hempty, hne⟩)
        have hnul' : NulFree (splitRest rest).1 := fun h0 => hnul (by rw [hr']; simp [h0])
        rw [hend, List.append_nil] at hr'
        cases h
        refine (handledir_mapped hb ⟨hend, els, (splitRest rest).1, comps, hr', hdesc, rfl, ?_⟩).good
        exact (unescape_nil hnul' (hempty ▸ hc)).imp_right fun hp => ⟨hslash, hp⟩
      · exact checkentry_good hdesc hslash hc hr' hhead hcp h

theorem Site.Bare.captured (hb : site.Bare) (path : Bytes) : (site.getconfig path).captured = none := by
  unfold Config.captured Site.getconfig
  rw [hb.capture, ite_self]

/-- What `checkpath` has consumed, when it handles a file or a directory. -/
theorem checkpath_mapped (hb : site.Bare) (req : Hthead) {r : Bytes} (hnul : NulFree r) (n : ℕ) :
    ∀ els comps, Descended site els comps → ∀ path, skipDot path = served comps → ∀ rest,
      r = slashed els ++ rest → ∀ final res, site.checkpath fnmatch childhandle req n path rest final = some res →
        Good site r res := by
  induction n with
  | zero =>
    intro _ _ _ _ _ _ _ _ _ h
    cases h
  | succ n ih =>
    intro els comps hdesc path hpath rest hr final res h
    have hdir : site.checkdir fnmatch childhandle (site.checkpath fnmatch childhandle req n) req (skipDot path) rest =
        some ([], false) := by
      unfold Site.checkdir
      have hrep : (site.getconfig (skipDot path)).reparse = none := hb.reparse _
      simp only [hb.captured, hrep]
    rw [Site.checkpath, hdir] at h
    simp only [List.nil_append] at h
    rw [hpath] at h
    cases hrest : site.checkrest fnmatch childhandle (site.checkpath fnmatch childhandle req n) req (served comps) rest
        final with
    | none =>
      rw [hrest] at h
      cases h
    | some res' =>
      have hgood := checkrest_good hb hnul hdesc hr (fun els comps hdesc path hpath rest hr res =>
        ih els comps hdesc path hpath rest hr final res) hrest
      rw [hrest] at h
      cases h
      unfold Site.finish
      simp only
      split_ifs with hfinal
      · rw [hgood.2 hfinal.2]
        exact ((handle404_quiet _ _).mapped r).good
      · exact hgood

variable (fnmatch childhandle site)

/-- **How the rest string is consumed.** Without captures, reparsing and index files: if a file is
    handled, the rest string is elements that unescape to the names of the directories on its
    path, an element for the file, and what is passed on, which is empty or begins with a slash;
    if a directory is, nothing is passed on, and the elements have led to it. -/
theorem serve_mapped (hb : site.Bare) (n : ℕ) (req : Hthead) (hnul : NulFree req.rest) (evs : List Event)
    (h : site.serve fnmatch childhandle n req = some evs) : Mapped site req.rest evs := by
  obtain ⟨res, hres, rfl⟩ := Option.map_eq_some_iff.mp h
  exact (checkpath_mapped hb req hnul n [] [] .root [46] rfl req.rest rfl true res hres).1

/-- A directory with the file `a.html`, which has a handler. -/
def oneFile : Site where
  stat path := if path = bytes "./a.html" then some .reg else none
  readdir _ := [bytes "a.html"]
  named _ name hname := by
    rw [List.mem_singleton.mp hname]
    decide
  dots path := by
    have hne : ∀ s : Bytes, s.getLast? = some 46 → path ++ s ≠ bytes "./a.html" :=
      fun s hs => append_dot_ne hs (by decide)
    rw [if_neg (hne _ rfl), if_neg (hne _ rfl)]
    decide
  htrc _ := { patterns := [{ type := .file, handler := .fork [bytes "cat"], rules := [] }] }

theorem oneFile_bare : oneFile.Bare where
  capture _ := rfl
  reparse _ := rfl
  index _ := rfl
  index' := List.forall_mem_nil _

theorem serve_mapped_oneFile :
    ∃ evs, oneFile.serve (fun _ _ _ => false) (fun _ _ => .handled) 2 { rest := bytes "a/info" } = some evs ∧
      .handlefile (bytes "./a.html") ∈ evs ∧ Mapped oneFile (bytes "a/info") evs :=
  ⟨_, rfl, List.mem_cons_self, serve_mapped (fun _ _ _ => false) (fun _ _ => .handled) oneFile oneFile_bare 2
    { rest := bytes "a/info" } (by decide) _ rfl⟩

/-- A directory that is handled for a rest string that is neither empty nor ends in a slash. -/
theorem serve_mapped_nul :
    ∃ site : Site, site.Bare ∧ ∃ evs,
      site.serve (fun _ _ _ => false) (fun _ _ => .handled) 2 { rest := bytes "%00" } = some evs ∧
        .handledir [46] ∈ evs ∧ (∃ e ∈ evs, ∃ q, e.request = some q ∧ q.rest = []) ∧
          ¬ (bytes "%00" = [] ∨ (bytes "%00").getLast? = some 47) := by
  let site := emptySite { patterns := [{ type := .directory, handler := .fork [bytes "ls"], rules := [] }] }
  have hhtrc : ∀ path, site.htrc path = {} ∨
      site.htrc path = { patterns := [{ type := .directory, handler := .fork [bytes "ls"], rules := [] }] } := by
    intro path
    by_cases hp : path = [46]
    · exact .inr (if_pos hp)
    · exact .inl (if_neg hp)
  refine ⟨site, ⟨fun path => ?_, fun path => ?_, fun path => ?_, List.forall_mem_nil _⟩, _, rfl, List.mem_cons_self,
    ⟨_, List.mem_cons_of_mem _ List.mem_cons_self, _, rfl, rfl⟩, by decide⟩
  all_goals obtain h | h := hhtrc path <;> rw [h]

end Ashd.Dirplex
