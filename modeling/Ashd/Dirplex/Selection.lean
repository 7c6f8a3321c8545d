import Ashd.Dirplex.Confinement

/-!
# The selection of a stanza

Which stanzas are eligible for a file, and which of them is the closest, in terms of the
directories that the file is in. `findmatch` finds the directories in the path without a leading
`./`, but takes the directory off the path as it is.

Main results:
* `searchMatch_some`, `searchMatch_none`: what one search over the configurations finds.
* `findmatch_selected`: what `findmatch` finds if the names that it matches are right.
* `findmatch_iff`: when they are.
-/

namespace Ashd.Dirplex

/-! ## What is to be selected -/

/-- The configurations in force for a file, each with the name that the file has for it and its
    distance: those of the directories that the file is in, by how many directories are between,
    that of the served directory, the local one and the global one. -/
inductive InForce (site : Site) (file : Bytes) : Config → Bytes → ℕ → Prop
  | htrc (dir name : Bytes) : skipDot file = dir ++ 47 :: name → InForce site file (site.getconfig dir) name (name.count 47)
  | served : InForce site file (site.getconfig [46]) (skipDot file) ((skipDot file).count 47)
  | lcl (cf : Config) : site.lconfig = some cf → InForce site file cf (cf.localName file) ((skipDot file).count 47 + 1)
  | gbl (cf : Config) : site.gconfig = some cf → InForce site file cf (cf.localName file) ((skipDot file).count 47 + 2)

/-- What follows the last slash. -/
def basename (file : Bytes) : Bytes := file.rtakeWhile (· ≠ 47)

variable (fnmatch : (pattern string : Bytes) → (pathname : Bool) → Bool)

/-- Whether a rule matches a file with the name `ln`, where `default` is left aside. -/
def Rule.Holds (bn ln : Bytes) : Rule → Prop
  | .basename patterns => ∃ pattern ∈ patterns, fnmatch pattern bn false = true
  | .pathname patterns => ∃ pattern ∈ patterns, fnmatch pattern ln true = true
  | .all => True
  | .dflt => True
  | .lcl => 47 ∉ ln

def Pattern.IsDefault (pat : Pattern) : Prop := Rule.dflt ∈ pat.rules

variable (site : Site) (file : Bytes) (type : PatType)

/-- A stanza of a configuration in force is of the type, and all its rules match. -/
structure Matching (cf : Config) (name : Bytes) (dist : ℕ) (pat : Pattern) : Prop where
  inForce : InForce site file cf name dist
  mem : pat ∈ cf.patterns
  type_eq : pat.type = type
  rules : ∀ rule ∈ pat.rules, rule.Holds fnmatch (basename file) name

/-- It may be selected: if it has a `default` rule, no stanza without one matches. -/
structure Eligible (cf : Config) (name : Bytes) (dist : ℕ) (pat : Pattern) : Prop where
  matching : Matching fnmatch site file type cf name dist pat
  default : pat.IsDefault → ∀ cf' name' dist' pat', Matching fnmatch site file type cf' name' dist' pat' → pat'.IsDefault

/-- The stanza is the closest of those that are eligible, or none matches. -/
def Selected : Option Pattern → Prop
  | some pat => ∃ cf name dist, Eligible fnmatch site file type cf name dist pat ∧
      ∀ cf' name' dist' pat', Eligible fnmatch site file type cf' name' dist' pat' → dist ≤ dist'
  | none => ∀ cf name dist pat, ¬ Matching fnmatch site file type cf name dist pat

/-- The rules of a `.htrc` file are evaluated on the name relative to its directory. -/
def Relative : Prop :=
  (∀ dir name, skipDot file = dir ++ 47 :: name → (site.getconfig dir).localName file = name) ∧
    (site.getconfig [46]).localName file = skipDot file

/-! ## The configurations in order -/

variable {fnmatch site file type}

/-- What is before and after each slash, from the last one on. -/
def cuts : Bytes → List (Bytes × Bytes)
  | [] => []
  | c :: file => (cuts file).map (fun x => (c :: x.1, x.2)) ++ if c = 47 then [([], file)] else []

theorem cuts_fst (file : Bytes) : (cuts file).map Prod.fst = parents file := by
  induction file with
  | nil => rfl
  | cons c file ih =>
    rw [cuts, parents, ← ih, List.map_append, List.map_map, List.map_map]
    congr 1
    split <;> rfl

theorem mem_cuts {file dir name : Bytes} : (dir, name) ∈ cuts file ↔ file = dir ++ 47 :: name := by
  induction file generalizing dir with
  | nil => simp [cuts]
  | cons c file ih =>
    rw [cuts, List.mem_append, List.mem_map]
    constructor
    · rintro (⟨⟨dir', name'⟩, hx, heq⟩ | hx)
      · cases heq
        rw [ih.mp hx, List.cons_append]
      · split_ifs at hx with hc
        · cases List.mem_singleton.mp hx
          rw [hc, List.nil_append]
        · cases hx
    · intro h
      cases dir with
      | nil =>
        rw [List.nil_append, List.cons.injEq] at h
        right
        rw [if_pos h.1, h.2]
        exact List.mem_singleton_self _
      | cons x dir =>
        rw [List.cons_append, List.cons.injEq] at h
        exact .inl ⟨(dir, name), ih.mpr h.2, by rw [h.1]⟩

theorem cuts_sorted (file : Bytes) : (cuts file).Pairwise fun x y => x.2.count 47 ≤ y.2.count 47 := by
  induction file with
  | nil => exact .nil
  | cons c file ih =>
    rw [cuts, List.pairwise_append, List.pairwise_map]
    refine ⟨ih, ?_, ?_⟩
    · split_ifs
      · exact List.pairwise_singleton _ _
      · exact .nil
    · intro x hx y hy
      obtain ⟨x, hxf, rfl⟩ := List.mem_map.mp hx
      split_ifs at hy
      · rw [List.mem_singleton.mp hy]
        have h := mem_cuts.mp hxf
        simp only
        rw [h, List.count_append, List.count_cons]
        omega
      · cases hy

/-- The configurations in the order in which they are searched, with names and distances. -/
def Site.ranked (site : Site) (file : Bytes) : List (Config × Bytes × ℕ) :=
  (cuts (skipDot file)).map (fun x => (site.getconfig x.1, x.2, x.2.count 47)) ++
    (site.getconfig [46], skipDot file, (skipDot file).count 47) ::
      (site.lconfig.toList.map (fun cf => (cf, cf.localName file, (skipDot file).count 47 + 1)) ++
        site.gconfig.toList.map fun cf => (cf, cf.localName file, (skipDot file).count 47 + 2))

theorem ranked_fst (site : Site) (file : Bytes) : (site.ranked file).map Prod.fst = site.getconfigs file := by
  unfold Site.ranked Site.getconfigs
  rw [← cuts_fst]
  simp [Function.comp_def]

theorem mem_ranked {cf : Config} {name : Bytes} {dist : ℕ} :
    (cf, name, dist) ∈ site.ranked file ↔ InForce site file cf name dist := by
  unfold Site.ranked
  rw [List.mem_append, List.mem_cons, List.mem_append]
  constructor
  · rintro (h | h | h | h)
    · obtain ⟨⟨dir, name⟩, hx, heq⟩ := List.mem_map.mp h
      cases heq
      exact .htrc dir name (mem_cuts.mp hx)
    · cases h
      exact .served
    · obtain ⟨cf, hcf, heq⟩ := List.mem_map.mp h
      cases heq
      exact .lcl cf (by simpa using hcf)
    · obtain ⟨cf, hcf, heq⟩ := List.mem_map.mp h
      cases heq
      exact .gbl cf (by simpa using hcf)
  · rintro (⟨dir, _, h⟩ | _ | ⟨_, h⟩ | ⟨_, h⟩)
    · exact .inl (List.mem_map.mpr ⟨(dir, name), mem_cuts.mpr h, rfl⟩)
    · exact .inr (.inl rfl)
    · exact .inr (.inr (.inl (List.mem_map.mpr ⟨cf, by simpa using h, rfl⟩)))
    · exact .inr (.inr (.inr (List.mem_map.mpr ⟨cf, by simpa using h, rfl⟩)))

theorem ranked_sorted (site : Site) (file : Bytes) : (site.ranked file).Pairwise fun x y => x.2.2 ≤ y.2.2 := by
  have htail : ∀ y ∈ site.lconfig.toList.map (fun cf => (cf, cf.localName file, (skipDot file).count 47 + 1)) ++
      site.gconfig.toList.map (fun cf => (cf, cf.localName file, (skipDot file).count 47 + 2)),
      (skipDot file).count 47 ≤ y.2.2 := by
    intro y hy
    obtain hy | hy := List.mem_append.mp hy
    · obtain ⟨cf, -, rfl⟩ := List.mem_map.mp hy
      exact Nat.le_add_right _ 1
    · obtain ⟨cf, -, rfl⟩ := List.mem_map.mp hy
      exact Nat.le_add_right _ 2
  unfold Site.ranked
  rw [List.pairwise_append, List.pairwise_map, List.pairwise_cons]
  refine ⟨cuts_sorted _, ⟨htail, ?_⟩, ?_⟩
  · cases site.lconfig <;> cases site.gconfig <;> simp
  · intro x hx y hy
    obtain ⟨⟨dir, name⟩, hcut, rfl⟩ := List.mem_map.mp hx
    have hle : name.count 47 ≤ (skipDot file).count 47 := by
      rw [mem_cuts.mp hcut, List.count_append, List.count_cons]
      omega
    obtain rfl | hy := List.mem_cons.mp hy
    · exact hle
    · exact hle.trans (htail y hy)

/-- If the names are relative, they are the ones that are matched. -/
theorem localName_of_inForce (hrel : Relative site file) {cf : Config} {name : Bytes} {dist : ℕ}
    (h : InForce site file cf name dist) : cf.localName file = name := by
  cases h with
  | htrc dir _ h => exact hrel.1 dir name h
  | served => exact hrel.2
  | lcl => rfl
  | gbl => rfl

/-! ## The search -/

theorem rule_matches_iff {trydefault : Bool} {bn ln : Bytes} (rule : Rule) :
    rule.matches fnmatch trydefault bn ln = true ↔
      rule.Holds fnmatch bn ln ∧ (trydefault = false → rule ≠ .dflt) := by
  cases rule with
  | basename patterns => simp [Rule.matches, Rule.Holds]
  | pathname patterns => simp [Rule.matches, Rule.Holds]
  | all => simp [Rule.matches, Rule.Holds]
  | dflt => cases trydefault <;> simp [Rule.matches, Rule.Holds]
  | lcl => simp [Rule.matches, Rule.Holds]

/-- What is asked of a stanza in one search. -/
theorem accepted_iff (hrel : Relative site file) {trydefault : Bool} {cf : Config} {name : Bytes} {dist : ℕ}
    {pat : Pattern} (hcf : InForce site file cf name dist) (hmem : pat ∈ cf.patterns) :
    (pat.type = type ∧ pat.rules.all fun rule => rule.matches fnmatch trydefault (basename file) (cf.localName file)) ↔
      Matching fnmatch site file type cf name dist pat ∧ (trydefault = false → ¬ pat.IsDefault) := by
  rw [localName_of_inForce hrel hcf, List.all_eq_true]
  simp only [rule_matches_iff]
  constructor
  · rintro ⟨htype, hall⟩
    exact ⟨⟨hcf, hmem, htype, fun rule hrule => (hall rule hrule).1⟩, fun htry hd => (hall _ hd).2 htry rfl⟩
  · rintro ⟨hm, hd⟩
    refine ⟨hm.type_eq, fun rule hrule => ⟨hm.rules rule hrule, ?_⟩⟩
    rintro htry rfl
    exact hd htry hrule

theorem searchMatch_eq (site : Site) (file : Bytes) (trydefault : Bool) (type : PatType) :
    site.searchMatch fnmatch file trydefault type = (site.ranked file).findSome? fun x => x.1.patterns.find? fun pat =>
      pat.type = type ∧
        pat.rules.all fun rule => rule.matches fnmatch trydefault (basename file) (x.1.localName file) := by
  unfold Site.searchMatch
  rw [← ranked_fst, List.findSome?_map]
  rfl

/-- A search finds the closest of the stanzas that match, among those without a `default` rule or
    among all. -/
theorem searchMatch_some (hrel : Relative site file) {trydefault : Bool} {pat : Pattern}
    (h : site.searchMatch fnmatch file trydefault type = some pat) :
    ∃ cf name dist, Matching fnmatch site file type cf name dist pat ∧ (trydefault = false → ¬ pat.IsDefault) ∧
      ∀ cf' name' dist' pat', Matching fnmatch site file type cf' name' dist' pat' →
        (trydefault = false → ¬ pat'.IsDefault) → dist ≤ dist' := by
  rw [searchMatch_eq, List.findSome?_eq_some_iff] at h
  obtain ⟨before, ⟨cf, name, dist⟩, after, hranked, hfind, hbefore⟩ := h
  have hcf : InForce site file cf name dist := mem_ranked.mp (hranked ▸ List.mem_append_right _ List.mem_cons_self)
  have hpat : Matching fnmatch site file type cf name dist pat ∧ (trydefault = false → ¬ pat.IsDefault) :=
    (accepted_iff hrel hcf (List.mem_of_find?_eq_some hfind)).mp (by simpa using List.find?_some hfind)
  refine ⟨cf, name, dist, hpat.1, hpat.2, fun cf' name' dist' pat' hm hd => ?_⟩
  have hmem := mem_ranked.mpr hm.inForce
  rw [hranked] at hmem
  obtain hmem | hmem := List.mem_append.mp hmem
  · -- nothing has been found in the configurations before
    have hnone := List.find?_eq_none.mp (hbefore _ hmem) pat' hm.mem
    exact absurd ((accepted_iff hrel hm.inForce hm.mem).mpr ⟨hm, hd⟩) (by simpa using hnone)
  · have hsorted := ranked_sorted site file
    rw [hranked] at hsorted
    obtain heq | hmem := List.mem_cons.mp hmem
    · cases heq
      exact le_rfl
    · exact (List.pairwise_cons.mp (List.pairwise_append.mp hsorted).2.1).1 _ hmem

theorem searchMatch_none (hrel : Relative site file) {trydefault : Bool}
    (h : site.searchMatch fnmatch file trydefault type = none) {cf : Config} {name : Bytes} {dist : ℕ} {pat : Pattern}
    (hm : Matching fnmatch site file type cf name dist pat) : ¬ (trydefault = false → ¬ pat.IsDefault) := by
  intro hd
  rw [searchMatch_eq, List.findSome?_eq_none_iff] at h
  have hnone := List.find?_eq_none.mp (h _ (mem_ranked.mpr hm.inForce)) pat hm.mem
  exact absurd ((accepted_iff hrel hm.inForce hm.mem).mpr ⟨hm, hd⟩) (by simpa using hnone)

/-- If the names are relative, `findmatch` selects what is to be selected. -/
theorem findmatch_selected (hrel : Relative site file) :
    Selected fnmatch site file type (site.findmatch fnmatch file false type) := by
  unfold Site.findmatch
  cases hfirst : site.searchMatch fnmatch file false type with
  | some pat =>
    obtain ⟨cf, name, dist, hm, hd, hle⟩ := searchMatch_some hrel hfirst
    refine ⟨cf, name, dist, ⟨hm, fun h => absurd h (hd rfl)⟩, fun cf' name' dist' pat' he => ?_⟩
    exact hle cf' name' dist' pat' he.matching fun _ h => hd rfl (he.default h cf name dist pat hm)
  | none =>
    have hdefault : ∀ cf name dist pat, Matching fnmatch site file type cf name dist pat → pat.IsDefault :=
      fun cf name dist pat hm => by simpa using searchMatch_none hrel hfirst hm
    simp only [Bool.false_eq_true, if_false]
    cases hsecond : site.searchMatch fnmatch file true type with
    | some pat =>
      obtain ⟨cf, name, dist, hm, -, hle⟩ := searchMatch_some hrel hsecond
      exact ⟨cf, name, dist, ⟨hm, fun _ => hdefault⟩,
        fun cf' name' dist' pat' he => hle cf' name' dist' pat' he.matching nofun⟩
    | none => exact fun cf name dist pat hm => searchMatch_none hrel hsecond hm nofun

/-! ## Names -/

theorem skipDot_cases (file : Bytes) : file = 46 :: 47 :: skipDot file ∨ skipDot file = file := by
  unfold skipDot
  split
  · exact .inl rfl
  · exact .inr rfl

/-- If the path is as the directories are found in it, the names are relative. -/
theorem relative_of_skipDot (site : Site) (h : skipDot file = file ∨ 47 ∉ skipDot file) : Relative site file := by
  have hpath : ∀ dir, (site.getconfig dir).localName file = if dir ++ [47] <+: file then file.drop (dir.length + 1) else file :=
    fun _ => rfl
  constructor
  · intro dir name hcut
    have hslash : 47 ∈ skipDot file := by simp [hcut]
    have hskip := h.resolve_right fun h0 => h0 hslash
    rw [hskip] at hcut
    rw [hpath, hcut, if_pos ⟨name, by simp⟩]
    simp
  · rw [hpath]
    obtain hdot | hskip := skipDot_cases file
    · rw [hdot, if_pos ⟨skipDot file, rfl⟩]
      rfl
    · rw [hskip, if_neg]
      rintro ⟨t, ht⟩
      rw [← ht] at hskip
      have hlen := congrArg List.length hskip
      simp [skipDot] at hlen
      omega

/-- Otherwise, the directory is not taken off, or something else is. -/
theorem relative_skipDot (h : Relative site file) : skipDot file = file ∨ 47 ∉ skipDot file := by
  by_contra hno
  rw [not_or, not_not] at hno
  obtain ⟨dir, name, hcut, -⟩ := List.eq_append_cons_of_mem hno.2
  have hfile := (skipDot_cases file).resolve_right hno.1
  have hname := h.1 dir name hcut
  have hlen := congrArg List.length hfile
  rw [hcut] at hlen
  have hlocal : (site.getconfig dir).localName file = if dir ++ [47] <+: file then file.drop (dir.length + 1) else file := rfl
  rw [hlocal] at hname
  have hlen' := congrArg List.length hname
  simp only [List.length_cons, List.length_append] at hlen
  split_ifs at hlen' with hpre
  · rw [List.length_drop] at hlen'
    omega
  · omega

/-- A stanza for the files of one directory. -/
def localStanza : Pattern := { type := .file, handler := .fork [bytes "cat"], rules := [.lcl] }

/-- Files that only the `.htrc` file of the directory `dir` says something about. -/
def onlyIn (dir : Bytes) : Site where
  stat _ := none
  readdir _ := []
  named := noNames
  dots _ := by simp
  htrc path := if path = dir then { patterns := [localStanza] } else {}

theorem onlyIn_findmatch {dir : Bytes} (fnmatch : (pattern string : Bytes) → (pathname : Bool) → Bool)
    (h : 47 ∈ ((onlyIn dir).getconfig dir).localName file) : (onlyIn dir).findmatch fnmatch file false .file = none := by
  have hconfig : ∀ path trydefault, (((onlyIn dir).getconfig path).patterns.find? fun pat =>
      pat.type = .file ∧ pat.rules.all fun rule => rule.matches fnmatch trydefault (file.rtakeWhile (· ≠ 47))
        (((onlyIn dir).getconfig path).localName file)) = none := by
    intro path trydefault
    have hpatterns : ((onlyIn dir).getconfig path).patterns = if path = dir then [localStanza] else [] := by
      show (if path = dir then _ else _ : Config).patterns = _
      split_ifs <;> rfl
    rw [List.find?_eq_none, hpatterns]
    intro pat hpat
    split_ifs at hpat with hdir
    · rw [List.mem_singleton.mp hpat, hdir]
      simp [localStanza, Rule.matches, h]
    · cases hpat
  have hsearch : ∀ trydefault, (onlyIn dir).searchMatch fnmatch file trydefault .file = none := by
    intro trydefault
    unfold Site.searchMatch
    rw [List.findSome?_eq_none_iff]
    intro cf hcf
    unfold Site.getconfigs at hcf
    obtain hcf | hcf := List.mem_append.mp hcf
    · obtain ⟨path, -, rfl⟩ := List.mem_map.mp hcf
      exact hconfig path trydefault
    · obtain rfl | hcf := List.mem_cons.mp hcf
      · exact hconfig [46] trydefault
      · cases hcf
  unfold Site.findmatch
  simp only [hsearch, Bool.false_eq_true, if_false]

/-- Where the names are not relative, there are configurations with which nothing is selected,
    although a stanza is eligible. -/
theorem exists_misselected (h : ¬ (skipDot file = file ∨ 47 ∉ skipDot file)) :
    ∃ site : Site, ∀ fnmatch, ¬ Selected fnmatch site file .file (site.findmatch fnmatch file false .file) := by
  rw [not_or, not_not] at h
  have hfile := (skipDot_cases file).resolve_right h.1
  -- the directory that the file is in
  obtain ⟨name, dir, hcut, hname⟩ := List.eq_append_cons_of_mem (List.mem_reverse.mpr h.2)
  rw [List.reverse_eq_iff, List.reverse_append, List.reverse_cons, List.append_assoc, List.singleton_append] at hcut
  have hlocal : 47 ∈ ((onlyIn dir.reverse).getconfig dir.reverse).localName file := by
    show 47 ∈ if dir.reverse ++ [47] <+: file then file.drop (dir.reverse.length + 1) else file
    rw [hcut, ← List.cons_append, ← List.cons_append] at hfile
    rw [hfile]
    split_ifs
    · rw [List.drop_append_of_le_length (by simp only [List.length_cons]; omega)]
      simp
    · simp
  refine ⟨onlyIn dir.reverse, fun fnmatch hsel => ?_⟩
  rw [onlyIn_findmatch fnmatch hlocal] at hsel
  have hpatterns : ((onlyIn dir.reverse).getconfig dir.reverse).patterns = [localStanza] := by
    show (if dir.reverse = dir.reverse then _ else _ : Config).patterns = _
    rw [if_pos rfl]
  refine hsel _ name.reverse _ localStanza ⟨.htrc dir.reverse name.reverse hcut, ?_, rfl, fun rule hrule => ?_⟩
  · rw [hpatterns]
    exact List.mem_singleton_self _
  · rw [List.mem_singleton.mp hrule]
    exact fun h0 => hname (List.mem_reverse.mp h0)

/-- **The selection of a stanza.** For any file, type and configurations, `findmatch` evaluates the
    rules of the `.htrc` files on the names relative to their directories, and selects the closest
    of the eligible stanzas, if and only if the path does not begin with `./`, or holds no other
    slash. -/
theorem findmatch_iff (fnmatch : (pattern string : Bytes) → (pathname : Bool) → Bool) (site : Site) (file : Bytes)
    (type : PatType) :
    (Relative site file ∧ Selected fnmatch site file type (site.findmatch fnmatch file false type)) ↔
      (skipDot file = file ∨ 47 ∉ skipDot file) := by
  constructor
  · rintro ⟨hrel, -⟩
    exact relative_skipDot hrel
  · intro h
    have hrel := relative_of_skipDot site h
    exact ⟨hrel, findmatch_selected hrel⟩

/-- The files beneath a directory whose index file is `sub/index.html`. -/
def indexed : Site where
  stat path := if path = bytes "./sub/index.html" then some .reg else none
  readdir _ := []
  named := noNames
  dots path := by
    have hne : ∀ s : Bytes, s.getLast? = some 46 → path ++ s ≠ bytes "./sub/index.html" :=
      fun s hs => append_dot_ne hs (by decide)
    rw [if_neg (hne _ rfl), if_neg (hne _ rfl)]
    decide
  htrc path :=
    if path = [46] then { index := some [bytes "sub/index.html"] }
    else if path = bytes "sub" then { patterns := [localStanza] }
    else {}

/-- The stanza in the directory of the index file is not found. -/
theorem findmatch_misses :
    ∃ (site : Site) (evs : List Event),
      site.serve (fun _ _ _ => false) (fun _ _ => .handled) 1 { rest := [] } = some evs ∧
        .handlefile (bytes "./sub/index.html") ∈ evs ∧
          site.findmatch (fun _ _ _ => false) (bytes "./sub/index.html") false .file = none ∧
            ¬ Selected (fun _ _ _ => false) site (bytes "./sub/index.html") .file none := by
  refine ⟨indexed, _, rfl, List.mem_cons_of_mem _ List.mem_cons_self, rfl, fun hsel => ?_⟩
  refine hsel _ (bytes "index.html") _ localStanza ⟨.htrc (bytes "sub") (bytes "index.html") rfl,
    List.mem_singleton_self _, rfl, fun rule hrule => ?_⟩
  rw [List.mem_singleton.mp hrule]
  show (47 : UInt8) ∉ bytes "index.html"
  decide

end Ashd.Dirplex
