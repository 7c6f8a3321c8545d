import Ashd.Common.Run
import Ashd.Dirplex.Model

/-!
# The configurations that `dirplex` keeps

`getconfig` of src/dirplex/conf.c keeps what it has read of the `.htrc` file of a directory, and
looks at the time of the file again if it has not done so for five seconds. `now` is set once for a
request.

A file may be changed at any time, also while `getconfig` runs: what each of its system calls sees
of the disk is given for each of them. A configuration is known by its address. The sockets of the
children, which are handed over when a file is read again, are left out.

Main results:
* `getconfig_stable`: what a request has been given stays as it is, and is not freed, while the
  request is handled, so that for the request there is one configuration for each directory.
* `getconfig_fresh`: a configuration is what the file has said within the last five seconds.
-/

namespace Ashd.Dirplex.ConfCache

/-! ## Model -/

/-- The `.htrc` file of a directory. `access` says whether it can be read, and `content` is what
    `readconfig` makes of it. -/
structure Htrc where
  mtime : ℤ
  access : Bool := true
  content : Config := {}

/-- The file of each directory. -/
abbrev Disk := Bytes → Option Htrc

/-- A `struct config` in the list, with its address. -/
structure Entry where
  addr : ℕ
  path : Bytes
  content : Config
  mtime : ℤ
  lastck : ℤ

/-- What is seen of the configuration. -/
def Entry.config (e : Entry) : Config := { e.content with path := some e.path }

/-- `cflist`, and the address that is allocated next. -/
structure Cache where
  cflist : List Entry := []
  next : ℕ := 0

/-- A call of `getconfig`, with the disk at the `stat` of a configuration that is checked, at
    `access`, at the `stat` after it and in `readconfig`. -/
structure Get where
  now : ℤ
  path : Bytes
  check : Disk
  access : Disk
  stat : Disk
  read : Disk

def Get.disks (g : Get) : List Disk := [g.check, g.access, g.stat, g.read]

/-- What is read, with `mtime` (src/dirplex/conf.c:318–325). -/
def Get.reads (g : Get) : Option (Config × ℤ) :=
  match g.access g.path, g.stat g.path with
  | some f, some sb =>
    if f.access then
      match g.read g.path with
      | some f' => if f'.access then some (f'.content, sb.mtime) else none
      | none => none
    else some ({}, 0)
  | _, _ => some ({}, 0)

/-- `getconfig` from line 317 on: a file is read, and `ocf` is freed. -/
def reload (g : Get) (ocf : Option Entry) (s : Cache) : Option Entry × Cache :=
  match g.reads with
  | none => (none, s)
  | some (content, mtime) =>
    let cf : Entry :=
      { addr := s.next, path := g.path, content := content, mtime := mtime, lastck := g.now }
    (some cf,
      { cflist := cf :: s.cflist.filter (fun e => some e.addr ≠ ocf.map Entry.addr)
        next := s.next + 1 })

/-- Setting `lastck`. -/
def touch (g : Get) (cf : Entry) (s : Cache) : Cache :=
  { s with
    cflist := s.cflist.map fun e => if e.addr = cf.addr then { e with lastck := g.now } else e }

/-- `getconfig` (src/dirplex/conf.c:299–339). -/
def getconfig (s : Cache) (g : Get) : Option Entry × Cache :=
  match s.cflist.find? fun e => e.path = g.path with
  | none => reload g none s
  | some cf =>
    if g.now - cf.lastck > 5 then
      match g.check g.path with
      | none => reload g (some cf) (touch g cf s)
      | some sb =>
        if sb.mtime ≠ cf.mtime then reload g (some cf) (touch g cf s)
        else (some { cf with lastck := g.now }, touch g cf s)
    else (some cf, s)

/-- `getconfig` called several times: what it has returned to each call. -/
def getconfigs (s : Cache) (gs : List Get) : List (Get × Option Entry) × Cache :=
  runOps (fun s g => ([(g, (getconfig s g).1)], (getconfig s g).2)) s gs

/-! ## Specification -/

/-- A disk on which a directory is configured as `content` says. -/
def Shows (d : Disk) (path : Bytes) (content : Config) : Prop :=
  match d path with
  | none => content = {}
  | some f => content = f.content ∨ f.access = false ∧ content = {}

theorem shows_of_some {d : Disk} {path : Bytes} {f : Htrc} (h : d path = some f) {content : Config} :
    Shows d path content ↔ content = f.content ∨ f.access = false ∧ content = {} := by
  rw [Shows, h]

theorem shows_of_none {d : Disk} {path : Bytes} (h : d path = none) : Shows d path {} := by
  rw [Shows, h]

/-- A file that has been changed is newer. -/
def Newer (d d' : Disk) : Prop :=
  ∀ path f f', d path = some f → d' path = some f' →
    f.mtime ≤ f'.mtime ∧ (f.mtime = f'.mtime → f.content = f'.content)

/-- What the calls have seen: files that are newer each time that they have been changed, and none
    from the time 0, by which `getconfig` knows that there was none. -/
structure Stamped (gs : List Get) : Prop where
  newer : (gs.flatMap Get.disks).Pairwise Newer
  stamp : ∀ d ∈ gs.flatMap Get.disks, ∀ path f, d path = some f → f.mtime ≠ 0

/-! ## The list -/

/-- A directory is in the list once, and so is an address, which has been allocated. -/
structure Inv (s : Cache) : Prop where
  paths : (s.cflist.map Entry.path).Nodup
  addrs : (s.cflist.map Entry.addr).Nodup
  next : ∀ e ∈ s.cflist, e.addr < s.next

theorem Inv.eq_of_path {s : Cache} (hs : Inv s) {e e' : Entry} (he : e ∈ s.cflist)
    (he' : e' ∈ s.cflist) (h : e.path = e'.path) : e = e' :=
  List.inj_on_of_nodup_map hs.paths he he' h

theorem Inv.eq_of_addr {s : Cache} (hs : Inv s) {e e' : Entry} (he : e ∈ s.cflist)
    (he' : e' ∈ s.cflist) (h : e.addr = e'.addr) : e = e' :=
  List.inj_on_of_nodup_map hs.addrs he he' h

theorem Inv.find {s : Cache} (hs : Inv s) {e : Entry} (he : e ∈ s.cflist) :
    s.cflist.find? (fun e' => e'.path = e.path) = some e := by
  obtain ⟨e', he'⟩ : ∃ e', s.cflist.find? (fun e' => e'.path = e.path) = some e' :=
    Option.isSome_iff_exists.mp (List.find?_isSome.mpr ⟨e, he, by simp⟩)
  have hpath : e'.path = e.path := by simpa using List.find?_some he'
  rw [he', hs.eq_of_path (List.mem_of_find?_eq_some he') he hpath]

theorem map_touch {α : Type*} (f : Entry → α) (hf : ∀ e t, f { e with lastck := t } = f e) (g : Get)
    (cf : Entry) (s : Cache) : (touch g cf s).cflist.map f = s.cflist.map f := by
  rw [touch, List.map_map]
  refine List.map_congr_left fun e _ => ?_
  rw [Function.comp_apply]
  split_ifs
  · exact hf e g.now
  · rfl

theorem Inv.touch {s : Cache} (hs : Inv s) (g : Get) (cf : Entry) : Inv (touch g cf s) where
  paths := by
    rw [map_touch Entry.path fun _ _ => rfl]
    exact hs.paths
  addrs := by
    rw [map_touch Entry.addr fun _ _ => rfl]
    exact hs.addrs
  next := by
    refine List.forall_mem_map.mpr fun e he => ?_
    split_ifs
    · exact hs.next e he
    · exact hs.next e he

/-- What is freed is what the new configuration takes the place of. -/
def Replaces (g : Get) (ocf : Option Entry) (s : Cache) : Prop :=
  ∀ e ∈ s.cflist, e.path = g.path → some e.addr = ocf.map Entry.addr

theorem Inv.reload {s : Cache} (hs : Inv s) {g : Get} {ocf : Option Entry}
    (h : Replaces g ocf s) : Inv (reload g ocf s).2 := by
  unfold ConfCache.reload
  split
  · exact hs
  · refine ⟨?_, ?_, ?_⟩
    · rw [List.map_cons, List.nodup_cons]
      refine ⟨fun hmem => ?_, hs.paths.sublist (List.filter_sublist.map _)⟩
      obtain ⟨e, he, hpath⟩ := List.mem_map.mp hmem
      rw [List.mem_filter, decide_eq_true_eq] at he
      exact he.2 (h e he.1 hpath)
    · rw [List.map_cons, List.nodup_cons]
      refine ⟨fun hmem => ?_, hs.addrs.sublist (List.filter_sublist.map _)⟩
      obtain ⟨e, he, haddr⟩ := List.mem_map.mp hmem
      have hlt := hs.next e (List.mem_of_mem_filter he)
      exact absurd haddr (by simp only; omega)
    · refine List.forall_mem_cons.mpr ⟨Nat.lt_succ_self _, fun e he => ?_⟩
      exact Nat.lt_succ_of_lt (hs.next e (List.mem_of_mem_filter he))

theorem mem_touch {g : Get} {cf e : Entry} {s : Cache} (h : e ∈ (touch g cf s).cflist)
    (hne : e.addr ≠ cf.addr) : e ∈ s.cflist := by
  obtain ⟨e', he', rfl⟩ := List.mem_map.mp h
  split_ifs at hne ⊢ with ha
  · exact absurd ha hne
  · exact he'

theorem mem_touch_of_ne {g : Get} {cf e : Entry} {s : Cache} (h : e ∈ s.cflist)
    (hne : e.addr ≠ cf.addr) : e ∈ (touch g cf s).cflist :=
  List.mem_map.mpr ⟨e, h, if_neg hne⟩

theorem mem_touch_self {g : Get} {cf : Entry} {s : Cache} (h : cf ∈ s.cflist) :
    { cf with lastck := g.now } ∈ (touch g cf s).cflist :=
  List.mem_map.mpr ⟨cf, h, if_pos rfl⟩

/-- What `getconfig` does: it returns what it has, or returns it after it has checked it, or reads the
    file. A configuration that has been checked in the last five seconds, and one for another
    directory, is left as it is. -/
inductive Does (s : Cache) (g : Get) : Option Entry × Cache → Prop
  | keep {e : Entry} (he : e ∈ s.cflist) (hpath : e.path = g.path) (hck : g.now - e.lastck ≤ 5) :
      Does s g (some e, s)
  | check {e : Entry} (he : e ∈ s.cflist) (hpath : e.path = g.path) (hck : 5 < g.now - e.lastck)
      {sb : Htrc} (hsb : g.check g.path = some sb) (hmtime : sb.mtime = e.mtime) :
      Does s g (some { e with lastck := g.now }, touch g e s)
  | reload {ocf : Option Entry} {s' : Cache} (hs' : Inv s') (hocf : Replaces g ocf s')
      (hkeep : ∀ e ∈ s.cflist, e.path ≠ g.path ∨ g.now - e.lastck ≤ 5 →
        e ∈ s'.cflist ∧ some e.addr ≠ ocf.map Entry.addr)
      (hmem : ∀ e ∈ s'.cflist, some e.addr ≠ ocf.map Entry.addr → e ∈ s.cflist) :
      Does s g (ConfCache.reload g ocf s')

theorem getconfig_does {s : Cache} (hs : Inv s) (g : Get) : Does s g (getconfig s g) := by
  unfold getconfig
  split
  · rename_i hnone
    have hno : ∀ e ∈ s.cflist, e.path ≠ g.path := fun e he hpath => by
      rw [← hpath, hs.find he] at hnone
      cases hnone
    exact .reload hs (fun e he hpath => absurd hpath (hno e he)) (fun e he _ => ⟨he, nofun⟩)
      fun e he _ => he
  · rename_i cf hfind
    have he := List.mem_of_find?_eq_some hfind
    have hpath : cf.path = g.path := by simpa using List.find?_some hfind
    by_cases hck : g.now - cf.lastck > 5
    · rw [if_pos hck]
      have hreload : Does s g (ConfCache.reload g (some cf) (touch g cf s)) := by
        refine .reload (hs.touch g cf) (fun e he' hpath' => ?_) (fun e he' hcase => ?_)
          fun e he' hne => mem_touch he' fun ha => hne (congrArg some ha)
        · obtain ⟨e', he'', rfl⟩ := List.mem_map.mp he'
          refine congrArg some ?_
          split_ifs at hpath' ⊢ with ha
          · exact ha
          · rw [hs.eq_of_path he'' he (hpath'.trans hpath.symm)]
        · have hne : e.addr ≠ cf.addr := fun ha => by
            rw [hs.eq_of_addr he' he ha] at hcase
            rcases hcase with h | h
            · exact h hpath
            · omega
          exact ⟨mem_touch_of_ne he' hne, fun h => hne (Option.some.inj h)⟩
      split
      · exact hreload
      · rename_i sb hsb
        split_ifs with hmtime
        · exact hreload
        · exact .check he hpath hck hsb (not_not.mp hmtime)
    · rw [if_neg hck]
      exact .keep he hpath (by omega)

theorem Inv.getconfig {s : Cache} (hs : Inv s) (g : Get) : Inv (getconfig s g).2 := by
  have hdoes := getconfig_does hs g
  generalize ConfCache.getconfig s g = r at hdoes ⊢
  cases hdoes with
  | keep => exact hs
  | check => exact hs.touch g _
  | reload hs' hocf => exact hs'.reload hocf

theorem inv_getconfigs {s : Cache} (hs : Inv s) (gs : List Get) : Inv (getconfigs s gs).2 := by
  induction gs generalizing s with
  | nil => exact hs
  | cons g gs ih => exact ih (hs.getconfig g)

theorem inv_empty : Inv {} := ⟨List.nodup_nil, List.nodup_nil, nofun⟩

/-! ## During a request -/

/-- What has been checked in the last five seconds stays. -/
theorem getconfig_keeps {s : Cache} (hs : Inv s) {g : Get} {e : Entry} (he : e ∈ s.cflist)
    (hck : g.now - e.lastck ≤ 5) : e ∈ (getconfig s g).2.cflist := by
  have hdoes := getconfig_does hs g
  generalize getconfig s g = r at hdoes ⊢
  cases hdoes with
  | keep => exact he
  | check he' hpath hck' =>
    refine mem_touch_of_ne he fun ha => ?_
    rw [hs.eq_of_addr he he' ha] at hck
    omega
  | reload hs' hocf hkeep =>
    obtain ⟨hmem, hne⟩ := hkeep e he (.inr hck)
    unfold ConfCache.reload
    split
    · exact hmem
    · exact List.mem_cons_of_mem _ (List.mem_filter.mpr ⟨hmem, decide_eq_true hne⟩)

/-- What is returned is in the list, for the directory, and has been checked in the last five
    seconds. -/
theorem getconfig_returns {s : Cache} (hs : Inv s) {g : Get} {e : Entry}
    (h : (getconfig s g).1 = some e) :
    e ∈ (getconfig s g).2.cflist ∧ e.path = g.path ∧ g.now - e.lastck ≤ 5 := by
  have hdoes := getconfig_does hs g
  generalize getconfig s g = r at hdoes h ⊢
  revert h
  cases hdoes with
  | keep he hpath hck =>
    rintro ⟨⟩
    exact ⟨he, hpath, hck⟩
  | check he hpath =>
    rintro ⟨⟩
    exact ⟨mem_touch_self he, hpath, by simp⟩
  | reload =>
    unfold ConfCache.reload
    split
    · rintro ⟨⟩
    · rintro ⟨⟩
      exact ⟨List.mem_cons_self, rfl, by simp⟩

theorem getconfigs_keeps {s : Cache} (hs : Inv s) {now : ℤ} {gs : List Get}
    (hnow : ∀ g ∈ gs, g.now = now) {e : Entry} (he : e ∈ s.cflist) (hck : now - e.lastck ≤ 5) :
    e ∈ (getconfigs s gs).2.cflist := by
  induction gs generalizing s with
  | nil => exact he
  | cons g gs ih =>
    obtain ⟨rfl, hgs⟩ := List.forall_mem_cons.mp hnow
    exact ih (hs.getconfig g) hgs (getconfig_keeps hs he hck)

/-- What has been returned is there after the last call, as it has been returned. -/
theorem getconfigs_returned {s : Cache} (hs : Inv s) {now : ℤ} {gs : List Get}
    (hnow : ∀ g ∈ gs, g.now = now) {g : Get} {e : Entry}
    (h : (g, some e) ∈ (getconfigs s gs).1) : e ∈ (getconfigs s gs).2.cflist ∧ e.path = g.path := by
  induction gs generalizing s with
  | nil => cases h
  | cons g' gs ih =>
    obtain ⟨rfl, hgs⟩ := List.forall_mem_cons.mp hnow
    rcases List.mem_append.mp h with h | h
    · obtain ⟨rfl, he⟩ := Prod.mk.injEq .. |>.mp (List.mem_singleton.mp h)
      obtain ⟨hmem, hpath, hck⟩ := getconfig_returns hs he.symm
      exact ⟨getconfigs_keeps (hs.getconfig g) hgs hmem hck, hpath⟩
    · exact ih (hs.getconfig g') hgs h

/-- Whatever has been asked for before, and whatever becomes of the files meanwhile: all that a
    request is given by `getconfig` is there unchanged when it has been handled, and is given each
    time that the directory is asked for, as from a site that stays the same. -/
theorem getconfig_stable (before gs : List Get) (now : ℤ) (hnow : ∀ g ∈ gs, g.now = now) :
    ∃ htrc : Bytes → Config, ∀ site : Site, site.htrc = htrc →
      ∀ g e, (g, some e) ∈ (getconfigs (getconfigs {} before).2 gs).1 →
        e.config = site.getconfig g.path ∧
          e ∈ (getconfigs (getconfigs {} before).2 gs).2.cflist := by
  have hs := inv_getconfigs inv_empty before
  have hend := inv_getconfigs hs gs
  refine ⟨fun path =>
    (((getconfigs (getconfigs {} before).2 gs).2.cflist.find? fun e => e.path = path).map
      Entry.content).getD {}, ?_⟩
  rintro site hsite g e h
  obtain ⟨he, hpath⟩ := getconfigs_returned hs hnow h
  refine ⟨?_, he⟩
  simp only [Site.getconfig, hsite, ← hpath, hend.find he]
  rfl

/-- A configuration is read, and the file is changed; in the same request it is not read again. -/
theorem getconfig_stable_changed :
    let old : Disk := fun _ => some { mtime := 1, content := { capture := bytes "old" } }
    let new : Disk := fun _ => some { mtime := 2, content := { capture := bytes "new" } }
    let gs : List Get := [⟨10, bytes ".", old, old, old, old⟩, ⟨10, bytes ".", new, new, new, new⟩]
    ∃ htrc : Bytes → Config, ∀ site : Site, site.htrc = htrc →
      ∀ g e, (g, some e) ∈ (getconfigs (getconfigs {} []).2 gs).1 →
        e.config = site.getconfig g.path ∧ e ∈ (getconfigs (getconfigs {} []).2 gs).2.cflist :=
  getconfig_stable [] _ 10 (by simp)

/-! ## Over the years -/

/-- What is known of a configuration from what has been seen: a disk on which the file said so, when
    it was checked last, and a file that said so and is not older than the time that is kept. -/
structure Known (gs : List Get) (e : Entry) : Prop where
  shown : ∃ g ∈ gs, g.now = e.lastck ∧ g.path = e.path ∧ ∃ d ∈ g.disks, Shows d e.path e.content
  source : e.mtime ≠ 0 → ∃ d ∈ gs.flatMap Get.disks, ∃ f, d e.path = some f ∧ e.mtime ≤ f.mtime ∧
    f.content = e.content

theorem Known.append {gs : List Get} {e : Entry} (h : Known gs e) (g : Get) :
    Known (gs ++ [g]) e where
  shown := by
    obtain ⟨g', hg', hrest⟩ := h.shown
    exact ⟨g', List.mem_append_left _ hg', hrest⟩
  source hm := by
    obtain ⟨d, hd, hrest⟩ := h.source hm
    rw [List.flatMap_append]
    exact ⟨d, List.mem_append_left _ hd, hrest⟩

theorem Stamped.left {gs : List Get} {g : Get} (h : Stamped (gs ++ [g])) : Stamped gs where
  newer := by
    have hnewer := h.newer
    rw [List.flatMap_append] at hnewer
    exact (List.pairwise_append.mp hnewer).1
  stamp d hd := h.stamp d (by rw [List.flatMap_append]; exact List.mem_append_left _ hd)

theorem Stamped.check {gs : List Get} {g : Get} (h : Stamped (gs ++ [g])) {d : Disk}
    (hd : d ∈ gs.flatMap Get.disks) : Newer d g.check := by
  have hnewer := h.newer
  rw [List.flatMap_append] at hnewer
  exact (List.pairwise_append.mp hnewer).2.2 d hd g.check (by simp [Get.disks])

theorem Stamped.read {gs : List Get} {g : Get} (h : Stamped (gs ++ [g])) :
    Newer g.stat g.read := by
  have hnewer := h.newer
  rw [List.flatMap_append, List.flatMap_singleton, Get.disks] at hnewer
  have hlast := (List.pairwise_append.mp hnewer).2.1
  simp only [List.pairwise_cons] at hlast
  exact hlast.2.2.1 g.read (by simp)

/-- What has been read is known. If it is changed between `stat` and `readconfig`, then the time that
    is kept is too old. -/
theorem known_of_reads {gs : List Get} {g : Get} (h : Stamped (gs ++ [g])) {content : Config}
    {mtime : ℤ} (hr : g.reads = some (content, mtime)) (addr : ℕ) :
    Known (gs ++ [g]) ⟨addr, g.path, content, mtime, g.now⟩ := by
  have hg : g ∈ gs ++ [g] := List.mem_append_right _ (List.mem_singleton_self g)
  have hdisk : ∀ d ∈ g.disks, d ∈ (gs ++ [g]).flatMap Get.disks := fun d hd =>
    List.mem_flatMap.mpr ⟨g, hg, hd⟩
  unfold Get.reads at hr
  split at hr
  · rename_i f sb haccess hstat
    split at hr
    · split at hr
      · rename_i f' hread
        split_ifs at hr
        cases hr
        refine ⟨⟨g, hg, rfl, rfl, g.read, by simp [Get.disks], ?_⟩, fun _ =>
          ⟨g.read, hdisk _ (by simp [Get.disks]), f', hread, ?_, rfl⟩⟩
        · exact (shows_of_some hread).mpr (.inl rfl)
        · exact (h.read g.path sb f' hstat hread).1
      · cases hr
    · rename_i hno
      cases hr
      refine ⟨⟨g, hg, rfl, rfl, g.access, by simp [Get.disks], ?_⟩, fun h0 => absurd rfl h0⟩
      exact (shows_of_some haccess).mpr (.inr ⟨by simpa using hno, rfl⟩)
  · rename_i hno
    cases hr
    refine ⟨⟨g, hg, rfl, rfl, ?_⟩, fun h0 => absurd rfl h0⟩
    cases haccess : g.access g.path with
    | none => exact ⟨g.access, by simp [Get.disks], shows_of_none haccess⟩
    | some f =>
      cases hstat : g.stat g.path with
      | none => exact ⟨g.stat, by simp [Get.disks], shows_of_none hstat⟩
      | some sb => exact absurd hstat (hno f sb haccess)

/-- A file that has the time that is kept says what it has said. -/
theorem Known.checked {gs : List Get} {g : Get} (h : Stamped (gs ++ [g])) {e : Entry}
    (he : Known gs e) (hpath : e.path = g.path) {sb : Htrc} (hsb : g.check g.path = some sb)
    (hmtime : sb.mtime = e.mtime) : Known (gs ++ [g]) { e with lastck := g.now } := by
  have hg : g ∈ gs ++ [g] := List.mem_append_right _ (List.mem_singleton_self g)
  have hne : sb.mtime ≠ 0 :=
    h.stamp g.check (List.mem_flatMap.mpr ⟨g, hg, by simp [Get.disks]⟩) g.path sb hsb
  obtain ⟨d, hd, f, hf, hle, hcontent⟩ := he.source (hmtime ▸ hne)
  obtain ⟨hnew, hsame⟩ := h.check hd g.path f sb (hpath ▸ hf) hsb
  refine ⟨⟨g, hg, rfl, hpath.symm, g.check, by simp [Get.disks], ?_⟩, (he.append g).source⟩
  have heq : f.mtime = sb.mtime := le_antisymm hnew (by omega)
  rw [hpath]
  exact (shows_of_some hsb).mpr (.inl (hcontent.symm.trans (hsame heq)))

/-- All that is in the list is known, and so is what is returned. -/
theorem known_getconfig {gs : List Get} {g : Get} (h : Stamped (gs ++ [g])) {s : Cache} (hs : Inv s)
    (hknown : ∀ e ∈ s.cflist, Known gs e) (hsome : (getconfig s g).1 ≠ none) :
    ∀ e ∈ (getconfig s g).2.cflist, Known (gs ++ [g]) e := by
  have hdoes := getconfig_does hs g
  generalize getconfig s g = r at hdoes hsome ⊢
  cases hdoes with
  | keep => exact fun e he => (hknown e he).append g
  | check he hpath hck hsb hmtime =>
    rename_i cf sb
    intro e hmem
    obtain ⟨e', he', rfl⟩ := List.mem_map.mp hmem
    split_ifs with ha
    · rw [hs.eq_of_addr he' he ha]
      exact (hknown cf he).checked h hpath hsb hmtime
    · exact (hknown e' he').append g
  | reload hs' hocf hkeep hmem =>
    unfold reload at hsome ⊢
    split at hsome
    · exact absurd rfl hsome
    · rename_i content mtime hr
      refine List.forall_mem_cons.mpr ⟨known_of_reads h hr _, fun e he => ?_⟩
      rw [List.mem_filter, decide_eq_true_eq] at he
      exact (hknown e (hmem e he.1 he.2)).append g

theorem getconfigs_concat (s : Cache) (gs : List Get) (g : Get) :
    getconfigs s (gs ++ [g]) =
      ((getconfigs s gs).1 ++ [(g, (getconfig (getconfigs s gs).2 g).1)],
        (getconfig (getconfigs s gs).2 g).2) :=
  runOps_concat _ s gs g

theorem known_getconfigs {gs : List Get} (h : Stamped gs)
    (hsome : ∀ p ∈ (getconfigs {} gs).1, p.2 ≠ none) :
    ∀ e ∈ (getconfigs {} gs).2.cflist, Known gs e := by
  induction gs using List.reverseRecOn with
  | nil => nofun
  | append_singleton gs g ih =>
    rw [getconfigs_concat] at hsome ⊢
    obtain ⟨hbefore, hlast⟩ := List.forall_mem_append.mp hsome
    exact known_getconfig h (inv_getconfigs inv_empty gs) (ih h.left hbefore)
      (hlast _ (List.mem_singleton_self _))

/-- If a file that is changed becomes newer, and no file can be read at first and cannot then, a
    configuration that is returned is what the file said at a system call not more than five seconds
    ago, whatever has been asked for before and however the calls and the changes are interleaved. -/
theorem getconfig_fresh {before : List Get} {g : Get} (h : Stamped (before ++ [g]))
    (hsome : ∀ p ∈ (getconfigs {} before).1, p.2 ≠ none) {e : Entry}
    (he : (getconfig (getconfigs {} before).2 g).1 = some e) :
    ∃ g' ∈ before ++ [g], g.now - g'.now ≤ 5 ∧ g'.path = g.path ∧
      ∃ d ∈ g'.disks, Shows d g.path e.content := by
  have hs := inv_getconfigs inv_empty before
  obtain ⟨hmem, hpath, hck⟩ := getconfig_returns hs he
  have hknown := known_getconfig h hs (known_getconfigs h.left hsome) (by rw [he]; nofun) e hmem
  obtain ⟨g', hg', hnow, hpath', d, hd, hshows⟩ := hknown.shown
  exact ⟨g', hg', by omega, hpath'.trans hpath, d, hd, hpath ▸ hshows⟩

/-- A file is replaced, and asked for again six seconds later. -/
theorem getconfig_fresh_replaced :
    let old : Disk := fun _ => some { mtime := 1, content := { capture := bytes "old" } }
    let new : Disk := fun _ => some { mtime := 2, content := { capture := bytes "new" } }
    let g : Get := ⟨16, bytes ".", new, new, new, new⟩
    ∃ e g', g' ∈ [⟨10, bytes ".", old, old, old, old⟩, g] ∧ g.now - g'.now ≤ 5 ∧
      g'.path = g.path ∧ ∃ d ∈ g'.disks, Shows d g.path (Entry.content e) := by
  intro old new g
  have hold : Newer old old := by
    rintro path _ _ ⟨⟩ ⟨⟩
    exact ⟨le_rfl, fun _ => rfl⟩
  have hnew : Newer new new := by
    rintro path _ _ ⟨⟩ ⟨⟩
    exact ⟨le_rfl, fun _ => rfl⟩
  have hboth : Newer old new := by
    rintro path _ _ ⟨⟩ ⟨⟩
    exact ⟨by decide, nofun⟩
  have hstamped : Stamped ([⟨10, bytes ".", old, old, old, old⟩] ++ [g]) := by
    refine ⟨?_, ?_⟩
    · simp [Get.disks, g, hold, hnew, hboth]
    · intro d hd path f hf
      have hd' : d = old ∨ d = new := by
        simp only [Get.disks, g, List.flatMap_cons, List.cons_append, List.nil_append,
          List.flatMap_nil, List.mem_cons, List.not_mem_nil, or_false] at hd
        tauto
      rcases hd' with rfl | rfl <;> cases hf <;> decide
  obtain ⟨g', hg', hrest⟩ := getconfig_fresh hstamped
    (by rintro p hp; rw [List.mem_singleton.mp hp]; nofun) rfl
  exact ⟨_, g', hg', hrest⟩

end Ashd.Dirplex.ConfCache
