import Ashd.Lib.Resp
import Ashd.Dirplex.Mapping
import Ashd.Dirplex.Selection

/-!
# The redirect to a directory

A request for a directory without a slash at the end is answered with a redirect. The search for
the rest string with a slash goes the same way as the one for the rest string without, and then
into the directory. The location is made of the unescaped element.

Main results:
* `next_slash`: the step of the search when a slash is added.
* `checkpath_redirect`: where the search is when a redirect is sent.
* `redirTarget_eq`: the location.
* `redirect_back_iff`: when the redirect leads back to the directory.
-/

namespace Ashd.Dirplex

open StateTransition Relation

/-! ## What is expected -/

/-- The URL of a request is the rest string after what has been stripped off, and a query; the last
    element of its path is that of the rest string; and the protocol and the host are known. -/
structure Addressed (req : Hthead) (pre query proto host : Bytes) : Prop where
  url : req.url = pre ++ req.rest ++ query
  path : 63 ∉ pre ++ req.rest
  query : query = [] ∨ query.head? = some 63
  last : 47 ∈ req.rest ∨ pre = [] ∨ pre.getLast? = some 47
  nulFree : NulFree req.rest
  proto : getheader req (bytes "X-Ash-Protocol") = some proto
  host : getheader req (bytes "Host") = some host

variable (fnmatch : (pattern string : Bytes) → (pathname : Bool) → Bool)
  (childhandle : Child → Hthead → ChildResult) (site : Site)

/-- The search has come to the last element of the rest string, which names a directory. -/
structure RedirectAt (path rest el : Bytes) : Prop where
  unescape : unescape (splitRest rest).1 = some el
  last : (splitRest rest).2 = []
  ne_nil : el ≠ []
  no_slash : 47 ∉ el
  dir : site.stat (path ++ 47 :: el) = some .dir
  access : site.checkaccess fnmatch path el = true

/-- The location of a response to the request is its own URL with a slash at the end of the path,
    and the search for that path comes to the directory that the search for the path came to,
    with nothing left. -/
def LeadsBack (req : Hthead) (pre query proto host : Bytes) (resp : Response) : Prop :=
  (bytes "Location", proto ++ bytes "://" ++ host ++ 47 :: (skipSlash (pre ++ req.rest) ++ 47 :: query)) ∈ resp.headers ∧
    ∃ path rest el tasks tasks', RedirectAt fnmatch site path rest el ∧
      Reaches (site.next fnmatch) [.look [46] req.rest] (.enter path rest :: tasks) ∧
        Reaches (site.next fnmatch) [.look [46] (req.rest ++ [47])] (.look (skipDot (path ++ 47 :: el)) [] :: tasks')

variable {fnmatch childhandle site}

/-! ## The search with a slash added -/

def Task.slash : Task → Task
  | .look path rest => .look path (rest ++ [47])
  | .enter path rest => .enter path (rest ++ [47])

theorem splitRest_slash (rest : Bytes) :
    splitRest (rest ++ [47]) = ((splitRest rest).1, (splitRest rest).2 ++ [47]) := by
  obtain ⟨hsplit, hslash, hhead⟩ := splitRest_spec rest
  have hnext : ∃ t, (splitRest rest).2 ++ [47] = 47 :: t := by
    obtain hnil | hhead := hhead
    · exact ⟨[], by rw [hnil]; rfl⟩
    · obtain ⟨t, ht⟩ := List.head?_eq_some_iff.mp hhead
      exact ⟨t ++ [47], by rw [ht]; rfl⟩
  obtain ⟨t, ht⟩ := hnext
  conv_lhs => rw [hsplit]
  rw [List.append_assoc, ht, splitRest, takeWhile_sep hslash, dropWhile_sep hslash]

/-- The search goes on in the same way. -/
theorem next_slash {s s' : List Task} (h : site.next fnmatch s = some s') :
    site.next fnmatch (s.map Task.slash) = some (s'.map Task.slash) := by
  match s with
  | [] => cases h
  | .look path rest :: tasks =>
    simp only [List.map_cons, Task.slash, Site.next] at h ⊢
    cases hcap : (site.getconfig path).captured with
    | some capture =>
      simp only [hcap] at h
      cases h
    | none =>
      simp only [hcap] at h ⊢
      cases hrep : (site.getconfig path).reparse with
      | none =>
        simp only [hrep] at h ⊢
        cases h
        rfl
      | some reparse =>
        simp only [hrep] at h ⊢
        -- the way goes on from the directory, or from what it is reparsed to
        cases hstat : site.stat (reparsePath path reparse) with
        | none =>
          simp only [hstat] at h ⊢
          split_ifs at h ⊢
          cases h
          rfl
        | some type =>
          cases type <;> simp only [hstat] at h ⊢ <;> first | cases h | split_ifs at h ⊢ <;> cases h <;> rfl
  | .enter path rest :: tasks =>
    simp only [List.map_cons, Task.slash, Site.next, splitRest_slash] at h ⊢
    cases hel : (unquoteurl (splitRest rest).1).map cstr with
    | none =>
      simp only [hel] at h
      cases h
    | some el =>
      simp only [hel] at h ⊢
      by_cases hbad : 47 ∈ el ∨ (el = [] ∧ (splitRest rest).2 ≠ [])
      · rw [if_pos hbad] at h
        cases h
        rw [if_pos (hbad.imp_right fun hb => ⟨hb.1, by simp⟩)]
      by_cases hempty : el = []
      · rw [if_neg hbad, if_pos hempty] at h
        cases h
      rw [if_neg hbad, if_neg hempty] at h
      rw [if_neg fun hb => hbad (hb.imp_right fun hb => absurd hb.1 hempty), if_neg hempty]
      cases hstat : site.stat (path ++ 47 :: el) with
      | none =>
        simp only [hstat] at h ⊢
        split_ifs at h ⊢
        cases h
        rfl
      | some type =>
        simp only [hstat] at h ⊢
        split_ifs at h with hacc hdir
        · cases h
          rw [if_pos hacc]
        · cases h
          have hlen : 1 ≤ (splitRest rest).2.length := List.length_pos_iff.mpr hdir.2
          rw [if_neg hacc, if_pos ⟨hdir.1, by simp⟩, List.drop_append_of_le_length hlen]
          rfl

theorem reaches_slash {s s' : List Task} (h : Reaches (site.next fnmatch) s s') :
    Reaches (site.next fnmatch) (s.map Task.slash) (s'.map Task.slash) := by
  induction h with
  | refl => exact .refl
  | tail _ hstep ih => exact ih.tail (next_slash hstep)

/-- Where a redirect would have been sent, it goes into the directory. -/
theorem RedirectAt.next {path rest el : Bytes} (h : RedirectAt fnmatch site path rest el) (tasks : List Task) :
    site.next fnmatch (.enter path (rest ++ [47]) :: tasks) = some (.look (skipDot (path ++ 47 :: el)) [] :: tasks) := by
  have hel : (unquoteurl (splitRest rest).1).map cstr = some el := h.unescape
  have hbad : ¬ (47 ∈ el ∨ (el = [] ∧ (splitRest rest).2 ++ [47] ≠ [])) := fun hb =>
    hb.elim h.no_slash fun hb => h.ne_nil hb.1
  simp only [Site.next, splitRest_slash, hel]
  rw [if_neg hbad, if_neg h.ne_nil, h.dir]
  simp [h.access, h.last]

/-! ## Where a redirect is sent -/

/-- The search has come to where a redirect to `dst` is sent. -/
def Redirects (fnmatch : (pattern string : Bytes) → (pathname : Bool) → Bool) (site : Site) (s : List Task)
    (dst : Bytes) : Prop :=
  ∃ path rest el tasks, Reaches (site.next fnmatch) s (.enter path rest :: tasks) ∧
    RedirectAt fnmatch site path rest el ∧ dst = el ++ [47]

theorem Redirects.head {s s' : List Task} {dst : Bytes} (h : Redirects fnmatch site s' dst)
    (hs : Reaches (site.next fnmatch) s s') : Redirects fnmatch site s dst := by
  obtain ⟨path, rest, el, tasks, hreach, hat⟩ := h
  exact ⟨path, rest, el, tasks, hs.trans hreach, hat⟩

/-- No redirect is sent. -/
def Still (evs : List Event) : Prop := ∀ req code dst, .redirect req code dst ∉ evs

theorem Still.cons {e : Event} {evs : List Event} (he : ∀ req code dst, e ≠ .redirect req code dst) (h : Still evs) :
    Still (e :: evs) := by
  intro req code dst hmem
  obtain heq | hmem := List.mem_cons.mp hmem
  · exact he req code dst heq.symm
  · exact h req code dst hmem

theorem still_nil : Still [] := fun _ _ _ => List.not_mem_nil

theorem still_error (code : ℕ) (msg text : Bytes) : Still [.error code msg text] := .cons nofun still_nil

theorem still_dispatch (ch : Child) (req : Hthead) (twd : Option Bytes) : Still (dispatch childhandle ch req twd) := by
  unfold dispatch
  split
  · exact .cons nofun still_nil
  · split
    · exact .cons nofun still_nil
    · unfold childerror
      split <;> exact .cons nofun still_nil

theorem still_handle (req : Hthead) (path : Bytes) (pat : Pattern) : Still (site.handle childhandle req path pat) := by
  unfold Site.handle
  extract_lets req' path'
  split
  · exact .cons nofun still_nil
  · split
    · exact .cons nofun still_nil
    · split
      · exact .cons nofun still_nil
      · exact still_dispatch _ _ _

theorem still_handle404 (req : Hthead) (path : Bytes) : Still (site.handle404 fnmatch childhandle req path) := by
  unfold Site.handle404
  refine .cons nofun ?_
  split
  · exact still_handle _ _ _
  · split
    · exact still_dispatch _ _ _
    · exact still_nil

theorem still_handlefile (req : Hthead) (path : Bytes) : Still (site.handlefile fnmatch childhandle req path) := by
  unfold Site.handlefile
  refine .cons nofun ?_
  split
  · exact still_handle404 _ _
  · exact still_handle _ _ _

theorem still_handledir (req : Hthead) (path : Bytes) : Still (site.handledir fnmatch childhandle req path) := by
  unfold Site.handledir
  extract_lets cpath
  refine .cons nofun ?_
  split
  · exact still_handlefile _ _
  · split
    · exact still_handle _ _ _
    · exact .cons nofun still_nil

section Calls

variable {cp : Bytes → Bytes → Bool → Option Result} {req : Hthead} {path rest : Bytes} {final : Bool} {res : Result}
  {q : Hthead} {code : ℕ} {dst : Bytes}

theorem checkdir_redirect (h : site.checkdir fnmatch childhandle cp req path rest = some res)
    (hr : .redirect q code dst ∈ res.1) : ∃ newpath final, cp newpath rest final = some res := by
  unfold Site.checkdir at h
  extract_lets cf at h
  split at h
  · split at h
    · cases h
      exact absurd hr (still_error _ _ _ q code dst)
    · cases h
      exact absurd hr (still_dispatch _ _ _ q code dst)
  · split at h
    · extract_lets newpath at h
      split at h
      · exact ⟨_, _, h⟩
      · cases h
        exact absurd hr (still_handlefile _ _ q code dst)
      · cases h
        cases hr
    · cases h
      cases hr

theorem checkrest_redirect (h : site.checkrest fnmatch childhandle cp req path rest final = some res)
    (hr : .redirect q code dst ∈ res.1) :
    (q = req ∧ code = 301 ∧ ∃ el, RedirectAt fnmatch site path rest el ∧ dst = el ++ [47]) ∨
      ∃ newpath rest', (∀ tasks, site.next fnmatch (.enter path rest :: tasks) =
        some (.look (skipDot newpath) rest' :: tasks)) ∧ cp newpath rest' final = some res := by
  unfold Site.checkrest at h
  simp only at h
  split at h
  · cases h
    exact absurd hr (still_error _ _ _ q code dst)
  · rename_i el hel
    split at h
    · cases h
      cases hr
    · rename_i hbad
      split at h
      · cases h
        exact absurd hr (still_handledir _ _ q code dst)
      · rename_i hempty
        unfold Site.checkentry at h
        split at h
        · rename_i type hstat
          split at h
          · cases h
            cases hr
          · rename_i hacc
            have hacc' := Bool.not_eq_false _ ▸ hacc
            split at h
            · split at h
              · rename_i hlast
                cases h
                obtain ⟨hq, hcode, hdst⟩ := Event.redirect.inj (List.mem_singleton.mp hr)
                exact .inl ⟨hq, hcode, el, ⟨hel, hlast, hempty, fun h0 => hbad (.inl h0), hstat, hacc'⟩, hdst⟩
              · rename_i hlast
                refine .inr ⟨_, _, fun tasks => ?_, h⟩
                simp only [Site.next, hel, if_neg hbad, if_neg hempty, hstat, if_neg hacc]
                rw [if_pos ⟨trivial, hlast⟩]
            · cases h
              exact absurd hr (still_handlefile _ _ q code dst)
            · cases h
              exact absurd hr (still_handle404 _ _ q code dst)
        · split at h
          · cases h
            cases hr
          · split at h
            · cases h
              exact absurd hr (still_handlefile _ _ q code dst)
            · cases h
              cases hr

theorem finish_redirect (hr : .redirect q code dst ∈ (site.finish fnmatch childhandle req path final res).1) :
    .redirect q code dst ∈ res.1 := by
  unfold Site.finish at hr
  simp only at hr
  split_ifs at hr
  · exact (List.mem_append.mp hr).resolve_right (still_handle404 _ _ q code dst)
  · exact hr

end Calls

/-- Where the search is when a redirect is sent. -/
theorem checkpath_redirect (req : Hthead) (n : ℕ) : ∀ path rest final res tasks,
    site.checkpath fnmatch childhandle req n path rest final = some res → ∀ q code dst, .redirect q code dst ∈ res.1 →
      q = req ∧ code = 301 ∧ Redirects fnmatch site (.look (skipDot path) rest :: tasks) dst := by
  induction n with
  | zero => exact fun _ _ _ _ _ h => nomatch h
  | succ n ih =>
    intro path rest final res tasks hres q code dst hr
    -- the redirect is sent for an entry of the directory itself
    have hrest : site.checkdir fnmatch childhandle (site.checkpath fnmatch childhandle req n) req (skipDot path) rest =
        some ([], false) →
        q = req ∧ code = 301 ∧ Redirects fnmatch site (.enter (skipDot path) rest :: tasks) dst := by
      intro hdir
      rw [checkpath_rest hdir] at hres
      obtain ⟨res', hcheck, rfl⟩ := Option.map_eq_some_iff.mp hres
      simp only [List.nil_append] at hr
      obtain ⟨rfl, rfl, el, hat, rfl⟩ | ⟨newpath, rest', hnext, hcp⟩ := checkrest_redirect hcheck (finish_redirect hr)
      · exact ⟨rfl, rfl, _, _, el, tasks, .refl, hat, rfl⟩
      · obtain ⟨rfl, rfl, hred⟩ := ih newpath rest' final res' tasks hcp q code dst (finish_redirect hr)
        exact ⟨rfl, rfl, hred.head (.single (hnext tasks))⟩
    have hanswered : ∀ evs, site.checkdir fnmatch childhandle (site.checkpath fnmatch childhandle req n) req (skipDot path)
        rest = some (evs, true) → .redirect q code dst ∈ evs := by
      intro evs hdir
      rw [checkpath_answered hdir, Option.some_inj] at hres
      subst hres
      exact hr
    rcases checkdir_cases fnmatch childhandle site req (skipDot path) rest tasks with
      ⟨evs, -, -, -, heq⟩ | ⟨-, -, heq⟩ | ⟨hnext, heq⟩ | ⟨newpath, hnext, heq⟩ | ⟨newpath, hnext, heq⟩
    · obtain ⟨_, _, hnone⟩ := checkdir_redirect (heq fun _ _ _ => none) (hanswered evs (heq _))
      cases hnone
    · cases hanswered [] (heq _)
    · obtain ⟨hq, hcode, hred⟩ := hrest (heq _)
      exact ⟨hq, hcode, hred.head (.single hnext)⟩
    · cases hcp : site.checkpath fnmatch childhandle req n newpath rest true with
      | none =>
        rw [checkpath_none ((heq _).trans hcp)] at hres
        cases hres
      | some res' =>
        obtain ⟨evs, rv⟩ := res'
        rcases checkpath_search req n newpath rest true (evs, rv) [] (fun _ => rfl) hcp with ⟨rfl, -⟩ | ⟨-, hfalse, -⟩
        · obtain ⟨hq, hcode, hred⟩ :=
            ih newpath rest true (evs, true) [] hcp q code dst (hanswered evs ((heq _).trans hcp))
          exact ⟨hq, hcode, hred.head (.single hnext)⟩
        · cases hfalse
    · cases hcp : site.checkpath fnmatch childhandle req n newpath rest false with
      | none =>
        rw [checkpath_none ((heq _).trans hcp)] at hres
        cases hres
      | some res' =>
        obtain ⟨evs, rv⟩ := res'
        let tasks' := Task.enter (skipDot path) rest :: tasks
        rcases checkpath_search req n newpath rest false (evs, rv) tasks' nofun hcp with ⟨rfl, -⟩ | ⟨hres', -, hreach⟩
        · obtain ⟨hq, hcode, hred⟩ :=
            ih newpath rest false (evs, true) tasks' hcp q code dst (hanswered evs ((heq _).trans hcp))
          exact ⟨hq, hcode, hred.head (.single hnext)⟩
        · rw [hres'] at hcp
          obtain ⟨hq, hcode, hred⟩ := hrest ((heq _).trans hcp)
          exact ⟨hq, hcode, hred.head (hreach.head hnext)⟩

/-! ## The last element -/

theorem basename_append {d e : Bytes} (hd : d = [] ∨ d.getLast? = some 47) (he : 47 ∉ e) : basename (d ++ e) = e := by
  have hall : ∀ x ∈ e.reverse, decide (x ≠ 47) = true := fun x hx =>
    decide_eq_true fun h => he (h ▸ List.mem_reverse.mp hx)
  have hstop : d.reverse.takeWhile (· ≠ 47) = [] := by
    obtain rfl | hlast := hd
    · rfl
    · rw [← List.head?_reverse] at hlast
      obtain ⟨t, ht⟩ := List.head?_eq_some_iff.mp hlast
      rw [ht]
      rfl
  rw [basename, List.rtakeWhile, List.reverse_append, List.takeWhile_append_of_pos hall, hstop, List.append_nil,
    List.reverse_reverse]

theorem basename_split (s : Bytes) :
    ∃ d, s = d ++ basename s ∧ (d = [] ∨ d.getLast? = some 47) ∧ 47 ∉ basename s := by
  refine ⟨s.rdropWhile (· ≠ 47), List.rdropWhile_append_rtakeWhile.symm, ?_, fun h => ?_⟩
  · by_cases hd : s.rdropWhile (· ≠ 47) = []
    · exact .inl hd
    · right
      have hlast := List.rdropWhile_last_not (fun c : UInt8 => decide (c ≠ 47)) s hd
      rw [List.getLast?_eq_getLast_of_ne_nil hd]
      simpa using hlast
  · simpa using List.mem_rtakeWhile_imp h

/-- What is before the last slash does not matter. -/
theorem basename_of_append {a s : Bytes} (h : 47 ∈ s ∨ a = [] ∨ a.getLast? = some 47) : basename (a ++ s) = basename s := by
  obtain ⟨d, hs, hd, he⟩ := basename_split s
  conv_lhs => rw [hs, ← List.append_assoc]
  refine basename_append ?_ he
  obtain rfl | hlast := hd
  · rw [List.append_nil]
    exact h.resolve_left fun hmem => he (by rwa [hs] at hmem)
  · exact .inr (by rw [List.getLast?_append, hlast, Option.some_or])

theorem basename_skipSlash (url : Bytes) : basename (skipSlash url) = basename url := by
  unfold skipSlash
  split
  · exact (basename_of_append (a := [47]) (.inr (.inr rfl))).symm
  · rfl

def Task.rest : Task → Bytes
  | .look _ rest => rest
  | .enter _ rest => rest

/-- The search goes on with rest strings that have the same last element. -/
theorem next_basename {s s' : List Task} {bn : Bytes} (h : site.next fnmatch s = some s')
    (hs : ∀ t ∈ s, basename t.rest = bn) : ∀ t ∈ s', basename t.rest = bn := by
  match s with
  | [] => cases h
  | .look path rest :: tasks =>
    obtain ⟨hrest, htasks⟩ := List.forall_mem_cons.mp hs
    have hmore : ∀ path', ∀ t ∈ Task.look path' rest :: .enter path rest :: tasks, basename t.rest = bn := fun _ =>
      List.forall_mem_cons.mpr ⟨hrest, List.forall_mem_cons.mpr ⟨hrest, htasks⟩⟩
    simp only [Site.next] at h
    split at h
    · cases h
    · split at h
      · cases h
        exact List.forall_mem_cons.mpr ⟨hrest, htasks⟩
      · split at h
        · split_ifs at h
          · cases h
            exact hmore _
          · cases h
            exact List.forall_mem_cons.mpr ⟨hrest, List.forall_mem_nil _⟩
        · cases h
        · split_ifs at h
          cases h
          exact List.forall_mem_cons.mpr ⟨hrest, htasks⟩
  | .enter path rest :: tasks =>
    obtain ⟨hrest, htasks⟩ := List.forall_mem_cons.mp hs
    simp only [Site.next] at h
    split at h
    · cases h
    · split at h
      · cases h
        exact htasks
      · split at h
        · cases h
        · split at h
          · split_ifs at h with hacc hdir
            · cases h
              exact htasks
            · cases h
              -- an element and its slash are taken off
              obtain ⟨hsplit, -, hhead⟩ := splitRest_spec rest
              obtain ⟨t, ht⟩ := List.head?_eq_some_iff.mp (hhead.resolve_left hdir.2)
              have hcut : rest = (splitRest rest).1 ++ [47] ++ t := by
                rw [List.append_assoc, List.singleton_append, ← ht]
                exact hsplit
              refine List.forall_mem_cons.mpr ⟨?_, htasks⟩
              rw [Task.rest, ht, List.drop_one, List.tail_cons, ← hrest, Task.rest]
              conv_rhs => rw [hcut]
              exact (basename_of_append (.inr (.inr List.getLast?_concat))).symm
          · split_ifs at h
            cases h
            exact htasks

theorem reaches_basename {s s' : List Task} {bn : Bytes} (h : Reaches (site.next fnmatch) s s')
    (hs : ∀ t ∈ s, basename t.rest = bn) : ∀ t ∈ s', basename t.rest = bn := by
  induction h with
  | refl => exact hs
  | tail _ hstep ih => exact next_basename hstep ih

/-- What is left where a redirect is sent is the last element of the rest string. -/
theorem RedirectAt.basename {path rest el r : Bytes} {tasks : List Task} (h : RedirectAt fnmatch site path rest el)
    (hreach : Reaches (site.next fnmatch) [.look [46] r] (.enter path rest :: tasks)) :
    Dirplex.unescape (Dirplex.basename r) = some el := by
  have hbn : Dirplex.basename rest = Dirplex.basename r :=
    reaches_basename hreach (fun t ht => by rw [List.mem_singleton.mp ht, Task.rest]) _ List.mem_cons_self
  obtain ⟨hsplit, hslash, -⟩ := splitRest_spec rest
  rw [h.last, List.append_nil] at hsplit
  have hself : Dirplex.basename rest = rest := by
    refine basename_append (d := []) (.inl rfl) ?_
    rw [hsplit]
    exact hslash
  rw [← hbn, hself]
  conv_lhs => rw [hsplit]
  exact h.unescape

/-! ## The location -/

/-- A name with a colon is taken for an absolute target. -/
theorem redirTarget_colon (req : Hthead) {el : Bytes} (hslash : 47 ∉ el) (hcolon : 58 ∈ el) :
    redirTarget req (el ++ [47]) = el ++ [47] := by
  rw [redirTarget, if_pos]
  rwa [takeWhile_sep hslash]

theorem skipSlash_url {req : Hthead} {pre query proto host : Bytes} (ha : Addressed req pre query proto host) :
    skipSlash req.url = skipSlash (pre ++ req.rest) ++ query := by
  rw [ha.url]
  cases hp : pre ++ req.rest with
  | nil =>
    obtain rfl | hq := ha.query
    · rfl
    · obtain ⟨t, rfl⟩ := List.head?_eq_some_iff.mp hq
      rfl
  | cons c p =>
    by_cases hc : c = 47
    · rw [hc]
      rfl
    · rw [List.cons_append, skipSlash, skipSlash]
      · rfl
      · intro url heq
        exact hc (List.cons.inj heq).1
      · intro url heq
        exact hc (List.cons.inj heq).1

/-- The location has the unescaped element in the place of the last one. -/
theorem redirTarget_eq {req : Hthead} {pre query proto host el : Bytes} (ha : Addressed req pre query proto host)
    (hne : el ≠ []) (hslash : 47 ∉ el) (hcolon : 58 ∉ el) :
    redirTarget req (el ++ [47]) = proto ++ bytes "://" ++ host ++
      47 :: ((skipSlash (pre ++ req.rest)).rdropWhile (· ≠ 47) ++ el ++ 47 :: query) := by
  have hhead : (el ++ [47]).head? ≠ some 47 := by
    rw [List.head?_append_of_ne_nil _ hne]
    exact fun h => hslash (List.mem_of_head? h)
  have hpath : ∀ x ∈ skipSlash (pre ++ req.rest), decide (x ≠ 63) = true := by
    intro x hx
    refine decide_eq_true fun h => ha.path (h ▸ ?_)
    unfold skipSlash at hx
    split at hx
    · rename_i url heq
      rw [heq]
      exact List.mem_cons_of_mem _ hx
    · exact hx
  have htake : query.takeWhile (· ≠ 63) = [] ∧ query.dropWhile (· ≠ 63) = query := by
    obtain rfl | hq := ha.query
    · exact ⟨rfl, rfl⟩
    · obtain ⟨t, rfl⟩ := List.head?_eq_some_iff.mp hq
      exact ⟨rfl, rfl⟩
  rw [redirTarget, if_neg (by rwa [takeWhile_sep hslash]), ha.proto, ha.host]
  simp only [if_neg hhead, skipSlash_url ha]
  rw [List.takeWhile_append_of_pos hpath, List.dropWhile_append_of_pos hpath, htake.1, htake.2, List.append_nil]
  simp only [List.append_assoc, List.singleton_append]

/-- Only a name with neither gives the location that is expected. -/
theorem redirTarget_iff {req : Hthead} {pre query proto host el : Bytes} (ha : Addressed req pre query proto host)
    (hel : unescape (basename req.rest) = some el) (hne : el ≠ []) (hslash : 47 ∉ el) :
    redirTarget req (el ++ [47]) =
        proto ++ bytes "://" ++ host ++ 47 :: (skipSlash (pre ++ req.rest) ++ 47 :: query) ↔
      37 ∉ basename req.rest ∧ 58 ∉ basename req.rest := by
  obtain ⟨d, hrest, -, -⟩ := basename_split req.rest
  have hnul : NulFree (basename req.rest) := by
    intro h
    refine ha.nulFree ?_
    rw [hrest]
    exact List.mem_append_right d h
  have hself : el = basename req.rest ↔ 37 ∉ basename req.rest := by
    rw [← unescape_eq_self hnul, hel, Option.some_inj]
  have hlast : (skipSlash (pre ++ req.rest)).rdropWhile (· ≠ 47) ++ basename req.rest = skipSlash (pre ++ req.rest) := by
    rw [← basename_of_append ha.last, ← basename_skipSlash]
    exact List.rdropWhile_append_rtakeWhile
  by_cases hcolon : 58 ∈ el
  · rw [redirTarget_colon req hslash hcolon]
    constructor
    · -- the location that is expected has more than one slash
      intro heq
      have hcount := congrArg (List.count 47) heq
      have hscheme : (bytes "://").count 47 = 2 := by decide
      simp only [List.count_append, List.count_cons, hscheme, List.count_eq_zero.mpr hslash] at hcount
      simp at hcount
      omega
    · rintro ⟨hpercent, hbn⟩
      rw [hself.mpr hpercent] at hcolon
      exact absurd hcolon hbn
  · rw [redirTarget_eq ha hne hslash hcolon]
    constructor
    · intro heq
      have heq := List.append_cancel_right (List.cons.inj (List.append_cancel_left heq)).2
      have hbn := hself.mp (List.append_cancel_left (heq.trans hlast.symm))
      refine ⟨hbn, ?_⟩
      rwa [← hself.mpr hbn]
    · rintro ⟨hpercent, -⟩
      rw [hself.mpr hpercent, hlast]

/-- The redirect to a directory leads back to it if and only if the last element of the path has
    neither an escape nor a colon in it. -/
theorem redirect_back_iff (fnmatch : (pattern string : Bytes) → (pathname : Bool) → Bool)
    (childhandle : Child → Hthead → ChildResult) (site : Site) {req : Hthead} {pre query proto host : Bytes}
    (ha : Addressed req pre query proto host) {n : ℕ} {evs : List Event}
    (h : site.serve fnmatch childhandle n req = some evs) {q : Hthead} {code : ℕ} {dst : Bytes}
    (hr : .redirect q code dst ∈ evs) :
    LeadsBack fnmatch site req pre query proto host (stdredir q code dst) ↔
      37 ∉ basename req.rest ∧ 58 ∉ basename req.rest := by
  obtain ⟨res, hres, rfl⟩ := Option.map_eq_some_iff.mp h
  obtain ⟨rfl, rfl, path, rest, el, tasks, hreach, hat, rfl⟩ :=
    checkpath_redirect req n [46] req.rest true res [] hres q code dst hr
  rw [← redirTarget_iff ha (hat.basename hreach) hat.ne_nil hat.no_slash]
  constructor
  · rintro ⟨hloc, -⟩
    obtain heq | hloc := List.mem_cons.mp hloc
    · exact absurd (Prod.mk.inj heq).1 (by decide)
    · exact (Prod.mk.inj (List.mem_singleton.mp hloc)).2.symm
  · intro htarget
    refine ⟨?_, path, rest, el, tasks, tasks.map Task.slash, hat, hreach, ?_⟩
    · rw [← htarget]
      exact List.mem_cons_of_mem _ List.mem_cons_self
    · exact (reaches_slash hreach).tail (hat.next _)

/-- A directory with one directory in it. -/
def oneDir (name : Bytes) : Site where
  stat path := if path = bytes "./" ++ name then some .dir else none
  readdir _ := []
  named := noNames
  dots path := by split_ifs <;> exact ⟨nofun, nofun⟩
  htrc _ := {}

/-- A request for `path`, from the root of the server. -/
def request (path : Bytes) : Hthead where
  method := bytes "GET"
  url := 47 :: path
  ver := bytes "HTTP/1.1"
  rest := path
  headers := [(bytes "X-Ash-Protocol", bytes "http"), (bytes "Host", bytes "example.com")]

theorem request_addressed {path : Bytes} (hpath : 63 ∉ path) (hnul : NulFree path) :
    Addressed (request path) [47] [] (bytes "http") (bytes "example.com") where
  url := (List.append_nil _).symm
  path := by simpa [request] using hpath
  query := .inl rfl
  last := .inr (.inr rfl)
  nulFree := hnul
  proto := rfl
  host := rfl

theorem redirect_back_docs :
    ∃ evs, (oneDir (bytes "docs")).serve (fun _ _ _ => false) (fun _ _ => .handled) 1 (request (bytes "docs")) = some evs ∧
      .redirect (request (bytes "docs")) 301 (bytes "docs/") ∈ evs ∧
        LeadsBack (fun _ _ _ => false) (oneDir (bytes "docs")) (request (bytes "docs")) [47] [] (bytes "http")
          (bytes "example.com") (stdredir (request (bytes "docs")) 301 (bytes "docs/")) :=
  ⟨_, rfl, List.mem_cons_self,
    (redirect_back_iff _ (fun _ _ => .handled) (oneDir (bytes "docs")) (n := 1)
      (request_addressed (by decide) (by decide)) rfl List.mem_cons_self).mpr ⟨by decide, by decide⟩⟩

/-- A request for `path`, which names the directory `name`, is sent to `location`, which does not
    lead back. -/
def Astray (name path location : Bytes) : Prop :=
  Addressed (request path) [47] [] (bytes "http") (bytes "example.com") ∧
    ∃ evs dst, (oneDir name).serve (fun _ _ _ => false) (fun _ _ => .handled) 1 (request path) = some evs ∧
      .redirect (request path) 301 dst ∈ evs ∧
        (bytes "Location", location) ∈ (stdredir (request path) 301 dst).headers ∧
          ¬ LeadsBack (fun _ _ _ => false) (oneDir name) (request path) [47] [] (bytes "http") (bytes "example.com")
            (stdredir (request path) 301 dst)

/-- The redirects to the directories `a b` and `a:b`. -/
theorem redirect_astray :
    Astray (bytes "a b") (bytes "a%20b") (bytes "http://example.com/a b/") ∧
      Astray (bytes "a:b") (bytes "a:b") (bytes "a:b/") := by
  constructor
  · exact ⟨request_addressed (by decide) (by decide), _, bytes "a b/", rfl, List.mem_cons_self, by decide,
      fun h => absurd h.1 (by decide)⟩
  · exact ⟨request_addressed (by decide) (by decide), _, bytes "a:b/", rfl, List.mem_cons_self, by decide,
      fun h => absurd h.1 (by decide)⟩

end Ashd.Dirplex
