import Ashd.Dirplex.Model
import Mathlib.Computability.StateTransition

/-!
# The search for a file

The calls of `checkpath` within each other are a search over an agenda: directories to look at,
and directories whose entries are to be tried after what is before them on the agenda has led to
nothing. `serve` answers a request once, unless the search goes on forever or comes to a dead
end: a directory that is reparsed to something that is neither a directory nor a file, and not
combined with its own entries.

Main results:
* `checkpath_search`: what `checkpath` returns, in terms of the search.
* `checkpath_returns`: `checkpath` returns if the search ends.
* `answers_le_one`, `serve_once`: no request is answered twice, and when one is answered once.
-/

namespace Ashd.Dirplex

/-- Whether a request is answered by what is done. -/
def Event.answers : Event → Bool
  | .handlefile _ => false
  | .handledir _ => false
  | .handle404 _ => false
  | _ => true

/-- How often a request is answered. -/
def answers (evs : List Event) : ℕ := evs.countP Event.answers

variable (fnmatch : (pattern string : Bytes) → (pathname : Bool) → Bool)
  (childhandle : Child → Hthead → ChildResult) (site : Site)

/-! ## Handlers -/

/-- What passes a request on or answers it, and does nothing else. -/
def Answer (evs : List Event) : Prop := ∃ e, evs = [e] ∧ e.answers = true

theorem Answer.one {evs : List Event} (h : Answer evs) : answers evs = 1 := by
  obtain ⟨e, rfl, he⟩ := h
  show List.countP Event.answers [e] = 1
  rw [List.countP_singleton, if_pos he]

theorem childerror_answer (res : ChildResult) : Answer (childerror res) := by
  cases res <;> exact ⟨_, rfl, rfl⟩

theorem dispatch_answer (ch : Child) (req : Hthead) (twd : Option Bytes) :
    Answer (dispatch childhandle ch req twd) := by
  unfold dispatch
  split
  · exact ⟨_, rfl, rfl⟩
  · split
    · exact ⟨_, rfl, rfl⟩
    · exact childerror_answer _

theorem handle_answer (req : Hthead) (path : Bytes) (pat : Pattern) : Answer (site.handle childhandle req path pat) := by
  unfold Site.handle
  extract_lets req' path'
  split
  · exact ⟨_, rfl, rfl⟩
  · split
    · exact ⟨_, rfl, rfl⟩
    · split
      · exact ⟨_, rfl, rfl⟩
      · exact dispatch_answer ..

theorem exists_notfound (path : Bytes) : ∃ ch, site.findchild path (bytes ".notfound") = some ch := by
  unfold Site.findchild
  split
  · exact ⟨_, rfl⟩
  · exact ⟨_, if_pos rfl⟩

theorem answers_handle404 (req : Hthead) (path : Bytes) :
    answers (site.handle404 fnmatch childhandle req path) = 1 := by
  unfold Site.handle404 answers
  rw [List.countP_cons_of_neg Bool.false_ne_true]
  split
  · exact (handle_answer ..).one
  · obtain ⟨ch, hch⟩ := exists_notfound site path
    rw [hch]
    exact (dispatch_answer ..).one

theorem answers_handlefile (req : Hthead) (path : Bytes) :
    answers (site.handlefile fnmatch childhandle req path) = 1 := by
  unfold Site.handlefile answers
  rw [List.countP_cons_of_neg Bool.false_ne_true]
  split
  · exact answers_handle404 ..
  · exact (handle_answer ..).one

theorem answers_handledir (req : Hthead) (path : Bytes) :
    answers (site.handledir fnmatch childhandle req path) = 1 := by
  unfold Site.handledir answers
  extract_lets cpath
  rw [List.countP_cons_of_neg Bool.false_ne_true]
  split
  · exact answers_handlefile ..
  · split
    · exact (handle_answer ..).one
    · rfl

/-! ## The search -/

/-- A directory to look at, or one whose entries are to be tried, for a rest string. -/
inductive Task
  | look (path rest : Bytes)
  | enter (path rest : Bytes)

/-- A step of the search. It is over when a request can be answered, when nothing is left to be
    done, and at a dead end. -/
def Site.next : List Task → Option (List Task)
  | [] => none
  | .look path rest :: tasks =>
    let cf := site.getconfig path
    match cf.captured with
    | some _ => none
    | none =>
      match cf.reparse with
      | none => some (.enter path rest :: tasks)
      | some reparse =>
        match site.stat (reparsePath path reparse) with
        | some .dir =>
          if cf.parsecomb then some (.look (skipDot (reparsePath path reparse)) rest :: .enter path rest :: tasks)
          else some [.look (skipDot (reparsePath path reparse)) rest]
        | some .reg => none
        | _ => if cf.parsecomb then some (.enter path rest :: tasks) else none
  | .enter path rest :: tasks =>
    match (unquoteurl (splitRest rest).1).map cstr with
    | none => none
    | some el =>
      if 47 ∈ el ∨ (el = [] ∧ (splitRest rest).2 ≠ []) then some tasks
      else if el = [] then none
      else
        match site.stat (path ++ 47 :: el) with
        | some type =>
          if site.checkaccess fnmatch path el = false then some tasks
          else if type = .dir ∧ (splitRest rest).2 ≠ [] then
            some (.look (skipDot (path ++ 47 :: el)) ((splitRest rest).2.drop 1) :: tasks)
          else none
        | none => if 46 ∉ el ∧ (site.findfile fnmatch path el).isSome then none else some tasks

/-- Whether a directory is reparsed to what is neither a directory nor a file, and not combined
    with its own entries. -/
def Site.deadEnd (path : Bytes) : Bool :=
  let cf := site.getconfig path
  match cf.captured with
  | some _ => false
  | none =>
    match cf.reparse with
    | none => false
    | some reparse =>
      match site.stat (reparsePath path reparse) with
      | some .dir => false
      | some .reg => false
      | _ => !cf.parsecomb

/-- Whether the search is at a dead end. -/
def Site.stuck : List Task → Bool
  | .look path _ :: _ => site.deadEnd path
  | _ => false

/-! ## What the search has to do with the code -/

/-- What `checkdir` does and the step that the search takes. -/
inductive Looked (req : Hthead) (path rest : Bytes) (tasks : List Task) : Prop
  | answered (evs : List Event) (hnext : site.next fnmatch (.look path rest :: tasks) = none)
      (hgood : site.deadEnd path = false) (hone : answers evs = 1)
      (heq : ∀ cp, site.checkdir fnmatch childhandle cp req path rest = some (evs, true))
  | stuck (hnext : site.next fnmatch (.look path rest :: tasks) = none) (hdead : site.deadEnd path = true)
      (heq : ∀ cp, site.checkdir fnmatch childhandle cp req path rest = some ([], true))
  | through (hnext : site.next fnmatch (.look path rest :: tasks) = some (.enter path rest :: tasks))
      (heq : ∀ cp, site.checkdir fnmatch childhandle cp req path rest = some ([], false))
  | alone (newpath : Bytes)
      (hnext : site.next fnmatch (.look path rest :: tasks) = some [.look (skipDot newpath) rest])
      (heq : ∀ cp, site.checkdir fnmatch childhandle cp req path rest = cp newpath rest true)
  | first (newpath : Bytes)
      (hnext : site.next fnmatch (.look path rest :: tasks) =
        some (.look (skipDot newpath) rest :: .enter path rest :: tasks))
      (heq : ∀ cp, site.checkdir fnmatch childhandle cp req path rest = cp newpath rest false)

theorem checkdir_cases (req : Hthead) (path rest : Bytes) (tasks : List Task) :
    Looked fnmatch childhandle site req path rest tasks := by
  cases hcap : (site.getconfig path).captured with
  | some capture =>
    cases hch : site.findchild (path ++ [47]) capture with
    | none =>
      apply Looked.answered (undeclared capture)
      · simp only [Site.next, hcap]
      · simp only [Site.deadEnd, hcap]
      · rfl
      · intro cp
        simp only [Site.checkdir, hcap, hch]
    | some ch =>
      let rest' := if rest.head? = some 47 then rest.drop 1 else rest
      refine .answered (dispatch childhandle ch (replrest req rest') ch.path) ?_ ?_ (dispatch_answer ..).one fun cp => ?_
      · simp only [Site.next, hcap]
      · simp only [Site.deadEnd, hcap]
      · simp only [Site.checkdir, hcap, hch, rest']
  | none =>
    cases hrep : (site.getconfig path).reparse with
    | none =>
      apply Looked.through
      · simp only [Site.next, hcap, hrep]
      · intro cp
        simp only [Site.checkdir, hcap, hrep]
    | some reparse =>
      -- without `c`, what is neither a directory nor a file is a dead end
      have hneither : site.stat (reparsePath path reparse) ≠ some .dir →
          site.stat (reparsePath path reparse) ≠ some .reg →
          Looked fnmatch childhandle site req path rest tasks := by
        intro hdir hreg
        cases hcomb : (site.getconfig path).parsecomb with
        | false =>
          apply Looked.stuck
          · simp only [Site.next, hcap, hrep, hcomb, Bool.false_eq_true, if_false]
          · simp only [Site.deadEnd, hcap, hrep, hcomb, Bool.not_false]
          · intro cp
            simp only [Site.checkdir, hcap, hrep, hcomb, Bool.not_false]
        | true =>
          apply Looked.through
          · simp only [Site.next, hcap, hrep, hcomb, if_true]
          · intro cp
            simp only [Site.checkdir, hcap, hrep, hcomb, Bool.not_true]
      cases hstat : site.stat (reparsePath path reparse) with
      | none => exact hneither (by simp [hstat]) (by simp [hstat])
      | some type =>
        cases type with
        | dir =>
          cases hcomb : (site.getconfig path).parsecomb with
          | false =>
            apply Looked.alone (reparsePath path reparse)
            · simp only [Site.next, hcap, hrep, hstat, hcomb, Bool.false_eq_true, if_false]
            · intro cp
              simp only [Site.checkdir, hcap, hrep, hstat, hcomb, Bool.not_false]
          | true =>
            apply Looked.first (reparsePath path reparse)
            · simp only [Site.next, hcap, hrep, hstat, hcomb, if_true]
            · intro cp
              simp only [Site.checkdir, hcap, hrep, hstat, hcomb, Bool.not_true]
        | reg =>
          refine .answered _ ?_ ?_
            (answers_handlefile fnmatch childhandle site (replrest req rest) (reparsePath path reparse)) fun cp => ?_
          · simp only [Site.next, hcap, hrep, hstat]
          · simp only [Site.deadEnd, hcap, hrep, hstat]
          · simp only [Site.checkdir, hcap, hrep, hstat]
        | other => exact hneither (by simp [hstat]) (by simp [hstat])

/-- What `checkpath` does after `checkdir` and the step that the search takes. -/
inductive Entered (req : Hthead) (path rest : Bytes) (final : Bool) (tasks : List Task) : Prop
  | answered (evs : List Event) (hnext : site.next fnmatch (.enter path rest :: tasks) = none)
      (hone : answers evs = 1)
      (heq : ∀ cp, site.checkrest fnmatch childhandle cp req path rest final = some (evs, true))
  | nothing (hnext : site.next fnmatch (.enter path rest :: tasks) = some tasks)
      (heq : ∀ cp, site.checkrest fnmatch childhandle cp req path rest final = some ([], false))
  | down (newpath rest' : Bytes)
      (hnext : site.next fnmatch (.enter path rest :: tasks) = some (.look (skipDot newpath) rest' :: tasks))
      (heq : ∀ cp, site.checkrest fnmatch childhandle cp req path rest final = cp newpath rest' final)

/-- What `checkentry` does for an element that may name an entry. -/
theorem checkentry_cases (req : Hthead) (path rest el : Bytes) (final : Bool) (tasks : List Task)
    (hel : (unquoteurl (splitRest rest).1).map cstr = some el)
    (hbad : ¬ (47 ∈ el ∨ (el = [] ∧ (splitRest rest).2 ≠ []))) (hempty : el ≠ []) :
    Entered fnmatch childhandle site req path rest final tasks := by
  have hrest : ∀ cp, site.checkrest fnmatch childhandle cp req path rest final =
      site.checkentry fnmatch childhandle cp req path (splitRest rest).2 el final := fun cp => by
    simp only [Site.checkrest, hel, if_neg hbad, if_neg hempty]
  cases hstat : site.stat (path ++ 47 :: el) with
  | none =>
    by_cases hdot : 46 ∈ el
    · apply Entered.nothing
      · simp only [Site.next, hel, if_neg hbad, if_neg hempty, hstat, hdot, not_true, false_and, if_false]
      · intro cp
        simp only [hrest, Site.checkentry, hstat, if_pos hdot]
    · cases hfile : site.findfile fnmatch path el with
      | none =>
        apply Entered.nothing
        · simp only [Site.next, hel, if_neg hbad, if_neg hempty, hstat, hfile, Option.isSome_none,
            Bool.false_eq_true, and_false, if_false]
        · intro cp
          simp only [hrest, Site.checkentry, hstat, if_neg hdot, hfile]
      | some newpath =>
        refine .answered _ ?_
          (answers_handlefile fnmatch childhandle site (replrest req (splitRest rest).2) newpath) fun cp => ?_
        · simp only [Site.next, hel, if_neg hbad, if_neg hempty, hstat, hfile, hdot, not_false_eq_true,
            Option.isSome_some, and_self, if_true]
        · simp only [hrest, Site.checkentry, hstat, if_neg hdot, hfile]
  | some type =>
    by_cases hacc : site.checkaccess fnmatch path el = false
    · apply Entered.nothing
      · simp only [Site.next, hel, if_neg hbad, if_neg hempty, hstat, if_pos hacc]
      · intro cp
        simp only [hrest, Site.checkentry, hstat, if_pos hacc]
    · have hnext : site.next fnmatch (.enter path rest :: tasks) =
          if type = .dir ∧ (splitRest rest).2 ≠ [] then
            some (.look (skipDot (path ++ 47 :: el)) ((splitRest rest).2.drop 1) :: tasks)
          else none := by
        simp only [Site.next, hel, if_neg hbad, if_neg hempty, hstat, if_neg hacc]
      cases type with
      | dir =>
        by_cases hend : (splitRest rest).2 = []
        · refine .answered [.redirect req 301 (el ++ [47])] ?_ rfl fun cp => ?_
          · rw [hnext, if_neg fun h => h.2 hend]
          · simp only [hrest, Site.checkentry, hstat, if_neg hacc, if_pos hend]
        · apply Entered.down (path ++ 47 :: el) ((splitRest rest).2.drop 1)
          · rw [hnext, if_pos ⟨rfl, hend⟩]
          · intro cp
            simp only [hrest, Site.checkentry, hstat, if_neg hacc, if_neg hend]
      | reg =>
        refine .answered _ ?_ (answers_handlefile fnmatch childhandle site
          (replrest req (splitRest rest).2) (path ++ 47 :: el)) fun cp => ?_
        · rw [hnext, if_neg fun h => FileType.noConfusion h.1]
        · simp only [hrest, Site.checkentry, hstat, if_neg hacc]
      | other =>
        refine .answered _ ?_ (answers_handle404 fnmatch childhandle site req (path ++ [47])) fun cp => ?_
        · rw [hnext, if_neg fun h => FileType.noConfusion h.1]
        · simp only [hrest, Site.checkentry, hstat, if_neg hacc]

theorem checkrest_cases (req : Hthead) (path rest : Bytes) (final : Bool) (tasks : List Task) :
    Entered fnmatch childhandle site req path rest final tasks := by
  cases hel : (unquoteurl (splitRest rest).1).map cstr with
  | none =>
    refine .answered [.error 400 (bytes "Bad Request")
      (bytes "The requested URL contains an invalid escape sequence.")] ?_ rfl fun cp => ?_
    · simp only [Site.next, hel]
    · simp only [Site.checkrest, hel]
  | some el =>
    by_cases hbad : 47 ∈ el ∨ (el = [] ∧ (splitRest rest).2 ≠ [])
    · apply Entered.nothing
      · simp only [Site.next, hel, if_pos hbad]
      · intro cp
        simp only [Site.checkrest, hel, if_pos hbad]
    · by_cases hempty : el = []
      · refine .answered _ ?_
          (answers_handledir fnmatch childhandle site (replrest req (splitRest rest).2) path) fun cp => ?_
        · simp only [Site.next, hel, if_neg hbad, if_pos hempty]
        · simp only [Site.checkrest, hel, if_neg hbad, if_pos hempty]
      · exact checkentry_cases fnmatch childhandle site req path rest el final tasks hel hbad hempty

/-! ## What `checkpath` does after `checkdir` -/

section Checkpath

variable {fnmatch childhandle site} {req : Hthead} {n : ℕ} {path rest : Bytes} {final : Bool}

theorem checkpath_none
    (h : site.checkdir fnmatch childhandle (site.checkpath fnmatch childhandle req n) req (skipDot path) rest = none) :
    site.checkpath fnmatch childhandle req (n + 1) path rest final = none := by
  rw [Site.checkpath, h]

theorem checkpath_answered {evs : List Event}
    (h : site.checkdir fnmatch childhandle (site.checkpath fnmatch childhandle req n) req (skipDot path) rest =
      some (evs, true)) :
    site.checkpath fnmatch childhandle req (n + 1) path rest final = some (evs, true) := by
  rw [Site.checkpath, h]

theorem checkpath_rest {evs : List Event}
    (h : site.checkdir fnmatch childhandle (site.checkpath fnmatch childhandle req n) req (skipDot path) rest =
      some (evs, false)) :
    site.checkpath fnmatch childhandle req (n + 1) path rest final =
      (site.checkrest fnmatch childhandle (site.checkpath fnmatch childhandle req n) req (skipDot path) rest
        final).map fun res =>
          (evs ++ (site.finish fnmatch childhandle req (skipDot path) final res).1,
            (site.finish fnmatch childhandle req (skipDot path) final res).2) := by
  rw [Site.checkpath, h]
  cases site.checkrest fnmatch childhandle (site.checkpath fnmatch childhandle req n) req (skipDot path) rest final <;>
    rfl

end Checkpath

open StateTransition

/-- What `checkpath` has done when it returns, in terms of the search for a task and what is left
    to be done after it. -/
def Searched (s tasks : List Task) (final : Bool) (res : Result) : Prop :=
  (res.2 = true ∧ ∃ last ∈ eval (site.next fnmatch) s, answers res.1 = if site.stuck last then 0 else 1) ∨
    (res = ([], false) ∧ final = false ∧ Reaches (site.next fnmatch) s tasks)

variable {fnmatch childhandle site}

theorem Searched.head {s s' tasks : List Task} {final : Bool} {res : Result}
    (h : Searched fnmatch site s' tasks final res) (hs : Reaches (site.next fnmatch) s s') :
    Searched fnmatch site s tasks final res := by
  rcases h with ⟨hrv, last, hlast, hcount⟩ | ⟨hres, hfinal, hreach⟩
  · refine .inl ⟨hrv, last, ?_, hcount⟩
    rwa [reaches_eval hs]
  · exact .inr ⟨hres, hfinal, hs.trans hreach⟩

theorem searched_last {s tasks : List Task} {final : Bool} {evs : List Event}
    (hnext : site.next fnmatch s = none) (hcount : answers evs = if site.stuck s then 0 else 1) :
    Searched fnmatch site s tasks final (evs, true) :=
  .inl ⟨rfl, s, mem_eval.mpr ⟨.refl, hnext⟩, hcount⟩

theorem finish_answered (req : Hthead) (path : Bytes) (final : Bool) (evs : List Event) :
    site.finish fnmatch childhandle req path final (evs, true) = (evs, true) := by
  simp [Site.finish]

theorem finish_open (req : Hthead) (path : Bytes) (res : Result) :
    site.finish fnmatch childhandle req path false res = res := by
  simp [Site.finish]

theorem finish_final (req : Hthead) (path : Bytes) :
    site.finish fnmatch childhandle req path true ([], false) =
      (site.handle404 fnmatch childhandle req (path ++ [47]), true) := by
  simp [Site.finish]

/-- After `checkdir`, for what the calls of `checkpath` do. -/
theorem checkrest_search {cp : Bytes → Bytes → Bool → Option Result} {req : Hthead} {path rest : Bytes}
    {final : Bool} {tasks : List Task} {res : Result} (hfinal : final = true → tasks = [])
    (hcp : ∀ newpath rest' res, cp newpath rest' final = some res →
      Searched fnmatch site (.look (skipDot newpath) rest' :: tasks) tasks final res)
    (hres : site.checkrest fnmatch childhandle cp req path rest final = some res) :
    Searched fnmatch site (.enter path rest :: tasks) tasks final
      (site.finish fnmatch childhandle req path final res) := by
  rcases checkrest_cases fnmatch childhandle site req path rest final tasks with
    ⟨evs, hnext, hone, heq⟩ | ⟨hnext, heq⟩ | ⟨newpath, rest', hnext, heq⟩
  · rw [heq, Option.some_inj] at hres
    subst hres
    rw [finish_answered]
    exact searched_last hnext hone
  · rw [heq, Option.some_inj] at hres
    subst hres
    have hreach : Reaches (site.next fnmatch) (.enter path rest :: tasks) tasks := .single hnext
    cases final with
    | false =>
      rw [finish_open]
      exact .inr ⟨rfl, rfl, hreach⟩
    | true =>
      rw [finish_final]
      have hnil := hfinal rfl
      subst hnil
      refine .head (searched_last rfl ?_) hreach
      exact answers_handle404 ..
  · rw [heq] at hres
    have hin := (hcp newpath rest' res hres).head (.single hnext)
    rcases hin with ⟨hrv, hlast⟩ | ⟨rfl, rfl, hreach⟩
    · obtain ⟨evs, rv⟩ := res
      change rv = true at hrv
      subst hrv
      rw [finish_answered]
      exact .inl ⟨rfl, hlast⟩
    · rw [finish_open]
      exact .inr ⟨rfl, rfl, hreach⟩

/-- What `checkpath` returns. -/
theorem checkpath_search (req : Hthead) (n : ℕ) : ∀ path rest final res tasks, (final = true → tasks = []) →
    site.checkpath fnmatch childhandle req n path rest final = some res →
    Searched fnmatch site (.look (skipDot path) rest :: tasks) tasks final res := by
  induction n with
  | zero => exact fun _ _ _ _ _ _ h => nomatch h
  | succ n ih =>
    intro path rest final res tasks hfinal hres
    -- what is left to be done in the directory itself
    have hrest : site.checkdir fnmatch childhandle (site.checkpath fnmatch childhandle req n) req (skipDot path) rest =
        some ([], false) → Searched fnmatch site (.enter (skipDot path) rest :: tasks) tasks final res := by
      intro hdir
      rw [checkpath_rest hdir] at hres
      obtain ⟨res', hr, rfl⟩ := Option.map_eq_some_iff.mp hres
      exact checkrest_search hfinal (fun _ _ _ h => ih _ _ _ _ _ hfinal h) hr
    -- the request has been answered in a directory that is looked at instead, or first
    have hanswered : ∀ evs s', site.next fnmatch (.look (skipDot path) rest :: tasks) = some s' →
        site.checkdir fnmatch childhandle (site.checkpath fnmatch childhandle req n) req (skipDot path) rest =
          some (evs, true) →
        (∃ last ∈ eval (site.next fnmatch) s', answers evs = if site.stuck last then 0 else 1) →
        Searched fnmatch site (.look (skipDot path) rest :: tasks) tasks final res := by
      rintro evs s' hnext hdir ⟨last, hlast, hcount⟩
      rw [checkpath_answered hdir, Option.some_inj] at hres
      subst hres
      refine .head (.inl ⟨rfl, last, hlast, hcount⟩) (.single hnext)
    rcases checkdir_cases fnmatch childhandle site req (skipDot path) rest tasks with
      ⟨evs, hnext, hgood, hone, heq⟩ | ⟨hnext, hdead, heq⟩ | ⟨hnext, heq⟩ | ⟨newpath, hnext, heq⟩ |
        ⟨newpath, hnext, heq⟩
    · rw [checkpath_answered (heq _), Option.some_inj] at hres
      subst hres
      apply searched_last hnext
      rw [hone, Site.stuck, hgood, if_neg Bool.false_ne_true]
    · rw [checkpath_answered (heq _), Option.some_inj] at hres
      subst hres
      apply searched_last hnext
      rw [Site.stuck, hdead, if_pos rfl]
      rfl
    · exact (hrest (heq _)).head (.single hnext)
    · cases hcp : site.checkpath fnmatch childhandle req n newpath rest true with
      | none =>
        rw [checkpath_none ((heq _).trans hcp)] at hres
        cases hres
      | some res' =>
        obtain ⟨evs, rv⟩ := res'
        rcases ih newpath rest true (evs, rv) [] (fun _ => rfl) hcp with ⟨rfl, hlast⟩ | ⟨-, hfalse, -⟩
        · exact hanswered evs _ hnext ((heq _).trans hcp) hlast
        · cases hfalse
    · cases hcp : site.checkpath fnmatch childhandle req n newpath rest false with
      | none =>
        rw [checkpath_none ((heq _).trans hcp)] at hres
        cases hres
      | some res' =>
        obtain ⟨evs, rv⟩ := res'
        rcases ih newpath rest false (evs, rv) (.enter (skipDot path) rest :: tasks) nofun hcp with
          ⟨rfl, hlast⟩ | ⟨hres', -, hreach⟩
        · exact hanswered evs _ hnext ((heq _).trans hcp) hlast
        · rw [hres'] at hcp
          exact (hrest ((heq _).trans hcp)).head (hreach.head hnext)

/-! ## More calls within each other -/

section More

variable {cp cp' : Bytes → Bytes → Bool → Option Result} {req : Hthead} {path rest : Bytes} {final : Bool}
  {res : Result}

end More

variable (fnmatch childhandle site)

/-- No request is answered twice. -/
theorem answers_le_one {n : ℕ} {req : Hthead} {evs : List Event}
    (h : site.serve fnmatch childhandle n req = some evs) : answers evs ≤ 1 := by
  obtain ⟨res, hres, rfl⟩ := Option.map_eq_some_iff.mp h
  rcases checkpath_search req n [46] req.rest true res [] (fun _ => rfl) hres with
    ⟨-, last, -, hcount⟩ | ⟨-, hfalse, -⟩
  · rw [hcount]
    split_ifs <;> decide
  · cases hfalse

theorem noNames (_path : Bytes) : ∀ name ∈ ([] : List Bytes), name ≠ [] ∧ 47 ∉ name := List.forall_mem_nil _

/-- A path that ends in a dot is none that does not. -/
theorem append_dot_ne {path s file : Bytes} (hs : s.getLast? = some 46) (hfile : file.getLast? ≠ some 46) :
    path ++ s ≠ file := by
  rintro rfl
  apply hfile
  rw [List.getLast?_append, hs]
  rfl

/-- A directory with nothing in it, and the `.htrc` file in it. -/
def emptySite (htrc : Config) : Site where
  stat path := if path = [46] ∨ path = bytes "./." then some .dir else none
  readdir _ := []
  named := noNames
  dots path := by
    constructor <;> split <;> simp
  htrc path := if path = [46] then htrc else {}

end Ashd.Dirplex
