import Ashd.Patplex.Select

/-!
# Whose submatches a match carries

The variable `mstr` of `findmatch` is not reset between stanzas, and `struct match` shares the
vector that it points to. The match that is returned has the submatches of its own stanza, all
of them and in memory that has not been freed, as long as no stanza without a vector of its own
is selected after one has been made, none is made after one has been selected, and no group is
missing below one that takes part.

Main results:
* `ruleLoop_captures`: what the rules of a stanza leave in `mstr` and in the memory.
* `findmatch_free`, `findmatch_bound`, `findmatch_bad`: the rest of the stanzas, from a state
  in which `mstr` is not shared, is shared with the match, or has done harm.
* `captures_run`: the matches that `serve` gets.
-/

namespace Ashd.Patplex

variable {ρ : Type*}

/-! ## Submatch vectors -/

/-- No group is missing below one that takes part in the match. -/
def Contiguous (str : ℕ → Option Bytes) : Prop := ∀ o < 10, (str o).isSome → ∀ o' < o, (str o').isSome

theorem mstrLoop_eq_some {str : ℕ → Option Bytes} {n o i : ℕ} {s : Bytes} :
    (mstrLoop str n o)[i]? = some s ↔ i < n ∧ str (o + i) = some s ∧ ∀ j < i, (str (o + j)).isSome := by
  induction n generalizing o i with
  | zero => simp [mstrLoop]
  | succ n ih =>
    rw [mstrLoop]
    cases hs : str o with
    | none =>
      simp only [List.getElem?_nil, reduceCtorEq, false_iff]
      rintro ⟨-, hi, hbelow⟩
      cases i with
      | zero =>
        rw [Nat.add_zero, hs] at hi
        cases hi
      | succ i =>
        have h0 := hbelow 0 (Nat.succ_pos i)
        rw [Nat.add_zero, hs] at h0
        cases h0
    | some s' =>
      cases i with
      | zero => simp [hs]
      | succ i =>
        rw [List.getElem?_cons_succ, ih, Nat.add_right_comm, Nat.succ_lt_succ_iff]
        refine and_congr_right fun _ => and_congr_right fun _ => ⟨fun h j hj => ?_, fun h j hj => ?_⟩
        · cases j with
          | zero =>
            rw [Nat.add_zero, hs]
            rfl
          | succ j =>
            have hj' := h j (Nat.lt_of_succ_lt_succ hj)
            rwa [Nat.add_right_comm] at hj'
        · have hj' := h (j + 1) (Nat.succ_lt_succ hj)
          rwa [Nat.add_right_comm]

/-- The vector has all groups if none is missing in between. -/
theorem mstrLoop_complete (str : ℕ → Option Bytes) :
    (∀ o < 10, (mstrLoop str 10 0)[o]? = str o) ↔ Contiguous str := by
  constructor
  · intro h o ho hsome o' ho'
    obtain ⟨s, hs⟩ := Option.isSome_iff_exists.mp hsome
    rw [← h o ho] at hs
    have hbelow := (mstrLoop_eq_some.mp hs).2.2 o' ho'
    rwa [Nat.zero_add] at hbelow
  · intro h o ho
    apply Option.ext
    intro s
    rw [mstrLoop_eq_some, Nat.zero_add]
    refine ⟨fun hs => hs.2.1, fun hs => ⟨ho, hs, fun j hj => ?_⟩⟩
    rw [Nat.zero_add]
    exact h o ho (by rw [hs]; rfl) j hj

/-! ## Memory -/

/-- Nothing has been freed that has not been allocated. -/
def Mem.Beyond (mem : Mem) : Prop := ∀ u, mem.next ≤ u → mem.frees u = 0

/-- Nothing has been freed twice. -/
def Mem.Once (mem : Mem) : Prop := ∀ u, mem.frees u ≤ 1

theorem le_freeca (mstr : Option ℕ) (mem : Mem) (u : ℕ) : mem.frees u ≤ (freeca mstr mem).frees u := by
  cases mstr with
  | none => exact le_rfl
  | some v =>
    show _ ≤ Function.update mem.frees v (mem.frees v + 1) u
    rw [Function.update_apply]
    split_ifs with h
    · rw [h]
      exact Nat.le_succ _
    · exact le_rfl

theorem freeca_self (v : ℕ) (mem : Mem) : (freeca (some v) mem).frees v = mem.frees v + 1 :=
  Function.update_self ..

theorem freeca_of_ne {mstr : Option ℕ} {u : ℕ} (h : mstr ≠ some u) (mem : Mem) :
    (freeca mstr mem).frees u = mem.frees u := by
  cases mstr with
  | none => rfl
  | some v => exact Function.update_of_ne (fun heq => h (by rw [heq])) _ _

/-- The memory after a vector `v` has been made, and others in between, from a state in which
    `mstr` was the last one. -/
structure Captured (mstr : Option ℕ) (mem : Mem) (v : ℕ) (mem' : Mem) : Prop where
  new : mem.next ≤ v
  lt : v < mem'.next
  live : mem'.frees v = 0
  beyond : mem'.Beyond
  frees : ∀ u < mem.next, mem'.frees u = (freeca mstr mem).frees u
  vec : ∀ u < mem.next, mem'.vec u = mem.vec u
  once : ∀ u, mem.next ≤ u → mem'.frees u ≤ 1

variable {mstr : Option ℕ} {mem : Mem}

theorem captured_alloc (hb : mem.Beyond) (hlt : ∀ w, mstr = some w → w < mem.next) (strs : List Bytes) :
    Captured mstr mem mem.next (alloc strs (freeca mstr mem)).2 := by
  have hnext := freeca_next mstr mem
  have hfrees : ∀ u, mem.next ≤ u → (freeca mstr mem).frees u = 0 := fun u hu => by
    rw [freeca_of_ne (fun heq => absurd (hlt u heq) (not_lt.mpr hu)), hb u hu]
  refine ⟨le_rfl, ?_, hfrees _ le_rfl, fun u hu => hfrees u ?_, fun _ _ => rfl, fun u hu => ?_,
    fun u hu => (hfrees u hu).le.trans zero_le_one⟩
  · show mem.next < (freeca mstr mem).next + 1
    omega
  · have hu' : (freeca mstr mem).next + 1 ≤ u := hu
    omega
  · show Function.update (freeca mstr mem).vec (freeca mstr mem).next strs u = mem.vec u
    rw [Function.update_of_ne (by omega), freeca_vec]

theorem Captured.trans {v v' : ℕ} {mem' mem'' : Mem} (h : Captured mstr mem v mem')
    (h' : Captured (some v) mem' v' mem'') : Captured mstr mem v' mem'' := by
  have hlt := h.new.trans_lt h.lt
  refine ⟨hlt.le.trans h'.new, h'.lt, h'.live, h'.beyond, fun u hu => ?_, fun u hu => ?_, fun u hu => ?_⟩
  · rw [h'.frees u (hu.trans hlt), freeca_of_ne, h.frees u hu]
    rintro ⟨⟩
    exact absurd h.new (not_le.mpr hu)
  · rw [h'.vec u (hu.trans hlt), h.vec u hu]
  · rcases lt_or_ge u mem'.next with hu' | hu'
    · rw [h'.frees u hu']
      by_cases huv : u = v
      · rw [huv, freeca_self, h.live]
      · rw [freeca_of_ne (fun heq => huv (Option.some.inj heq).symm)]
        exact h.once u hu
    · exact h'.once u hu'

/-! ## Rules -/

section Rules

variable (regexec : ρ → (s : Bytes) → Option (Groups s.length)) (req : Hthead)

/-- Whether a rule is one whose submatches count. -/
def Rule.flagged (rule : Rule ρ) : Bool := rule.mss && rule.type ≠ .all

/-- Whether a flagged rule matches, and all that are before it. -/
def captures : List (Rule ρ) → Bool
  | [] => false
  | rule :: rules => rule.matches regexec req && (rule.flagged || captures rules)

/-- The submatches of the last rule that is flagged. -/
def own : List (Rule ρ) → Option (ℕ → Option Bytes)
  | [] => none
  | rule :: rules =>
    match own rules with
    | some str => some str
    | none => if rule.flagged then rule.strs regexec req else none

theorem own_cons_of_not_flagged {rule : Rule ρ} {rules : List (Rule ρ)} (h : rule.flagged = false) :
    own regexec req (rule :: rules) = own regexec req rules := by
  rw [own, h]
  cases own regexec req rules <;> rfl

/-- What the rules of a stanza leave in `mstr` and in the memory. -/
theorem ruleLoop_captures (rules : List (Rule ρ)) : ∀ (rmo mstr : Option ℕ) (mem : Mem), mem.Beyond →
    (∀ w, mstr = some w → w < mem.next) →
    ∃ rmo' mstr' mem', ruleLoop regexec req rules rmo mstr mem =
        (rules.all fun rule => rule.matches regexec req, rmo', mstr', mem') ∧
      ((captures regexec req rules = false ∧ mstr' = mstr ∧ mem' = mem ∧
          ((rules.all fun rule => rule.matches regexec req) = true → own regexec req rules = none)) ∨
        (captures regexec req rules = true ∧ ∃ v, mstr' = some v ∧ Captured mstr mem v mem' ∧
          ((rules.all fun rule => rule.matches regexec req) = true →
            ∃ str, own regexec req rules = some str ∧ mem'.vec v = mstrLoop str 10 0))) := by
  induction rules with
  | nil => exact fun rmo mstr mem _ _ => ⟨rmo, mstr, mem, rfl, .inl ⟨rfl, rfl, rfl, fun _ => rfl⟩⟩
  | cons rule rules ih =>
    intro rmo mstr mem hb hlt
    rw [List.all_cons, captures]
    rcases ruleLoop_cons regexec req rule rules rmo mstr mem with
      ⟨hall, heq⟩ | ⟨hall, hstrs, heq⟩ | ⟨hall, str, rmo', hstrs, heq⟩
    · have hm : rule.matches regexec req = true := matches_of_all hall
      have hfl : rule.flagged = false := by
        unfold Rule.flagged
        rw [hall]
        simp
      rw [heq, hm, hfl, Bool.true_and, Bool.true_and, Bool.false_or, own_cons_of_not_flagged regexec req hfl]
      exact ih rmo mstr mem hb hlt
    · have hm : rule.matches regexec req = false := matches_of_none hall hstrs
      rw [heq, hm, Bool.false_and, Bool.false_and]
      exact ⟨rmo, mstr, mem, rfl, .inl ⟨rfl, rfl, rfl, nofun⟩⟩
    · have hm : rule.matches regexec req = true := matches_of_some hstrs
      have hfl : rule.flagged = rule.mss := by
        unfold Rule.flagged
        rw [decide_eq_true hall, Bool.and_true]
      rw [heq, hm, hfl, Bool.true_and, Bool.true_and]
      by_cases hmss : rule.mss = true
      · rw [if_pos hmss, hmss, Bool.true_or, own, hfl, hmss]
        have hone := captured_alloc hb hlt (mstrLoop str 10 0)
        obtain ⟨rmo'', mstr', mem', hloop, hcase⟩ := ih rmo' (some mem.next)
          (alloc (mstrLoop str 10 0) (freeca mstr mem)).2 hone.beyond (by rintro w ⟨⟩; exact hone.lt)
        refine ⟨rmo'', mstr', mem', hloop, .inr ⟨rfl, ?_⟩⟩
        rcases hcase with ⟨-, rfl, rfl, hown⟩ | ⟨-, v, rfl, hcap, hown⟩
        · refine ⟨mem.next, rfl, hone, fun h => ⟨str, ?_, ?_⟩⟩
          · rw [hown h]
            exact hstrs
          · show Function.update _ (freeca mstr mem).next _ mem.next = _
            rw [freeca_next, Function.update_self]
        · refine ⟨v, rfl, hone.trans hcap, fun h => ?_⟩
          obtain ⟨str', hstr, hvec⟩ := hown h
          exact ⟨str', by rw [hstr], hvec⟩
      · rw [Bool.not_eq_true] at hmss
        rw [if_neg (by rw [hmss]; decide), hmss, Bool.false_or,
          own_cons_of_not_flagged regexec req (hfl.trans hmss)]
        exact ih rmo' mstr mem hb hlt

end Rules

/-! ## Matches -/

section Matches

variable (regexec : ρ → (s : Bytes) → Option (Groups s.length)) (req : Hthead)

/-- A match has the submatches of its own stanza, and in memory that has not been freed. -/
def Match.Own (m : Match ρ) (mem : Mem) : Prop :=
  match own regexec req m.pat.rules with
  | none => m.mstr = none
  | some str => ∃ v, m.mstr = some v ∧ mem.frees v = 0 ∧ ∀ o < 10, (mem.vec v)[o]? = str o

/-- What is returned is right, and nothing has been freed twice. -/
def Good (r : Option (Match ρ) × Mem) : Prop := r.2.Once ∧ ∀ m, r.1 = some m → m.Own regexec req r.2

/-- The stanzas whose rules are tried, if `best` is the priority of the match so far. -/
def tried : Option ℤ → List (Place × Pattern ρ) → List (Pattern ρ)
  | _, [] => []
  | best, s :: pats =>
    if s.2.disable ∨ best.any (fun b => s.2.prio ≤ b) then tried best pats
    else s.2 :: tried (if s.2.matches regexec req then some s.2.prio else best) pats

/-- The highest priority of a stanza that may be selected, or `b` if none has a higher one. -/
def best : Option ℤ → List (Place × Pattern ρ) → Option ℤ
  | b, [] => b
  | b, s :: pats =>
    if candidate regexec req s ∧ ¬ b.any (fun b => s.2.prio ≤ b) then best (some s.2.prio) pats else best b pats

/-- After a stanza that has captured, one that matches has captured too; and after one that has
    captured and matches, none has captured. -/
def Unshared (pats : List (Pattern ρ)) : Prop :=
  pats.Pairwise fun p q => captures regexec req p.rules = true →
    (q.matches regexec req = true → captures regexec req q.rules = true) ∧
      (p.matches regexec req = true → captures regexec req q.rules = false)

/-- The last stanza that matches has all its submatches in a row. -/
def Complete (pats : List (Pattern ρ)) : Prop :=
  ∀ p, (pats.filter fun p => p.matches regexec req).getLast? = some p →
    ∀ str, own regexec req p.rules = some str → Contiguous str

/-- What the rules of a stanza that is tried do. -/
inductive Tried (pat : Pattern ρ) (mstr : Option ℕ) (mem : Mem) : Option ℕ → Mem → Prop
  | kept : captures regexec req pat.rules = false →
      (pat.matches regexec req = true → own regexec req pat.rules = none) → Tried pat mstr mem mstr mem
  | made {v mem'} : captures regexec req pat.rules = true → Captured mstr mem v mem' →
      (pat.matches regexec req = true →
        ∃ str, own regexec req pat.rules = some str ∧ mem'.vec v = mstrLoop str 10 0) →
      Tried pat mstr mem (some v) mem'

variable {regexec req}

def held (m : Option (Match ρ)) : Option ℕ := m.bind Match.mstr

/-- What the pointers refer to has been allocated. -/
structure Ok (mstr : Option ℕ) (m : Option (Match ρ)) (mem : Mem) : Prop where
  beyond : mem.Beyond
  mstr_lt : ∀ w, mstr = some w → w < mem.next
  held_lt : ∀ w, held m = some w → w < mem.next

theorem freeca_beyond (hb : mem.Beyond) (hlt : ∀ w, mstr = some w → w < mem.next) : (freeca mstr mem).Beyond := by
  intro u hu
  rw [freeca_next] at hu
  rw [freeca_of_ne (fun heq => absurd (hlt u heq) (not_lt.mpr hu)), hb u hu]

theorem Ok.tried {m : Option (Match ρ)} {pat : Pattern ρ} {mstr' : Option ℕ} {mem' : Mem} (h : Ok mstr m mem)
    (ht : Tried regexec req pat mstr mem mstr' mem') : Ok mstr' m mem' := by
  cases ht with
  | kept => exact h
  | made _ hc _ =>
    refine ⟨hc.beyond, ?_, fun w hw => (h.held_lt w hw).trans_le (hc.new.trans hc.lt.le)⟩
    rintro w ⟨⟩
    exact hc.lt

/-- A stanza is selected, and the match so far is freed. -/
theorem Ok.replace {m : Option (Match ρ)} (h : Ok mstr m mem) (place : Place) (pat : Pattern ρ) (rmo : Option ℕ) :
    Ok mstr (some ⟨place, pat, mstr, rmo⟩) (freeca (held m) mem) := by
  refine ⟨freeca_beyond h.beyond h.held_lt, ?_, ?_⟩
  · rw [freeca_next]
    exact h.mstr_lt
  · rw [freeca_next]
    exact h.mstr_lt

/-- A round of `findmatch`. -/
theorem findmatch_cons (place : Place) (pat : Pattern ρ) (pats : List (Place × Pattern ρ)) {m : Option (Match ρ)}
    (h : Ok mstr m mem) :
    (findmatch regexec req ((place, pat) :: pats) mstr m mem = findmatch regexec req pats mstr m mem ∧
      tried regexec req (m.map (·.pat.prio)) ((place, pat) :: pats) =
        tried regexec req (m.map (·.pat.prio)) pats) ∨
    ∃ rmo mstr' mem', Tried regexec req pat mstr mem mstr' mem' ∧
      ((pat.matches regexec req = false ∧
          findmatch regexec req ((place, pat) :: pats) mstr m mem = findmatch regexec req pats mstr' m mem' ∧
          tried regexec req (m.map (·.pat.prio)) ((place, pat) :: pats) =
            pat :: tried regexec req (m.map (·.pat.prio)) pats) ∨
        (pat.matches regexec req = true ∧
          findmatch regexec req ((place, pat) :: pats) mstr m mem =
            findmatch regexec req pats mstr' (some ⟨place, pat, mstr', rmo⟩) (freeca (held m) mem') ∧
          tried regexec req (m.map (·.pat.prio)) ((place, pat) :: pats) =
            pat :: tried regexec req (some pat.prio) pats)) := by
  have hskip : (pat.disable ∨ (m.map (·.pat.prio)).any fun b => pat.prio ≤ b) ↔
      (pat.disable ∨ m.any fun m => pat.prio ≤ m.pat.prio) := by
    cases m <;> rfl
  rw [findmatch, tried]
  simp only [hskip]
  by_cases hs : pat.disable ∨ m.any fun m => pat.prio ≤ m.pat.prio
  · rw [if_pos hs, if_pos hs]
    exact .inl ⟨rfl, rfl⟩
  · rw [if_neg hs, if_neg hs]
    right
    obtain ⟨rmo, mstr', mem', hloop, hcase⟩ :=
      ruleLoop_captures regexec req pat.rules none mstr mem h.beyond h.mstr_lt
    have hmatch : (pat.rules.all fun rule => rule.matches regexec req) = pat.matches regexec req := rfl
    rw [hmatch] at hloop hcase
    refine ⟨rmo, mstr', mem', ?_, ?_⟩
    · rcases hcase with ⟨hcap, rfl, rfl, hown⟩ | ⟨hcap, v, rfl, hc, hown⟩
      · exact .kept hcap hown
      · exact .made hcap hc hown
    · rw [hloop]
      cases pat.matches regexec req with
      | false => exact .inl ⟨rfl, rfl, rfl⟩
      | true =>
        refine .inr ⟨rfl, ?_, rfl⟩
        cases m <;> rfl

/-! ## The rest of the stanzas -/

section Rest

variable {m : Option (Match ρ)} {pat : Pattern ρ} {mstr' : Option ℕ} {mem' : Mem}

/-- What makes a scan end badly: a vector has been freed twice, or that of the match so far has
    been freed, or it will be, since the stanza has none of its own. -/
def Bad (regexec : ρ → (s : Bytes) → Option (Groups s.length)) (req : Hthead) (mstr : Option ℕ)
    (m : Option (Match ρ)) (mem : Mem) : Prop :=
  (∃ v, 2 ≤ mem.frees v) ∨
    ∃ m' w, m = some m' ∧ m'.mstr = some w ∧
      (1 ≤ mem.frees w ∨ (own regexec req m'.pat.rules = none ∧ mstr = some w))

theorem Bad.tried (hbad : Bad regexec req mstr m mem) (h : Ok mstr m mem)
    (ht : Tried regexec req pat mstr mem mstr' mem') : Bad regexec req mstr' m mem' := by
  cases ht with
  | kept => exact hbad
  | made _ hc _ =>
    have hle : ∀ u < mem.next, mem.frees u ≤ mem'.frees u := fun u hu => by
      rw [hc.frees u hu]
      exact le_freeca ..
    rcases hbad with ⟨u, hu⟩ | ⟨m', w, rfl, hw, hcase⟩
    · have hlt : u < mem.next := by
        by_contra hge
        rw [h.beyond u (not_lt.mp hge)] at hu
        omega
      exact .inl ⟨u, hu.trans (hle u hlt)⟩
    · have hlt := h.held_lt w hw
      refine .inr ⟨m', w, rfl, hw, .inl ?_⟩
      rcases hcase with hfreed | ⟨-, rfl⟩
      · exact hfreed.trans (hle w hlt)
      · rw [hc.frees w hlt, freeca_self]
        exact Nat.le_add_left ..

theorem Bad.replace (hbad : Bad regexec req mstr m mem) (place : Place) (pat : Pattern ρ) (rmo : Option ℕ) :
    Bad regexec req mstr (some ⟨place, pat, mstr, rmo⟩) (freeca (held m) mem) := by
  rcases hbad with ⟨u, hu⟩ | ⟨m', w, rfl, hw, hcase⟩
  · exact .inl ⟨u, hu.trans (le_freeca ..)⟩
  · have hfree : (freeca (held (some m')) mem).frees w = mem.frees w + 1 := by
      show (freeca m'.mstr mem).frees w = _
      rw [hw, freeca_self]
    rcases hcase with hfreed | ⟨-, rfl⟩
    · refine .inl ⟨w, ?_⟩
      rw [hfree]
      omega
    · refine .inr ⟨_, w, rfl, rfl, .inl ?_⟩
      rw [hfree]
      omega

theorem Bad.not_good (hbad : Bad regexec req mstr m mem) : ¬ Good regexec req (m, mem) := by
  rintro ⟨honce, hown⟩
  rcases hbad with ⟨u, hu⟩ | ⟨m', w, rfl, hw, hcase⟩
  · have hu' : mem.frees u ≤ 1 := honce u
    omega
  · have hm := hown m' rfl
    unfold Match.Own at hm
    cases ho : own regexec req m'.pat.rules with
    | none =>
      rw [ho] at hm
      change m'.mstr = none at hm
      rw [hw] at hm
      cases hm
    | some str =>
      rw [ho] at hm
      obtain ⟨v, hv, hlive, -⟩ := hm
      rw [hw] at hv
      cases hv
      rcases hcase with hfreed | ⟨hnone, -⟩
      · change mem.frees w = 0 at hlive
        omega
      · rw [ho] at hnone
        cases hnone

/-- Once harm is done, the scan ends badly. -/
theorem findmatch_bad (pats : List (Place × Pattern ρ)) : ∀ {mstr m mem}, Ok mstr m mem →
    Bad regexec req mstr m mem → ¬ Good regexec req (findmatch regexec req pats mstr m mem) := by
  induction pats with
  | nil => exact fun _ hbad => hbad.not_good
  | cons s pats ih =>
    intro mstr m mem h hbad
    rcases findmatch_cons s.1 s.2 pats h with ⟨heq, -⟩ | ⟨rmo, mstr', mem', ht, ⟨-, heq, -⟩ | ⟨-, heq, -⟩⟩
    · rw [heq]
      exact ih h hbad
    · rw [heq]
      exact ih (h.tried ht) (hbad.tried h ht)
    · rw [heq]
      exact ih ((h.tried ht).replace ..) ((hbad.tried h ht).replace ..)

/-- The vector that `mstr` shares with the match so far is freed when another one is made. -/
theorem Captured.bad {m : Match ρ} {v v' : ℕ} (hc : Captured (some v) mem v' mem') (hv : m.mstr = some v)
    (hlt : v < mem.next) : Bad regexec req mstr' (some m) mem' := by
  refine .inr ⟨m, v, rfl, hv, .inl ?_⟩
  rw [hc.frees v hlt, freeca_self]
  exact Nat.le_add_left ..

/-- It is freed with the match so far when a stanza without submatches is selected. -/
theorem bad_select {m : Match ρ} {v : ℕ} (hv : m.mstr = some v) (place : Place) (pat : Pattern ρ) (rmo : Option ℕ) :
    Bad regexec req (some v) (some ⟨place, pat, some v, rmo⟩) (freeca (held (some m)) mem) := by
  have hheld : held (some m) = some v := hv
  refine .inr ⟨_, v, rfl, rfl, .inl ?_⟩
  rw [hheld, freeca_self]
  exact Nat.le_add_left ..

/-- After a stanza that has captured and matches, none may capture or match. -/
theorem findmatch_bound (pats : List (Place × Pattern ρ)) {m : Match ρ} {v : ℕ} (hv : m.mstr = some v)
    (h : Ok (some v) (some m) mem) (honce : mem.Once) :
    Good regexec req (findmatch regexec req pats (some v) (some m) mem) ↔
      (∀ p ∈ tried regexec req (some m.pat.prio) pats,
        captures regexec req p.rules = false ∧ p.matches regexec req = false) ∧ m.Own regexec req mem := by
  induction pats with
  | nil =>
    refine ⟨fun hgood => ⟨nofun, hgood.2 m rfl⟩, fun hown => ⟨honce, ?_⟩⟩
    rintro _ ⟨⟩
    exact hown.2
  | cons s pats ih =>
    have hlt := h.mstr_lt v rfl
    rcases findmatch_cons s.1 s.2 pats h with ⟨heq, htried⟩ | ⟨rmo, mstr', mem', ht, hcase⟩
    · rw [heq, ih]
      rw [Option.map_some] at htried
      rw [htried]
    · rcases hcase with ⟨hm, heq, htried⟩ | ⟨hm, heq, htried⟩
      · rw [Option.map_some] at htried
        rw [heq, htried, List.forall_mem_cons]
        cases ht with
        | kept hcap _ =>
          rw [ih]
          simp [hcap, hm]
        | made hcap hc hown =>
          refine iff_of_false (findmatch_bad pats (h.tried (.made hcap hc hown)) (hc.bad hv hlt)) fun hall => ?_
          rw [hall.1.1.1] at hcap
          cases hcap
      · rw [Option.map_some] at htried
        rw [heq, htried, List.forall_mem_cons]
        refine iff_of_false (findmatch_bad pats ((h.tried ht).replace ..) ?_) fun hall => ?_
        · cases ht with
          | kept _ _ => exact bad_select hv ..
          | made _ hc _ => exact (hc.bad hv hlt).replace ..
        · rw [hall.1.1.2] at hm
          cases hm

/-- The match so far is right, and `mstr` is not shared with it. -/
structure Free (regexec : ρ → (s : Bytes) → Option (Groups s.length)) (req : Hthead) (mstr : Option ℕ)
    (m : Option (Match ρ)) (mem : Mem) : Prop extends Ok mstr m mem where
  good : Good regexec req (m, mem)
  live : ∀ v, mstr = some v → mem.frees v = 0
  unshared : ∀ v, mstr = some v → held m ≠ some v

theorem Match.Own.held {m : Match ρ} (h : m.Own regexec req mem) {v : ℕ} (hv : m.mstr = some v) :
    mem.frees v = 0 := by
  unfold Match.Own at h
  split at h
  · rw [hv] at h
    cases h
  · obtain ⟨w, hw, hlive, -⟩ := h
    rw [hv] at hw
    cases hw
    exact hlive

/-- A match stays right if its vector does. -/
theorem Match.Own.frame {m : Match ρ} (h : m.Own regexec req mem)
    (hframe : ∀ v, m.mstr = some v → mem'.frees v = mem.frees v ∧ mem'.vec v = mem.vec v) :
    m.Own regexec req mem' := by
  unfold Match.Own at h ⊢
  split at h
  · exact h
  · obtain ⟨v, hv, hlive, hvec⟩ := h
    obtain ⟨hfrees, heq⟩ := hframe v hv
    refine ⟨v, hv, ?_, ?_⟩
    · rw [hfrees, hlive]
    · rw [heq]
      exact hvec

theorem Free.held_live (h : Free regexec req mstr m mem) {w : ℕ} (hw : held m = some w) : mem.frees w = 0 := by
  cases m with
  | none => cases hw
  | some m => exact (h.good.2 m rfl).held hw

theorem Free.made {v : ℕ} (h : Free regexec req mstr m mem) (hc : Captured mstr mem v mem') :
    Free regexec req (some v) m mem' := by
  have hframe : ∀ w, held m = some w → mem'.frees w = mem.frees w ∧ mem'.vec w = mem.vec w := by
    intro w hw
    have hlt := h.held_lt w hw
    refine ⟨?_, hc.vec w hlt⟩
    rw [hc.frees w hlt, freeca_of_ne (fun heq => h.unshared w heq hw)]
  have hok : Ok (some v) m mem' := by
    refine ⟨hc.beyond, ?_, fun w hw => (h.held_lt w hw).trans_le (hc.new.trans hc.lt.le)⟩
    rintro w ⟨⟩
    exact hc.lt
  refine ⟨hok, ⟨fun u => ?_, fun m' hm' => ?_⟩, ?_, ?_⟩
  · rcases lt_or_ge u mem.next with hu | hu
    · show mem'.frees u ≤ 1
      rw [hc.frees u hu]
      by_cases hmstr : mstr = some u
      · rw [hmstr, freeca_self, h.live u hmstr]
      · rw [freeca_of_ne hmstr]
        exact h.good.1 u
    · exact hc.once u hu
  · change m = some m' at hm'
    subst hm'
    exact (h.good.2 m' rfl).frame hframe
  · rintro w ⟨⟩
    exact hc.live
  · rintro w ⟨⟩ hw
    exact absurd (h.held_lt v hw) (not_lt.mpr hc.new)

/-- The match so far may be freed. -/
theorem Free.release (h : Free regexec req mstr m mem) : (freeca (held m) mem).Once := by
  intro u
  by_cases hu : held m = some u
  · rw [hu, freeca_self, h.held_live hu]
  · rw [freeca_of_ne hu]
    exact h.good.1 u

theorem unshared_cons {pats : List (Pattern ρ)} : Unshared regexec req (pat :: pats) ↔
    (∀ q ∈ pats, captures regexec req pat.rules = true →
      (q.matches regexec req = true → captures regexec req q.rules = true) ∧
        (pat.matches regexec req = true → captures regexec req q.rules = false)) ∧
      Unshared regexec req pats :=
  List.pairwise_cons

theorem complete_cons_of_not_matches {pats : List (Pattern ρ)} (hm : pat.matches regexec req = false) :
    Complete regexec req (pat :: pats) ↔ Complete regexec req pats := by
  unfold Complete
  rw [List.filter_cons_of_neg (by rw [hm]; decide)]

theorem complete_cons_of_own_none {pats : List (Pattern ρ)} (hown : own regexec req pat.rules = none) :
    Complete regexec req (pat :: pats) ↔ Complete regexec req pats := by
  unfold Complete
  rw [List.filter_cons]
  split_ifs
  · rw [List.getLast?_cons]
    cases (pats.filter fun p => p.matches regexec req).getLast? with
    | none =>
      refine ⟨fun _ => nofun, fun _ => ?_⟩
      rintro p ⟨⟩ str hstr
      change own regexec req pat.rules = some str at hstr
      rw [hown] at hstr
      cases hstr
    | some q => exact Iff.rfl
  · exact Iff.rfl

theorem complete_cons_last {pats : List (Pattern ρ)} {str : ℕ → Option Bytes}
    (hm : pat.matches regexec req = true) (hown : own regexec req pat.rules = some str)
    (hrest : ∀ p ∈ pats, p.matches regexec req = false) :
    Complete regexec req (pat :: pats) ↔ Contiguous str := by
  have hnil : (pats.filter fun p => p.matches regexec req) = [] := by
    rw [List.filter_eq_nil_iff]
    intro p hp
    rw [hrest p hp]
    decide
  unfold Complete
  rw [List.filter_cons_of_pos hm, hnil]
  constructor
  · exact fun h => h pat rfl str hown
  · rintro h p ⟨⟩ str' hstr'
    change own regexec req pat.rules = some str' at hstr'
    rw [hown] at hstr'
    cases hstr'
    exact h

/-- A stanza without submatches is selected. -/
theorem Free.select (h : Free regexec req none m mem) (hown : own regexec req pat.rules = none) {place : Place}
    {rmo : Option ℕ} :
    Free regexec req none (some ⟨place, pat, none, rmo⟩) (freeca (held m) mem) := by
  refine ⟨h.toOk.replace .., ⟨h.release, ?_⟩, nofun, nofun⟩
  rintro _ ⟨⟩
  unfold Match.Own
  rw [hown]

/-- A stanza with submatches is selected. -/
theorem Free.own_iff {v : ℕ} (h : Free regexec req (some v) m mem) {str : ℕ → Option Bytes}
    (hown : own regexec req pat.rules = some str) (hvec : mem.vec v = mstrLoop str 10 0) {place : Place}
    {rmo : Option ℕ} :
    Match.Own regexec req ⟨place, pat, some v, rmo⟩ (freeca (held m) mem) ↔ Contiguous str := by
  have hlive : (freeca (held m) mem).frees v = 0 := by
    rw [freeca_of_ne (h.unshared v rfl), h.live v rfl]
  have hsame : (freeca (held m) mem).vec v = mstrLoop str 10 0 := by
    rw [freeca_vec, hvec]
  rw [← mstrLoop_complete, Match.Own, hown]
  constructor
  · rintro ⟨_, ⟨⟩, -, hall⟩
    rwa [hsame] at hall
  · intro hall
    exact ⟨v, rfl, hlive, by rwa [hsame]⟩

/-- What follows a stanza that has captured and matches. -/
theorem separate_last {pats : List (Pattern ρ)} {str : ℕ → Option Bytes} (hm : pat.matches regexec req = true)
    (hcap : captures regexec req pat.rules = true) (hown : own regexec req pat.rules = some str) :
    ((∀ p ∈ pats, captures regexec req p.rules = false ∧ p.matches regexec req = false) ∧ Contiguous str) ↔
      (mstr.isSome = true → ∀ p ∈ pat :: pats, p.matches regexec req = true → captures regexec req p.rules = true) ∧
        Unshared regexec req (pat :: pats) ∧ Complete regexec req (pat :: pats) := by
  rw [unshared_cons]
  constructor
  · rintro ⟨hrest, hstr⟩
    refine ⟨fun _ => ?_, ⟨fun q hq _ => ⟨fun hqm => ?_, fun _ => (hrest q hq).1⟩, ?_⟩, ?_⟩
    · rw [List.forall_mem_cons]
      refine ⟨fun _ => hcap, fun q hq hqm => ?_⟩
      rw [(hrest q hq).2] at hqm
      cases hqm
    · rw [(hrest q hq).2] at hqm
      cases hqm
    · refine List.Pairwise.imp_of_mem (R := fun _ _ => True) (fun hp _ _ hpcap => ?_)
        (List.pairwise_of_forall fun _ _ => trivial)
      rw [(hrest _ hp).1] at hpcap
      cases hpcap
    · exact (complete_cons_last hm hown fun q hq => (hrest q hq).2).mpr hstr
  · rintro ⟨-, ⟨hfirst, -⟩, hcomplete⟩
    have hrest : ∀ q ∈ pats, captures regexec req q.rules = false ∧ q.matches regexec req = false := by
      intro q hq
      obtain ⟨hqm, hqcap⟩ := hfirst q hq hcap
      have hqcap := hqcap hm
      refine ⟨hqcap, Bool.eq_false_iff.mpr fun hqmatch => ?_⟩
      rw [hqm hqmatch] at hqcap
      cases hqcap
    exact ⟨hrest, (complete_cons_last hm hown fun q hq => (hrest q hq).2).mp hcomplete⟩

/-- As long as `mstr` is not shared with the match. -/
theorem findmatch_free (pats : List (Place × Pattern ρ)) : ∀ {mstr m mem}, Free regexec req mstr m mem →
    (Good regexec req (findmatch regexec req pats mstr m mem) ↔
      (mstr.isSome = true → ∀ p ∈ tried regexec req (m.map (·.pat.prio)) pats,
        p.matches regexec req = true → captures regexec req p.rules = true) ∧
      Unshared regexec req (tried regexec req (m.map (·.pat.prio)) pats) ∧
      Complete regexec req (tried regexec req (m.map (·.pat.prio)) pats)) := by
  induction pats with
  | nil => exact fun h => iff_of_true h.good ⟨fun _ => nofun, .nil, nofun⟩
  | cons s pats ih =>
    intro mstr m mem h
    rcases findmatch_cons s.1 s.2 pats h.toOk with ⟨heq, htried⟩ | ⟨rmo, mstr', mem', ht, hcase⟩
    · rw [heq, htried]
      exact ih h
    · rcases hcase with ⟨hm, heq, htried⟩ | ⟨hm, heq, htried⟩
      · rw [heq, htried, complete_cons_of_not_matches hm, unshared_cons, List.forall_mem_cons]
        cases ht with
        | kept hcap _ =>
          rw [ih h]
          simp [hm, hcap]
        | made hcap hc _ =>
          rw [ih (h.made hc)]
          simp only [hm, hcap, Option.isSome_some, Bool.false_eq_true, false_implies, and_true,
            true_implies, true_and]
          tauto
      · rw [heq, htried]
        cases ht with
        | kept hcap hown =>
          have hown := hown hm
          cases mstr with
          | none =>
            rw [ih (h.select hown), complete_cons_of_own_none hown, unshared_cons]
            simp [hcap]
          | some v =>
            refine iff_of_false (findmatch_bad pats (h.toOk.replace ..) (.inr ⟨_, v, rfl, rfl, .inr ⟨hown, rfl⟩⟩)) ?_
            rintro ⟨hmstr, -⟩
            have hcap' := hmstr rfl s.2 List.mem_cons_self hm
            rw [hcap] at hcap'
            cases hcap'
        | made hcap hc hown =>
          obtain ⟨str, hown, hvec⟩ := hown hm
          have h' := h.made hc
          rw [findmatch_bound pats rfl (h'.toOk.replace ..) h'.release, h'.own_iff hown hvec]
          exact separate_last hm hcap hown

theorem foldl_best (pats : List (Place × Pattern ρ)) (b : Option (Place × Pattern ρ)) :
    ((pats.filter (candidate regexec req)).foldl (List.argAux fun b c => prio c < prio b) b).map prio =
      best regexec req (b.map prio) pats := by
  induction pats generalizing b with
  | nil => rfl
  | cons s pats ih =>
    rw [best, List.filter_cons]
    cases hcand : candidate regexec req s with
    | false => simpa using ih b
    | true =>
      rw [if_pos rfl, List.foldl_cons, ih]
      cases b with
      | none => simp [List.argAux, prio]
      | some b =>
        by_cases hlt : prio b < prio s
        · have hstep : List.argAux (fun b c => prio c < prio b) (some b) s = some s := if_pos hlt
          have hany : ((some b).map prio).any (fun b => s.2.prio ≤ b) = false :=
            decide_eq_false (Int.not_le.mpr hlt)
          rw [hstep, hany, if_pos ⟨rfl, Bool.false_ne_true⟩]
          rfl
        · have hstep : List.argAux (fun b c => prio c < prio b) (some b) s = some b := if_neg hlt
          have hany : ((some b).map prio).any (fun b => s.2.prio ≤ b) = true :=
            decide_eq_true (Int.not_lt.mp hlt)
          rw [hstep, hany, if_neg (fun h => h.2 rfl)]

/-- What `findmatch` keeps. -/
theorem findmatch_ok (pats : List (Place × Pattern ρ)) : ∀ {mstr m mem}, Ok mstr m mem →
    Ok none (findmatch regexec req pats mstr m mem).1 (findmatch regexec req pats mstr m mem).2 := by
  induction pats with
  | nil => exact fun h => ⟨h.beyond, nofun, h.held_lt⟩
  | cons s pats ih =>
    intro mstr m mem h
    rcases findmatch_cons s.1 s.2 pats h with ⟨heq, -⟩ | ⟨rmo, mstr', mem', ht, ⟨-, heq, -⟩ | ⟨-, heq, -⟩⟩
    · rw [heq]
      exact ih h
    · rw [heq]
      exact ih (h.tried ht)
    · rw [heq]
      exact ih ((h.tried ht).replace ..)

end Rest

variable (regexec req)

/-- The stanzas that are tried leave a match with its own submatches. -/
def Separate (best : Option ℤ) (stanzas : List (Place × Pattern ρ)) : Prop :=
  Unshared regexec req (tried regexec req best stanzas) ∧ Complete regexec req (tried regexec req best stanzas)

/-- **Submatches.** The matches that `findmatch` returns for the two configurations have the
    submatches of their own stanzas, in vectors that have not been freed, and no vector has been
    freed twice, if and only if of the stanzas that are tried in each configuration, none that
    matches lacks submatches when an earlier one has made some, none makes some when an earlier
    one that has matches, and no group is missing below one that takes part in the last match. -/
theorem captures_run (cfs : Configs ρ) (mem : Mem) (hbeyond : mem.Beyond) (honce : mem.Once) :
    (Good regexec req (findmatch regexec req (cfs.lconfig.stanzas true) none none mem) ∧
        Good regexec req (findmatches regexec cfs req mem)) ↔
      Separate regexec req none (cfs.lconfig.stanzas true) ∧
        ∀ cf, cfs.gconfig = some cf →
          Separate regexec req (best regexec req none (cfs.lconfig.stanzas true)) (cf.stanzas false) := by
  have hok : Ok none (none : Option (Match ρ)) mem := ⟨hbeyond, nofun, nofun⟩
  have hfree : Free regexec req none none mem := ⟨hok, ⟨honce, nofun⟩, nofun, nofun⟩
  have hlocal := findmatch_free (cfs.lconfig.stanzas true) hfree
  have hok' : Ok none (findmatch regexec req (cfs.lconfig.stanzas true) none none mem).1 _ :=
    findmatch_ok (cfs.lconfig.stanzas true) hok
  have hprio : (findmatch regexec req (cfs.lconfig.stanzas true) none none mem).1.map (·.pat.prio) =
      best regexec req none (cfs.lconfig.stanzas true) := by
    rw [← Option.map_none prio, ← foldl_best, ← Option.map_none Match.stanza, ← findmatch_select, Option.map_map]
    rfl
  unfold findmatches
  generalize findmatch regexec req (cfs.lconfig.stanzas true) none none mem = r at hlocal hok' hprio ⊢
  obtain ⟨m, mem'⟩ := r
  have hsep : Good regexec req (m, mem') ↔ Separate regexec req none (cfs.lconfig.stanzas true) :=
    hlocal.trans (and_iff_right nofun)
  rw [← hsep, ← hprio]
  refine and_congr_right fun hgood => ?_
  cases cfs.gconfig with
  | none => exact iff_of_true hgood nofun
  | some cf =>
    have hglobal := findmatch_free (cf.stanzas false) (⟨hok', hgood, nofun, nofun⟩ : Free regexec req none m mem')
    refine hglobal.trans ((and_iff_right nofun).trans ⟨?_, fun h => h cf rfl⟩)
    rintro h _ ⟨⟩
    exact h

end Matches

/-- A regular expression that matches every string as a whole, or none. -/
def wholeOrNothing (b : Bool) (s : Bytes) : Option (Groups s.length) :=
  if b then
    some
      { gr := fun o => if o = 0 then some (0, s.length) else none
        whole := rfl
        bounds := fun o so eo h => by
          split at h
          · cases h
            exact ⟨Nat.zero_le _, le_rfl⟩
          · cases h }
  else none

def getRequest : Hthead := { method := bytes "GET", url := bytes "/x", ver := bytes "HTTP/1.1", rest := bytes "x" }

/-- A stanza with submatches, alone. -/
def captureAlone : Configs Bool :=
  { lconfig := { patterns := [{ rules := [{ type := .rest, mss := true, pattern := true }], handler := .reparse }] } }

theorem captures_run_alone :
    Good wholeOrNothing getRequest (findmatches wholeOrNothing captureAlone getRequest {}) := by
  refine ((captures_run wholeOrNothing getRequest captureAlone {} (fun _ _ => rfl) (fun _ => zero_le_one)).mpr
    ⟨⟨List.pairwise_singleton .., ?_⟩, nofun⟩).2
  rintro p ⟨⟩ str ⟨⟩ o - hsome o' ho'
  cases o with
  | zero => exact absurd ho' (Nat.not_lt_zero o')
  | succ o => cases hsome

/-- A stanza whose first rule captures and whose second one does not match, and one that
    matches. -/
def captureRejected : Config Bool :=
  { patterns :=
      [{ rules := [{ type := .rest, mss := true, pattern := true }, { type := .url, pattern := false }],
         handler := .reparse },
       { rules := [{ type := .method, pattern := true }], handler := .reparse }] }

/-- The second stanza is selected, with the submatches of the first one. -/
theorem captures_foreign :
    ∃ m mem, findmatch wholeOrNothing getRequest (captureRejected.stanzas true) none none {} = (some m, mem) ∧
      m.place.index = 1 ∧ (m.pat.rules.all fun rule => !rule.mss) = true ∧ m.mstr = some 0 ∧
      mem.vec 0 = [bytes "x"] ∧ ¬ m.Own wholeOrNothing getRequest mem :=
  ⟨_, _, rfl, rfl, rfl, rfl, rfl, nofun⟩

end Ashd.Patplex
