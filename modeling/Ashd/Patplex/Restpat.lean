import Ashd.Common.Message
import Ashd.Patplex.Model

/-!
# The templates of `restpat`

The language of the templates, as a list of pieces that have values, and what `exprestpat` makes
of a template.

Main results:
* `firstPiece`: what the loop does with one piece.
* `restpatLoop_eq_expand`: without `${HEADER}` and stray dollar signs, a template is expanded.
* `count_expand`, `length_expand`: how the result differs otherwise.
* `exprestpat_iff`: which templates are expanded.
-/

namespace Ashd.Patplex

/-! ## The language -/

/-- A piece of a template: one of its forms, a dollar sign that starts none of them, or another
    character. -/
inductive Piece
  | group (n : ℕ)
  | rest
  | dollar
  | header (name : Bytes)
  | lone
  | text (c : UInt8)

/-- The pieces of a template. -/
def pieces : Bytes → List Piece
  | [] => []
  | [c] => if c = 36 then [.lone] else [.text c]
  | c :: d :: p =>
    if c = 36 then
      if 48 ≤ d ∧ d ≤ 57 then .group (d.toNat - 48) :: pieces p
      else if d = 95 then .rest :: pieces p
      else if d = 36 then .dollar :: pieces p
      else if d = 123 ∧ 125 ∈ p then .header (p.takeWhile (· ≠ 125)) :: pieces (p.dropWhile (· ≠ 125)).tail
      else .lone :: pieces (d :: p)
    else .text c :: pieces (d :: p)
termination_by p => p.length
decreasing_by
  all_goals simp only [List.length_cons, List.length_tail]
  any_goals omega
  have := (List.dropWhile_suffix (l := p) fun c : UInt8 => decide (c ≠ 125)).length_le
  omega

/-- What a piece is replaced by. -/
def Piece.value (req : Hthead) (mstr : List Bytes) : Piece → Bytes
  | .group n => mstr.getD n []
  | .rest => req.rest
  | .dollar => [36]
  | .header name => (getheader req name).getD []
  | .lone => [36]
  | .text c => [c]

/-- The expansion of a template. -/
def expand (req : Hthead) (mstr : List Bytes) (restpat : Bytes) : Bytes :=
  (pieces restpat).flatMap (Piece.value req mstr)

/-- A piece that is neither `${HEADER}` nor a stray dollar sign. -/
def Piece.Plain : Piece → Prop
  | .header _ | .lone => False
  | _ => True

/-- Every dollar sign of a template starts one of `$0` to `$9`, `$_` and `$$`, or is the second
    one of `$$`. -/
def PlainTemplate (restpat : Bytes) : Prop := ∀ x ∈ pieces restpat, x.Plain

/-! ## The loop -/

variable (req : Hthead) (mstr : List Bytes)

theorem restpatLoop_text {c : UInt8} (hc : c ≠ 36) (p : Bytes) :
    restpatLoop req mstr (c :: p) = c :: restpatLoop req mstr p := by
  cases p with
  | nil =>
    simp only [restpatLoop]
    rw [if_neg hc]
  | cons d p => rw [restpatLoop, if_neg hc]

/-- A dollar sign that starts no form is dropped, and with it a brace that is not closed. -/
theorem restpatLoop_lone {d : UInt8} {p : Bytes} (hdigit : ¬ (48 ≤ d ∧ d ≤ 57)) (hrest : d ≠ 95) (hdollar : d ≠ 36)
    (hbrace : ¬ (d = 123 ∧ 125 ∈ p)) :
    restpatLoop req mstr (36 :: d :: p) = restpatLoop req mstr (if d = 123 then p else d :: p) := by
  rw [restpatLoop, if_pos rfl, if_neg hdigit, if_neg hrest, if_neg hdollar]
  split_ifs with h h'
  · exact absurd ⟨h, h'⟩ hbrace
  · rfl
  · rfl

/-- After `${HEADER}` was replaced, the scan goes on at the brace. -/
theorem restpatLoop_header {p : Bytes} (hp : 125 ∈ p) :
    restpatLoop req mstr (36 :: 123 :: p) =
      (getheader req (p.takeWhile (· ≠ 125))).getD [] ++ 123 :: restpatLoop req mstr p := by
  rw [restpatLoop, if_pos rfl, if_neg (by decide), if_neg (by decide), if_neg (by decide), if_pos rfl, if_pos hp,
    restpatLoop_text req mstr (by decide)]

theorem split_brace {p : Bytes} (hp : (125 : UInt8) ∈ p) :
    p = p.takeWhile (· ≠ 125) ++ 125 :: (p.dropWhile (· ≠ 125)).tail := by
  obtain ⟨name, r, rfl, hname⟩ := List.eq_append_cons_of_mem hp
  obtain ⟨htake, hdrop⟩ := Message.split_write hname r
  rw [htake, hdrop]
  rfl

/-- Of some text up to a brace, at least the brace is left by the loop. -/
theorem count_brace (r : Bytes) : ∀ n (p : Bytes), p.length < n →
    (restpatLoop req mstr r).count 125 < (restpatLoop req mstr (p ++ 125 :: r)).count 125 := by
  intro n
  induction n with
  | zero => intro p hn; omega
  | succ n ih =>
    intro p hn
    match p with
    | [] =>
      rw [List.nil_append, restpatLoop_text req mstr (by decide), List.count_cons_self]
      omega
    | [c] =>
      have hend := ih [] (by simp only [List.length_cons, List.length_nil] at hn ⊢; omega)
      rw [List.nil_append] at hend
      rw [List.singleton_append]
      by_cases hc : c = 36
      · rw [hc, restpatLoop_lone req mstr (by decide) (by decide) (by decide) (by simp), if_neg (by decide)]
        exact hend
      · rw [restpatLoop_text req mstr hc]
        exact hend.trans_le ((List.sublist_cons_self _ _).count_le _)
    | c :: d :: p =>
      simp only [List.length_cons] at hn
      have hp := ih p (by omega)
      have hdp := ih (d :: p) (by simp only [List.length_cons]; omega)
      by_cases hc : c = 36
      · -- no form reaches behind the brace
        rw [List.cons_append] at hdp
        rw [hc, List.cons_append, List.cons_append, restpatLoop, if_pos rfl]
        split_ifs
        · exact hp.trans_le ((List.sublist_append_right _ _).count_le _)
        · exact hp.trans_le ((List.sublist_append_right _ _).count_le _)
        · exact hp.trans_le ((List.sublist_cons_self _ _).count_le _)
        · exact hdp.trans_le ((List.sublist_append_right _ _).count_le _)
        · exact hp
        · exact hdp
      · rw [List.cons_append, restpatLoop_text req mstr hc]
        exact hdp.trans_le ((List.sublist_cons_self _ _).count_le _)

/-! ## The loop and the pieces -/

/-- What the loop does with the first piece of a template: it replaces it, or drops a stray dollar
    sign, or leaves a brace behind that is not in the expansion. -/
inductive FirstPiece (t : Bytes) : Prop
  | nil : t = [] → FirstPiece t
  | plain (x : Piece) (p : Bytes) : x.Plain → p.length < t.length → pieces t = x :: pieces p →
      restpatLoop req mstr t = x.value req mstr ++ restpatLoop req mstr p → FirstPiece t
  | lone (p : Bytes) : p.length < t.length → pieces t = .lone :: pieces p →
      (restpatLoop req mstr t).length ≤ (restpatLoop req mstr p).length →
      (restpatLoop req mstr p).count 125 ≤ (restpatLoop req mstr t).count 125 → FirstPiece t
  | header (name p : Bytes) : p.length < t.length → pieces t = .header name :: pieces p →
      ((Piece.header name).value req mstr).count 125 + (restpatLoop req mstr p).count 125 <
        (restpatLoop req mstr t).count 125 → FirstPiece t

theorem firstPiece (t : Bytes) : FirstPiece req mstr t := by
  match t with
  | [] => exact .nil rfl
  | [c] =>
    by_cases hc : c = 36
    · refine .lone [] (by simp) ?_ ?_ ?_
      · simp only [pieces]
        rw [if_pos hc]
      · simp [restpatLoop, hc]
      · simp [restpatLoop, hc]
    · refine .plain (.text c) [] trivial (by simp) ?_ ?_
      · simp only [pieces]
        rw [if_neg hc]
      · rw [restpatLoop_text req mstr hc]
        rfl
  | c :: d :: p =>
    by_cases hc : c = 36
    swap
    · refine .plain (.text c) (d :: p) trivial (by simp) ?_ ?_
      · rw [pieces, if_neg hc]
      · rw [restpatLoop_text req mstr hc]
        rfl
    subst hc
    by_cases hdigit : 48 ≤ d ∧ d ≤ 57
    · refine .plain (.group (d.toNat - 48)) p trivial (by simp) ?_ ?_
      · rw [pieces, if_pos rfl, if_pos hdigit]
      · rw [restpatLoop, if_pos rfl, if_pos hdigit]
        rfl
    by_cases hrest : d = 95
    · refine .plain .rest p trivial (by simp) ?_ ?_
      · rw [pieces, if_pos rfl, if_neg hdigit, if_pos hrest]
      · rw [restpatLoop, if_pos rfl, if_neg hdigit, if_pos hrest]
        rfl
    by_cases hdollar : d = 36
    · refine .plain .dollar p trivial (by simp) ?_ ?_
      · rw [pieces, if_pos rfl, if_neg hdigit, if_neg hrest, if_pos hdollar]
      · rw [restpatLoop, if_pos rfl, if_neg hdigit, if_neg hrest, if_pos hdollar]
        rfl
    by_cases hbrace : d = 123 ∧ 125 ∈ p
    · obtain ⟨rfl, hp⟩ := hbrace
      have hsplit := split_brace hp
      have hcount := count_brace req mstr (p.dropWhile (· ≠ 125)).tail _ (p.takeWhile (· ≠ 125)) (Nat.lt_succ_self _)
      rw [← hsplit] at hcount
      refine .header (p.takeWhile (· ≠ 125)) (p.dropWhile (· ≠ 125)).tail ?_ ?_ ?_
      · have hlen := congrArg List.length hsplit
        simp only [List.length_append, List.length_cons] at hlen ⊢
        omega
      · rw [pieces, if_pos rfl, if_neg hdigit, if_neg hrest, if_neg hdollar, if_pos ⟨rfl, hp⟩]
      · rw [restpatLoop_header req mstr hp, List.count_append]
        exact Nat.add_lt_add_left (hcount.trans_le ((List.sublist_cons_self _ _).count_le _)) _
    · have hloop := restpatLoop_lone req mstr hdigit hrest hdollar hbrace
      refine .lone (d :: p) (by simp) ?_ ?_ ?_
      · rw [pieces, if_pos rfl, if_neg hdigit, if_neg hrest, if_neg hdollar, if_neg hbrace]
      · rw [hloop]
        split_ifs with hd
        · rw [hd, restpatLoop_text req mstr (by decide)]
          exact Nat.le_succ _
        · exact le_rfl
      · rw [hloop]
        split_ifs with hd
        · rw [hd, restpatLoop_text req mstr (by decide), List.count_cons_of_ne (by decide)]
        · exact le_rfl

theorem expand_cons {t p : Bytes} {x : Piece} (h : pieces t = x :: pieces p) :
    expand req mstr t = x.value req mstr ++ expand req mstr p := by
  unfold expand
  rw [h, List.flatMap_cons]

/-- Without `${HEADER}` and stray dollar signs, a template is expanded. -/
theorem restpatLoop_eq_expand : ∀ n (t : Bytes), t.length < n → PlainTemplate t →
    restpatLoop req mstr t = expand req mstr t := by
  intro n
  induction n with
  | zero => intro t hn; omega
  | succ n ih =>
    intro t hn ht
    unfold PlainTemplate at ht
    cases firstPiece req mstr t with
    | nil h => simp [h, restpatLoop, expand, pieces]
    | plain x p hx hlt hp hloop =>
      rw [hp, List.forall_mem_cons] at ht
      rw [hloop, expand_cons req mstr hp, ih p (by omega) ht.2]
    | lone p hlt hp =>
      rw [hp, List.forall_mem_cons] at ht
      exact ht.1.elim
    | header name p hlt hp =>
      rw [hp, List.forall_mem_cons] at ht
      exact ht.1.elim

/-- There are at least as many closing braces as in the expansion, and more after `${HEADER}`. -/
theorem count_expand : ∀ n (t : Bytes), t.length < n →
    (expand req mstr t).count 125 ≤ (restpatLoop req mstr t).count 125 ∧
      ∀ name, .header name ∈ pieces t → (expand req mstr t).count 125 < (restpatLoop req mstr t).count 125 := by
  intro n
  induction n with
  | zero => intro t hn; omega
  | succ n ih =>
    intro t hn
    cases firstPiece req mstr t with
    | nil h => simp [h, restpatLoop, expand, pieces]
    | plain x p hx hlt hp hloop =>
      obtain ⟨hle, hheader⟩ := ih p (by omega)
      rw [expand_cons req mstr hp, hloop, hp, List.count_append, List.count_append]
      refine ⟨by omega, fun name h => ?_⟩
      obtain rfl | h := List.mem_cons.mp h
      · exact hx.elim
      · have := hheader name h
        omega
    | lone p hlt hp _ hcount =>
      obtain ⟨hle, hheader⟩ := ih p (by omega)
      have hone : (Piece.lone.value req mstr).count 125 = 0 := rfl
      rw [expand_cons req mstr hp, hp, List.count_append, hone]
      refine ⟨by omega, fun name h => ?_⟩
      obtain h | h := List.mem_cons.mp h
      · cases h
      · have := hheader name h
        omega
    | header name p hlt hp hcount =>
      obtain ⟨hle, -⟩ := ih p (by omega)
      rw [expand_cons req mstr hp, List.count_append]
      exact ⟨by omega, fun _ _ => by omega⟩

/-- Without `${HEADER}`, the result is not longer than the expansion, and shorter if a dollar sign
    was dropped. -/
theorem length_expand : ∀ n (t : Bytes), t.length < n → (∀ name, .header name ∉ pieces t) →
    (restpatLoop req mstr t).length ≤ (expand req mstr t).length ∧
      (.lone ∈ pieces t → (restpatLoop req mstr t).length < (expand req mstr t).length) := by
  intro n
  induction n with
  | zero => intro t hn; omega
  | succ n ih =>
    intro t hn hheader
    cases firstPiece req mstr t with
    | nil h => simp [h, restpatLoop, expand, pieces]
    | plain x p hx hlt hp hloop =>
      rw [hp] at hheader ⊢
      obtain ⟨hle, hlone⟩ := ih p (by omega) fun name h => hheader name (List.mem_cons_of_mem _ h)
      rw [expand_cons req mstr hp, hloop, List.length_append, List.length_append]
      refine ⟨by omega, fun h => ?_⟩
      obtain rfl | h := List.mem_cons.mp h
      · exact hx.elim
      · have := hlone h
        omega
    | lone p hlt hp hlen =>
      rw [hp] at hheader
      obtain ⟨hle, -⟩ := ih p (by omega) fun name h => hheader name (List.mem_cons_of_mem _ h)
      have hone : (Piece.lone.value req mstr).length = 1 := rfl
      rw [expand_cons req mstr hp, List.length_append, hone]
      exact ⟨by omega, fun _ => by omega⟩
    | header name p hlt hp =>
      rw [hp] at hheader
      exact absurd List.mem_cons_self (hheader name)

/-- **The expansion of templates.** A template is expanded, for any request and any submatches, if
    and only if every dollar sign in it belongs to one of `$0` to `$9`, `$_` and `$$`. -/
theorem exprestpat_iff (restpat : Bytes) :
    exprestpat req restpat mstr = { req with rest := expand req mstr restpat } ↔ PlainTemplate restpat := by
  constructor
  · intro h
    have hrest : restpatLoop req mstr restpat = expand req mstr restpat := congrArg Hthead.rest h
    have hcount := (count_expand req mstr _ restpat (Nat.lt_succ_self _)).2
    rw [hrest] at hcount
    have hheader : ∀ name, .header name ∉ pieces restpat := fun name hn => (hcount name hn).false
    have hlength := (length_expand req mstr _ restpat (Nat.lt_succ_self _) hheader).2
    rw [hrest] at hlength
    intro x hx
    cases x with
    | header name => exact hheader name hx
    | lone => exact (hlength hx).false
    | _ => trivial
  · intro h
    unfold exprestpat replrest
    rw [restpatLoop_eq_expand req mstr _ restpat (Nat.lt_succ_self _) h]

/-- The value of a header, after which the rest of its form is copied. -/
theorem exprestpat_header :
    ∃ (req : Hthead) (restpat : Bytes) (mstr : List Bytes),
      (exprestpat req restpat mstr).rest = bytes "b\x7bA\x7d" ∧ expand req mstr restpat = bytes "b" ∧
        (exprestpat req restpat mstr).rest ≠ expand req mstr restpat := by
  have hloop : (exprestpat { headers := [(bytes "A", bytes "b")] } (bytes "$\x7bA\x7d") []).rest =
      bytes "b\x7bA\x7d" := by decide
  have hpieces : pieces (bytes "$\x7bA\x7d") = [.header (bytes "A")] := by
    rw [show bytes "$\x7bA\x7d" = [36, 123, 65, 125] from rfl, pieces, if_pos rfl, if_neg (by decide),
      if_neg (by decide), if_neg (by decide), if_pos (by decide)]
    simp [pieces]
    rfl
  have hexpand : expand { headers := [(bytes "A", bytes "b")] } [] (bytes "$\x7bA\x7d") = bytes "b" := by
    unfold expand
    rw [hpieces]
    rfl
  exact ⟨_, _, _, hloop, hexpand, by rw [hloop, hexpand]; decide⟩

end Ashd.Patplex
