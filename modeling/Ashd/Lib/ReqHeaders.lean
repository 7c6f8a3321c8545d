import Ashd.Common.Message
import Ashd.Lib.Req

/-!
# Header lines

What `parseheaders` makes of a stream, said line by line: a line ends with a line feed, carriage
returns in it do not matter, and it is a name, a colon and a value, each without the white space
around it. An empty line ends the header.

Main results:
* `scanList_headerStep`: `parseheaders` reads just this, if it is less than 65536 bytes.
* `headerLines_write`: a header that is written is read back.
-/

namespace Ashd

/-- A line without its end, as a header. -/
def headerOf (l : Bytes) : Option (Bytes × Bytes) :=
  match l.dropWhile (· ≠ 58) with
  | [] => none
  | _ :: val => some (cstr (trim (l.takeWhile (· ≠ 58))), cstr (trim val))

/-- The headers up to an empty line, and what follows it. -/
def headerLines : ℕ → Bytes → Option (List (Bytes × Bytes) × Bytes)
  | 0, _ => none
  | fuel + 1, s =>
    match s.dropWhile (· ≠ 10) with
    | [] => none
    | _ :: rest =>
      let l := (s.takeWhile (· ≠ 10)).filter (· ≠ 13)
      if l = [] then some ([], rest)
      else
        match headerOf l with
        | none => none
        | some h => (headerLines fuel rest).map fun r => (h :: r.1, r.2)

/-! ## Bytes of a line -/

/-- A byte other than a line feed does not end the loop. -/
theorem headerStep_more {s : HeaderState} {c : UInt8} (hc : c ≠ 10) :
    headerStep s c = .fail ∨ ∃ s', headerStep s c = .more s' ∧ s'.tsz = s.tsz + 1 := by
  obtain ⟨head, state, name, val, tsz⟩ := s
  unfold headerStep
  simp only [if_neg hc]
  split_ifs
  · exact .inl rfl
  all_goals cases state
  all_goals simp

theorem headerStep_long {s : HeaderState} (c : UInt8) (h : 65536 ≤ s.tsz + 1) :
    headerStep s c = .fail := by
  unfold headerStep
  simp only [ge_iff_le, if_pos h]

theorem scanList_unended {l : Bytes} (hl : (10 : UInt8) ∉ l) (s : HeaderState) :
    scanList headerStep s l = none := by
  induction l generalizing s with
  | nil => rfl
  | cons c l ih =>
    simp only [List.mem_cons, not_or] at hl
    rw [scanList]
    obtain h | ⟨s', h, -⟩ := headerStep_more (s := s) (Ne.symm hl.1)
    · rw [h]
    · rw [h]
      exact ih hl.2 s'

theorem scanList_long {l : Bytes} (hl : (10 : UInt8) ∉ l) (rest : Bytes) {s : HeaderState}
    (h : 65536 ≤ s.tsz + l.length + 1) : scanList headerStep s (l ++ 10 :: rest) = none := by
  induction l generalizing s with
  | nil => rw [List.nil_append, scanList, headerStep_long 10 (by simpa using h)]
  | cons c l ih =>
    simp only [List.mem_cons, not_or] at hl
    rw [List.cons_append, scanList]
    obtain h' | ⟨s', h', htsz⟩ := headerStep_more (s := s) (Ne.symm hl.1)
    · rw [h']
    · rw [h']
      rw [List.length_cons] at h
      exact ih hl.2 (by omega)

/-- The bytes of a value, up to its end. -/
theorem feed_value {l : Bytes} (hl : (10 : UInt8) ∉ l) (head : Hthead) (name val : Bytes)
    {tsz : ℕ} (h : tsz + l.length < 65536) :
    feed headerStep ⟨head, .value, name, val, tsz⟩ l =
      some ⟨head, .value, name, val ++ l.filter (· ≠ 13), tsz + l.length⟩ := by
  induction l generalizing val tsz with
  | nil => simp [feed]
  | cons c l ih =>
    simp only [List.mem_cons, not_or] at hl
    rw [List.length_cons] at h ⊢
    have hstep : headerStep ⟨head, .value, name, val, tsz⟩ c =
        .more ⟨head, .value, name, val ++ [c].filter (· ≠ 13), tsz + 1⟩ := by
      unfold headerStep
      simp only [ge_iff_le, if_neg (Ne.symm hl.1)]
      rw [if_neg (by omega)]
      by_cases h13 : c = 13
      · simp [h13]
      · simp [h13]
    rw [feed, hstep]
    simp only
    rw [ih hl.2 _ (by omega), List.append_assoc, ← List.filter_append, List.singleton_append]
    congr 2
    omega

/-- The bytes of a name, up to the colon. A line that starts with carriage returns has not
    started yet. -/
theorem feed_name {l : Bytes} (hl : (10 : UInt8) ∉ l) (hcolon : (58 : UInt8) ∉ l) (head : Hthead)
    (state : LineState) (hstate : state ≠ .value) (name : Bytes)
    (hname : state = .start → name = []) {tsz : ℕ} (h : tsz + l.length < 65536) :
    feed headerStep ⟨head, state, name, [], tsz⟩ l =
      some ⟨head, if l.filter (· ≠ 13) = [] then state else .name, name ++ l.filter (· ≠ 13), [],
        tsz + l.length⟩ := by
  induction l generalizing state name tsz with
  | nil => simp [feed]
  | cons c l ih =>
    simp only [List.mem_cons, not_or] at hl hcolon
    rw [List.length_cons] at h ⊢
    by_cases h13 : c = 13
    · have hstep : headerStep ⟨head, state, name, [], tsz⟩ c =
          .more ⟨head, state, name, [], tsz + 1⟩ := by
        unfold headerStep
        simp only [ge_iff_le, if_pos h13]
        rw [if_neg (by omega)]
        cases state with
        | start => rfl
        | name => simp [h13]
        | value => exact absurd rfl hstate
      rw [feed, hstep]
      simp only
      rw [ih hl.2 hcolon.2 state hstate name hname (by omega), List.filter_cons_of_neg (by simp [h13])]
      congr 2
      omega
    · have hstep : headerStep ⟨head, state, name, [], tsz⟩ c =
          .more ⟨head, .name, name ++ [c], [], tsz + 1⟩ := by
        unfold headerStep
        simp only [ge_iff_le, if_neg (Ne.symm hl.1), if_neg h13, if_neg (Ne.symm hcolon.1)]
        rw [if_neg (by omega)]
        cases state with
        | start => rfl
        | name => rfl
        | value => exact absurd rfl hstate
      rw [feed, hstep]
      simp only
      rw [ih hl.2 hcolon.2 .name (by simp) _ (by simp) (by omega),
        List.filter_cons_of_pos (by simpa using h13)]
      simp only [List.append_assoc, List.singleton_append, reduceCtorEq, if_false, ite_self]
      congr 2
      omega

/-- A line that has a colon, without its carriage returns. -/
theorem headerOf_split {name : Bytes} (hname : (58 : UInt8) ∉ name) (val : Bytes) :
    headerOf ((name ++ 58 :: val).filter (· ≠ 13)) =
      some (cstr (trim (name.filter (· ≠ 13))), cstr (trim (val.filter (· ≠ 13)))) := by
  have hnf : (58 : UInt8) ∉ name.filter (· ≠ 13) := fun h0 => hname (List.mem_filter.mp h0).1
  obtain ⟨htake, hdrop⟩ := Message.split_write hnf (val.filter (· ≠ 13))
  unfold headerOf
  rw [List.filter_append, List.filter_cons_of_pos (by decide), hdrop, htake]

/-- A line of the header. -/
theorem scanList_line {l : Bytes} (hl : (10 : UInt8) ∉ l) (rest : Bytes) (head : Hthead) {tsz : ℕ}
    (h : tsz + l.length + 1 < 65536) :
    scanList headerStep ⟨head, .start, [], [], tsz⟩ (l ++ 10 :: rest) =
      if l.filter (· ≠ 13) = [] then some (head, rest)
      else
        match headerOf (l.filter (· ≠ 13)) with
        | none => none
        | some f => scanList headerStep
          ⟨headappheader head f.1 f.2, .start, [], [], tsz + l.length + 1⟩ rest := by
  by_cases hcolon : (58 : UInt8) ∈ l
  · -- a name and a value
    obtain ⟨name, val, rfl, hname⟩ := List.eq_append_cons_of_mem hcolon
    simp only [List.mem_append, List.mem_cons, not_or] at hl
    simp only [List.length_append, List.length_cons] at h ⊢
    have hne : (name ++ 58 :: val).filter (· ≠ 13) ≠ [] :=
      List.ne_nil_of_mem (List.mem_filter.mpr ⟨List.mem_append_right _ List.mem_cons_self, by decide⟩)
    have hcolonStep : ∀ state, state ≠ LineState.value → ∀ n,
        tsz + name.length < 65535 → headerStep ⟨head, state, n, [], tsz + name.length⟩ 58 =
          .more ⟨head, .value, trim n, [], tsz + name.length + 1⟩ := by
      intro state hst n hlt
      unfold headerStep
      simp only [ge_iff_le]
      rw [if_neg (by omega)]
      cases state with
      | start => rfl
      | name => rfl
      | value => exact absurd rfl hst
    have hend : ∀ n v, headerStep ⟨head, .value, n, v, tsz + name.length + 1 + val.length⟩ 10 =
        .more ⟨headappheader head (cstr n) (cstr (trim v)), .start, [], [],
          tsz + name.length + 1 + val.length + 1⟩ := by
      intro n v
      unfold headerStep
      simp only [ge_iff_le]
      rw [if_neg (by omega)]
      rfl
    have hfn := feed_name hl.1 hname head .start (by simp) [] (by simp)
      (show tsz + name.length < 65536 by omega)
    have hfv := feed_value hl.2.2 head (trim (name.filter (· ≠ 13))) []
      (show tsz + name.length + 1 + val.length < 65536 by omega)
    rw [headerOf_split hname, if_neg hne, List.append_assoc, List.cons_append,
      scanList_feed hfn, scanList, hcolonStep _ (by split_ifs <;> simp) _ (by omega)]
    simp only [List.nil_append]
    rw [scanList_feed hfv, scanList, hend]
    simp only [List.nil_append, Nat.add_assoc]
    rw [show 1 + (val.length + 1) = val.length + 1 + 1 by omega]
  · have hfn := feed_name hl hcolon head .start (by simp) [] (by simp)
      (show tsz + l.length < 65536 by omega)
    rw [scanList_feed hfn, scanList]
    by_cases hnil : l.filter (· ≠ 13) = []
    · rw [if_pos hnil, if_pos hnil]
      unfold headerStep
      simp only [ge_iff_le]
      rw [if_neg (by omega)]
      rfl
    · -- the line ends in the name
      have hof : headerOf (l.filter (· ≠ 13)) = none := by
        unfold headerOf
        have hall : ∀ c ∈ l.filter (· ≠ 13), decide (c ≠ 58) = true := by
          intro c hc
          have hcl := (List.mem_filter.mp hc).1
          simpa using fun h0 : c = 58 => hcolon (h0 ▸ hcl)
        rw [List.dropWhile_eq_nil_iff.mpr hall]
      rw [if_neg hnil, if_neg hnil, hof]
      unfold headerStep
      simp only [ge_iff_le]
      rw [if_neg (by omega)]
      rfl

/-- One line of the header. -/
theorem headerLines_line {l : Bytes} (hl : (10 : UInt8) ∉ l) (rest : Bytes) (fuel : ℕ) :
    headerLines (fuel + 1) (l ++ 10 :: rest) =
      if l.filter (· ≠ 13) = [] then some ([], rest)
      else
        match headerOf (l.filter (· ≠ 13)) with
        | none => none
        | some h => (headerLines fuel rest).map fun r => (h :: r.1, r.2) := by
  obtain ⟨htake, hdrop⟩ := Message.split_write hl rest
  rw [headerLines, hdrop, htake]

theorem headerLines_unended {s : Bytes} (h : (10 : UInt8) ∉ s) (fuel : ℕ) :
    headerLines fuel s = none := by
  have : s.dropWhile (· ≠ 10) = [] := by
    rw [List.dropWhile_eq_nil_iff]
    intro c hc
    simpa using fun h0 : c = 10 => h (h0 ▸ hc)
  cases fuel with
  | zero => rfl
  | succ fuel => rw [headerLines, this]

/-- What a line contributes, and what is read after it. -/
theorem headerLines_cons {l : Bytes} (hl : (10 : UInt8) ∉ l) {s rest : Bytes} {fuel : ℕ}
    {hs : List (Bytes × Bytes)} (h : headerLines (fuel + 1) (l ++ 10 :: s) = some (hs, rest)) :
    l.filter (· ≠ 13) = [] ∧ hs = [] ∧ rest = s ∨
      ∃ f fs, headerOf (l.filter (· ≠ 13)) = some f ∧ headerLines fuel s = some (fs, rest) ∧
        hs = f :: fs := by
  rw [headerLines_line hl] at h
  split_ifs at h with hnil
  · cases h
    exact .inl ⟨hnil, rfl, rfl⟩
  · cases hof : headerOf (l.filter (· ≠ 13)) with
    | none => rw [hof] at h; cases h
    | some f =>
      rw [hof] at h
      obtain ⟨⟨fs, r⟩, hr, he⟩ := Option.map_eq_some_iff.mp h
      cases he
      exact .inr ⟨f, fs, rfl, hr, rfl⟩

/-- At least the line end of a line is read. -/
theorem headerLines_length {fuel : ℕ} {s rest : Bytes} {hs : List (Bytes × Bytes)}
    (h : headerLines fuel s = some (hs, rest)) : rest.length < s.length := by
  induction fuel generalizing s hs with
  | zero => simp [headerLines] at h
  | succ fuel ih =>
    by_cases hlf : (10 : UInt8) ∈ s
    · obtain ⟨l, s', rfl, hl⟩ := List.eq_append_cons_of_mem hlf
      rw [List.length_append, List.length_cons]
      obtain ⟨-, -, rfl⟩ | ⟨f, fs, -, hr, -⟩ := headerLines_cons hl h
      · omega
      · have := ih hr
        omega
    · rw [headerLines_unended hlf] at h
      cases h

/-- `parseheaders` reads the headers of a stream, if they are not too long. -/
theorem scanList_headerStep :
    ∀ fuel (s : Bytes) (head : Hthead) (tsz : ℕ), s.length < fuel →
      scanList headerStep ⟨head, .start, [], [], tsz⟩ s =
        match headerLines fuel s with
        | none => none
        | some (hs, rest) =>
          if tsz + (s.length - rest.length) < 65536 then
            some ({ head with headers := head.headers ++ hs }, rest)
          else none := by
  intro fuel
  induction fuel with
  | zero => intro s head tsz hf; omega
  | succ fuel ih =>
    intro s head tsz hf
    by_cases hlf : (10 : UInt8) ∈ s
    swap
    · rw [scanList_unended hlf, headerLines_unended hlf]
    obtain ⟨l, s', rfl, hl⟩ := List.eq_append_cons_of_mem hlf
    rw [List.length_append, List.length_cons] at hf ⊢
    by_cases hlong : 65536 ≤ tsz + l.length + 1
    · rw [scanList_long hl s' hlong]
      cases hh : headerLines (fuel + 1) (l ++ 10 :: s') with
      | none => rfl
      | some r =>
        obtain ⟨hs, rest⟩ := r
        have hrest : rest.length ≤ s'.length := by
          obtain ⟨-, -, rfl⟩ | ⟨f, fs, -, hr, -⟩ := headerLines_cons hl hh
          · exact le_rfl
          · exact (headerLines_length hr).le
        simp only
        rw [if_neg (by omega)]
    · rw [scanList_line hl s' head (by omega), headerLines_line hl]
      by_cases hnil : l.filter (· ≠ 13) = []
      · rw [if_pos hnil, if_pos hnil]
        simp only [List.append_nil]
        rw [if_pos (by omega)]
      rw [if_neg hnil, if_neg hnil]
      cases hof : headerOf (l.filter (· ≠ 13)) with
      | none => rfl
      | some f =>
        simp only
        rw [ih s' _ _ (by omega)]
        cases hh : headerLines fuel s' with
        | none => rfl
        | some r =>
          obtain ⟨hs, rest⟩ := r
          have := headerLines_length hh
          simp only [Option.map_some, headappheader, List.append_assoc, List.singleton_append]
          have hcount : tsz + l.length + 1 + (s'.length - rest.length) =
            tsz + (l.length + (s'.length + 1) - rest.length) := by omega
          rw [hcount]

/-! ## Headers that are written -/

/-- A name or a value as the parser leaves it, if there is no NUL. -/
structure Plain (s : Bytes) : Prop where
  clean : Clean s
  trim : trim s = s

/-- A header as the parser leaves it, if there is no NUL. -/
structure PlainHeader (h : Bytes × Bytes) : Prop where
  name : Plain h.1
  colon : (58 : UInt8) ∉ h.1
  val : Plain h.2

theorem trim_trim (s : Bytes) : trim (trim s) = trim s := by
  have hlead := trimmed_trim s
  unfold trim at hlead ⊢
  cases hs : s.dropWhile isspace with
  | nil => rfl
  | cons c t =>
    rw [hs] at hlead
    have hc : isspace c = false := hlead c rfl
    simp only
    rw [List.dropWhile_cons_of_neg (by simp [hc])]
    simp only
    rw [List.rdropWhile_idempotent]

theorem trim_eq_self {s : Bytes} (h : ∀ c ∈ s, isspace c = false) : trim s = s := by
  cases s with
  | nil => rfl
  | cons c s =>
    obtain ⟨hc, hs⟩ := List.forall_mem_cons.mp h
    unfold trim
    rw [List.dropWhile_cons_of_neg (by simp [hc])]
    simp only
    rw [List.rdropWhile_eq_self_iff.mpr]
    intro hne
    rw [hs _ (List.getLast_mem hne)]
    exact Bool.false_ne_true

theorem trim_cons_space (s : Bytes) : trim (32 :: s) = trim s := by
  unfold trim
  rw [List.dropWhile_cons_of_pos (by decide)]

theorem Clean.subset {s t : Bytes} (h : Clean s) (hs : t ⊆ s) : Clean t := fun c hc => h c (hs hc)

theorem plain_trim {s : Bytes} (h : Clean s) : Plain (cstr (trim s)) := by
  have hc : Clean (trim s) := h.subset (trim_sublist s).subset
  rw [cstr_eq_self hc.nulFree]
  exact ⟨hc, trim_trim s⟩

theorem headerOf_plain {l : Bytes} (h : Clean l) {f : Bytes × Bytes} (hf : headerOf l = some f) :
    PlainHeader f := by
  unfold headerOf at hf
  have hdrop : l.dropWhile (· ≠ 58) ⊆ l := (List.dropWhile_sublist _).subset
  cases hd : l.dropWhile (· ≠ 58) with
  | nil => rw [hd] at hf; cases hf
  | cons c val =>
    rw [hd] at hf hdrop
    cases hf
    have hname : l.takeWhile (· ≠ 58) ⊆ l := (List.takeWhile_sublist _).subset
    refine ⟨plain_trim (h.subset hname), ?_,
      plain_trim (h.subset fun x hx => hdrop (List.mem_cons_of_mem c hx))⟩
    intro h58
    have := List.mem_takeWhile_imp ((trim_sublist _).subset (mem_cstr h58))
    simp at this

/-- Headers of a stream without NUL. -/
theorem headerLines_plain {fuel : ℕ} {s rest : Bytes} {hs : List (Bytes × Bytes)}
    (hnul : NulFree s) (h : headerLines fuel s = some (hs, rest)) : ∀ f ∈ hs, PlainHeader f := by
  induction fuel generalizing s hs with
  | zero => simp [headerLines] at h
  | succ fuel ih =>
    by_cases hlf : (10 : UInt8) ∈ s
    · obtain ⟨l, s', rfl, hl⟩ := List.eq_append_cons_of_mem hlf
      have hclean : Clean (l.filter (· ≠ 13)) := by
        intro c hc
        obtain ⟨hc, h13⟩ := List.mem_filter.mp hc
        refine ⟨?_, ?_, by simpa using h13⟩
        · rintro rfl
          exact hnul (List.mem_append_left _ hc)
        · rintro rfl
          exact hl hc
      obtain ⟨-, rfl, -⟩ | ⟨f, fs, hf, hr, rfl⟩ := headerLines_cons hl h
      · simp
      · intro g hg
        rcases List.mem_cons.mp hg with rfl | hg
        · exact headerOf_plain hclean hf
        · refine ih (fun h0 => hnul ?_) hr g hg
          exact List.mem_append_right _ (List.mem_cons_of_mem _ h0)
    · rw [headerLines_unended hlf] at h
      cases h

theorem headerOf_write {f : Bytes × Bytes} (h : PlainHeader f) :
    headerOf (f.1 ++ 58 :: 32 :: f.2) = some f := by
  obtain ⟨htake, hdrop⟩ := Message.split_write h.colon (32 :: f.2)
  unfold headerOf
  rw [hdrop, htake]
  simp only
  rw [trim_cons_space, h.name.trim, h.val.trim, cstr_eq_self h.name.clean.nulFree,
    cstr_eq_self h.val.clean.nulFree]

theorem filter_cr {s : Bytes} (h : Clean s) : s.filter (· ≠ 13) = s := by
  rw [List.filter_eq_self]
  intro c hc
  simpa using (h c hc).2.2

/-- A header that is written line by line is read back. -/
theorem headerLines_write {hs : List (Bytes × Bytes)} (h : ∀ f ∈ hs, PlainHeader f)
    (rest : Bytes) :
    ∀ fuel, hs.length < fuel →
      headerLines fuel (hs.flatMap headerLine ++ Message.CRLF ++ rest) = some (hs, rest) := by
  induction hs with
  | nil =>
    intro fuel hf
    obtain ⟨n, rfl⟩ : ∃ n, fuel = n + 1 := ⟨fuel - 1, by simp at hf; omega⟩
    show headerLines (n + 1) ([13] ++ 10 :: rest) = _
    rw [headerLines_line (by simp)]
    rfl
  | cons f hs ih =>
    intro fuel hf
    rw [List.length_cons] at hf
    obtain ⟨n, rfl⟩ : ∃ n, fuel = n + 1 := ⟨fuel - 1, by omega⟩
    have hp := h f (by simp)
    have hsplit : (f :: hs).flatMap headerLine ++ Message.CRLF ++ rest =
        (f.1 ++ 58 :: 32 :: f.2 ++ [13]) ++ 10 :: (hs.flatMap headerLine ++ Message.CRLF ++ rest) := by
      simp [headerLine]
    have hlf : (10 : UInt8) ∉ f.1 ++ 58 :: 32 :: f.2 ++ [13] := by
      have h1 : (10 : UInt8) ∉ f.1 := fun h0 => (hp.name.clean 10 h0).2.1 rfl
      have h2 : (10 : UInt8) ∉ f.2 := fun h0 => (hp.val.clean 10 h0).2.1 rfl
      simp [h1, h2]
    have hfilter : (f.1 ++ 58 :: 32 :: f.2 ++ [13]).filter (· ≠ 13) = f.1 ++ 58 :: 32 :: f.2 := by
      rw [List.filter_append, List.filter_append, List.filter_cons_of_pos (by decide),
        List.filter_cons_of_pos (by decide), filter_cr hp.name.clean, filter_cr hp.val.clean]
      simp
    rw [hsplit, headerLines_line hlf, hfilter, if_neg (by simp), headerOf_write hp]
    simp only
    rw [ih (fun g hg => h g (List.mem_cons_of_mem _ hg)) n (by omega)]
    rfl

end Ashd
