import Ashd.Lib.Utils

/-!
# The two passes of `tokenize` (lib/utils.c:130–181)

`Ashd.tokenize` says which words a line has. Here the function runs on the line
in memory, its `length + 1` bytes with the NUL, by the indices `p` and `p2`: the
first pass looks for the end of a word, and the second takes the quotes and
backslashes out of a copy of it in place, with the number `cl` of bytes that are
left. Every read and every copy outside of its block is a `Halt`.

The `int`s of the function are in `ℤ` and `ℕ`: the lines of `parsefile` have at
most 1023 bytes (lib/cf.c:96), and its other calls have a literal.

Main results:
* `tokenize_spelled`: the words come back from every way to write them.
* `tokenize_within_iff`: exactly when `tokenize` stays within the line.
-/

namespace Ashd.Tokenize

/-! ## Model -/

/-- How a run fails to return: at an access outside of a block, or when it is not done within the
    given number of rounds of a loop. -/
inductive Halt
  | beyond
  | rounds
  deriving DecidableEq

/-- `*p` for the string `src`. -/
def deref (src : Bytes) (p : ℕ) : Except Halt UInt8 :=
  match (src ++ [0])[p]? with
  | some c => .ok c
  | none => .error .beyond

/-- `memmove(n + dst, n + src, len)` within the block `n`. -/
def memmove (n : Bytes) (dst src : ℕ) (len : ℤ) : Except Halt Bytes :=
  if 0 ≤ len ∧ dst + len ≤ n.length ∧ src + len ≤ n.length then
    .ok (poke n dst (peek n src len.toNat))
  else .error .beyond

/-- `while(isspace(*p)) p++` (lib/utils.c:140–141). -/
def skipSpace (src : Bytes) : ℕ → ℕ → Except Halt ℕ
  | 0, _ => .error .rounds
  | fuel + 1, p => do
    let c ← deref src p
    if isspace c then skipSpace src fuel (p + 1) else pure p

/-- The first pass (lib/utils.c:146–161), from `p` to the end of the word. -/
def wordEnd (src : Bytes) : ℕ → Bool → ℕ → Except Halt ℕ
  | 0, _, _ => .error .rounds
  | fuel + 1, true, p => do
    let c ← deref src p
    if c = 34 then wordEnd src fuel false (p + 1)
    else if c = 92 then wordEnd src fuel true (p + 1 + 1)
    else wordEnd src fuel true (p + 1)
  | fuel + 1, false, p => do
    let c ← deref src p
    if c = 34 then wordEnd src fuel true (p + 1)
    else if isspace c ∨ c = 0 then pure p
    else if c = 92 then wordEnd src fuel false (p + 1 + 1)
    else wordEnd src fuel false (p + 1)

/-- The second pass (lib/utils.c:165–174), on the copy `n` from `p2` on. -/
def stripWord : ℕ → Bytes → ℕ → ℤ → Except Halt Bytes
  | 0, _, _, _ => .error .rounds
  | fuel + 1, n, p2, cl =>
    match n[p2]? with
    | none => .error .beyond
    | some c =>
      if c = 0 then pure n
      else if c = 92 then do
        let n ← memmove n p2 (p2 + 1) cl
        stripWord fuel n (p2 + 1) (cl - 1 - 1)
      else if c = 34 then do
        let n ← memmove n p2 (p2 + 1) cl
        stripWord fuel n p2 (cl - 1)
      else stripWord fuel n (p2 + 1) (cl - 1)

/-- `n = memcpy(malloc(cl + 1), p2, cl); n[cl] = 0`, with `p - p2` for `cl`. -/
def copyWord (src : Bytes) (p2 p : ℕ) : Except Halt Bytes :=
  if p ≤ src.length + 1 then .ok (peek (src ++ [0]) p2 (p - p2) ++ [0]) else .error .beyond

/-- The outer loop. -/
def words (fuel : ℕ) (src : Bytes) : ℕ → ℕ → Except Halt (List Bytes)
  | 0, _ => .error .rounds
  | k + 1, p => do
    let p ← skipSpace src fuel p
    let c ← deref src p
    if c = 0 then pure []
    else
      let p2 := p
      let p ← wordEnd src fuel false p
      let n ← copyWord src p2 p
      let n ← stripWord fuel n 0 (p - p2 : ℤ)
      let ret ← words fuel src k p
      pure (cstr n :: ret)

/-- `tokenize` (lib/utils.c:130–181), with at most `fuel` rounds of each of its loops. -/
def tokenize (fuel : ℕ) (src : Bytes) : Except Halt (List Bytes) := words fuel src fuel 0

/-- `tokenize(src)` returns `ret`, and no access on the way is outside of a block. -/
def Returns (src : Bytes) (ret : List Bytes) : Prop :=
  ∃ n, ∀ fuel, n ≤ fuel → tokenize fuel src = .ok ret

/-! ## The first pass -/

theorem deref_cons (pre : Bytes) (c : UInt8) (s : Bytes) :
    deref (pre ++ c :: s) pre.length = .ok c := by
  simp [deref]

theorem deref_end (pre : Bytes) : deref (pre ++ []) pre.length = .ok 0 := by
  simp [deref]

theorem deref_beyond {src : Bytes} {p : ℕ} (h : src.length < p) :
    deref src p = .error .beyond := by
  unfold deref
  rw [List.getElem?_eq_none (by simp; omega)]

theorem skipSpace_eq (s : Bytes) : ∀ (pre : Bytes) (fuel : ℕ), s.length < fuel →
    skipSpace (pre ++ s) fuel pre.length =
      .ok (pre.length + (s.takeWhile isspace).length) := by
  induction s with
  | nil =>
    intro pre fuel h
    obtain ⟨fuel, rfl⟩ := Nat.exists_eq_succ_of_ne_zero (Nat.ne_zero_of_lt h)
    rw [skipSpace, deref_end]
    rfl
  | cons c s ih =>
    intro pre fuel h
    obtain ⟨fuel, rfl⟩ := Nat.exists_eq_succ_of_ne_zero (Nat.ne_zero_of_lt h)
    rw [skipSpace, deref_cons]
    simp only [bind, Except.bind]
    by_cases hc : isspace c = true
    · have := ih (pre ++ [c]) fuel (by simp at h; omega)
      rw [List.append_assoc, List.singleton_append, List.length_append,
        List.length_singleton] at this
      rw [if_pos hc, this, List.takeWhile_cons_of_pos hc, List.length_cons]
      congr 1
      omega
    · rw [if_neg hc, List.takeWhile_cons_of_neg hc]
      rfl

/-- A round of the first pass, in either of its modes. -/
theorem wordEnd_succ {src : Bytes} {p : ℕ} {c : UInt8} (h : deref src p = .ok c) (fuel : ℕ)
    (q : Bool) :
    wordEnd src (fuel + 1) q p =
      if c = 34 then wordEnd src fuel (!q) (p + 1)
      else if q = false ∧ (isspace c = true ∨ c = 0) then .ok p
      else if c = 92 then wordEnd src fuel q (p + 1 + 1)
      else wordEnd src fuel q (p + 1) := by
  cases q <;> simp [wordEnd, h, bind, Except.bind, pure, Except.pure]

theorem wordEnd_beyond {src : Bytes} {p : ℕ} (h : src.length < p) (fuel : ℕ) (q : Bool) :
    wordEnd src (fuel + 1) q p = .error .beyond := by
  cases q <;> simp [wordEnd, deref_beyond h, bind, Except.bind]

/-- A word and what follows it make up the string that was scanned. -/
theorem scanWord_append {q : Bool} {s w r : Bytes} (h : scanWord q s = some (w, r)) :
    s = w ++ r := by
  fun_induction scanWord q s generalizing w r with
  | case1 => cases h
  | case2 => cases h; rfl
  | case3 q s ih =>
    obtain ⟨⟨w', r'⟩, h', he⟩ := Option.map_eq_some_iff.mp h
    obtain ⟨rfl, rfl⟩ := Prod.mk.inj he
    rw [ih h', List.cons_append]
  | case4 => cases h
  | case5 q d s _ ih =>
    obtain ⟨⟨w', r'⟩, h', he⟩ := Option.map_eq_some_iff.mp h
    obtain ⟨rfl, rfl⟩ := Prod.mk.inj he
    rw [ih h', List.cons_append, List.cons_append]
  | case6 => cases h; rfl
  | case7 q c s _ _ _ ih =>
    obtain ⟨⟨w', r'⟩, h', he⟩ := Option.map_eq_some_iff.mp h
    obtain ⟨rfl, rfl⟩ := Prod.mk.inj he
    rw [ih h', List.cons_append]

/-- The first pass goes to the end of the word, or beyond the string if the word has none. -/
theorem wordEnd_eq {q : Bool} {s : Bytes} (hs : NulFree s) {src : Bytes} (pre : Bytes) {p fuel : ℕ}
    (hsrc : src = pre ++ s) (hp : p = pre.length) (hf : s.length + 1 < fuel) :
    wordEnd src fuel q p =
      match scanWord q s with
      | some (w, _) => .ok (p + w.length)
      | none => .error .beyond := by
  fun_induction scanWord q s generalizing pre p fuel with
  | case1 =>
    obtain ⟨fuel, rfl⟩ := Nat.exists_eq_add_of_lt hf
    subst hsrc hp
    rw [wordEnd_succ (deref_end pre), if_neg (by decide), if_neg (by decide),
      if_neg (by decide), List.length_nil, Nat.zero_add, Nat.add_comm 1, wordEnd_beyond (by simp)]
  | case2 =>
    obtain ⟨fuel, rfl⟩ := Nat.exists_eq_add_of_lt hf
    subst hsrc hp
    rw [wordEnd_succ (deref_end pre)]
    simp
  | case3 q s ih =>
    obtain ⟨fuel, rfl⟩ := Nat.exists_eq_succ_of_ne_zero (Nat.ne_zero_of_lt hf)
    have hd : deref src p = .ok 34 := by rw [hsrc, hp]; exact deref_cons pre 34 s
    rw [wordEnd_succ hd, if_pos rfl,
      ih (nulFree_cons.mp hs).2 (pre ++ [34]) (by simp [hsrc]) (by simp [hp])
        (by simp at hf; omega)]
    cases scanWord (!q) s <;> simp
    omega
  | case4 q =>
    obtain ⟨fuel, rfl⟩ := Nat.exists_eq_add_of_lt hf
    have hd : deref src p = .ok 92 := by rw [hsrc, hp]; exact deref_cons pre 92 []
    rw [wordEnd_succ hd, if_neg (by decide), if_neg (by simp [isspace]), if_pos rfl,
      List.length_singleton, Nat.add_right_comm, wordEnd_beyond (by simp [hsrc, hp])]
  | case5 q d s _ ih =>
    obtain ⟨fuel, rfl⟩ := Nat.exists_eq_succ_of_ne_zero (Nat.ne_zero_of_lt hf)
    have hd : deref src p = .ok 92 := by rw [hsrc, hp]; exact deref_cons pre 92 _
    rw [wordEnd_succ hd, if_neg (by decide), if_neg (by simp [isspace]), if_pos rfl,
      ih (nulFree_cons.mp (nulFree_cons.mp hs).2).2 (pre ++ [92, d]) (by simp [hsrc])
        (by simp [hp]) (by simp at hf; omega)]
    cases scanWord q s <;> simp
    omega
  | case6 q c s h34 _ hsp =>
    obtain ⟨fuel, rfl⟩ := Nat.exists_eq_succ_of_ne_zero (Nat.ne_zero_of_lt hf)
    have hd : deref src p = .ok c := by rw [hsrc, hp]; exact deref_cons pre c s
    rw [wordEnd_succ hd, if_neg h34, if_pos ⟨hsp.1, .inl hsp.2⟩]
    rfl
  | case7 q c s h34 h92 hsp ih =>
    obtain ⟨fuel, rfl⟩ := Nat.exists_eq_succ_of_ne_zero (Nat.ne_zero_of_lt hf)
    obtain ⟨hc, hs⟩ := nulFree_cons.mp hs
    have hd : deref src p = .ok c := by rw [hsrc, hp]; exact deref_cons pre c s
    rw [wordEnd_succ hd, if_neg h34, if_neg (by simpa [hc] using hsp), if_neg h92,
      ih hs (pre ++ [c]) (by simp [hsrc]) (by simp [hp]) (by simp at hf; omega)]
    cases scanWord q s <;> simp
    omega

/-! ## The second pass -/

/-- The bytes of a string that stand for themselves: those without a backslash in front of them
    that are none either. A backslash at the end has nothing to stand in front of. -/
def plain : Bytes → Option Bytes
  | [] => some []
  | [c] => if c = 92 then none else some [c]
  | c :: d :: s => if c = 92 then plain s else (plain (d :: s)).map (c :: ·)

theorem plain_cons {c : UInt8} (hc : c ≠ 92) (s : Bytes) :
    plain (c :: s) = (plain s).map (c :: ·) := by
  cases s with
  | nil => simp [plain, hc]
  | cons d s => rw [plain, if_neg hc]

theorem plain_escape (d : UInt8) (s : Bytes) : plain (92 :: d :: s) = plain s := by
  rw [plain, if_pos rfl]

theorem isSome_plain_cons {c : UInt8} (hc : c ≠ 92) {s : Bytes} :
    (plain (c :: s)).isSome = (plain s).isSome := by
  rw [plain_cons hc, Option.isSome_map]

theorem isSome_plain_escape {d : UInt8} {s : Bytes} :
    (plain (92 :: d :: s)).isSome = (plain s).isSome := by
  rw [plain_escape]

/-- A string whose backslashes all have a byte behind them is one byte or escape after another. -/
theorem escapes_induction {motive : (s : Bytes) → (plain s).isSome → Prop} (nil : motive [] rfl)
    (escape : ∀ d s h, motive s h → motive (92 :: d :: s) (isSome_plain_escape.trans h))
    (cons : ∀ c s h, (hc : c ≠ 92) → motive s h → motive (c :: s) ((isSome_plain_cons hc).trans h))
    (s : Bytes) (h : (plain s).isSome) : motive s h := by
  fun_induction plain s with
  | case1 => exact nil
  | case2 => cases h
  | case3 c hc => exact cons c [] rfl hc nil
  | case4 d s ih => exact escape d s h (ih h)
  | case5 c d s hc ih =>
    have h' : (plain (d :: s)).isSome := (isSome_plain_cons hc).symm.trans h
    exact cons c (d :: s) h' hc (ih h')

theorem unquote_escape (d : UInt8) (s : Bytes) : unquote (92 :: d :: s) = d :: unquote s := by
  rw [unquote, if_pos rfl]

theorem unquote_quote (s : Bytes) : unquote (34 :: s) = unquote s := by
  cases s <;> simp [unquote]

theorem unquote_cons {c : UInt8} (h34 : c ≠ 34) (h92 : c ≠ 92) (s : Bytes) :
    unquote (c :: s) = c :: unquote s := by
  cases s <;> simp [unquote, h34, h92]

/-- Taking out the byte `c` moves what is behind it, with the NUL, to its place. -/
theorem memmove_back (done : Bytes) (c : UInt8) (s junk : Bytes) :
    memmove (done ++ c :: (s ++ 0 :: junk)) done.length (done.length + 1) (s.length + 1 : ℕ) =
      .ok (done ++ (s ++ 0 :: 0 :: junk)) := by
  have hpeek : peek (done ++ c :: (s ++ 0 :: junk)) (done.length + 1) (s.length + 1) =
      s ++ [0] := by
    unfold peek
    rw [← List.drop_drop, List.drop_left, List.drop_one, List.tail_cons,
      ← List.singleton_append, ← List.append_assoc, List.take_left' (by simp)]
  have hdrop : (done ++ c :: (s ++ 0 :: junk)).drop (done.length + (s.length + 1)) = 0 :: junk := by
    rw [← List.drop_drop, List.drop_left, List.drop_succ_cons, List.drop_left]
  unfold memmove
  rw [if_pos (by simp only [List.length_append, List.length_cons]; push_cast; omega),
    Int.toNat_natCast, hpeek]
  unfold poke
  rw [List.take_left, List.length_append, List.length_singleton, hdrop]
  simp

theorem stripWord_nul (fuel : ℕ) (done r : Bytes) (cl : ℤ) :
    stripWord (fuel + 1) (done ++ 0 :: r) done.length cl = .ok (done ++ 0 :: r) := by
  simp [stripWord, pure, Except.pure]

theorem stripWord_plain (fuel : ℕ) (done r : Bytes) {c : UInt8} (h0 : c ≠ 0) (h34 : c ≠ 34)
    (h92 : c ≠ 92) (n : ℕ) :
    stripWord (fuel + 1) (done ++ c :: r) done.length (n + 1 : ℕ) =
      stripWord fuel (done ++ c :: r) (done.length + 1) n := by
  simp [stripWord, h0, h34, h92]

theorem stripWord_quote (fuel : ℕ) (done s junk : Bytes) :
    stripWord (fuel + 1) (done ++ 34 :: (s ++ 0 :: junk)) done.length (s.length + 1 : ℕ) =
      stripWord fuel (done ++ (s ++ 0 :: 0 :: junk)) done.length s.length := by
  have hget : (done ++ 34 :: (s ++ 0 :: junk))[done.length]? = some 34 := by simp
  rw [stripWord, hget]
  simp only [memmove_back, bind, Except.bind]
  rw [if_neg (by decide), if_neg (by decide), if_pos trivial, Nat.cast_succ, Int.add_sub_cancel]

theorem stripWord_escape (fuel : ℕ) (done : Bytes) (d : UInt8) (s junk : Bytes) :
    stripWord (fuel + 1) (done ++ 92 :: (d :: s ++ 0 :: junk)) done.length (s.length + 1 + 1 : ℕ) =
      stripWord fuel (done ++ (d :: s ++ 0 :: 0 :: junk)) (done.length + 1) s.length := by
  have hget : (done ++ 92 :: (d :: s ++ 0 :: junk))[done.length]? = some 92 := by simp
  have hmove := memmove_back done 92 (d :: s) junk
  rw [List.length_cons] at hmove
  rw [stripWord, hget]
  simp only [hmove, bind, Except.bind]
  rw [if_neg (by decide), if_pos trivial, Nat.cast_succ, Int.add_sub_cancel, Nat.cast_succ,
    Int.add_sub_cancel]

/-- The second pass leaves the word without its quotes and backslashes, in the space of the copy. -/
theorem stripWord_eq {s : Bytes} (ht : (plain s).isSome) : NulFree s → ∀ (done junk : Bytes)
    (fuel : ℕ), s.length < fuel → ∃ junk', stripWord fuel (done ++ (s ++ 0 :: junk)) done.length
      s.length = .ok (done ++ (unquote s ++ 0 :: junk')) := by
  induction s, ht using escapes_induction with
  | nil =>
    intro _ done junk fuel hf
    obtain ⟨fuel, rfl⟩ := Nat.exists_eq_succ_of_ne_zero (Nat.ne_zero_of_lt hf)
    exact ⟨junk, stripWord_nul fuel done junk _⟩
  | escape d s _ ih =>
    intro hs done junk fuel hf
    obtain ⟨fuel, rfl⟩ := Nat.exists_eq_succ_of_ne_zero (Nat.ne_zero_of_lt hf)
    obtain ⟨junk', h⟩ := ih (nulFree_cons.mp (nulFree_cons.mp hs).2).2 (done ++ [d]) (0 :: junk)
      fuel (by simp at hf; omega)
    refine ⟨junk', ?_⟩
    rw [List.length_append, List.length_singleton, List.append_assoc, List.append_assoc] at h
    rw [unquote_escape]
    exact (stripWord_escape fuel done d s junk).trans h
  | cons c s _ h92 ih =>
    intro hs done junk fuel hf
    obtain ⟨fuel, rfl⟩ := Nat.exists_eq_succ_of_ne_zero (Nat.ne_zero_of_lt hf)
    obtain ⟨hc, hs'⟩ := nulFree_cons.mp hs
    by_cases h34 : c = 34
    · subst h34
      obtain ⟨junk', h⟩ := ih hs' done (0 :: junk) fuel (by simp at hf; omega)
      rw [unquote_quote]
      exact ⟨junk', (stripWord_quote fuel done s junk).trans h⟩
    · obtain ⟨junk', h⟩ := ih hs' (done ++ [c]) junk fuel (by simp at hf; omega)
      rw [List.length_append, List.length_singleton, List.append_assoc, List.append_assoc] at h
      rw [unquote_cons h34 h92]
      exact ⟨junk', (stripWord_plain fuel done _ hc h34 h92 s.length).trans h⟩

/-! ## The words of a line -/

/-- What is scanned as a word has a byte behind every backslash, and is left outside of quotes. -/
theorem scanWord_plain {q : Bool} {s w r : Bytes} (h : scanWord q s = some (w, r)) :
    ∃ t, plain w = some t ∧ (Even (t.count 34) ↔ q = false) := by
  fun_induction scanWord q s generalizing w r with
  | case1 => cases h
  | case2 => cases h; exact ⟨[], rfl, by simp⟩
  | case3 q s ih =>
    obtain ⟨⟨w', r'⟩, h', he⟩ := Option.map_eq_some_iff.mp h
    obtain ⟨rfl, rfl⟩ := Prod.mk.inj he
    obtain ⟨t, ht, hq⟩ := ih h'
    refine ⟨34 :: t, by rw [plain_cons (by decide), ht]; rfl, ?_⟩
    rw [List.count_cons_self, Nat.even_add_one, hq]
    cases q <;> simp
  | case4 => cases h
  | case5 q d s _ ih =>
    obtain ⟨⟨w', r'⟩, h', he⟩ := Option.map_eq_some_iff.mp h
    obtain ⟨rfl, rfl⟩ := Prod.mk.inj he
    rw [plain_escape]
    exact ih h'
  | case6 q c s _ _ hsp => cases h; exact ⟨[], rfl, by simp [hsp.1]⟩
  | case7 q c s h34 h92 _ ih =>
    obtain ⟨⟨w', r'⟩, h', he⟩ := Option.map_eq_some_iff.mp h
    obtain ⟨rfl, rfl⟩ := Prod.mk.inj he
    obtain ⟨t, ht, hq⟩ := ih h'
    exact ⟨c :: t, by rw [plain_cons h92, ht]; rfl, by rwa [List.count_cons_of_ne h34]⟩

theorem scanWord_ne_nil {c : UInt8} (hc : isspace c = false) {s w r : Bytes}
    (h : scanWord false (c :: s) = some (w, r)) : w ≠ [] := by
  rintro rfl
  unfold scanWord at h
  split_ifs at h with h34 h92 hsp
  · simp at h
  · cases s <;> simp at h
  · rw [hc] at hsp
    cases hsp.2
  · simp at h

theorem copyWord_eq (pre w r : Bytes) :
    copyWord (pre ++ (w ++ r)) pre.length (pre.length + w.length) = .ok (w ++ [0]) := by
  unfold copyWord
  rw [if_pos (by simp; omega), Nat.add_sub_cancel_left]
  unfold peek
  rw [List.append_assoc, List.drop_left, List.append_assoc, List.take_left]

theorem unquote_sublist (s : Bytes) : (unquote s).Sublist s := by
  fun_induction unquote s with
  | case1 => exact .slnil
  | case2 => exact List.nil_sublist _
  | case3 => exact .refl _
  | case4 _ _ ih => exact (ih.cons_cons _).cons _
  | case5 _ _ _ ih => exact ih.cons _
  | case6 _ _ _ _ _ ih => exact ih.cons_cons _

/-- The word that the first pass found is copied, and read off the copy after the second. -/
theorem word_eq (pre : Bytes) {w : Bytes} (r : Bytes) (hw : NulFree w) (hp : (plain w).isSome)
    {fuel : ℕ} (hf : w.length < fuel) :
    ∃ n n', copyWord (pre ++ (w ++ r)) pre.length (pre.length + w.length) = .ok n ∧
      stripWord fuel n 0 w.length = .ok n' ∧ cstr n' = unquote w := by
  obtain ⟨junk, hstrip⟩ := stripWord_eq hp hw [] [] fuel hf
  exact ⟨w ++ [0], unquote w ++ 0 :: junk, copyWord_eq pre w r, hstrip,
    cstr_append (fun h0 => hw ((unquote_sublist w).subset h0)) junk⟩

/-- The loop over the words, when it is at the part `s` of the line. -/
theorem words_eq {src : Bytes} (hsrc : NulFree src) {fuel : ℕ} (hf : src.length + 1 < fuel) :
    ∀ (k m : ℕ) (pre s : Bytes), src = pre ++ s → s.length < k → s.length < m →
      words fuel src k pre.length =
        match tokenizeLoop m s with
        | some ret => .ok ret
        | none => .error .beyond := by
  intro k
  induction k with
  | zero => intro m pre s _ h; omega
  | succ k ih =>
    intro m pre s heq hk hm
    obtain ⟨m, rfl⟩ := Nat.exists_eq_succ_of_ne_zero (Nat.ne_zero_of_lt hm)
    have hlen : src.length = pre.length + s.length := by rw [heq, List.length_append]
    have hskip : skipSpace src fuel pre.length =
        .ok (pre.length + (s.takeWhile isspace).length) := by
      rw [heq]
      exact skipSpace_eq s pre fuel (by omega)
    have hs := List.takeWhile_append_dropWhile (p := isspace) (l := s)
    have hhead := List.head?_dropWhile_not isspace s
    generalize hsep : s.takeWhile isspace = sep at hskip hs
    generalize hrest : s.dropWhile isspace = rest at hs hhead
    have hsrc' : src = (pre ++ sep) ++ rest := by rw [heq, ← hs, List.append_assoc]
    have hls : s.length = sep.length + rest.length := by rw [← hs, List.length_append]
    rw [words, hskip, tokenizeLoop, hrest, ← List.length_append]
    simp only [bind, Except.bind]
    cases rest with
    | nil =>
      rw [hsrc', deref_end]
      rfl
    | cons c p =>
      have hc : isspace c = false := by simpa using hhead
      have hnul : NulFree (c :: p) := fun h0 =>
        hsrc (by rw [hsrc']; exact List.mem_append_right _ h0)
      have hd : deref src (pre ++ sep).length = .ok c := by rw [hsrc']; exact deref_cons _ c p
      rw [hd]
      simp only [if_neg (nulFree_cons.mp hnul).1]
      rw [wordEnd_eq hnul _ hsrc' rfl (by omega)]
      cases hw : scanWord false (c :: p) with
      | none => rfl
      | some wr =>
        obtain ⟨w, r⟩ := wr
        have happ := scanWord_append hw
        have hw0 : 0 < w.length := List.length_pos_of_ne_nil (scanWord_ne_nil hc hw)
        obtain ⟨t, ht, -⟩ := scanWord_plain hw
        have hlr : (c :: p).length = w.length + r.length := by rw [happ, List.length_append]
        have hwn : NulFree w := fun h0 => hnul (by rw [happ]; exact List.mem_append_left _ h0)
        have hwf : w.length < fuel := by omega
        obtain ⟨n, n', hcopy, hstrip, hn'⟩ := word_eq (pre ++ sep) r hwn (by rw [ht]; rfl) hwf
        rw [← happ, ← hsrc'] at hcopy
        have hih := ih m (pre ++ sep ++ w) r (by rw [hsrc', happ, List.append_assoc _ w])
          (by omega) (by omega)
        rw [List.length_append] at hih
        simp only [hcopy, Nat.cast_add, add_sub_cancel_left, hstrip, hih, hn']
        cases tokenizeLoop m r <;> rfl

/-- The indices, the copies and the removals in place amount to the splitting of the line, and
    what goes wrong is that they leave it. -/
theorem tokenize_eq {src : Bytes} (hsrc : NulFree src) {fuel : ℕ} (hf : src.length + 1 < fuel) :
    tokenize fuel src =
      match Ashd.tokenize src with
      | some ret => .ok ret
      | none => .error .beyond :=
  words_eq hsrc hf fuel (src.length + 1) [] src rfl (by omega) (by omega)

theorem returns_iff {src : Bytes} (hsrc : NulFree src) (ret : List Bytes) :
    Returns src ret ↔ Ashd.tokenize src = some ret := by
  constructor
  · rintro ⟨n, h⟩
    have := h (n + (src.length + 2)) (by omega)
    rw [tokenize_eq hsrc (by omega)] at this
    cases ht : Ashd.tokenize src with
    | none => rw [ht] at this; cases this
    | some ret' => rw [ht] at this; cases this; rfl
  · intro h
    refine ⟨src.length + 2, fun fuel hf => ?_⟩
    rw [tokenize_eq hsrc (by omega), h]

/-! ## Lines that end within a quotation -/

/-- No backslash is left without a byte behind it, and no double quote without a second one;
    a quote behind a backslash does not count. -/
def Closed (s : Bytes) : Prop := ∃ t, plain s = some t ∧ Even (t.count 34)

theorem plain_append (r : Bytes) {w : Bytes} (h : (plain w).isSome) :
    ∀ t, plain w = some t → plain (w ++ r) = (plain r).map (t ++ ·) := by
  induction w, h using escapes_induction with
  | nil =>
    rintro t ⟨⟩
    cases h : plain r <;> simp [h]
  | escape d s _ ih =>
    intro t ht
    rw [plain_escape] at ht
    rw [List.cons_append, List.cons_append, plain_escape, ih t ht]
  | cons c s _ hc ih =>
    intro t ht
    rw [plain_cons hc] at ht
    obtain ⟨t', ht', rfl⟩ := Option.map_eq_some_iff.mp ht
    rw [List.cons_append, plain_cons hc, ih t' ht', Option.map_map]
    rfl

theorem closed_append {w t : Bytes} (ht : plain w = some t) (he : Even (t.count 34)) (r : Bytes) :
    Closed (w ++ r) ↔ Closed r := by
  unfold Closed
  rw [plain_append r (by rw [ht]; rfl) t ht]
  cases plain r with
  | none => simp
  | some u => simp [List.count_append, Nat.even_add, he]

theorem plain_space {sep : Bytes} (h : ∀ c ∈ sep, isspace c = true) :
    plain sep = some sep ∧ sep.count 34 = 0 := by
  have hne : ∀ d : UInt8, isspace d = false → d ∉ sep := fun d hd hm => by
    have := h d hm
    rw [hd] at this
    cases this
  refine ⟨?_, List.count_eq_zero.mpr (hne 34 (by decide))⟩
  have h92 := hne 92 (by decide)
  clear h hne
  induction sep with
  | nil => rfl
  | cons c sep ih =>
    rw [plain_cons (fun hc => h92 (by simp [hc])), ih fun hm => h92 (List.mem_cons_of_mem _ hm)]
    rfl

/-- A word that does not end within the string is one of whose quotes is open at its end, or one
    with a backslash there. -/
theorem scanWord_eq_none {q : Bool} {s : Bytes} (h : scanWord q s = none) :
    ∀ t, plain s = some t → ¬ (Even (t.count 34) ↔ q = false) := by
  fun_induction scanWord q s with
  | case1 =>
    rintro t ⟨⟩
    simp
  | case2 => cases h
  | case3 q s ih =>
    intro t ht
    rw [plain_cons (by decide)] at ht
    obtain ⟨t', ht', rfl⟩ := Option.map_eq_some_iff.mp ht
    have := ih (Option.map_eq_none_iff.mp h) t' ht'
    rw [List.count_cons_self, Nat.even_add_one]
    cases q <;> simpa using this
  | case4 => 
    rintro t ⟨⟩
  | case5 q d s _ ih =>
    rw [plain_escape]
    exact ih (Option.map_eq_none_iff.mp h)
  | case6 => cases h
  | case7 q c s h34 h92 _ ih =>
    intro t ht
    rw [plain_cons h92] at ht
    obtain ⟨t', ht', rfl⟩ := Option.map_eq_some_iff.mp ht
    rw [List.count_cons_of_ne h34]
    exact ih (Option.map_eq_none_iff.mp h) t' ht'

theorem tokenizeLoop_isSome (m : ℕ) : ∀ s : Bytes, s.length < m →
    ((tokenizeLoop m s).isSome ↔ Closed s) := by
  induction m with
  | zero => intro s h; omega
  | succ m ih =>
    intro s hm
    have hs := List.takeWhile_append_dropWhile (p := isspace) (l := s)
    have hhead := List.head?_dropWhile_not isspace s
    have hsep := plain_space fun c hc => List.mem_takeWhile_imp (p := isspace) (l := s) hc
    have hclosed := closed_append hsep.1 (by rw [hsep.2]; exact Even.zero) (s.dropWhile isspace)
    rw [hs] at hclosed
    rw [tokenizeLoop, hclosed]
    have hls : (s.dropWhile isspace).length ≤ s.length := (List.dropWhile_sublist _).length_le
    generalize s.dropWhile isspace = rest at *
    cases rest with
    | nil => exact ⟨fun _ => ⟨[], rfl, by simp⟩, fun _ => rfl⟩
    | cons c p =>
      have hc : isspace c = false := by simpa using hhead
      cases hw : scanWord false (c :: p) with
      | none =>
        simp only [hw]
        constructor
        · intro h
          cases h
        · rintro ⟨t, ht, he⟩
          exact absurd (by simpa using he) (scanWord_eq_none hw t ht)
      | some wr =>
        obtain ⟨w, r⟩ := wr
        obtain ⟨t, ht, he⟩ := scanWord_plain hw
        have happ := scanWord_append hw
        have hw0 : 0 < w.length := List.length_pos_of_ne_nil (scanWord_ne_nil hc hw)
        have hlr : (c :: p).length = w.length + r.length := by rw [happ, List.length_append]
        simp only [hw, Option.isSome_map]
        rw [happ, closed_append ht (by simpa using he), ih r (by omega)]

/-- `tokenize` returns, with every byte it reads or copies within the line and its terminator, iff
    the line does not end within a quotation: where a quote is open the first pass does not look
    for the terminator, and it skips the terminator behind a backslash. -/
theorem tokenize_within_iff (line : Bytes) (hline : NulFree line) :
    (∃ ret, Returns line ret) ↔ Closed line := by
  rw [← tokenizeLoop_isSome (line.length + 1) line (by omega), Option.isSome_iff_exists]
  exact exists_congr fun ret => returns_iff hline ret

theorem tokenize_within_closed : ∃ ret, Returns (bytes "child \"a b\"") ret :=
  (tokenize_within_iff _ (by decide)).mpr ⟨bytes "child \"a b\"", by decide, by decide⟩

/-- The line `child "foo` is left by its terminator and beyond. -/
theorem tokenize_open_quote :
    ¬ ∀ line : Bytes, NulFree line → ∃ ret, Returns line ret := by
  intro h
  obtain ⟨ret, hret⟩ := h (bytes "child \"foo") (by decide)
  rw [returns_iff (by decide)] at hret
  have hnone : Ashd.tokenize (bytes "child \"foo") = none := by decide +kernel
  rw [hnone] at hret
  cases hret

/-! ## Writing words -/

/-- `Spells q w t`: the text `t` is a way to write the rest `w` of a word, inside of double quotes
    if `q` holds. -/
inductive Spells : Bool → Bytes → Bytes → Prop
  | done : Spells false [] []
  | opening {w t} : Spells true w t → Spells false w (34 :: t)
  | closing {w t} : Spells false w t → Spells true w (34 :: t)
  | bare {c w t} : isspace c = false → c ≠ 34 → c ≠ 92 → Spells false w t →
      Spells false (c :: w) (c :: t)
  | quoted {c w t} : c ≠ 34 → c ≠ 92 → Spells true w t → Spells true (c :: w) (c :: t)
  | escaped {q c w t} : Spells q w t → Spells q (c :: w) (92 :: c :: t)

/-- `Line words s`: the line `s` has a way to write each of the words, with white space between
    them, and possibly around them. -/
inductive Line : List Bytes → Bytes → Prop
  | blank {sep} : (∀ c ∈ sep, isspace c = true) → Line [] sep
  | word {sep w t words s} : (∀ c ∈ sep, isspace c = true) → Spells false w t → t ≠ [] →
      Line words s → (s.head?.all isspace) → Line (w :: words) (sep ++ (t ++ s))

theorem Spells.nulFree {q : Bool} {w t : Bytes} (h : Spells q w t) (hw : NulFree w) :
    NulFree t := by
  induction h with
  | done => exact nulFree_nil
  | opening _ ih => exact nulFree_cons.mpr ⟨by decide, ih hw⟩
  | closing _ ih => exact nulFree_cons.mpr ⟨by decide, ih hw⟩
  | bare _ _ _ _ ih => exact nulFree_cons.mpr ⟨(nulFree_cons.mp hw).1, ih (nulFree_cons.mp hw).2⟩
  | quoted _ _ _ ih => exact nulFree_cons.mpr ⟨(nulFree_cons.mp hw).1, ih (nulFree_cons.mp hw).2⟩
  | escaped _ ih =>
    obtain ⟨hc, hw⟩ := nulFree_cons.mp hw
    exact nulFree_cons.mpr ⟨by decide, nulFree_cons.mpr ⟨hc, ih hw⟩⟩

theorem scanWord_quote (q : Bool) (s : Bytes) :
    scanWord q (34 :: s) = (scanWord (!q) s).map fun (w, p) => (34 :: w, p) := by
  rw [scanWord.eq_def]
  cases q <;> rfl

theorem scanWord_escape (q : Bool) (d : UInt8) (s : Bytes) :
    scanWord q (92 :: d :: s) = (scanWord q s).map fun (w, p) => (92 :: d :: w, p) := by
  rw [scanWord.eq_def]
  cases q <;> rfl

theorem scanWord_cons {q : Bool} {c : UInt8} (h34 : c ≠ 34) (h92 : c ≠ 92)
    (hsp : ¬ (q = false ∧ isspace c = true)) (s : Bytes) :
    scanWord q (c :: s) = (scanWord q s).map fun (w, p) => (c :: w, p) := by
  rw [scanWord.eq_def]
  cases q with
  | false => simp [h34, h92, show isspace c = false by simpa using hsp]
  | true => simp [h34, h92]

theorem scanWord_space {s : Bytes} (hs : s.head?.all isspace) :
    scanWord false s = some ([], s) := by
  cases s with
  | nil => rfl
  | cons c s =>
    have hc : isspace c = true := hs
    have h34 : c ≠ 34 := fun h => by subst h; cases hc
    have h92 : c ≠ 92 := fun h => by subst h; cases hc
    rw [scanWord.eq_def]
    simp [h34, h92, hc]

/-- The first pass reads a spelling to its end, if white space or nothing follows. -/
theorem Spells.scanWord {q : Bool} {w t : Bytes} (h : Spells q w t) {s : Bytes}
    (hs : s.head?.all isspace) : Ashd.scanWord q (t ++ s) = some (t, s) := by
  induction h with
  | done => exact scanWord_space hs
  | opening _ ih => rw [List.cons_append, scanWord_quote, Bool.not_false, ih]; rfl
  | closing _ ih => rw [List.cons_append, scanWord_quote, Bool.not_true, ih]; rfl
  | bare hsp h34 h92 _ ih => rw [List.cons_append, scanWord_cons h34 h92 (by simp [hsp]), ih]; rfl
  | quoted h34 h92 _ ih => rw [List.cons_append, scanWord_cons h34 h92 (by simp), ih]; rfl
  | escaped _ ih => rw [List.cons_append, List.cons_append, scanWord_escape, ih]; rfl

/-- The second pass takes a spelling back to the word. -/
theorem Spells.unquote {q : Bool} {w t : Bytes} (h : Spells q w t) : Ashd.unquote t = w := by
  induction h with
  | done => rfl
  | opening _ ih => rw [unquote_quote, ih]
  | closing _ ih => rw [unquote_quote, ih]
  | bare _ h34 h92 _ ih => rw [unquote_cons h34 h92, ih]
  | quoted h34 h92 _ ih => rw [unquote_cons h34 h92, ih]
  | escaped _ ih => rw [unquote_escape, ih]

theorem Spells.head_not_space {w t : Bytes} (h : Spells false w t) :
    ∀ c ∈ t.head?, isspace c = false := by
  cases h with
  | done => simp
  | opening => simp [isspace]
  | bare hsp => simpa using hsp
  | escaped => simp [isspace]

theorem nulFree_space {sep : Bytes} (h : ∀ c ∈ sep, isspace c = true) : NulFree sep :=
  fun h0 => absurd (h 0 h0) (by decide)

theorem Line.nulFree {words : List Bytes} {s : Bytes} (h : Line words s)
    (hw : ∀ w ∈ words, NulFree w) : NulFree s := by
  induction h with
  | blank hsep => exact nulFree_space hsep
  | word hsep ht _ _ _ ih =>
    exact nulFree_append.mpr ⟨nulFree_space hsep, nulFree_append.mpr
      ⟨ht.nulFree (hw _ (by simp)), ih fun w hm => hw w (List.mem_cons_of_mem _ hm)⟩⟩

theorem dropWhile_space {sep : Bytes} (hsep : ∀ c ∈ sep, isspace c = true) {t : Bytes}
    (ht : ∀ c ∈ t.head?, isspace c = false) : (sep ++ t).dropWhile isspace = t := by
  rw [List.dropWhile_append_of_pos hsep]
  cases t with
  | nil => rfl
  | cons c t => rw [List.dropWhile_cons_of_neg (by simpa using ht c rfl)]

theorem Line.tokenizeLoop {words : List Bytes} {s : Bytes} (h : Line words s) :
    ∀ m, s.length < m → Ashd.tokenizeLoop m s = some words := by
  induction h with
  | @blank sep hsep =>
    intro m hm
    obtain ⟨m, rfl⟩ := Nat.exists_eq_succ_of_ne_zero (Nat.ne_zero_of_lt hm)
    have hdrop := dropWhile_space hsep (t := []) (by simp)
    rw [List.append_nil] at hdrop
    rw [Ashd.tokenizeLoop, hdrop]
  | @word sep w t words s hsep ht hne _ hs ih =>
    intro m hm
    obtain ⟨m, rfl⟩ := Nat.exists_eq_succ_of_ne_zero (Nat.ne_zero_of_lt hm)
    obtain ⟨c, t', rfl⟩ := List.exists_cons_of_ne_nil hne
    have hdrop := dropWhile_space hsep (t := c :: t' ++ s) ht.head_not_space
    have hscan := ht.scanWord hs
    rw [Ashd.tokenizeLoop, hdrop]
    simp only [List.cons_append] at hscan ⊢
    simp only [hscan, ht.unquote, ih m (by simp at hm; omega)]
    rfl

/-- `tokenize` takes a line apart into the words it was written for, in whatever way each of them
    was written. -/
theorem tokenize_spelled {words : List Bytes} {line : Bytes} (hw : ∀ w ∈ words, NulFree w)
    (hline : Line words line) : Returns line words :=
  (returns_iff (hline.nulFree hw) words).mpr (hline.tokenizeLoop _ (by omega))

/-- `a" "b "" c\"` has the words `a b`, the empty one and `c"`. -/
theorem tokenize_spelled_quotes :
    Returns (bytes "a\" \"b \"\" c\\\"") [bytes "a b", [], bytes "c\""] := by
  have hsp : ∀ c ∈ [(32 : UInt8)], isspace c = true := List.forall_mem_singleton.mpr rfl
  have h3 : Line [bytes "c\""] (bytes " c\\\"") :=
    .word hsp (.bare rfl (by decide) (by decide) (.escaped .done)) (by decide)
      (.blank (List.forall_mem_nil _)) rfl
  have h2 : Line [[], bytes "c\""] (bytes " \"\" c\\\"") :=
    .word hsp (.opening (.closing .done)) (by decide) h3 rfl
  have h1 : Spells false (bytes "a b") (bytes "a\" \"b") :=
    .bare rfl (by decide) (by decide) (.opening (.quoted (by decide) (by decide)
      (.closing (.bare rfl (by decide) (by decide) .done))))
  exact tokenize_spelled (by decide) (.word (List.forall_mem_nil _) h1 (by decide) h2 rfl)

end Ashd.Tokenize
