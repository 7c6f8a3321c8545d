import Ashd.Common.Bytes

/-!
# Byte-driven loops

The parsers of the programs are loops of the form
```
while(1) {
    c = getc(in);
    ...            /* break, goto fail, or go round */
}
```
in which end-of-file always fails. `scan` is this loop over any source of bytes,
with the loop body as a parameter; `scanList` is the same loop over a list.

Main results:
* `scan_eq_some`: a loop that stops has read exactly what the loop over the list
  of unread bytes reads.
* `scan_of_scanList`: on a source that does not fail, it stops when the latter does.
* `scanList_append`, `scanList_split`: the bytes that follow do not matter.
-/

namespace Ashd

/-- What the loop body does after it got a byte: go round with a new state,
    leave the loop with a result, or fail. -/
inductive Next (σ ρ : Type*)
  | more (s : σ)
  | stop (r : ρ)
  | fail

variable {α σ ρ : Type*}

/-- `while(1) { c = getc(in); ... }`, going round at most `fuel` times. -/
def scan (getc : α → Option UInt8 × α) (step : σ → UInt8 → Next σ ρ) :
    ℕ → σ → α → Option ρ × α
  | 0, _, a => (none, a)
  | fuel + 1, s, a =>
    match getc a with
    | (none, a') => (none, a')
    | (some c, a') =>
      match step s c with
      | .more s' => scan getc step fuel s' a'
      | .stop r => (some r, a')
      | .fail => (none, a')

/-- Go on with `k`, unless what came before failed: `goto fail` between two loops. -/
def andThen {ρ' : Type*} (r : Option ρ × α) (k : ρ → α → Option ρ' × α) : Option ρ' × α :=
  match r with
  | (none, a) => (none, a)
  | (some x, a) => k x a

/-- The same loop over a list of bytes, with what it leaves unread. -/
def scanList (step : σ → UInt8 → Next σ ρ) : σ → Bytes → Option (ρ × Bytes)
  | _, [] => none
  | s, c :: cs =>
    match step s c with
    | .more s' => scanList step s' cs
    | .stop r => some (r, cs)
    | .fail => none

/-- The next byte of a list. -/
def getcList : Bytes → Option UInt8 × Bytes
  | [] => (none, [])
  | c :: cs => (some c, cs)

/-- The state in which the loop is after it has gone round for every byte. -/
def feed (step : σ → UInt8 → Next σ ρ) : σ → Bytes → Option σ
  | s, [] => some s
  | s, c :: cs =>
    match step s c with
    | .more s' => feed step s' cs
    | _ => none

theorem andThen_eq_some {ρ' : Type*} {r : Option ρ × α} {k : ρ → α → Option ρ' × α} {y : ρ'}
    {a' : α} (h : andThen r k = (some y, a')) : ∃ x a, r = (some x, a) ∧ k x a = (some y, a') := by
  obtain ⟨_ | x, a⟩ := r
  · simp [andThen] at h
  · exact ⟨x, a, rfl, h⟩

theorem andThen_inv {ρ' : Type*} {r : Option ρ × α} {k : ρ → α → Option ρ' × α} {P : α → Prop}
    (hr : P r.2) (hk : ∀ x a, P a → P (k x a).2) : P (andThen r k).2 := by
  obtain ⟨_ | x, a⟩ := r
  · exact hr
  · exact hk x a hr

/-! ## The loop over a list -/

theorem scanList_append {step : σ → UInt8 → Next σ ρ} {s : σ} {l rest : Bytes} {r : ρ}
    (h : scanList step s l = some (r, rest)) (t : Bytes) :
    scanList step s (l ++ t) = some (r, rest ++ t) := by
  induction l generalizing s with
  | nil => simp [scanList] at h
  | cons c cs ih =>
    rw [List.cons_append, scanList]
    rw [scanList] at h
    cases hs : step s c with
    | more s' => rw [hs] at h; exact ih h
    | stop r' => rw [hs] at h; cases h; rfl
    | fail => rw [hs] at h; cases h

/-- A loop that stops has a part of its input that it read to the end, and
    would stop there whatever follows. -/
theorem scanList_split {step : σ → UInt8 → Next σ ρ} {s : σ} {l rest : Bytes} {r : ρ}
    (h : scanList step s l = some (r, rest)) :
    ∃ used, l = used ++ rest ∧ used ≠ [] ∧ scanList step s used = some (r, []) := by
  induction l generalizing s with
  | nil => simp [scanList] at h
  | cons c cs ih =>
    rw [scanList] at h
    cases hs : step s c with
    | more s' =>
      rw [hs] at h
      obtain ⟨used, hl, -, hu⟩ := ih h
      exact ⟨c :: used, by simp [hl], by simp, by rw [scanList, hs]; exact hu⟩
    | stop r' =>
      rw [hs] at h
      cases h
      exact ⟨[c], by simp, by simp, by rw [scanList, hs]⟩
    | fail => rw [hs] at h; cases h

theorem scanList_feed {step : σ → UInt8 → Next σ ρ} {s s' : σ} {p : Bytes}
    (h : feed step s p = some s') (l : Bytes) :
    scanList step s (p ++ l) = scanList step s' l := by
  induction p generalizing s with
  | nil => cases h; rfl
  | cons c cs ih =>
    rw [List.cons_append, scanList]
    rw [feed] at h
    cases hs : step s c with
    | more s'' => rw [hs] at h; exact ih h
    | stop r' => rw [hs] at h; cases h
    | fail => rw [hs] at h; cases h

/-- A loop that stops was fed with all but the last of the bytes that it read. -/
theorem scanList_stop {step : σ → UInt8 → Next σ ρ} {s : σ} {l rest : Bytes} {r : ρ}
    (h : scanList step s l = some (r, rest)) :
    ∃ p c s', l = p ++ c :: rest ∧ feed step s p = some s' ∧ step s' c = .stop r := by
  induction l generalizing s with
  | nil => cases h
  | cons c l ih =>
    rw [scanList] at h
    cases hs : step s c with
    | fail => rw [hs] at h; cases h
    | stop r' =>
      rw [hs] at h
      cases h
      exact ⟨[], c, s, rfl, rfl, hs⟩
    | more s₁ =>
      rw [hs] at h
      obtain ⟨p, c', s', rfl, hf, hstop⟩ := ih h
      refine ⟨c :: p, c', s', rfl, ?_, hstop⟩
      rw [feed, hs]
      exact hf

/-! ## The loop over a source of bytes -/

/-- A loop that stops has read a byte, and either stops at it or goes on with it. -/
theorem scan_succ_eq_some {getc : α → Option UInt8 × α} {step : σ → UInt8 → Next σ ρ} {fuel : ℕ}
    {s : σ} {a a' : α} {r : ρ} (h : scan getc step (fuel + 1) s a = (some r, a')) :
    ∃ c a₁, getc a = (some c, a₁) ∧
      ((∃ s', step s c = .more s' ∧ scan getc step fuel s' a₁ = (some r, a')) ∨
        step s c = .stop r ∧ a' = a₁) := by
  rw [scan] at h
  cases hc : getc a with
  | mk oc a₁ =>
    rw [hc] at h
    cases oc with
    | none => simp at h
    | some c =>
      refine ⟨c, a₁, rfl, ?_⟩
      simp only at h
      cases hs : step s c with
      | more s' => rw [hs] at h; exact .inl ⟨s', rfl, h⟩
      | stop r' => rw [hs] at h; cases h; exact .inr ⟨rfl, rfl⟩
      | fail => rw [hs] at h; cases h

/-- An invariant of the loop state holds of the state in which the loop stops. -/
theorem scan_inv {getc : α → Option UInt8 × α} {step : σ → UInt8 → Next σ ρ} (I : σ → Prop)
    (Q : ρ → Prop) (hmore : ∀ s c s', I s → step s c = .more s' → I s')
    (hstop : ∀ s c r, I s → step s c = .stop r → Q r) {fuel : ℕ} {s : σ} {a a' : α} {r : ρ}
    (hs : I s) (h : scan getc step fuel s a = (some r, a')) : Q r := by
  induction fuel generalizing s a with
  | zero => simp [scan] at h
  | succ fuel ih =>
    obtain ⟨c, a₁, -, ⟨s', hs', h⟩ | ⟨hs', -⟩⟩ := scan_succ_eq_some h
    · exact ih (hmore _ _ _ hs hs') h
    · exact hstop _ _ _ hs hs'

/-- `getc` reads the bytes `unread` of a source in order, and keeps `Ok`. -/
structure IsReader (getc : α → Option UInt8 × α) (unread : α → Bytes) (Ok : α → Prop) : Prop where
  some : ∀ a c a', Ok a → getc a = (some c, a') → Ok a' ∧ unread a = c :: unread a'
  none : ∀ a a', Ok a → getc a = (none, a') → Ok a' ∧ unread a' = unread a

section Source

variable {getc : α → Option UInt8 × α} {step : σ → UInt8 → Next σ ρ}
variable {unread : α → Bytes} {Ok : α → Prop}

theorem scan_ok (hg : IsReader getc unread Ok) {fuel : ℕ} {s : σ} {a : α} (ha : Ok a) :
    Ok (scan getc step fuel s a).2 := by
  induction fuel generalizing s a with
  | zero => exact ha
  | succ fuel ih =>
    rw [scan]
    cases hc : getc a with
    | mk oc a' =>
      cases oc with
      | none => exact (hg.none _ _ ha hc).1
      | some c =>
        have ha' := (hg.some _ _ _ ha hc).1
        simp only
        cases step s c with
        | more s' => exact ih ha'
        | stop r => exact ha'
        | fail => exact ha'

theorem scan_eq_some (hg : IsReader getc unread Ok) {fuel : ℕ} {s : σ} {a a' : α} {r : ρ}
    (ha : Ok a) (h : scan getc step fuel s a = (some r, a')) :
    scanList step s (unread a) = some (r, unread a') := by
  induction fuel generalizing s a with
  | zero => simp [scan] at h
  | succ fuel ih =>
    obtain ⟨c, a₁, hc, hrest⟩ := scan_succ_eq_some h
    obtain ⟨ha₁, hu⟩ := hg.some _ _ _ ha hc
    rw [hu, scanList]
    rcases hrest with ⟨s', hs, h⟩ | ⟨hs, rfl⟩
    · rw [hs]
      exact ih ha₁ h
    · rw [hs]

/-- A loop that stops does the same on the list of unread bytes. -/
theorem scan_getcList (hg : IsReader getc unread Ok) {fuel : ℕ} {s : σ} {a a' : α} {r : ρ}
    (ha : Ok a) (h : scan getc step fuel s a = (some r, a')) :
    scan getcList step fuel s (unread a) = (some r, unread a') ∧ Ok a' := by
  induction fuel generalizing s a with
  | zero => simp [scan] at h
  | succ fuel ih =>
    obtain ⟨c, a₁, hc, hrest⟩ := scan_succ_eq_some h
    obtain ⟨ha₁, hu⟩ := hg.some _ _ _ ha hc
    rw [hu, scan]
    simp only [getcList]
    rcases hrest with ⟨s', hs, h⟩ | ⟨hs, rfl⟩
    · rw [hs]
      exact ih ha₁ h
    · rw [hs]
      exact ⟨rfl, ha₁⟩

/-- On a source that delivers a byte whenever one is left, the loop stops when
    the loop over the list does, if it may go round for the bytes that this reads. -/
theorem scan_of_scanList (hg : IsReader getc unread Ok)
    (hgood : ∀ a, Ok a → unread a ≠ [] → (getc a).1 ≠ none) {fuel : ℕ} {s : σ} {a : α}
    {rest : Bytes} {r : ρ} (ha : Ok a) (hf : (unread a).length ≤ fuel + rest.length)
    (h : scanList step s (unread a) = some (r, rest)) :
    ∃ a', scan getc step fuel s a = (some r, a') ∧ Ok a' ∧ unread a' = rest := by
  induction fuel generalizing s a with
  | zero =>
    obtain ⟨used, hu, hne, -⟩ := scanList_split h
    have := List.length_pos_iff.mpr hne
    rw [hu, List.length_append] at hf
    omega
  | succ fuel ih =>
    have hne : unread a ≠ [] := by
      intro h0
      rw [h0] at h
      simp [scanList] at h
    rw [scan]
    cases hc : getc a with
    | mk oc a₁ =>
      cases oc with
      | none => exact absurd (by rw [hc]) (hgood a ha hne)
      | some c =>
        obtain ⟨ha₁, hu⟩ := hg.some _ _ _ ha hc
        rw [hu, scanList] at h
        rw [hu, List.length_cons] at hf
        simp only
        cases hs : step s c with
        | more s' => rw [hs] at h; exact ih ha₁ (by omega) h
        | stop r' => rw [hs] at h; cases h; exact ⟨a₁, rfl, ha₁, rfl⟩
        | fail => rw [hs] at h; cases h

end Source

end Ashd
