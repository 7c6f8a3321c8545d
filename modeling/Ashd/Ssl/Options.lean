import Ashd.Lib.Utils

/-!
# The parameters of the TLS handler

The loop of `handlegnussl` (ssl-gnutls.c) over the parameters that the handler is given. What the
library makes of a value is given by what its functions return.

Main results:
* `options_inOrder_iff`: the loop comes to its end with every parameter done once, in order,
  exactly if no `trust` or `crl` that is accepted comes after the first parameter.
* `options_loop`: with one in the second place it goes on for ever.
-/

namespace Ashd.Ssl

/-! ## The loop -/

/-- What the functions of the library return, for the value of a parameter:
    `gnutls_priority_init`, `gnutls_certificate_set_x509_trust_file` and
    `gnutls_certificate_set_x509_crl_file`. -/
structure Library where
  priority : Bytes → ℤ
  trustfile : Bytes → ℤ
  crlfile : Bytes → ℤ

/-- The local variables of `handlegnussl` that its loop over the parameters uses, with the files
    that have been loaded into `creds`. -/
structure Settings where
  port : ℤ := 443
  clreq : Bool := false
  crtfile : Option Bytes := none
  keyfile : Option Bytes := none
  ciphers : Option Bytes := none
  trusted : List Bytes := []
  revoked : List Bytes := []
  /-- The files loaded into the credentials of each named certificate. -/
  ncreds : List (List Bytes) := []
  ncertf : List Bytes := []
  ncertd : List Bytes := []

/-- A parameter, of `argp`, and its value, of `argv`. -/
abbrev Param : Type := Bytes × Bytes

/-- `atoi`: the value of `strtol` as an `int`. -/
def atoi (s : Bytes) : ℤ := (atoo s).bmod (2 ^ 32)

/-- The loops over `ncreds`, which count with the `i` that the loop over the parameters counts with
    (ssl-gnutls.c:654–659, 666–671): its last value, if no call fails. -/
def ncredloop (load : Bytes → ℤ) (args : List Param) :
    ℕ → List (List Bytes) → Except ℕ (ℕ × List (List Bytes))
  | i, [] => .ok (i, [])
  | i, creds :: ncreds =>
    let file := ((args.map Prod.snd)[i]?).getD []
    if load file ≠ 0 then .error 1
    else (ncredloop load args (i + 1) ncreds).map fun (i, rest) => (i, (creds ++ [file]) :: rest)

/-- The body of the loop (ssl-gnutls.c:601–682) for the parameter at `i`: the status that the
    program exits with, or `i` as it is at the end of the body, and the variables. -/
def option (lib : Library) (args : List Param) (i : ℕ) (arg : Param) (s : Settings) :
    Except ℕ (ℕ × Settings) :=
  if arg.1 = bytes "help" then .error 0
  else if arg.1 = bytes "cert" then .ok (i, { s with crtfile := some arg.2 })
  else if arg.1 = bytes "key" then .ok (i, { s with keyfile := some arg.2 })
  else if arg.1 = bytes "prio" then
    if lib.priority arg.2 ≠ 0 then .error 1 else .ok (i, { s with ciphers := some arg.2 })
  else if arg.1 = bytes "trust" then
    if lib.trustfile arg.2 ≠ 0 then .error 1
    else
      (ncredloop lib.trustfile args 0 s.ncreds).map fun (i, ncreds) =>
        (i, { s with trusted := s.trusted ++ [arg.2], ncreds := ncreds, clreq := true })
  else if arg.1 = bytes "crl" then
    if lib.crlfile arg.2 ≠ 0 then .error 1
    else
      (ncredloop lib.crlfile args 0 s.ncreds).map fun (i, ncreds) =>
        (i, { s with revoked := s.revoked ++ [arg.2], ncreds := ncreds, clreq := true })
  else if arg.1 = bytes "port" then .ok (i, { s with port := atoi arg.2 })
  else if arg.1 = bytes "ncert" then .ok (i, { s with ncertf := s.ncertf ++ [arg.2] })
  else if arg.1 = bytes "ncertdir" then .ok (i, { s with ncertd := s.ncertd ++ [arg.2] })
  else .error 1

/-- What a loop over the parameters comes to: an exit of the program or the variables at the end,
    and the parameters that it has done, in order. -/
abbrev Outcome : Type := Except ℕ Settings × List Param

/-- The loop, from `i` on. There is none if it has not come to its end after `fuel` rounds. -/
def optionLoop (lib : Library) (args : List Param) : ℕ → ℕ → Settings → Option Outcome
  | 0, _, _ => none
  | fuel + 1, i, s =>
    match args[i]? with
    | none => some (.ok s, [])
    | some arg =>
      match option lib args i arg s with
      | .error status => some (.error status, [arg])
      | .ok (i, s) => (optionLoop lib args fuel (i + 1) s).map fun r => (r.1, arg :: r.2)

/-! ## What it is to do -/

/-- Every parameter is done once, in order, until the program exits. -/
def inOrder (lib : Library) : List Param → Settings → Outcome
  | [], s => (.ok s, [])
  | arg :: args, s =>
    match option lib [] 0 arg s with
    | .error status => (.error status, [arg])
    | .ok (_, s) =>
      let r := inOrder lib args s
      (r.1, arg :: r.2)

/-- The program exits at a parameter. -/
def Exits (lib : Library) (arg : Param) : Prop :=
  match option lib [] 0 arg {} with
  | .error _ => True
  | .ok _ => False

/-- The parameters that are loaded into the named certificates, too. -/
def Reloads (arg : Param) : Prop := arg.1 = bytes "trust" ∨ arg.1 = bytes "crl"

instance (arg : Param) : Decidable (Reloads arg) :=
  inferInstanceAs (Decidable (arg.1 = bytes "trust" ∨ arg.1 = bytes "crl"))

/-! ## The body -/

/-- As there are no named certificates yet, the body does not look at the other parameters, and
    what becomes of `i` depends on the name alone. -/
theorem option_cases (lib : Library) (arg : Param) {s : Settings} (hs : s.ncreds = []) :
    (Exits lib arg ∧ ∃ status, ∀ args i, option lib args i arg s = .error status) ∨
      ¬ Exits lib arg ∧ ∃ s', s'.ncreds = [] ∧
        ∀ args i, option lib args i arg s = .ok (if Reloads arg then 0 else i, s') := by
  unfold Exits Reloads option
  by_cases h1 : arg.1 = bytes "help"
  · simp [h1]
  by_cases h2 : arg.1 = bytes "cert"
  · simp +decide [h2, hs]
  by_cases h3 : arg.1 = bytes "key"
  · simp +decide [h3, hs]
  by_cases h4 : arg.1 = bytes "prio"
  · by_cases hret : lib.priority arg.2 = 0
    · simp +decide [h4, hs, hret]
    · simp +decide [h4, hret]
  by_cases h5 : arg.1 = bytes "trust"
  · by_cases hret : lib.trustfile arg.2 = 0
    · simp +decide [h5, hs, hret, ncredloop, Except.map]
    · simp +decide [h5, hret]
  by_cases h6 : arg.1 = bytes "crl"
  · by_cases hret : lib.crlfile arg.2 = 0
    · simp +decide [h6, hs, hret, ncredloop, Except.map]
    · simp +decide [h6, hret]
  by_cases h7 : arg.1 = bytes "port"
  · simp +decide [h7, hs]
  by_cases h8 : arg.1 = bytes "ncert"
  · simp +decide [h8, hs]
  by_cases h9 : arg.1 = bytes "ncertdir"
  · simp +decide [h9, hs]
  simp [h1, h2, h3, h4, h5, h6, h7, h8, h9]

/-! ## The run -/

/-- No parameter after the first is loaded into the named certificates, unless the program exits at
    it or before it. -/
def Reloadless (lib : Library) (args : List Param) : Prop :=
  ∀ i arg, args[i + 1]? = some arg → Reloads arg →
    ∃ j ≤ i + 1, ∃ arg, args[j]? = some arg ∧ Exits lib arg

/-- The loop goes on from where it is, with the rest of the parameters in order. -/
theorem optionLoop_inOrder {lib : Library} (pre : List Param) {rest : List Param}
    (hargs : Reloadless lib (pre ++ rest)) (hpre : ∀ arg ∈ pre, ¬ Exits lib arg) {s : Settings}
    (hs : s.ncreds = []) :
    optionLoop lib (pre ++ rest) (rest.length + 1) pre.length s = some (inOrder lib rest s) := by
  induction rest generalizing pre s with
  | nil =>
    rw [optionLoop, List.append_nil, List.getElem?_eq_none le_rfl]
    rfl
  | cons arg rest ih =>
    have harg : (pre ++ arg :: rest)[pre.length]? = some arg := by simp
    rw [optionLoop, harg, inOrder]
    simp only
    obtain ⟨-, status, hopt⟩ | ⟨hno, s', hs', hopt⟩ := option_cases lib arg hs
    · rw [hopt, hopt]
    · have hpre' : ∀ a ∈ pre ++ [arg], ¬ Exits lib a := by
        intro a ha
        rcases List.mem_append.mp ha with ha | ha
        · exact hpre a ha
        · rw [List.mem_singleton.mp ha]
          exact hno
      -- `i` stays, or is the first
      have hi : (if Reloads arg then 0 else pre.length) = pre.length := by
        split_ifs with hrel
        · cases hlen : pre.length with
          | zero => rfl
          | succ i =>
            rw [hlen] at harg
            obtain ⟨j, hj, a, ha, hexit⟩ := hargs i arg harg hrel
            have hmem : a ∈ pre ++ [arg] := by
              have hsplit : pre ++ arg :: rest = (pre ++ [arg]) ++ rest := by simp
              rw [hsplit, List.getElem?_append_left (by simp [hlen]; omega)] at ha
              exact List.mem_of_getElem? ha
            exact absurd hexit (hpre' a hmem)
        · rfl
      rw [hopt, hopt, hi]
      simp only
      have hstep := ih (pre ++ [arg]) (by simpa using hargs) hpre' hs'
      rw [List.append_assoc, List.singleton_append, List.length_append, List.length_singleton]
        at hstep
      rw [List.length_cons, hstep]
      rfl

/-- The loop does not get past a parameter that sets it back. -/
theorem optionLoop_stuck {lib : Library} {args : List Param} {i : ℕ} {arg : Param}
    (harg : args[i + 1]? = some arg) (hrel : Reloads arg)
    (hno : ∀ j ≤ i + 1, ∀ arg, args[j]? = some arg → ¬ Exits lib arg) (fuel j : ℕ) (hj : j ≤ i + 1)
    {s : Settings} (hs : s.ncreds = []) : optionLoop lib args fuel j s = none := by
  induction fuel generalizing j s with
  | zero => rfl
  | succ fuel ih =>
    have hlen : i + 1 < args.length := (List.getElem?_eq_some_iff.mp harg).1
    have ha : args[j]? = some args[j] := List.getElem?_eq_getElem (by omega)
    obtain ⟨hexit, -⟩ | ⟨-, s', hs', hopt⟩ := option_cases lib args[j] hs
    · exact absurd hexit (hno j hj _ ha)
    · have hnext : (if Reloads args[j] then 0 else j) + 1 ≤ i + 1 := by
        split_ifs with hrel'
        · omega
        · -- it is not the one that sets the loop back
          have : j ≠ i + 1 := by
            rintro rfl
            rw [harg] at ha
            exact hrel' (Option.some.inj ha ▸ hrel)
          omega
      rw [optionLoop, ha]
      simp only [hopt]
      rw [ih _ hnext hs']
      rfl

/-- If the program does not exit, all of the parameters are done. -/
theorem inOrder_snd {lib : Library} {args : List Param} (h : ∀ arg ∈ args, ¬ Exits lib arg)
    {s : Settings} (hs : s.ncreds = []) : (inOrder lib args s).2 = args := by
  induction args generalizing s with
  | nil => rfl
  | cons arg args ih =>
    obtain ⟨hexit, -⟩ | ⟨-, s', hs', hopt⟩ := option_cases lib arg hs
    · exact absurd hexit (h arg List.mem_cons_self)
    · rw [inOrder, hopt]
      exact congrArg (arg :: ·) (ih (fun a ha => h a (List.mem_cons_of_mem _ ha)) hs')

/-- For every list of parameters, and all that the library makes of them: the loop comes to its end
    with each parameter done once, in order, up to where the program exits, exactly if no `trust`
    or `crl` after the first parameter is got past. -/
theorem options_inOrder_iff (lib : Library) (args : List Param) :
    (∃ fuel, optionLoop lib args fuel 0 {} = some (inOrder lib args {})) ↔
      Reloadless lib args := by
  constructor
  · rintro ⟨fuel, hloop⟩ i arg harg hrel
    by_contra hno
    push Not at hno
    rw [optionLoop_stuck harg hrel hno fuel 0 (Nat.zero_le _) rfl] at hloop
    cases hloop
  · intro hargs
    exact ⟨args.length + 1, optionLoop_inOrder [] hargs (by simp) rfl⟩

/-- A library that takes everything. -/
def succeeding : Library := ⟨fun _ => 0, fun _ => 0, fun _ => 0⟩

/-- `cert=a,trust=b`. -/
def certtrust : List Param := [(bytes "cert", bytes "a"), (bytes "trust", bytes "b")]

/-- The loop does not end. -/
theorem options_loop :
    (∀ fuel, optionLoop succeeding certtrust fuel 0 {} = none) ∧
      inOrder succeeding certtrust {} =
        (.ok { crtfile := some (bytes "a"), trusted := [bytes "b"], clreq := true }, certtrust) := by
  refine ⟨fun fuel => ?_, rfl⟩
  have htrust : certtrust[0 + 1]? = some (bytes "trust", bytes "b") := rfl
  refine optionLoop_stuck htrust (.inl rfl) ?_ fuel 0 (Nat.zero_le _) rfl
  intro j hj arg harg
  interval_cases j
  · cases harg
    exact not_false
  · cases harg
    exact not_false

end Ashd.Ssl
