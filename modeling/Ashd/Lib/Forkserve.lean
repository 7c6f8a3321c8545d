import Ashd.Lib.Req

/-!
# Transient handlers: `stdforkserve`

`stdforkserve` (lib/proc.c:132–174) starts a program for one request, with the request
in its arguments and its environment. An environment is a map from names to values.

Main result:
* `stdforkserve_env`: the value of a `REQ_` variable is that of the last header whose
  name is mapped to it.
-/

namespace Ashd

/-- The environment of a process: `getenv`. -/
abbrev Env := Bytes → Option Bytes

/-- `putenv` of a string with a `=` in it. -/
def putenv (env : Env) (s : Bytes) : Env :=
  let name := s.takeWhile (· ≠ 61)
  fun v => if v = name then some (s.drop (name.length + 1)) else env v

/-- The loop over a header name, which leaves `ebuf` (lib/proc.c:156–162). -/
def envname (name : Bytes) : Bytes := name.map fun c => if isalnum c then toupper c else 95

/-- What a program is started with. -/
structure Exec where
  args : List Bytes
  env : Env

/-- `stdforkserve` in the child process, up to `execvp`. -/
def stdforkserve (argv : List Bytes) (req : Hthead) (env : Env) : Exec :=
  let args := argv ++ [req.method, req.url, req.rest]
  let env := req.headers.foldl
    (fun env h => putenv env (bytes "REQ_" ++ envname h.1 ++ 61 :: h.2)) env
  { args := args, env := putenv env (bytes "HTTP_VERSION" ++ 61 :: req.ver) }

/-- The value of the last header whose name is mapped to `n`. -/
def lastValue (hs : List (Bytes × Bytes)) (n : Bytes) : Option Bytes :=
  (hs.reverse.find? fun h => envname h.1 == n).map Prod.snd

theorem lastValue_append (hs hs' : List (Bytes × Bytes)) (n : Bytes) :
    lastValue (hs ++ hs') n = (lastValue hs' n).or (lastValue hs n) := by
  unfold lastValue
  rw [List.reverse_append, List.find?_append]
  cases hs'.reverse.find? fun h => envname h.1 == n <;> rfl

theorem lastValue_singleton (h : Bytes × Bytes) (n : Bytes) :
    lastValue [h] n = if envname h.1 = n then some h.2 else none := by
  by_cases he : envname h.1 = n <;> simp [lastValue, he]

theorem envname_char_ne (d : UInt8) : (if isalnum d then toupper d else 95) ≠ 61 := by
  intro h
  by_cases ha : isalnum d = true
  · rw [if_pos ha] at h
    unfold toupper at h
    split_ifs at h with hl
    · have : d = 93 := by rw [UInt8.sub_eq_iff_eq_add.mp h]; decide
      subst this
      exact absurd hl (by decide)
    · subst h
      exact absurd ha (by decide)
  · rw [if_neg ha] at h
    exact absurd h (by decide)

/-- No name is mapped to one with a `=` in it. -/
theorem takeWhile_envname (pre name val : Bytes) (hpre : (61 : UInt8) ∉ pre) :
    (pre ++ envname name ++ 61 :: val).takeWhile (· ≠ 61) = pre ++ envname name := by
  refine takeWhile_sep ?_ val
  intro hmem
  rcases List.mem_append.mp hmem with hmem | hmem
  · exact hpre hmem
  · obtain ⟨d, -, hd⟩ := List.mem_map.mp hmem
    exact envname_char_ne d hd

theorem putenv_header (env : Env) (h : Bytes × Bytes) (n : Bytes) :
    putenv env (bytes "REQ_" ++ envname h.1 ++ 61 :: h.2) (bytes "REQ_" ++ n) =
      (lastValue [h] n).or (env (bytes "REQ_" ++ n)) := by
  unfold putenv
  rw [takeWhile_envname _ _ _ (by decide), lastValue_singleton]
  by_cases he : envname h.1 = n
  · subst he
    rw [if_pos rfl, if_pos rfl, List.drop_length_add_append]
    rfl
  · have : ¬ bytes "REQ_" ++ n = bytes "REQ_" ++ envname h.1 :=
      fun h0 => he (List.append_cancel_left h0).symm
    rw [if_neg this, if_neg he, Option.none_or]

theorem foldl_putenv (hs : List (Bytes × Bytes)) (env : Env) (n : Bytes) :
    hs.foldl (fun env h => putenv env (bytes "REQ_" ++ envname h.1 ++ 61 :: h.2)) env
        (bytes "REQ_" ++ n) = (lastValue hs n).or (env (bytes "REQ_" ++ n)) := by
  induction hs generalizing env with
  | nil => rfl
  | cons h hs ih =>
    rw [List.foldl_cons, ih, putenv_header, ← Option.or_assoc, ← lastValue_append]
    rfl

/-- Later headers override earlier ones, and any of them the environment there was. -/
theorem stdforkserve_env (argv : List Bytes) (req : Hthead) (env : Env) (n : Bytes) :
    (stdforkserve argv req env).env (bytes "REQ_" ++ n) =
      (lastValue req.headers n).or (env (bytes "REQ_" ++ n)) := by
  rw [← foldl_putenv]
  unfold stdforkserve putenv
  simp only
  have : ¬ bytes "REQ_" ++ n = (bytes "HTTP_VERSION" ++ 61 :: req.ver).takeWhile (· ≠ 61) := by
    intro h
    have := congrArg List.head? h
    simp [bytes] at this
  rw [if_neg this]

end Ashd
