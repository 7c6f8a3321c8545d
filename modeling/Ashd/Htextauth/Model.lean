import Ashd.Lib.Req

/-!
# The authenticator

What `htextauth` does with a request: the credentials are taken out of it, and it is passed on
if they are in the cache, or if the authentication program accepts them.

The program is given as a function of what is written to it. The cache is a list, the entry
that was added last coming first. If the child cannot be sent a request, `htextauth` exits,
which ends the run.

Main definitions:
* `credentials`: the user name and the password that come with a request.
* `ckcache`, `addcache`, `cleancache`: the cache.
* `serve`: what is done with a request.
-/

namespace Ashd.Htextauth

/-- The options `-C`, `-s` and `-r`. -/
structure Config where
  docache : Bool := true
  reqssl : Bool := false
  realm : Option Bytes := none

/-- `struct cache` (src/htextauth.c:37–41). -/
structure Cache where
  user : Bytes
  pass : Bytes
  lastuse : ℤ
  deriving DecidableEq

/-- The variables `cache` and `lastclean`. -/
structure State where
  cache : List Cache := []
  lastclean : ℤ := 0
  deriving DecidableEq

/-- A response that `htextauth` writes itself: the arguments of `simpleerror` or `authinval`, or
    `reqauth`, with the realm. -/
inductive Reply
  | simpleerror (code : ℕ) (msg text : String)
  | reqauth (realm : Bytes)
  | authinval (realm : Bytes) (msg : Bytes)
  deriving DecidableEq

/-- How a run of the authentication program ends: with its output, if it can be run at all, and
    whether it has exited with status 0. -/
inductive Exit
  | unforked
  | unwaited
  | exited (ok : Bool) (out : Bytes)
  deriving DecidableEq

/-- A request, the time at which it comes, and how the authentication program would end if it
    was run for it and read `stdin`. -/
structure Arrival where
  now : ℤ
  req : Hthead
  authcmd : Bytes → Exit

/-- What happens while a request is served. -/
inductive Effect
  | ran (stdin : Bytes) (result : Exit)
  | replied (reply : Reply)
  | passed (req : Hthead)
  deriving DecidableEq

/-! ## Credentials -/

/-- `rn` in `reqauth` and `authinval`. -/
def Config.rn (conf : Config) : Bytes := conf.realm.getD (bytes "auth")

def badCredentials : Reply := .simpleerror 400 "Invalid request" "The authentication data is invalid."

/-- `serve` up to the look in the cache (src/htextauth.c:183–209): the request without the
    credentials, the user name and the password. -/
def credentials (conf : Config) (req : Hthead) : Except Reply (Hthead × Bytes × Bytes) :=
  if conf.reqssl ∧ getheader req (bytes "X-Ash-Protocol") ≠ some (bytes "https") then
    .error (.simpleerror 403 "Forbidden" "The requested resource must be requested over HTTPS.")
  else
    match getheader req (bytes "Authorization") with
    | none => .error (.reqauth conf.rn)
    | some raw =>
      if hasPrefixCase (bytes "basic ") raw = false then .error (.reqauth conf.rn)
      else
        match base64decode (raw.drop 6) with
        | none =>
          .error (.simpleerror 400 "Invalid request" "The authentication data is not proper base64.")
        | some dec =>
          let req := headrmheader req (bytes "Authorization")
          let dec := cstr dec
          -- a `char` above 127 is negative, and so it is below 32
          if dec.any fun c => decide (c < 32 ∨ 128 ≤ c) then .error badCredentials
          else if 58 ∉ dec then .error badCredentials
          else
            let user := dec.takeWhile (· ≠ 58)
            .ok (req, user, dec.drop (user.length + 1))

/-! ## The cache -/

/-- `!strcmp(user, c->user) && !strcmp(pass, c->pass)`. -/
def Cache.holds (c : Cache) (user pass : Bytes) : Bool := c.user == user && c.pass == pass

/-- `ckcache` (src/htextauth.c:139–150): the cache with the entry refreshed, if there is one. -/
def ckcache (now : ℤ) (user pass : Bytes) : List Cache → Option (List Cache)
  | [] => none
  | c :: cache =>
    if c.holds user pass then some ({ c with lastuse := now } :: cache)
    else (ckcache now user pass cache).map (c :: ·)

/-- `addcache` (src/htextauth.c:152–165). -/
def addcache (now : ℤ) (user pass : Bytes) (cache : List Cache) : List Cache :=
  ⟨user, pass, now⟩ :: cache

/-- `cleancache(0)` (src/htextauth.c:117–137). -/
def cleancache (now : ℤ) (s : State) : State where
  cache := s.cache.filter fun c => ¬ now - c.lastuse > 3600
  lastclean := now

/-! ## Serving -/

/-- What the authentication program reads. -/
def stdin (user pass : Bytes) : Bytes := user ++ 10 :: pass ++ [10]

/-- `auth` (src/htextauth.c:228–296): the reply, unless the credentials are accepted. -/
def auth (conf : Config) (result : Exit) : Option Reply :=
  match result with
  | .unforked => some (.simpleerror 500 "Server Error" "An internal error occurred.")
  | .unwaited => some (.simpleerror 500 "Server Error" "An internal error occurred.")
  | .exited true _ => none
  | .exited false out =>
    let msg := if out.length > 0 then cstr out else bytes "The supplied credentials are invalid."
    some (.authinval conf.rn msg)

/-- `serve2` (src/htextauth.c:167–174). -/
def serve2 (req : Hthead) (user : Bytes) : Effect :=
  .passed (headappheader req (bytes "X-Ash-Remote-User") user)

/-- `serve` from the look in the cache on, up to `out` (src/htextauth.c:210–219). -/
def check (conf : Config) (s : State) (a : Arrival) (req : Hthead) (user pass : Bytes) :
    List Effect × State :=
  match if conf.docache then ckcache a.now user pass s.cache else none with
  | some cache => ([serve2 req user], { s with cache := cache })
  | none =>
    let result := a.authcmd (stdin user pass)
    match auth conf result with
    | some reply => ([.ran (stdin user pass) result, .replied reply], s)
    | none =>
      ([.ran (stdin user pass) result, serve2 req user],
        if conf.docache then { s with cache := addcache a.now user pass s.cache } else s)

/-- `serve` up to `out` (src/htextauth.c:181–219). -/
def answer (conf : Config) (s : State) (a : Arrival) : List Effect × State :=
  match credentials conf a.req with
  | .error reply => ([.replied reply], s)
  | .ok (req, user, pass) => check conf s a req user pass

/-- `serve` (src/htextauth.c:176–226). -/
def serve (conf : Config) (s : State) (a : Arrival) : List Effect × State :=
  let (effects, s) := answer conf s a
  (effects, if conf.docache ∧ a.now - s.lastclean > 60 then cleancache a.now s else s)

/-- The state after some requests have been served. -/
def after (conf : Config) (as : List Arrival) : State :=
  as.foldl (fun s a => (serve conf s a).2) {}

theorem after_concat (conf : Config) (as : List Arrival) (a : Arrival) :
    after conf (as ++ [a]) = (serve conf (after conf as) a).2 := by
  unfold after
  rw [List.foldl_append, List.foldl_cons, List.foldl_nil]

/-- Credentials are accepted when the program ends successfully. -/
theorem auth_eq_none {conf : Config} {result : Exit} (h : auth conf result = none) :
    ∃ out, result = .exited true out := by
  cases result with
  | unforked => cases h
  | unwaited => cases h
  | exited ok out =>
    cases ok with
    | false => cases h
    | true => exact ⟨out, rfl⟩

end Ashd.Htextauth
