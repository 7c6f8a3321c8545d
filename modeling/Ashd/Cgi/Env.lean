import Ashd.Lib.Forkserve

/-!
# The CGI environment

What `mkcgienv` of src/callscgi.c and of src/callfcgi.c tells a program about a request. The two
make the same variables, but for `SCGI`; only how these are encoded differs.

* `splitUrl`: the script name, the path and the query of a URL.
* `cgienv`: the variables, in the order in which they are appended.
-/

namespace Ashd.Cgi

/-! ## The URL -/

/-- The values of `SCRIPT_NAME`, `PATH_INFO` and `QUERY_STRING`. -/
structure Split where
  scriptName : Bytes
  pathInfo : Bytes
  queryString : Bytes
  deriving DecidableEq

/-- `if((qp = strchr(url, '?')) != NULL) *(qp++) = 0;`: the URL that is left, and `qp`. -/
def cutQuery (url : Bytes) : Bytes × Option Bytes :=
  match url.dropWhile (· ≠ 63) with
  | [] => (url, none)
  | _ :: qp => (url.takeWhile (· ≠ 63), some qp)

/-- `*rest && (strlen(url) >= strlen(rest)) && !strcmp(rest, url + strlen(url) - strlen(rest))`. -/
def endsWith (url rest : Bytes) : Bool :=
  !rest.isEmpty && decide (url.length ≥ rest.length) && url.drop (url.length - rest.length) == rest

/-- The URL in `mkcgienv` (src/callscgi.c:424–446, src/callfcgi.c:461–483). The path may have a
    NUL in it, at which `"%s"` ends. -/
def splitUrl (url rest : Bytes) : Split :=
  let (url, qp) := cutQuery url
  let url := if endsWith url rest then url.take (url.length - rest.length) else url
  let pi := match unquoteurl rest with
    | none => rest
    | some pi => pi
  if url = bytes "/" then ⟨[], cstr (47 :: cstr pi), qp.getD []⟩
  else ⟨url, cstr pi, qp.getD []⟩

/-! ## The variables -/

/-- A call that appends a variable: `bufaddenv` with what its format expands to, or one that
    appends a name and a value as they are. -/
inductive Entry
  | fmt (name text : Bytes)
  | kv (name val : Bytes)
  deriving DecidableEq

/-- The name and the value, which are C strings. -/
def Entry.pair : Entry → Bytes × Bytes
  | .fmt name text => (cstr name, cstr text)
  | .kv name val => (cstr name, cstr val)

/-- `absolutify` (src/callscgi.c:397–410), with the current directory. -/
def absolutify (cwd file : Bytes) : Bytes :=
  if file.head? ≠ some 47 then cwd ++ 47 :: file else file

/-- `if((h = getheader(req, hdr)) != NULL) bufaddenv(dst, name, "%s", h);` -/
def headerEnv (req : Hthead) (hdr name : Bytes) : List Entry :=
  match getheader req hdr with
  | none => []
  | some h => [.fmt name h]

/-- The calls of `mkcgienv` (src/callscgi.c:413–484, src/callfcgi.c:450–520). `scgi` are those
    that only the one of them makes. -/
def cgienv (scgi : List Entry) (cwd : Bytes) (req : Hthead) : List Entry :=
  let url := splitUrl req.url req.rest
  [.fmt (bytes "SERVER_SOFTWARE") (bytes "ashd/0.13"),
    .fmt (bytes "GATEWAY_INTERFACE") (bytes "CGI/1.1")] ++ scgi ++
  [.fmt (bytes "SERVER_PROTOCOL") req.ver,
    .fmt (bytes "REQUEST_METHOD") req.method,
    .fmt (bytes "REQUEST_URI") req.url,
    .fmt (bytes "PATH_INFO") url.pathInfo,
    .fmt (bytes "SCRIPT_NAME") url.scriptName,
    .fmt (bytes "QUERY_STRING") url.queryString] ++
  headerEnv req (bytes "Host") (bytes "SERVER_NAME") ++
  headerEnv req (bytes "X-Ash-Server-Address") (bytes "SERVER_ADDR") ++
  headerEnv req (bytes "X-Ash-Server-Port") (bytes "SERVER_PORT") ++
  headerEnv req (bytes "X-Ash-Remote-User") (bytes "REMOTE_USER") ++
  (if getheader req (bytes "X-Ash-Protocol") = some (bytes "https") then
    [.fmt (bytes "HTTPS") (bytes "on")] else []) ++
  headerEnv req (bytes "X-Ash-Address") (bytes "REMOTE_ADDR") ++
  headerEnv req (bytes "X-Ash-Port") (bytes "REMOTE_PORT") ++
  headerEnv req (bytes "Content-Type") (bytes "CONTENT_TYPE") ++
  (match getheader req (bytes "Content-Length") with
    | some h => [.fmt (bytes "CONTENT_LENGTH") h]
    | none => [.fmt (bytes "CONTENT_LENGTH") (bytes "0")]) ++
  (match getheader req (bytes "X-Ash-File") with
    | some h => [.fmt (bytes "SCRIPT_FILENAME") (absolutify cwd h)]
    | none => []) ++
  req.headers.map fun h => .kv (envname (bytes "HTTP_" ++ h.1)) h.2

end Ashd.Cgi
