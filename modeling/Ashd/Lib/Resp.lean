import Ashd.Lib.Req
import Mathlib.Data.List.DropRight

/-!
# `lib/resp.c`: what a handler writes

The program that answers a request writes a status line, header lines, an empty line and the
body. A `Response` is what it has written when it is through.
-/

namespace Ashd

/-- A response. `status` is the first line, without its end. -/
structure Response where
  status : Bytes
  headers : List (Bytes × Bytes)
  body : Bytes := []
  deriving DecidableEq

/-- `printf` of an `intmax_t` with `%ji`. -/
def intmax (n : ℤ) : Bytes := if n < 0 then 45 :: numeral 10 n.natAbs else numeral 10 n.natAbs

/-- What `htmlquote` puts for a byte. -/
def htmlquoteChar (c : UInt8) : Bytes :=
  if c = 60 then bytes "&lt;"
  else if c = 62 then bytes "&gt;"
  else if c = 38 then bytes "&amp;"
  else if c = 34 then bytes "&quot;"
  else [c]

/-- `htmlquote` (lib/resp.c:65–87). -/
def htmlquote (text : Bytes) : Bytes := text.flatMap htmlquoteChar

/-- `simpleerror2v` (lib/resp.c:89–114), with the text that its format gives. This is both
    `simpleerror` and `simpleerror2`. -/
def simpleerror (code : ℕ) (msg tmp : Bytes) : Response :=
  let buf :=
    bytes "<?xml version=\"1.0\" encoding=\"US-ASCII\"?>\r\n" ++
    bytes "<!DOCTYPE html PUBLIC \"-//W3C//DTD XHTML 1.0 Strict//EN\" \"http://www.w3.org/TR/xhtml1/DTD/xhtml1-strict.dtd\">\r\n" ++
    bytes "<html xmlns=\"http://www.w3.org/1999/xhtml\" lang=\"en-US\" xml:lang=\"en-US\">\r\n" ++
    bytes "<head>\r\n" ++
    bytes "<title>" ++ msg ++ bytes "</title>\r\n" ++
    bytes "</head>\r\n" ++
    bytes "<body>\r\n" ++
    bytes "<h1>" ++ msg ++ bytes "</h1>\r\n" ++
    bytes "<p>" ++ htmlquote tmp ++ bytes "</p>\r\n" ++
    bytes "</body>\r\n" ++
    bytes "</html>\r\n"
  { status := bytes "HTTP/1.1 " ++ numeral 10 code ++ 32 :: msg
    headers := [(bytes "Content-Type", bytes "text/html"),
      (bytes "Content-Length", numeral 10 buf.length)]
    body := buf }

/-- A slash at the beginning is skipped. -/
def skipSlash : Bytes → Bytes
  | 47 :: url => url
  | url => url

/-- `adst` of `stdredir` (lib/resp.c:142–170). A colon before the first slash makes the target an
    absolute one. -/
def redirTarget (req : Hthead) (dst : Bytes) : Bytes :=
  if 58 ∈ dst.takeWhile (· ≠ 47) then dst
  else
    match getheader req (bytes "X-Ash-Protocol"), getheader req (bytes "Host") with
    | some proto, some host =>
      let path :=
        if dst.head? = some 47 then dst.drop 1
        else
          let url := skipSlash req.url
          (url.takeWhile (· ≠ 63)).rdropWhile (· ≠ 47) ++ dst ++ url.dropWhile (· ≠ 63)
      proto ++ bytes "://" ++ host ++ 47 :: path
    | _, _ => dst

/-- `stdredir` (lib/resp.c:137–179). -/
def stdredir (req : Hthead) (code : ℕ) (dst : Bytes) : Response where
  status := bytes "HTTP/1.1 " ++ numeral 10 code ++ bytes " Redirection"
  headers := [(bytes "Content-Length", bytes "0"), (bytes "Location", redirTarget req dst)]

end Ashd
