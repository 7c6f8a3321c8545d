import Ashd.Lib.Req
import Ashd.Sendfile.Model

/-!
# `psendfile.c`: static files from a persistent handler

One thread of the program serves one request, which it has as a `struct hthead`, and writes the
response to the socket that came with it.
-/

namespace Ashd.Psendfile

open Ashd.Sendfile (World File ccopen ckctype getmimetype ishead NotModified encoding rangespec)

/-- `passdata` (psendfile.c:122–141) on what can be read, with `feof(in)` and `total`. A negative
    `max` is no bound. -/
def passdata : ℕ → Bytes → Bool → ℕ → ℤ → Bytes
  | 0, _, _, _, _ => []
  | fuel + 1, data, eof, total, max =>
    if ¬ eof ∧ (max < 0 ∨ total < max) then
      let read := if max ≥ 0 then min (max - total).toNat 8192 else 8192
      let buf := data.take read
      buf ++ passdata fuel (data.drop read) (data.length < read) (total + buf.length) max
    else []

/-- `checkcache` (psendfile.c:106–120). -/
def checkcache (w : World) (req : Hthead) (sb : File) : Option Response :=
  if NotModified w sb (getheader req (bytes "If-Modified-Since")) then
    some {
      status := bytes "HTTP/1.1 304 Not Modified"
      headers := [
        (bytes "Date", w.fmthttpdate w.now),
        (bytes "Content-Length", bytes "0")] }
  else none

/-- `sendwhole` (psendfile.c:143–155). -/
def sendwhole (w : World) (sb : File) (contype : Bytes) (enctype : Option Bytes) (head : Bool) :
    Response where
  status := bytes "HTTP/1.1 200 OK"
  headers := [(bytes "Content-Type", contype)] ++ encoding enctype ++ [
    (bytes "Content-Length", intmax sb.size),
    (bytes "Last-Modified", w.fmthttpdate sb.mtime),
    (bytes "Date", w.fmthttpdate w.now)]
  body := if head then [] else passdata (sb.content.length + 1) sb.content false 0 (-1)

/-- `sendrange` (psendfile.c:157–222). Unlike that of `sendfile`, it does not write `enctype`. -/
def sendrange (w : World) (sb : File) (contype : Bytes) (enctype : Option Bytes) (spec : Bytes)
    (head : Bool) : Response :=
  match rangespec sb.size spec with
  | .whole => sendwhole w sb contype enctype head
  | .unsatisfiable => {
      status := bytes "HTTP/1.1 416 Not satisfiable"
      headers := [
        (bytes "Content-Range", bytes "*/" ++ intmax sb.size),
        (bytes "Content-Length", bytes "0"),
        (bytes "Last-Modified", w.fmthttpdate sb.mtime),
        (bytes "Date", w.fmthttpdate w.now)] }
  | .slice start stop =>
    if ¬ sb.seekable then
      simpleerror 500 (bytes "Internal Error")
        (bytes "Could not seek properly to beginning of requested byte range.")
    else {
      status := bytes "HTTP/1.1 206 Partial content"
      headers := [
        (bytes "Content-Range", bytes "bytes " ++ intmax start ++ 45 :: intmax (stop - 1) ++
          47 :: intmax sb.size),
        (bytes "Content-Length", intmax (stop - start)),
        (bytes "Content-Type", contype),
        (bytes "Last-Modified", w.fmthttpdate sb.mtime),
        (bytes "Date", w.fmthttpdate w.now)]
      body := if head then []
        else passdata (sb.content.length + 1) (sb.content.drop start.toNat) false 0 (stop - start) }

/-- `serve` (psendfile.c:224–284): what is written to the socket. -/
def serve (w : World) (req : Hthead) : Response :=
  match getheader req (bytes "X-Ash-File") with
  | none =>
    simpleerror 500 (bytes "Internal Error") (bytes "The server is incorrectly configured.")
  | some file =>
    if req.rest ≠ [] then
      simpleerror 404 (bytes "Not Found")
        (bytes "The requested URL has no corresponding resource.")
    else
      let hdr := match getheader req (bytes "X-Ash-Compress") with
        | some _ => getheader req (bytes "Accept-Encoding")
        | none => some []
      match ccopen w file hdr with
      | none =>
        simpleerror 500 (bytes "Internal Error")
          (bytes "The server could not access its own data.")
      | some (sb, enctype) =>
        match ishead req.method with
        | none =>
          simpleerror 405 (bytes "Method not allowed")
            (bytes "The requested method is not defined for this resource.")
        | some head =>
          let contype := match getheader req (bytes "X-Ash-Content-Type") with
            | none => getmimetype w file
            | some hdr => hdr
          let contype := ckctype w contype
          match checkcache w req sb with
          | some resp => resp
          | none =>
            match getheader req (bytes "Range") with
            | some hdr => sendrange w sb contype enctype hdr head
            | none => sendwhole w sb contype enctype head

theorem passdata_eof (fuel : ℕ) (data : Bytes) (total : ℕ) (max : ℤ) :
    passdata fuel data true total max = [] := by
  cases fuel with
  | zero => rfl
  | succ fuel => simp [passdata]

/-- With fuel for all of the data, `passdata` passes it, up to the bound. -/
theorem passdata_eq {fuel : ℕ} {data : Bytes} {total : ℕ} {max : ℤ} (h : data.length < fuel) :
    passdata fuel data false total max =
      if max < 0 then data else data.take (max - total).toNat := by
  induction fuel generalizing data total with
  | zero => omega
  | succ fuel ih =>
    unfold passdata
    simp only [Bool.false_eq_true, not_false_eq_true, true_and]
    set read := if max ≥ 0 then min (max - total).toNat 8192 else 8192 with hread
    by_cases hmore : max < 0 ∨ total < max
    · have hpos : 0 < read := by rw [hread]; split_ifs <;> omega
      rw [if_pos hmore]
      by_cases heof : data.length < read
      · -- `fread` reads all there is
        rw [decide_eq_true heof, passdata_eof, List.append_nil, List.take_of_length_le heof.le]
        split_ifs with hmax
        · rfl
        · rw [List.take_of_length_le]
          rw [hread] at heof
          split_ifs at heof <;> omega
      · have hlen : (data.take read).length = read := by
          rw [List.length_take]
          omega
        have hrest : (data.drop read).length < fuel := by
          rw [List.length_drop]
          omega
        rw [decide_eq_false heof, ih hrest, hlen]
        split_ifs with hmax
        · exact List.take_append_drop _ _
        · have : (max - total).toNat = read + (max - (total + read : ℕ)).toNat := by
            rw [hread]
            split_ifs <;> omega
          rw [this, List.take_add]
    · have hmax : ¬ max < 0 := by omega
      have : (max - total).toNat = 0 := by omega
      rw [if_neg hmore, if_neg hmax, this, List.take_zero]

end Ashd.Psendfile
