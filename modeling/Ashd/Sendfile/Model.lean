import Ashd.Lib.Forkserve
import Ashd.Sendfile.Common

/-!
# `sendfile.c`: static files from a transient handler

The program is started for one request, which it finds in its arguments and its environment. It
writes the response to its standard output, or ends without one.
-/

namespace Ashd.Sendfile

/-! ## Options -/

/-- What the loop over `getopt` leaves: the arguments of the options, and the arguments that
    belong to none. `ignrest` is set with `file`. -/
structure Opts where
  contype : Option Bytes := none
  file : Option Bytes := none
  args : List Bytes := []
  deriving DecidableEq

/-- The `switch` on the option `c`. -/
def Opts.set (o : Opts) (c : UInt8) (optarg : Bytes) : Opts :=
  if c = 99 then { o with contype := some optarg } else { o with file := some optarg }

/-- The loop over `getopt(argc, argv, "c:f:")`, which takes options from anywhere before a `--`.
    There is none for an unknown option, or one that lacks its argument. -/
def getopts : List Bytes → Opts → Option Opts
  | [], o => some o
  | a :: argv, o =>
    if a = [45, 45] then some { o with args := o.args ++ argv }
    else
      match a with
      | 45 :: c :: optarg =>
        if c = 99 ∨ c = 102 then
          if optarg = [] then
            match argv with
            | [] => none
            | optarg :: argv => getopts argv (o.set c optarg)
          else getopts argv (o.set c optarg)
        else none
      | a => getopts argv { o with args := o.args ++ [a] }

/-! ## Sending -/

/-- `passdata` (sendfile.c:47–77) on what can be read. A `maxlen` that is not positive is no bound. -/
def passdata : ℕ → Bytes → ℤ → Bytes
  | 0, _, _ => []
  | fuel + 1, data, maxlen =>
    let len := if maxlen > 0 ∧ 65536 > maxlen then maxlen.toNat else 65536
    let buf := data.take len
    if buf = [] then []
    else if maxlen > 0 then
      if maxlen - buf.length ≤ 0 then buf
      else buf ++ passdata fuel (data.drop len) (maxlen - buf.length)
    else buf ++ passdata fuel (data.drop len) maxlen

/-- `checkcache` (sendfile.c:131–144). -/
def checkcache (w : World) (sb : File) (hdr : Option Bytes) : Option Response :=
  if NotModified w sb hdr then
    some {
      status := bytes "HTTP/1.1 304 Not Modified"
      headers := [
        (bytes "Date", w.fmthttpdate w.now),
        (bytes "Content-Length", bytes "0")] }
  else none

/-- `sendwhole` (sendfile.c:146–159). -/
def sendwhole (w : World) (sb : File) (contype : Bytes) (enctype : Option Bytes) (head : Bool) :
    Response where
  status := bytes "HTTP/1.1 200 OK"
  headers := [(bytes "Content-Type", contype)] ++ encoding enctype ++ [
    (bytes "Content-Length", intmax sb.size),
    (bytes "Last-Modified", w.fmthttpdate sb.mtime),
    (bytes "Date", w.fmthttpdate w.now)]
  body := if head then [] else passdata (sb.content.length + 1) sb.content (-1)

/-- `sendrange` (sendfile.c:161–229). -/
def sendrange (w : World) (sb : File) (contype : Bytes) (enctype : Option Bytes) (spec : Bytes)
    (head : Bool) : Response :=
  match rangespec sb.size spec with
  | .whole => sendwhole w sb contype enctype head
  | .unsatisfiable => {
      status := bytes "HTTP/1.1 416 Not satisfiable"
      headers := [
        (bytes "Content-Range", bytes "*/" ++ intmax sb.size),
        (bytes "Content-Length", bytes "0"),
        (bytes "Last-Modified", w.fmthttpdate sb.mtime),
        (bytes "Date", w.fmthttpdate w.now)] }
  | .slice start stop =>
    if ¬ sb.seekable then
      simpleerror 500 (bytes "Internal Error")
        (bytes "Could not seek properly to beginning of requested byte range.")
    else {
      status := bytes "HTTP/1.1 206 Partial content"
      headers := [
        (bytes "Content-Range", bytes "bytes " ++ intmax start ++ 45 :: intmax (stop - 1) ++
          47 :: intmax sb.size),
        (bytes "Content-Length", intmax (stop - start)),
        (bytes "Content-Type", contype)] ++ encoding enctype ++ [
        (bytes "Last-Modified", w.fmthttpdate sb.mtime),
        (bytes "Date", w.fmthttpdate w.now)]
      body := if head then []
        else passdata (sb.content.length + 1) (sb.content.drop start.toNat) (stop - start) }

/-- `main` (sendfile.c:236–303): what is written, if anything is. The first argument is the name
    of the program. -/
def main (w : World) (x : Exec) : Option Response :=
  match getopts (x.args.drop 1) {} with
  | none => none
  | some o =>
    match o.args with
    | method :: _ :: rest :: _ =>
      match o.file.or (x.env (bytes "REQ_X_ASH_FILE")) with
      | none => none
      | some file =>
        if o.file = none ∧ rest ≠ [] then
          some (simpleerror 404 (bytes "Not Found")
            (bytes "The requested URL has no corresponding resource."))
        else
          let hdr := match x.env (bytes "REQ_X_ASH_COMPRESS") with
            | some _ => x.env (bytes "REQ_ACCEPT_ENCODING")
            | none => some []
          match ccopen w file hdr with
          | none =>
            some (simpleerror 500 (bytes "Internal Error")
              (bytes "The server could not access its own data."))
          | some (sb, enctype) =>
            match ishead method with
            | none =>
              some (simpleerror 405 (bytes "Method not allowed")
                (bytes "The requested method is not defined for this resource."))
            | some head =>
              let contype := match o.contype with
                | some contype => contype
                | none =>
                  match x.env (bytes "REQ_X_ASH_CONTENT_TYPE") with
                  | some hdr => hdr
                  | none => getmimetype w file
              let contype := ckctype w contype
              match checkcache w sb (x.env (bytes "REQ_IF_MODIFIED_SINCE")) with
              | some resp => some resp
              | none =>
                match x.env (bytes "REQ_RANGE") with
                | some hdr => some (sendrange w sb contype enctype hdr head)
                | none => some (sendwhole w sb contype enctype head)
    | _ => none

/-! ## What the functions do -/

/-- With fuel for all of the data, `passdata` passes it, up to the bound. -/
theorem passdata_eq {fuel : ℕ} {data : Bytes} {maxlen : ℤ} (h : data.length < fuel) :
    passdata fuel data maxlen = if 0 < maxlen then data.take maxlen.toNat else data := by
  induction fuel generalizing data maxlen with
  | zero => omega
  | succ fuel ih =>
    unfold passdata
    simp only
    set len := if maxlen > 0 ∧ 65536 > maxlen then maxlen.toNat else 65536 with hlen
    have hpos : 0 < len := by rw [hlen]; split_ifs <;> omega
    by_cases hnil : data = []
    · subst hnil
      simp
    have hdata : 0 < data.length := List.length_pos_of_ne_nil hnil
    have hbuf : data.take len ≠ [] := by
      rw [Ne, List.take_eq_nil_iff]
      simp only [hnil, or_false]
      omega
    have hbl : (data.take len).length = min len data.length := List.length_take
    have hrest : (data.drop len).length < fuel := by
      rw [List.length_drop]
      omega
    rw [if_neg hbuf]
    by_cases hmax : 0 < maxlen
    · rw [if_pos hmax, if_pos hmax]
      by_cases hlast : maxlen - (data.take len).length ≤ 0
      · -- the bound is reached
        rw [if_pos hlast]
        have : len = maxlen.toNat := by
          rw [hbl] at hlast
          rw [hlen] at hlast ⊢
          split_ifs at hlast ⊢ <;> omega
        rw [this]
      · rw [if_neg hlast, ih hrest, if_pos (by omega)]
        by_cases hshort : data.length ≤ len
        · rw [List.take_of_length_le hshort, List.drop_of_length_le hshort, List.take_nil,
            List.append_nil, List.take_of_length_le]
          rw [hbl] at hlast
          omega
        · have hlen' : (data.take len).length = len := by omega
          rw [hlen'] at hlast ⊢
          have : maxlen.toNat = len + (maxlen - len).toNat := by omega
          rw [this, List.take_add]
    · rw [if_neg hmax, if_neg hmax, ih hrest, if_neg hmax, List.take_append_drop]

/-- An argument that `getopt` takes for an option, or for the end of the options. -/
def OptionLike (a : Bytes) : Prop := a.head? = some 45 ∧ 1 < a.length

instance (a : Bytes) : Decidable (OptionLike a) := inferInstanceAs (Decidable (_ ∧ _))

theorem optionLike_iff {a : Bytes} : OptionLike a ↔ ∃ c s, a = 45 :: c :: s := by
  constructor
  · rintro ⟨h45, hlen⟩
    cases a with
    | nil => exact absurd hlen (by simp)
    | cons x a =>
      cases a with
      | nil => exact absurd hlen (by simp)
      | cons c s =>
        have : x = 45 := by simpa using h45
        exact ⟨c, s, by rw [this]⟩
  · rintro ⟨c, s, rfl⟩
    exact ⟨rfl, by simp⟩

/-- Arguments without options are left as they are. -/
theorem getopts_plain {argv : List Bytes} {o : Opts} (h : ∀ a ∈ argv, ¬ OptionLike a) :
    getopts argv o = some { o with args := o.args ++ argv } := by
  induction argv generalizing o with
  | nil => simp [getopts]
  | cons a argv ih =>
    have ha : ¬ OptionLike a := h a (by simp)
    have ih := fun o => ih (o := o) fun x hx => h x (List.mem_cons_of_mem _ hx)
    have hne : a ≠ [45, 45] := by
      rintro rfl
      exact ha (by decide)
    unfold getopts
    rw [if_neg hne]
    split
    · exact absurd (optionLike_iff.mpr ⟨_, _, rfl⟩) ha
    · rw [ih]
      simp

@[simp] theorem args_set (o : Opts) (c : UInt8) (optarg : Bytes) :
    (o.set c optarg).args = o.args := by
  unfold Opts.set
  split_ifs <;> rfl

/-- What is taken for no option and no argument of one: all of the arguments, or fewer. -/
theorem length_args {argv : List Bytes} {o o' : Opts} (h : getopts argv o = some o') :
    o'.args.length ≤ o.args.length + argv.length ∧
      ((∃ a ∈ argv, OptionLike a) → o'.args.length < o.args.length + argv.length) := by
  fun_induction getopts argv o with
  | case1 o =>
    cases h
    simp
  | case2 o argv =>
    cases h
    simp
  | case3 => exact absurd h (by simp)
  | case4 o c _ optarg argv _ ih =>
    have := (ih h).1
    rw [args_set] at this
    simp only [List.length_cons]
    omega
  | case5 argv o c optarg _ _ _ ih =>
    have := (ih h).1
    rw [args_set] at this
    simp only [List.length_cons]
    omega
  | case6 => exact absurd h (by simp)
  | case7 a argv o hno _ ih =>
    obtain ⟨hle, hlt⟩ := ih h
    simp only [List.length_append, List.length_cons, List.length_nil] at hle hlt ⊢
    refine ⟨by omega, ?_⟩
    rintro ⟨b, hb, hopt⟩
    rcases List.mem_cons.mp hb with rfl | hb
    · -- it would have been taken for one
      obtain ⟨c, s, rfl⟩ := optionLike_iff.mp hopt
      exact absurd rfl (hno c s)
    · have := hlt ⟨b, hb, hopt⟩
      omega

end Ashd.Sendfile
