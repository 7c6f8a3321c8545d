import Ashd.Common.Message
import Ashd.Common.Regex
import Ashd.Lib.Resp

/-!
# HTTP dates in lib/resp.c

`fmthttpdate` writes a time as a date, and `parsehttpdate` reads one with a regular expression,
from the offsets of its groups. `gmtime` and `timegm` are parameters.

Main results:
* `parsehttpdate_str`: what is made of a date that the expression matches.
* `httpdate_roundtrip`: a time is read as what was written, and a numeric zone as its offset.
-/

namespace Ashd

open Regex

/-! ## Writing dates -/

/-- The fields of `struct tm` that `timegm` looks at. -/
structure Clock where
  year : ℤ
  mon : ℤ
  mday : ℤ
  hour : ℤ
  min : ℤ
  sec : ℤ

/-- Those that `gmtime` fills in. -/
structure Tm extends Clock where
  wday : ℤ

def days : List Bytes := ["Mon", "Tue", "Wed", "Thu", "Fri", "Sat", "Sun"].map bytes

def months : List Bytes :=
  ["Jan", "Feb", "Mar", "Apr", "May", "Jun", "Jul", "Aug", "Sep", "Oct", "Nov", "Dec"].map bytes

/-- `printf` with `%02i`. -/
def int02 (n : ℤ) : Bytes := if (intmax n).length < 2 then 48 :: intmax n else intmax n

/-- `fmthttpdate` (lib/resp.c:181–191). -/
def fmthttpdate (gmtime : ℤ → Tm) (time : ℤ) : Bytes :=
  let tm := gmtime time
  days.getD ((tm.wday + 6).tmod 7).toNat [] ++ bytes ", " ++ intmax tm.mday ++ bytes " " ++
    months.getD tm.mon.toNat [] ++ bytes " " ++ intmax (tm.year + 1900) ++ bytes " " ++
    int02 tm.hour ++ bytes ":" ++ int02 tm.min ++ bytes ":" ++ int02 tm.sec ++ bytes " GMT"

/-! ## Reading dates -/

/-- `[A-Z]`, in either case and in the C locale. -/
def isalpha (c : UInt8) : Bool := (65 ≤ c && c ≤ 90) || (97 ≤ c && c ≤ 122)

/-- `([A-Z]+)|[+-]([0-9]{2})([0-9]{2})`. -/
def zonespec : Regex UInt8 :=
  .alt (.group 8 (.plus isalpha))
    (seqs [.times (fun c => c == 43 || c == 45) 1, .group 9 (.times isdigit 2),
      .group 10 (.times isdigit 2)])

/-- The regular expression of `parsehttpdate` between `^` and `$` (lib/resp.c:223). -/
def spec : Regex UInt8 :=
  seqs [.times isalpha 3, .lit (bytes ","), .plus (· == 32), .group 1 (.plus isdigit),
    .plus (· == 32), .group 2 (.times isalpha 3), .plus (· == 32), .group 3 (.plus isdigit),
    .plus (· == 32), .group 4 (.times isdigit 2), .lit (bytes ":"), .group 5 (.times isdigit 2),
    .lit (bytes ":"), .group 6 (.times isdigit 2), .plus (· == 32),
    .group 7 zonespec]

/-- `regmatch_t`. -/
structure Regmatch where
  so : ℤ
  eo : ℤ

/-- An entry of the array that `regexec` fills in: -1 twice for a group that has not matched. -/
def regmatch (g : List (Capture UInt8)) (n : ℕ) : Regmatch :=
  match g.find? fun c => c.group = n with
  | none => ⟨-1, -1⟩
  | some c => ⟨c.so, c.eo⟩

/-- The characters from `bstr + g.rm_so` to `bstr + g.rm_eo`. -/
def substr (bstr : Bytes) (g : Regmatch) : Bytes := (bstr.drop g.so.toNat).take (g.eo - g.so).toNat

/-- The loop of `gtoi`, in an `int`. -/
def digits (text : Bytes) : ℤ :=
  text.foldl (fun n c => (n * 10 + ((c.toNat : ℤ) - 48)).bmod (2 ^ 32)) 0

/-- `gtoi` (lib/resp.c:193–200). -/
def gtoi (bstr : Bytes) (g : Regmatch) : ℤ := digits (substr bstr g)

/-- `!gstrcmp` (lib/resp.c:202–207). -/
def gstreq (bstr : Bytes) (g : Regmatch) (str : Bytes) : Bool :=
  decide (g.eo - g.so = str.length) && strcaseeq (substr bstr g) str

/-- `tm_mon`, if it is found. -/
def monthof (date : Bytes) (g : Regmatch) : Option ℕ := months.findIdx? (gstreq date g)

/-- The offset of the zone, in seconds (lib/resp.c:245–256). -/
def zoneof (date : Bytes) (g : ℕ → Regmatch) : Option ℤ :=
  if (g 8).so > 0 then if gstreq date (g 8) (bytes "GMT") then some 0 else none
  else if (g 9).so > 0 ∧ (g 10).so > 0 then
    let tz := gtoi date (g 9) * 3600 + gtoi date (g 10) * 60
    if date[(g 7).so.toNat]? = some 45 then some (-tz) else some tz
  else none

/-- `parsehttpdate` (lib/resp.c:209–259). -/
def parsehttpdate (timegm : Clock → ℤ) (date : Bytes) : ℤ :=
  match regexec spec date with
  | none => 0
  | some caps =>
    let g := regmatch caps
    match monthof date (g 2) with
    | none => 0
    | some mon =>
      match zoneof date g with
      | none => 0
      | some tz =>
        timegm
          { mday := gtoi date (g 1), year := gtoi date (g 3) - 1900, hour := gtoi date (g 4)
            min := gtoi date (g 5), sec := gtoi date (g 6), mon := mon } - tz

/-! ## The parts of a date -/

inductive Zone
  | name (s : Bytes)
  | offset (sign : UInt8) (h m : Bytes)

def Zone.str : Zone → Bytes
  | .name s => s
  | .offset sign h m => sign :: (h ++ m)

def Zone.caps (pos : ℕ) : Zone → List (Capture UInt8)
  | .name s => [⟨8, pos, s⟩]
  | .offset _ h m => [⟨9, pos + 1, h⟩, ⟨10, pos + 1 + h.length, m⟩]

def Zone.Ok : Zone → Prop
  | .name s => s ≠ [] ∧ ∀ c ∈ s, isalpha c = true
  | .offset sign h m =>
    (sign = 43 ∨ sign = 45) ∧ (h.length = 2 ∧ ∀ c ∈ h, isdigit c = true) ∧
      m.length = 2 ∧ ∀ c ∈ m, isdigit c = true

/-- What the expression takes a date apart into. -/
structure Date where
  wday : Bytes
  sp1 : Bytes
  mday : Bytes
  sp2 : Bytes
  mon : Bytes
  sp3 : Bytes
  year : Bytes
  sp4 : Bytes
  hour : Bytes
  min : Bytes
  sec : Bytes
  sp5 : Bytes
  zone : Zone

/-- What comes before the zone. -/
def Date.front (d : Date) : Bytes :=
  d.wday ++ 44 :: (d.sp1 ++ (d.mday ++ (d.sp2 ++ (d.mon ++ (d.sp3 ++ (d.year ++ (d.sp4 ++
    (d.hour ++ 58 :: (d.min ++ 58 :: (d.sec ++ d.sp5))))))))))

def Date.str (d : Date) : Bytes := d.front ++ d.zone.str

def Date.caps (d : Date) : List (Capture UInt8) :=
  let p1 := d.wday.length + 1 + d.sp1.length
  let p2 := p1 + d.mday.length + d.sp2.length
  let p3 := p2 + d.mon.length + d.sp3.length
  let p4 := p3 + d.year.length + d.sp4.length
  let p5 := p4 + d.hour.length + 1
  let p6 := p5 + d.min.length + 1
  let p7 := p6 + d.sec.length + d.sp5.length
  [⟨1, p1, d.mday⟩, ⟨2, p2, d.mon⟩, ⟨3, p3, d.year⟩, ⟨4, p4, d.hour⟩, ⟨5, p5, d.min⟩,
    ⟨6, p6, d.sec⟩, ⟨7, p7, d.zone.str⟩] ++ d.zone.caps p7

/-- A run of blanks. -/
def Blanks (s : Bytes) : Prop := s ≠ [] ∧ ∀ c ∈ s, (c == 32) = true

structure Date.Ok (d : Date) : Prop where
  wday : d.wday.length = 3 ∧ ∀ c ∈ d.wday, isalpha c = true
  sp1 : Blanks d.sp1
  mday : IsDecimal d.mday
  sp2 : Blanks d.sp2
  mon : d.mon.length = 3 ∧ ∀ c ∈ d.mon, isalpha c = true
  sp3 : Blanks d.sp3
  year : IsDecimal d.year
  sp4 : Blanks d.sp4
  hour : d.hour.length = 2 ∧ ∀ c ∈ d.hour, isdigit c = true
  min : d.min.length = 2 ∧ ∀ c ∈ d.min, isdigit c = true
  sec : d.sec.length = 2 ∧ ∀ c ∈ d.sec, isdigit c = true
  sp5 : Blanks d.sp5
  zone : d.zone.Ok

theorem matches_zonespec {pos : ℕ} {w : Bytes} {caps : List (Capture UInt8)} :
    Matches zonespec pos w caps ↔ ∃ zone : Zone, zone.Ok ∧ w = zone.str ∧ caps = zone.caps pos := by
  simp only [zonespec, seqs, Matches]
  constructor
  · rintro (⟨_, ⟨hw, rfl⟩, rfl⟩ | h)
    · exact ⟨.name w, hw, rfl, rfl⟩
    · obtain ⟨sign, _, _, _, ⟨⟨hlen, hsign⟩, rfl⟩, h, rfl, rfl⟩ := h
      obtain ⟨h, _, m, _, ⟨_, ⟨hh, rfl⟩, rfl⟩, ⟨_, ⟨hm, rfl⟩, rfl⟩, rfl, rfl⟩ := h
      obtain ⟨c, rfl⟩ := List.length_eq_one_iff.mp hlen
      exact ⟨.offset c h m, ⟨by simpa using hsign, hh, hm⟩, rfl, rfl⟩
  · rintro ⟨name | ⟨sign, h, m⟩, hok, rfl, rfl⟩
    · exact .inl ⟨[], ⟨hok, rfl⟩, rfl⟩
    · obtain ⟨hsign, hh, hm⟩ := hok
      refine .inr ⟨[sign], [], h ++ m, _, ⟨⟨rfl, by simpa using hsign⟩, rfl⟩, ?_, rfl, rfl⟩
      exact ⟨h, _, m, _, ⟨[], ⟨hh, rfl⟩, rfl⟩, ⟨[], ⟨hm, rfl⟩, rfl⟩, rfl, rfl⟩

/-- A string that the expression matches is a date, and the groups capture its parts. -/
theorem date_of_matches {s : Bytes} {caps : List (Capture UInt8)} (h : Matches spec 0 s caps) :
    ∃ d : Date, d.Ok ∧ s = d.str ∧ caps = d.caps := by
  simp only [spec, seqs, Matches, matches_zonespec] at h
  obtain ⟨wday, _, _, _, ⟨hwday, rfl⟩, h, rfl, rfl⟩ := h
  obtain ⟨_, _, _, _, ⟨rfl, rfl⟩, h, rfl, rfl⟩ := h
  obtain ⟨sp1, _, _, _, ⟨hsp1, rfl⟩, h, rfl, rfl⟩ := h
  obtain ⟨mday, _, _, _, ⟨_, ⟨hmday, rfl⟩, rfl⟩, h, rfl, rfl⟩ := h
  obtain ⟨sp2, _, _, _, ⟨hsp2, rfl⟩, h, rfl, rfl⟩ := h
  obtain ⟨mon, _, _, _, ⟨_, ⟨hmon, rfl⟩, rfl⟩, h, rfl, rfl⟩ := h
  obtain ⟨sp3, _, _, _, ⟨hsp3, rfl⟩, h, rfl, rfl⟩ := h
  obtain ⟨year, _, _, _, ⟨_, ⟨hyear, rfl⟩, rfl⟩, h, rfl, rfl⟩ := h
  obtain ⟨sp4, _, _, _, ⟨hsp4, rfl⟩, h, rfl, rfl⟩ := h
  obtain ⟨hour, _, _, _, ⟨_, ⟨hhour, rfl⟩, rfl⟩, h, rfl, rfl⟩ := h
  obtain ⟨_, _, _, _, ⟨rfl, rfl⟩, h, rfl, rfl⟩ := h
  obtain ⟨min, _, _, _, ⟨_, ⟨hmin, rfl⟩, rfl⟩, h, rfl, rfl⟩ := h
  obtain ⟨_, _, _, _, ⟨rfl, rfl⟩, h, rfl, rfl⟩ := h
  obtain ⟨sec, _, _, _, ⟨_, ⟨hsec, rfl⟩, rfl⟩, h, rfl, rfl⟩ := h
  obtain ⟨sp5, _, _, _, ⟨hsp5, rfl⟩, h, rfl, rfl⟩ := h
  obtain ⟨_, ⟨zone, hzone, rfl, rfl⟩, rfl⟩ := h
  refine ⟨⟨wday, sp1, mday, sp2, mon, sp3, year, sp4, hour, min, sec, sp5, zone⟩,
    ⟨hwday, hsp1, hmday, hsp2, hmon, hsp3, hyear, hsp4, hhour, hmin, hsec, hsp5, hzone⟩, ?_, ?_⟩
  · simp [Date.str, Date.front, bytes]
  · simp [Date.caps, bytes]

/-- Every date is matched. -/
theorem Date.Ok.matches {d : Date} (h : d.Ok) : ∃ caps, Matches spec 0 d.str caps := by
  have hstr : d.str = d.wday ++ (bytes "," ++ (d.sp1 ++ (d.mday ++ (d.sp2 ++ (d.mon ++ (d.sp3 ++
      (d.year ++ (d.sp4 ++ (d.hour ++ (bytes ":" ++ (d.min ++ (bytes ":" ++ (d.sec ++ (d.sp5 ++
        d.zone.str)))))))))))))) := by
    simp [Date.str, Date.front, bytes]
  have hzone : ∀ pos, Matches zonespec pos d.zone.str (d.zone.caps pos) :=
    fun pos => matches_zonespec.mpr ⟨d.zone, h.zone, rfl, rfl⟩
  rw [hstr]
  exact ⟨_, .seqs (matches_times h.wday _) <| .seqs (matches_lit _ _) <|
    .seqs (matches_plus h.sp1 _) <| .seqs (.group (matches_plus h.mday _) 1) <|
    .seqs (matches_plus h.sp2 _) <| .seqs (.group (matches_times h.mon _) 2) <|
    .seqs (matches_plus h.sp3 _) <| .seqs (.group (matches_plus h.year _) 3) <|
    .seqs (matches_plus h.sp4 _) <| .seqs (.group (matches_times h.hour _) 4) <|
    .seqs (matches_lit _ _) <| .seqs (.group (matches_times h.min _) 5) <|
    .seqs (matches_lit _ _) <| .seqs (.group (matches_times h.sec _) 6) <|
    .seqs (matches_plus h.sp5 _) <| .group (hzone _) 7⟩

/-! ## Dates are taken apart in one way -/

theorem blank_of_isdigit (c : UInt8) (h : isdigit c = true) : (c == 32) = false := by
  rw [beq_eq_false_iff_ne]
  rintro rfl
  exact absurd h (by decide)

theorem blank_of_isalpha (c : UInt8) (h : isalpha c = true) : (c == 32) = false := by
  rw [beq_eq_false_iff_ne]
  rintro rfl
  exact absurd h (by decide)

theorem isdigit_of_blank (c : UInt8) (h : (c == 32) = true) : isdigit c = false := by
  rw [beq_iff_eq.mp h]
  decide

theorem isalpha_of_isdigit (c : UInt8) (h : isdigit c = true) : isalpha c = false := by
  have hall : ∀ n : Fin 256, isdigit (.ofFin n) = true → isalpha (.ofFin n) = false := by
    decide +kernel
  exact hall c.toFin h

theorem Zone.Ok.ends {zone : Zone} (h : zone.Ok) : Ends (· == 32) zone.str := by
  cases zone with
  | name s =>
    have := ends_append h blank_of_isalpha []
    rwa [List.append_nil] at this
  | offset sign h' m =>
    rintro _ ⟨⟩
    rcases h.1 with rfl | rfl <;> decide

theorem Zone.str_inj {z z' : Zone} (h : z.Ok) (h' : z'.Ok) (heq : z.str = z'.str) : z = z' := by
  have hsign : ∀ {s : Bytes} {sign : UInt8} {t : Bytes}, (Zone.name s).Ok →
      sign = 43 ∨ sign = 45 → s ≠ sign :: t := by
    rintro _ sign t hs hsign rfl
    have := hs.2 sign List.mem_cons_self
    rcases hsign with rfl | rfl <;> exact absurd this (by decide)
  cases z with
  | name s =>
    cases z' with
    | name s' => exact congrArg Zone.name heq
    | offset sign hh mm => exact absurd heq (hsign h h'.1)
  | offset sign hh mm =>
    cases z' with
    | name s' => exact absurd heq.symm (hsign h' h.1)
    | offset sign' hh' mm' =>
      obtain ⟨rfl, htail⟩ := List.cons.inj heq
      obtain ⟨rfl, rfl⟩ := List.append_inj htail (h.2.1.1.trans h'.2.1.1.symm)
      rfl

theorem ne_nil_of_times {p : UInt8 → Bool} {n : ℕ} {w : Bytes}
    (h : w.length = n + 1 ∧ ∀ c ∈ w, p c = true) : w ≠ [] ∧ ∀ c ∈ w, p c = true :=
  ⟨List.ne_nil_of_length_eq_add_one h.1, h.2⟩

theorem Date.str_inj {d d' : Date} (h : d.Ok) (h' : d'.Ok) (heq : d.str = d'.str) : d = d' := by
  cases d
  cases d'
  simp only [Date.str, Date.front, List.append_assoc, List.cons_append] at heq
  obtain ⟨rfl, h1⟩ := List.append_inj heq (h.wday.1.trans h'.wday.1.symm)
  obtain ⟨rfl, h2⟩ := run_append_inj h.sp1.2 h'.sp1.2 (ends_append h.mday blank_of_isdigit _)
    (ends_append h'.mday blank_of_isdigit _) (List.cons.inj h1).2
  obtain ⟨rfl, h3⟩ := run_append_inj h.mday.2 h'.mday.2 (ends_append h.sp2 isdigit_of_blank _)
    (ends_append h'.sp2 isdigit_of_blank _) h2
  obtain ⟨rfl, h4⟩ := run_append_inj h.sp2.2 h'.sp2.2
    (ends_append (ne_nil_of_times h.mon) blank_of_isalpha _)
    (ends_append (ne_nil_of_times h'.mon) blank_of_isalpha _) h3
  obtain ⟨rfl, h5⟩ := List.append_inj h4 (h.mon.1.trans h'.mon.1.symm)
  obtain ⟨rfl, h6⟩ := run_append_inj h.sp3.2 h'.sp3.2 (ends_append h.year blank_of_isdigit _)
    (ends_append h'.year blank_of_isdigit _) h5
  obtain ⟨rfl, h7⟩ := run_append_inj h.year.2 h'.year.2 (ends_append h.sp4 isdigit_of_blank _)
    (ends_append h'.sp4 isdigit_of_blank _) h6
  obtain ⟨rfl, h8⟩ := run_append_inj h.sp4.2 h'.sp4.2
    (ends_append (ne_nil_of_times h.hour) blank_of_isdigit _)
    (ends_append (ne_nil_of_times h'.hour) blank_of_isdigit _) h7
  obtain ⟨rfl, h9⟩ := List.append_inj h8 (h.hour.1.trans h'.hour.1.symm)
  obtain ⟨rfl, h10⟩ := List.append_inj (List.cons.inj h9).2 (h.min.1.trans h'.min.1.symm)
  obtain ⟨rfl, h11⟩ := List.append_inj (List.cons.inj h10).2 (h.sec.1.trans h'.sec.1.symm)
  obtain ⟨rfl, h12⟩ := run_append_inj h.sp5.2 h'.sp5.2 h.zone.ends h'.zone.ends h11
  obtain rfl := Zone.str_inj h.zone h'.zone h12
  rfl

theorem regexec_str {d : Date} (h : d.Ok) : regexec spec d.str = some d.caps := by
  have hone : ∀ caps, Matches spec 0 d.str caps → caps = d.caps := by
    intro caps hcaps
    obtain ⟨d', hd', hstr, rfl⟩ := date_of_matches hcaps
    rw [Date.str_inj h hd' hstr]
  obtain ⟨caps, hcaps⟩ := h.matches
  exact regexec_eq_some (hone caps hcaps ▸ hcaps) hone

/-! ## What is made of a date -/

/-- `text` is `str`, but for letter case. -/
def samestr (text str : Bytes) : Bool := decide (text.length = str.length) && strcaseeq text str

/-- The offset of a zone from GMT, in seconds. -/
def Zone.tz : Zone → Option ℤ
  | .name s => if samestr s (bytes "GMT") then some 0 else none
  | .offset sign h m =>
    let tz := digits h * 3600 + digits m * 60
    if sign = 45 then some (-tz) else some tz

/-- The number of the month. -/
def Date.month (d : Date) : Option ℕ := months.findIdx? (samestr d.mon)

def Date.clock (d : Date) (mon : ℕ) : Clock :=
  { mday := digits d.mday, year := digits d.year - 1900, hour := digits d.hour
    min := digits d.min, sec := digits d.sec, mon := mon }

def Date.value (timegm : Clock → ℤ) (d : Date) : ℤ :=
  match d.month with
  | none => 0
  | some mon =>
    match d.zone.tz with
    | none => 0
    | some tz => timegm (d.clock mon) - tz

/-- What is found at the offsets of a group is what it has captured. -/
theorem substr_capture {s : Bytes} {caps : List (Capture UInt8)} (h : Matches spec 0 s caps)
    {c : Capture UInt8} (hc : c ∈ caps) : substr s ⟨c.so, c.eo⟩ = c.text := by
  obtain ⟨pre, post, hs, hso⟩ := h.slice c hc
  rw [Nat.zero_add] at hso
  have hlen : ((c.eo : ℤ) - c.so).toNat = c.text.length := by
    unfold Capture.eo
    omega
  unfold substr
  simp only
  rw [hlen, Int.toNat_natCast, hs, hso, List.append_assoc, List.drop_left, List.take_left]

theorem gstreq_capture {s : Bytes} {caps : List (Capture UInt8)} (h : Matches spec 0 s caps)
    {c : Capture UInt8} (hc : c ∈ caps) (str : Bytes) :
    gstreq s ⟨c.so, c.eo⟩ str = samestr c.text str := by
  have hlen : ((c.eo : ℤ) - c.so = str.length) ↔ c.text.length = str.length := by
    unfold Capture.eo
    omega
  rw [gstreq, substr_capture h hc, samestr]
  simp only [hlen]

/-- The character at the offset of a group. -/
theorem getElem?_of_substr {s : Bytes} {g : Regmatch} {c : UInt8} {t : Bytes}
    (h : substr s g = c :: t) : s[g.so.toNat]? = some c := by
  have hhead : (s.drop g.so.toNat).head? = some c := by
    unfold substr at h
    cases hd : s.drop g.so.toNat with
    | nil =>
      rw [hd, List.take_nil] at h
      cases h
    | cons b u =>
      rw [hd] at h
      cases hn : (g.eo - g.so).toNat with
      | zero =>
        rw [hn, List.take_zero] at h
        cases h
      | succ n =>
        rw [hn, List.take_succ_cons] at h
        rw [List.head?_cons, (List.cons.inj h).1]
  rwa [List.head?_drop] at hhead

/-- A group of a date, from what it has captured. -/
theorem group_str {d : Date} (h : d.Ok) {n : ℕ} {c : Capture UInt8}
    (hc : d.caps.find? (fun c => c.group = n) = some c) :
    (regmatch d.caps n).so = c.so ∧ substr d.str (regmatch d.caps n) = c.text ∧
      gstreq d.str (regmatch d.caps n) = samestr c.text := by
  have hm : Matches spec 0 d.str d.caps := regexec_matches (regexec_str h)
  have hmem := List.mem_of_find?_eq_some hc
  have hreg : regmatch d.caps n = ⟨c.so, c.eo⟩ := by rw [regmatch, hc]
  rw [hreg]
  exact ⟨rfl, substr_capture hm hmem, funext (gstreq_capture hm hmem)⟩

theorem gtoi_str {d : Date} (h : d.Ok) {n : ℕ} {c : Capture UInt8}
    (hc : d.caps.find? (fun c => c.group = n) = some c) :
    gtoi d.str (regmatch d.caps n) = digits c.text := by rw [gtoi, (group_str h hc).2.1]

theorem monthof_str {d : Date} (h : d.Ok) : monthof d.str (regmatch d.caps 2) = d.month := by
  obtain ⟨-, -, hstr⟩ := group_str h (n := 2) rfl
  rw [monthof, hstr]
  rfl

theorem zoneof_str {d : Date} (h : d.Ok) : zoneof d.str (regmatch d.caps) = d.zone.tz := by
  unfold zoneof
  cases hz : d.zone with
  | name s =>
    have h8 : ∃ so, 0 < so ∧ d.caps.find? (fun c => c.group = 8) = some ⟨8, so, s⟩ := by
      rw [Date.caps, hz]
      exact ⟨_, by omega, rfl⟩
    obtain ⟨so, hso, h8⟩ := h8
    obtain ⟨hso', -, hstr⟩ := group_str h h8
    rw [hso', if_pos (Int.natCast_pos.mpr hso), hstr]
    rfl
  | offset sign hh mm =>
    have hcaps : regmatch d.caps 8 = ⟨-1, -1⟩ ∧
        ∃ so so', 0 < so ∧ d.caps.find? (fun c => c.group = 9) = some ⟨9, so, hh⟩ ∧
          0 < so' ∧ d.caps.find? (fun c => c.group = 10) = some ⟨10, so', mm⟩ := by
      rw [Date.caps, hz]
      exact ⟨rfl, _, _, by omega, rfl, by omega, rfl⟩
    obtain ⟨h8, so, so', hso, h9, hso', h10⟩ := hcaps
    -- the sign is the first character of the zone
    have hsign : d.str[(regmatch d.caps 7).so.toNat]? = some sign := by
      obtain ⟨-, hsub, -⟩ := group_str h (n := 7) rfl
      exact getElem?_of_substr (hsub.trans (congrArg Zone.str hz))
    rw [h8, if_neg (by decide), hsign, gtoi_str h h9, gtoi_str h h10, (group_str h h9).1,
      (group_str h h10).1, if_pos ⟨Int.natCast_pos.mpr hso, Int.natCast_pos.mpr hso'⟩]
    simp only [Option.some.injEq]
    rfl

/-- What `parsehttpdate` makes of a date. -/
theorem parsehttpdate_str (timegm : Clock → ℤ) {d : Date} (h : d.Ok) :
    parsehttpdate timegm d.str = d.value timegm := by
  unfold parsehttpdate Date.value
  rw [regexec_str h]
  simp only [monthof_str h, zoneof_str h]
  rw [gtoi_str h (n := 1) rfl, gtoi_str h (n := 3) rfl, gtoi_str h (n := 4) rfl,
    gtoi_str h (n := 5) rfl, gtoi_str h (n := 6) rfl]
  rfl

/-! ## Numbers -/

/-- The digits of an `int` denote it. -/
theorem digits_eq {text : Bytes} (h : ∀ c ∈ text, isdigit c = true)
    (hlt : numeralValue 10 text < 2 ^ 31) : digits text = numeralValue 10 text := by
  have hloop : ∀ (text : Bytes) (v : ℕ), (∀ c ∈ text, isdigit c = true) →
      text.foldl (fun acc c => acc * 10 + (digitVal c).getD 0) v < 2 ^ 31 →
      text.foldl (fun n c => (n * 10 + ((c.toNat : ℤ) - 48)).bmod (2 ^ 32)) (v : ℤ) =
        (text.foldl (fun acc c => acc * 10 + (digitVal c).getD 0) v : ℕ) := by
    intro text
    induction text with
    | nil => intros; rfl
    | cons c text ih =>
      intro v h hlt
      have hc := h c List.mem_cons_self
      have hval : (v * 10 + (digitVal c).getD 0 : ℕ) = v * 10 + (c.toNat - 48) := by
        rw [digitVal_of_isdigit hc, Option.getD_some]
      rw [List.foldl_cons, hval] at hlt
      have hle := le_foldl_digitVal (show 0 < 10 by decide) text (v * 10 + (c.toNat - 48))
      have h48 : 48 ≤ c.toNat := by
        simp only [isdigit, Bool.and_eq_true, decide_eq_true_eq, UInt8.le_iff_toNat_le] at hc
        exact hc.1
      have hmod : (((v : ℤ) * 10 + ((c.toNat : ℤ) - 48)).bmod (2 ^ 32)) =
          (v * 10 + (c.toNat - 48) : ℕ) := by
        rw [Int.bmod_eq_of_le (by omega) (by omega)]
        omega
      rw [List.foldl_cons, List.foldl_cons, hmod, hval]
      exact ih _ (fun x hx => h x (List.mem_cons_of_mem _ hx)) hlt
  exact hloop text 0 h hlt

theorem isDecimal_intmax {n : ℤ} (h : 0 ≤ n) (hlt : n < 2 ^ 31) :
    IsDecimal (intmax n) ∧ digits (intmax n) = n := by
  rw [intmax, if_neg (not_lt.mpr h)]
  have hval := numeralValue_numeral (show 1 < 10 by decide) (by decide) n.natAbs
  refine ⟨Message.isDecimal_numeral _, ?_⟩
  rw [digits_eq (Message.isDecimal_numeral _).2 (by omega), hval]
  omega

/-- Two digits. -/
theorem int02_spec {n : ℤ} (h : 0 ≤ n) (hlt : n < 100) :
    ((int02 n).length = 2 ∧ ∀ c ∈ int02 n, isdigit c = true) ∧ digits (int02 n) = n := by
  have hall : ∀ k : Fin 100, ((int02 k.val).length = 2 ∧ (int02 k.val).all isdigit = true) ∧
      digits (int02 k.val) = k.val := by decide +kernel
  obtain ⟨k, rfl⟩ := Int.eq_ofNat_of_zero_le h
  have hk := hall ⟨k, by omega⟩
  rwa [List.all_eq_true] at hk

/-! ## Both ways -/

/-- What `gmtime` is documented to give. -/
structure Tm.Valid (tm : Tm) : Prop where
  mon : 0 ≤ tm.mon ∧ tm.mon < 12
  mday : 1 ≤ tm.mday ∧ tm.mday ≤ 31
  hour : 0 ≤ tm.hour ∧ tm.hour < 24
  min : 0 ≤ tm.min ∧ tm.min < 60
  sec : 0 ≤ tm.sec ∧ tm.sec ≤ 60
  wday : 0 ≤ tm.wday ∧ tm.wday < 7

theorem days_spec {wday : ℤ} (h : 0 ≤ wday ∧ wday < 7) :
    (days.getD ((wday + 6).tmod 7).toNat []).length = 3 ∧
      ∀ c ∈ days.getD ((wday + 6).tmod 7).toNat [], isalpha c = true := by
  have hall : ∀ k : Fin 7, (days.getD (((k.val : ℤ) + 6).tmod 7).toNat []).length = 3 ∧
      (days.getD (((k.val : ℤ) + 6).tmod 7).toNat []).all isalpha = true := by decide +kernel
  obtain ⟨k, rfl⟩ := Int.eq_ofNat_of_zero_le h.1
  have hk := hall ⟨k, by omega⟩
  rwa [List.all_eq_true] at hk

theorem months_spec {mon : ℤ} (h : 0 ≤ mon ∧ mon < 12) :
    ((months.getD mon.toNat []).length = 3 ∧ ∀ c ∈ months.getD mon.toNat [], isalpha c = true) ∧
      months.findIdx? (samestr (months.getD mon.toNat [])) = some mon.toNat := by
  have hall : ∀ k : Fin 12, ((months.getD k.val []).length = 3 ∧
      (months.getD k.val []).all isalpha = true) ∧
      months.findIdx? (samestr (months.getD k.val [])) = some k.val := by decide +kernel
  obtain ⟨k, rfl⟩ := Int.eq_ofNat_of_zero_le h.1
  have hk := hall ⟨k, by omega⟩
  rwa [List.all_eq_true] at hk

theorem gmt_ok : (Zone.name (bytes "GMT")).Ok := by
  unfold Zone.Ok
  decide +kernel

theorem gmt_tz : (Zone.name (bytes "GMT")).tz = some 0 := by decide

/-- A time is read as what was written. -/
theorem parsehttpdate_fmthttpdate {gmtime : ℤ → Tm} {timegm : Clock → ℤ} {t : ℤ}
    (hinv : timegm (gmtime t).toClock = t) (hv : (gmtime t).Valid)
    (hyear : 0 ≤ (gmtime t).year + 1900 ∧ (gmtime t).year + 1900 ≤ 9999) :
    parsehttpdate timegm (fmthttpdate gmtime t) = t := by
  obtain ⟨hmday, hmday'⟩ := isDecimal_intmax (n := (gmtime t).mday)
    (by have := hv.mday.1; omega) (by have := hv.mday.2; omega)
  obtain ⟨hyr, hyr'⟩ := isDecimal_intmax hyear.1 (by omega)
  obtain ⟨hhour, hhour'⟩ := int02_spec hv.hour.1 (by have := hv.hour.2; omega)
  obtain ⟨hmin, hmin'⟩ := int02_spec hv.min.1 (by have := hv.min.2; omega)
  obtain ⟨hsec, hsec'⟩ := int02_spec hv.sec.1 (by have := hv.sec.2; omega)
  obtain ⟨hmon, hmon'⟩ := months_spec hv.mon
  have hblank : Blanks [32] := by
    unfold Blanks
    decide +kernel
  let d : Date :=
    { wday := days.getD (((gmtime t).wday + 6).tmod 7).toNat [], sp1 := [32]
      mday := intmax (gmtime t).mday, sp2 := [32], mon := months.getD (gmtime t).mon.toNat []
      sp3 := [32], year := intmax ((gmtime t).year + 1900), sp4 := [32]
      hour := int02 (gmtime t).hour, min := int02 (gmtime t).min, sec := int02 (gmtime t).sec
      sp5 := [32], zone := .name (bytes "GMT") }
  have hd : d.Ok :=
    ⟨days_spec hv.wday, hblank, hmday, hblank, hmon, hblank, hyr, hblank, hhour, hmin, hsec, hblank,
      gmt_ok⟩
  have hstr : fmthttpdate gmtime t = d.str := by
    simp [fmthttpdate, d, Date.str, Date.front, Zone.str, bytes]
  have hclock : d.clock (gmtime t).mon.toNat = (gmtime t).toClock := by
    have := hv.mon.1
    simp only [Date.clock, d, hmday', hyr', hhour', hmin', hsec', Int.add_sub_cancel,
      Int.toNat_of_nonneg this]
  have hmonth : d.month = some (gmtime t).mon.toNat := hmon'
  have htz : d.zone.tz = some 0 := gmt_tz
  rw [hstr, parsehttpdate_str timegm hd, Date.value, hmonth, htz]
  simp only
  rw [hclock, hinv, Int.sub_zero]

/-- The expression matches, and the month is one. -/
def Accepted (date : Bytes) : Prop :=
  ∃ caps, regexec spec date = some caps ∧ (monthof date (regmatch caps 2)).isSome

/-- The offset that a numeric zone denotes, in seconds. -/
def signedOffset (sign : UInt8) (hh mm : Bytes) : ℤ :=
  (if sign = 45 then -1 else 1) * (numeralValue 10 hh * 3600 + numeralValue 10 mm * 60)

theorem numeralValue_lt {h : Bytes} (hlen : h.length = 2) (hd : ∀ c ∈ h, isdigit c = true) :
    numeralValue 10 h < 2 ^ 31 := by
  obtain ⟨a, b, rfl⟩ := List.length_eq_two.mp hlen
  have ha := digitVal_of_isdigit (hd a (by simp))
  have hb := digitVal_of_isdigit (hd b (by simp))
  have := a.toNat_lt
  have := b.toNat_lt
  simp only [numeralValue, List.foldl_cons, List.foldl_nil, ha, hb, Option.getD_some]
  omega

/-- An accepted date that ends in a numeric zone. -/
theorem accepted_offset {front : Bytes} {sign : UInt8} {hh mm : Bytes} (hhlen : hh.length = 2)
    (hmlen : mm.length = 2) (hm : ∀ c ∈ mm, isdigit c = true)
    (hacc : Accepted (front ++ sign :: (hh ++ mm))) :
    ∃ d : Date, d.Ok ∧ d.front = front ∧ d.zone = .offset sign hh mm ∧ ∃ mon, d.month = some mon := by
  obtain ⟨caps, hcaps, hmon⟩ := hacc
  obtain ⟨d, hd, hstr, rfl⟩ := date_of_matches (regexec_matches hcaps)
  rw [hstr, monthof_str hd] at hmon
  refine ⟨d, hd, ?_⟩
  suffices hzone : d.front = front ∧ d.zone = .offset sign hh mm from
    ⟨hzone.1, hzone.2, Option.isSome_iff_exists.mp hmon⟩
  rw [Date.str] at hstr
  cases hz : d.zone with
  | name s =>
    -- the date would end in a letter
    rw [hz] at hstr
    obtain ⟨m1, m2, rfl⟩ := List.length_eq_two.mp hmlen
    have hok : (Zone.name s).Ok := hz ▸ hd.zone
    have hsplit : front ++ sign :: (hh ++ [m1, m2]) = (front ++ sign :: (hh ++ [m1])) ++ [m2] := by
      simp
    have hlast := congrArg List.getLast? hstr
    rw [Zone.str, List.getLast?_append_of_ne_nil _ hok.1, hsplit, List.getLast?_concat] at hlast
    have halpha := hok.2 m2 (List.mem_of_getLast? hlast.symm)
    rw [isalpha_of_isdigit m2 (hm m2 (by simp))] at halpha
    cases halpha
  | offset sign' hh' mm' =>
    rw [hz] at hstr
    obtain ⟨-, hh2, hm2⟩ : (Zone.offset sign' hh' mm').Ok := hz ▸ hd.zone
    have hlen : (sign :: (hh ++ mm)).length = (sign' :: (hh' ++ mm')).length := by
      simp only [List.length_cons, List.length_append, hhlen, hmlen, hh2.1, hm2.1]
    obtain ⟨hfront, htail⟩ := List.append_inj' hstr hlen
    obtain ⟨rfl, hdigits⟩ := List.cons.inj htail
    obtain ⟨rfl, rfl⟩ := List.append_inj hdigits (hhlen.trans hh2.1.symm)
    exact ⟨hfront.symm, rfl⟩

/-- A numeric zone is read as its offset from GMT. -/
theorem parsehttpdate_offset (timegm : Clock → ℤ) {front : Bytes} {sign : UInt8} {hh mm : Bytes}
    (hh2 : hh.length = 2 ∧ ∀ c ∈ hh, isdigit c = true)
    (hm2 : mm.length = 2 ∧ ∀ c ∈ mm, isdigit c = true)
    (hacc : Accepted (front ++ sign :: (hh ++ mm))) :
    parsehttpdate timegm (front ++ sign :: (hh ++ mm)) =
      parsehttpdate timegm (front ++ bytes "GMT") - signedOffset sign hh mm := by
  obtain ⟨d, hd, rfl, hz, mon, hmon⟩ := accepted_offset hh2.1 hm2.1 hm2.2 hacc
  -- the same date in GMT
  let d' : Date := { d with zone := .name (bytes "GMT") }
  have hd' : d'.Ok := { hd with zone := gmt_ok }
  have hstr : d.front ++ sign :: (hh ++ mm) = d.str := by rw [Date.str, hz, Zone.str]
  have htz : d.zone.tz = some (signedOffset sign hh mm) := by
    rw [hz, Zone.tz, digits_eq hh2.2 (numeralValue_lt hh2.1 hh2.2),
      digits_eq hm2.2 (numeralValue_lt hm2.1 hm2.2), signedOffset]
    split_ifs
    · rw [Int.neg_one_mul]
    · rw [Int.one_mul]
  have htz' : d'.zone.tz = some 0 := gmt_tz
  have hmon' : d'.month = some mon := hmon
  rw [hstr, parsehttpdate_str timegm hd, show d.front ++ bytes "GMT" = d'.str from rfl,
    parsehttpdate_str timegm hd', Date.value, Date.value, hmon, htz, hmon', htz']
  simp only [Int.sub_zero]
  rfl

/-- For every `gmtime` and `timegm`: a time whose year has up to four digits is read as what
    `fmthttpdate` writes, if `timegm` takes back what `gmtime` makes of it. And of every date that
    is accepted and has a numeric zone, that gives the time in GMT less the offset. -/
theorem httpdate_roundtrip (gmtime : ℤ → Tm) (timegm : Clock → ℤ) :
    (∀ t, timegm (gmtime t).toClock = t → (gmtime t).Valid →
        0 ≤ (gmtime t).year + 1900 ∧ (gmtime t).year + 1900 ≤ 9999 →
        parsehttpdate timegm (fmthttpdate gmtime t) = t) ∧
      ∀ (front hh mm : Bytes) (sign : UInt8), sign = 43 ∨ sign = 45 →
        (hh.length = 2 ∧ ∀ c ∈ hh, isdigit c = true) →
        (mm.length = 2 ∧ ∀ c ∈ mm, isdigit c = true) →
        Accepted (front ++ sign :: (hh ++ mm)) →
        parsehttpdate timegm (front ++ sign :: (hh ++ mm)) =
          parsehttpdate timegm (front ++ bytes "GMT") - signedOffset sign hh mm :=
  ⟨fun _ hinv hv hyear => parsehttpdate_fmthttpdate hinv hv hyear,
    fun _ _ _ _ _ hh2 hm2 hacc => parsehttpdate_offset timegm hh2 hm2 hacc⟩

/-- A date, and the same with a numeric zone. -/
def sunday : ℤ → Tm := fun _ =>
  { year := 94, mon := 10, mday := 6, hour := 8, min := 49, sec := 37, wday := 0 }

theorem httpdate_roundtrip_sunday :
    parsehttpdate (fun _ => 784111777) (fmthttpdate sunday 784111777) = 784111777 ∧
      parsehttpdate (fun _ => 784111777) (bytes "Sun, 6 Nov 1994 08:49:37 " ++ 45 ::
          (bytes "01" ++ bytes "30")) =
        parsehttpdate (fun _ => 784111777) (bytes "Sun, 6 Nov 1994 08:49:37 " ++ bytes "GMT") -
          signedOffset 45 (bytes "01") (bytes "30") := by
  have hacc : Accepted (bytes "Sun, 6 Nov 1994 08:49:37 " ++ 45 :: (bytes "01" ++ bytes "30")) := by
    have hmatch : ((regexec spec
        (bytes "Sun, 6 Nov 1994 08:49:37 " ++ 45 :: (bytes "01" ++ bytes "30"))).map fun caps =>
          (monthof (bytes "Sun, 6 Nov 1994 08:49:37 " ++ 45 :: (bytes "01" ++ bytes "30"))
            (regmatch caps 2)).isSome) = some true := by decide +kernel
    exact Option.map_eq_some_iff.mp hmatch
  exact ⟨(httpdate_roundtrip sunday fun _ => 784111777).1 784111777 rfl
      ⟨by decide, by decide, by decide, by decide, by decide, by decide⟩ (by decide),
    (httpdate_roundtrip sunday fun _ => 784111777).2 _ _ _ 45 (.inr rfl) (by decide +kernel)
      (by decide +kernel) hacc⟩

example : fmthttpdate sunday 784111777 = bytes "Sun, 6 Nov 1994 08:49:37 GMT" := by decide +kernel

end Ashd
