import Ashd.Common.Binary64

/-!
# HTTP dates in ashd/wsgiutil.py

`phttpdate` reads the local time that a date would be with `time.mktime`, and corrects it by the
zone of the date and by `time.altzone`. A broken-down time is given as the seconds that it is in
UTC, so that `mktime` adds what the local zone is west of it then. The digits of a zone are those
of ASCII.

Main results:
* `phttpdate_iff`: a date is read as the instant that it denotes exactly if the local offset at
  that date is `altzone` plus what the division of the zone goes wrong by.
* `phttpdate_winter`: outside of daylight-saving time it is read as another.
-/

namespace Ashd.Wsgiutil

/-! ## The functions -/

/-- What `phttpdate` can raise. -/
inductive Exn
  | indexError
  | valueError
  deriving DecidableEq

/-- The local zone: what it is west of UTC, by the broken-down time, and `time.altzone`. -/
structure Localzone where
  west : ℤ → ℤ
  altzone : ℤ

/-- `time.mktime`. -/
def Localzone.mktime (zone : Localzone) (tm : ℤ) : ℤ := tm + zone.west tm

/-- `s.isdigit()`. -/
def isdigit (s : List Char) : Bool := !s.isEmpty && s.all Char.isDigit

/-- The number that digits denote. -/
def decimal (s : List Char) : ℤ := s.foldl (fun n c => n * 10 + (c.toNat - 48)) 0

/-- `int(tz[1:])`. -/
def zoneint (sign : Char) (s : List Char) : ℤ := if sign = '-' then -decimal s else decimal s

/-- `(((tz / 100) * 60) + (tz % 100)) * 60`, where `/` makes a `float`. -/
def zoneseconds (tz : ℤ) : ℚ := fl (fl (fl (fl (tz / 100) * 60) + Int.fmod tz 100) * 60)

/-- `httpdate` (wsgiutil.py:34–35), the format being that of `strftime` and `+0000`. -/
def httpdate (strftime : ℤ → List Char) (ts : ℤ) : List Char := strftime ts ++ " +0000".toList

/-- `phttpdate` (wsgiutil.py:37–44). -/
def phttpdate (strptime : List Char → Option ℤ) (zone : Localzone) (dstr : List Char) :
    Except Exn (Option ℚ) :=
  match dstr.drop (dstr.length - 6), dstr.take (dstr.length - 6) with
  | [], _ => .error .indexError
  | c0 :: tz, dstr =>
    if c0 ≠ ' ' then .ok none
    else
      match tz with
      | [] => .error .indexError
      | c1 :: tz =>
        if (c1 ≠ '+' ∧ c1 ≠ '-') ∨ ¬ isdigit tz then .ok none
        else
          match strptime dstr with
          | none => .error .valueError
          | some tm =>
            .ok (some (fl (fl (zone.mktime tm - zoneseconds (zoneint c1 tz)) - zone.altzone)))

/-! ## What a date denotes -/

/-- The offset that a numeric zone denotes, in seconds. -/
def offset (sign : Char) (hh mm : ℤ) : ℤ :=
  (if sign = '-' then -1 else 1) * (hh * 3600 + mm * 60)

/-- What `zoneseconds` goes wrong by, in seconds: the quotient is not rounded down, and the
    remainder of a negative number is not negative. -/
def zoneerror (sign : Char) (mm : ℤ) : ℤ :=
  if mm = 0 then 0 else if sign = '-' then 6000 - 36 * mm else 36 * mm

/-- Times and offsets are far from what does not fit into 53 bits. -/
def Small (n : ℤ) : Prop := |n| < 2 ^ 45

/-- The result is the instant `u`, to the second. -/
def Gives (r : Except Exn (Option ℚ)) (u : ℤ) : Prop := ∃ x : ℚ, r = .ok (some x) ∧ |x - u| < 1 / 2

/-- `phttpdate` of a date with a numeric zone. -/
theorem phttpdate_zone {strptime : List Char → Option ℤ} (zone : Localzone) {date : List Char}
    {tm : ℤ} (hdate : strptime date = some tm) (sign : Char) (hsign : sign = '+' ∨ sign = '-')
    (digits : List Char) (hlen : digits.length = 4) (hdigits : ∀ c ∈ digits, c.isDigit = true) :
    phttpdate strptime zone (date ++ ' ' :: sign :: digits) =
      .ok (some (fl (fl (zone.mktime tm - zoneseconds (zoneint sign digits)) - zone.altzone))) := by
  have hdrop : (date ++ ' ' :: sign :: digits).length - 6 = date.length := by
    simp [hlen]
  have hnil : digits.isEmpty = false := by
    cases digits with
    | nil => cases hlen
    | cons => rfl
  have hall : isdigit digits = true := by
    rw [isdigit, hnil, List.all_eq_true.mpr hdigits]
    rfl
  unfold phttpdate
  rw [hdrop, List.drop_left, List.take_left]
  simp only [ne_eq, not_true_eq_false, if_false, hall, or_false]
  rw [if_neg (by rcases hsign with rfl | rfl <;> simp), hdate]

/-! ## The seconds of a zone -/

/-- Rounding what is close to `y` stays close to it. -/
theorem fl_near {x y e b c : ℚ} (hxy : |x - y| ≤ e) (hy : |y| ≤ b) (hc : e + (b + e) / 2 ^ 53 ≤ c) :
    |fl x - y| ≤ c := by
  have hx : |x| ≤ b + e := by
    have := abs_sub_abs_le_abs_sub x y
    linarith
  have hfl := abs_fl_sub_le x
  have htri := abs_sub_le (fl x) x y
  have hdiv : |x| / 2 ^ 53 ≤ (b + e) / 2 ^ 53 := div_le_div_of_nonneg_right hx (by positivity)
  linarith

/-- Without rounding. -/
theorem zone_exact (sign : Char) (hh mm : ℤ) (hm : 0 ≤ mm ∧ mm < 100) :
    let tz := if sign = '-' then -(hh * 100 + mm) else hh * 100 + mm
    ((tz / 100 : ℚ) * 60 + (Int.fmod tz 100 : ℤ)) * 60 =
      (offset sign hh mm + zoneerror sign mm : ℤ) := by
  intro tz
  have hmod : Int.fmod tz 100 = if mm = 0 then 0 else if sign = '-' then 100 - mm else mm := by
    rw [Int.fmod_eq_emod_of_nonneg _ (by decide)]
    split_ifs <;> simp only [tz, *, if_true, if_false] <;> omega
  rw [hmod, offset, zoneerror]
  by_cases hsign : sign = '-'
  · simp only [tz, if_pos hsign]
    split_ifs with h0
    · rw [h0]
      push_cast
      ring
    · push_cast
      ring
  · simp only [tz, if_neg hsign]
    split_ifs with h0
    · rw [h0]
      push_cast
      ring
    · push_cast
      ring

/-- The number of a zone. -/
def zonenumber (sign : Char) (hh mm : ℤ) : ℤ :=
  if sign = '-' then -(hh * 100 + mm) else hh * 100 + mm

theorem abs_zonenumber_le (sign : Char) {hh mm : ℤ} (hh' : 0 ≤ hh ∧ hh < 100)
    (hm : 0 ≤ mm ∧ mm < 100) : |(zonenumber sign hh mm : ℚ)| ≤ 10000 := by
  have : |zonenumber sign hh mm| ≤ 10000 := by
    unfold zonenumber
    rw [abs_le]
    split_ifs <;> omega
  exact_mod_cast this

/-- Rounding makes little difference to the seconds. -/
theorem zoneseconds_near (sign : Char) {hh mm : ℤ} (hh' : 0 ≤ hh ∧ hh < 100)
    (hm : 0 ≤ mm ∧ mm < 100) :
    |zoneseconds (zonenumber sign hh mm) - (offset sign hh mm + zoneerror sign mm : ℤ)| ≤
      1 / 2 ^ 25 := by
  have hexact := zone_exact sign hh mm hm
  have htz := abs_le.mp (abs_zonenumber_le sign hh' hm)
  simp only [← zonenumber.eq_def] at hexact
  unfold zoneseconds
  generalize zonenumber sign hh mm = tz at *
  have hr : (0 : ℚ) ≤ (Int.fmod tz 100 : ℤ) ∧ ((Int.fmod tz 100 : ℤ) : ℚ) ≤ 100 := by
    have h0 := Int.fmod_nonneg_of_pos tz (show (0 : ℤ) < 100 by decide)
    have h1 := Int.fmod_lt_of_pos tz (show (0 : ℤ) < 100 by decide)
    exact ⟨by exact_mod_cast h0, by exact_mod_cast h1.le⟩
  generalize ((Int.fmod tz 100 : ℤ) : ℚ) = r at *
  have h1 : |fl ((tz : ℚ) / 100) - tz / 100| ≤ 1 / 2 ^ 40 := by
    refine fl_near (e := 0) (b := 100) (by simp) ?_ (by norm_num)
    rw [abs_le]
    constructor <;> linarith
  have h2 : |fl (fl ((tz : ℚ) / 100) * 60) - tz / 100 * 60| ≤ 1 / 2 ^ 33 := by
    refine fl_near (e := 60 / 2 ^ 40) (b := 6000) ?_ ?_ (by norm_num)
    · rw [abs_le] at h1 ⊢
      constructor <;> linarith
    · rw [abs_le]
      constructor <;> linarith
  have h3 : |fl (fl (fl ((tz : ℚ) / 100) * 60) + r) - (tz / 100 * 60 + r)| ≤ 1 / 2 ^ 32 := by
    refine fl_near (e := 1 / 2 ^ 33) (b := 6100) ?_ ?_ (by norm_num)
    · rw [abs_le] at h2 ⊢
      constructor <;> linarith
    · rw [abs_le]
      constructor <;> linarith
  rw [← hexact]
  refine fl_near (e := 60 / 2 ^ 32) (b := 366000) ?_ ?_ (by norm_num)
  · rw [abs_le] at h3 ⊢
    constructor <;> linarith
  · rw [abs_le]
    constructor <;> linarith

/-- Of full hours, there is no error. -/
theorem zoneseconds_hours (sign : Char) {hh : ℤ} (hh' : 0 ≤ hh ∧ hh < 100) :
    zoneseconds (zonenumber sign hh 0) = (offset sign hh 0 : ℤ) := by
  have hexact := zone_exact sign hh 0 (by decide)
  have htz : zonenumber sign hh 0 = 100 * (if sign = '-' then -hh else hh) := by
    unfold zonenumber
    split_ifs <;> omega
  simp only [← zonenumber.eq_def] at hexact
  rw [htz] at hexact ⊢
  have hk : |if sign = '-' then -hh else hh| < 100 := by
    rw [abs_lt]
    split_ifs <;> omega
  generalize (if sign = '-' then -hh else hh) = k at *
  have hmod : Int.fmod (100 * k) 100 = 0 := by
    rw [Int.fmod_eq_emod_of_nonneg _ (by decide)]
    omega
  rw [abs_lt] at hk
  have hsmall : ∀ n : ℤ, -400000 < n ∧ n < 400000 → fl n = n := by
    intro n hn
    refine fl_intCast ?_
    rw [abs_lt]
    constructor <;> omega
  have hdiv : ((100 * k : ℤ) : ℚ) / 100 = k := by
    push_cast
    ring
  have h1 := hsmall k (by omega)
  have h2 := hsmall (k * 60) (by omega)
  have h4 := hsmall (k * 60 * 60) (by omega)
  push_cast at h2 h4
  rw [zoneseconds, hmod, hdiv, h1, h2, Int.cast_zero, add_zero, h2, h4]
  rw [hdiv, hmod, zoneerror, if_pos rfl] at hexact
  push_cast at hexact ⊢
  linarith

/-! ## The whole -/

/-- What `phttpdate` computes, but for rounding. -/
theorem phttpdate_near {zone : Localzone} {tm : ℤ} (htm : Small tm) (hwest : Small (zone.west tm))
    (halt : Small zone.altzone) (sign : Char) {hh mm : ℤ} (hh' : 0 ≤ hh ∧ hh < 100)
    (hm : 0 ≤ mm ∧ mm < 100) :
    |fl (fl (zone.mktime tm - zoneseconds (zonenumber sign hh mm)) - zone.altzone) -
      (tm + zone.west tm - (offset sign hh mm + zoneerror sign mm) - zone.altzone : ℤ)| ≤ 1 / 4 := by
  have hsec := zoneseconds_near sign hh' hm
  generalize zoneseconds (zonenumber sign hh mm) = x at *
  have hsmall : ∀ n : ℤ, Small n → -(2 : ℚ) ^ 45 ≤ n ∧ (n : ℚ) ≤ 2 ^ 45 := by
    intro n hn
    obtain ⟨h0, h1⟩ := abs_lt.mp hn
    exact ⟨by exact_mod_cast h0.le, by exact_mod_cast h1.le⟩
  have htotal : |offset sign hh mm + zoneerror sign mm| ≤ 400000 := by
    unfold offset zoneerror
    rw [abs_le]
    split_ifs <;> omega
  have hT : -(400000 : ℚ) ≤ (offset sign hh mm + zoneerror sign mm : ℤ) ∧
      ((offset sign hh mm + zoneerror sign mm : ℤ) : ℚ) ≤ 400000 := by
    obtain ⟨h0, h1⟩ := abs_le.mp htotal
    exact ⟨by exact_mod_cast h0, by exact_mod_cast h1⟩
  generalize offset sign hh mm + zoneerror sign mm = t at *
  obtain ⟨hm0, hm1⟩ := hsmall tm htm
  obtain ⟨hw0, hw1⟩ := hsmall _ hwest
  obtain ⟨ha0, ha1⟩ := hsmall _ halt
  rw [abs_le] at hsec
  have h1 : |fl (zone.mktime tm - x) - (tm + zone.west tm - t : ℤ)| ≤ 1 / 2 ^ 5 := by
    refine fl_near (e := 1 / 2 ^ 25) (b := 2 ^ 47) ?_ ?_ (by norm_num)
    · rw [abs_le, Localzone.mktime]
      push_cast
      constructor <;> linarith
    · rw [abs_le]
      push_cast
      constructor <;> linarith
  refine fl_near (e := 1 / 2 ^ 5) (b := 2 ^ 48) ?_ ?_ (by norm_num)
  · rw [abs_le] at h1 ⊢
    push_cast at h1 ⊢
    constructor <;> linarith
  · rw [abs_le]
    push_cast
    constructor <;> linarith

/-- What it computes for full hours. -/
theorem phttpdate_hours {zone : Localzone} {tm : ℤ} (htm : Small tm) (hwest : Small (zone.west tm))
    (halt : Small zone.altzone) (sign : Char) {hh : ℤ} (hh' : 0 ≤ hh ∧ hh < 100) :
    fl (fl (zone.mktime tm - zoneseconds (zonenumber sign hh 0)) - zone.altzone) =
      (tm + zone.west tm - offset sign hh 0 - zone.altzone : ℤ) := by
  have hoff : |offset sign hh 0| ≤ 400000 := by
    unfold offset
    rw [abs_le]
    split_ifs <;> omega
  unfold Small at htm hwest halt
  rw [abs_lt] at htm hwest halt
  rw [abs_le] at hoff
  rw [zoneseconds_hours sign hh']
  have h1 := fl_intCast (n := zone.mktime tm - offset sign hh 0)
    (by rw [abs_lt, Localzone.mktime]; constructor <;> omega)
  have h2 := fl_intCast (n := zone.mktime tm - offset sign hh 0 - zone.altzone)
    (by rw [abs_lt, Localzone.mktime]; constructor <;> omega)
  push_cast at h1 h2 ⊢
  rw [h1, h2, Localzone.mktime]
  push_cast
  ring

/-- Two digits. -/
theorem decimal_two {s : List Char} (hlen : s.length = 2) (hd : ∀ c ∈ s, c.isDigit = true) :
    0 ≤ decimal s ∧ decimal s < 100 := by
  obtain ⟨a, b, rfl⟩ := List.length_eq_two.mp hlen
  have hdigit : ∀ c : Char, c.isDigit = true → 48 ≤ c.toNat ∧ c.toNat ≤ 57 := by
    intro c hc
    simpa [Char.isDigit, UInt32.le_iff_toNat_le] using hc
  have ha := hdigit a (hd a (by simp))
  have hb := hdigit b (hd b (by simp))
  simp only [decimal, List.foldl_cons, List.foldl_nil]
  omega

theorem zoneint_append {sign : Char} {hh mm : List Char} (hlen : mm.length = 2) :
    zoneint sign (hh ++ mm) = zonenumber sign (decimal hh) (decimal mm) := by
  obtain ⟨a, b, rfl⟩ := List.length_eq_two.mp hlen
  have happ : decimal (hh ++ [a, b]) = decimal hh * 100 + decimal [a, b] := by
    simp only [decimal, List.foldl_append, List.foldl_cons, List.foldl_nil]
    ring
  rw [zoneint, happ, zonenumber]

/-- A date whose zone is in full hours, exactly. -/
theorem phttpdate_hours_iff {strptime : List Char → Option ℤ} (zone : Localzone)
    (halt : Small zone.altzone) {date : List Char} {tm : ℤ} (hdate : strptime date = some tm)
    (htm : Small tm) (hwest : Small (zone.west tm)) (sign : Char) (hsign : sign = '+' ∨ sign = '-')
    (hh mm : List Char) (hh2 : hh.length = 2 ∧ ∀ c ∈ hh, c.isDigit = true)
    (hm2 : mm.length = 2 ∧ ∀ c ∈ mm, c.isDigit = true) (h0 : decimal mm = 0) :
    phttpdate strptime zone (date ++ ' ' :: sign :: (hh ++ mm)) =
        .ok (some (tm - offset sign (decimal hh) (decimal mm) : ℤ)) ↔
      zone.west tm - zone.altzone = zoneerror sign (decimal mm) := by
  rw [phttpdate_zone zone hdate sign hsign _ (by rw [List.length_append, hh2.1, hm2.1])
      (fun c hc => (List.mem_append.mp hc).elim (hh2.2 c) (hm2.2 c)),
    zoneint_append hm2.1, h0, phttpdate_hours htm hwest halt sign (decimal_two hh2.1 hh2.2), zoneerror,
    if_pos rfl, Except.ok.injEq, Option.some.injEq, Int.cast_inj]
  omega

/-- A date with a numeric zone, to the second. -/
theorem phttpdate_gives_iff {strptime : List Char → Option ℤ} (zone : Localzone)
    (halt : Small zone.altzone) {date : List Char} {tm : ℤ} (hdate : strptime date = some tm)
    (htm : Small tm) (hwest : Small (zone.west tm)) (sign : Char) (hsign : sign = '+' ∨ sign = '-')
    (hh mm : List Char) (hh2 : hh.length = 2 ∧ ∀ c ∈ hh, c.isDigit = true)
    (hm2 : mm.length = 2 ∧ ∀ c ∈ mm, c.isDigit = true) :
    Gives (phttpdate strptime zone (date ++ ' ' :: sign :: (hh ++ mm)))
        (tm - offset sign (decimal hh) (decimal mm)) ↔
      zone.west tm - zone.altzone = zoneerror sign (decimal mm) := by
  have hnear := phttpdate_near htm hwest halt sign (decimal_two hh2.1 hh2.2)
    (decimal_two hm2.1 hm2.2)
  rw [phttpdate_zone zone hdate sign hsign _ (by rw [List.length_append, hh2.1, hm2.1])
      (fun c hc => (List.mem_append.mp hc).elim (hh2.2 c) (hm2.2 c)), zoneint_append hm2.1]
  generalize fl (fl _ - _) = x at *
  generalize hr : tm + zone.west tm - (offset sign (decimal hh) (decimal mm) +
    zoneerror sign (decimal mm)) - zone.altzone = r at *
  generalize hu : tm - offset sign (decimal hh) (decimal mm) = u at *
  have hiff : zone.west tm - zone.altzone = zoneerror sign (decimal mm) ↔ r = u := by omega
  rw [hiff]
  constructor
  · rintro ⟨_, ⟨⟩, hx⟩
    -- two integers less than one apart
    have hlt : |((r - u : ℤ) : ℚ)| < 1 := by
      rw [abs_lt] at hx ⊢
      rw [abs_le] at hnear
      push_cast
      constructor <;> linarith
    have hint : |r - u| < 1 := by exact_mod_cast hlt
    rw [Int.abs_lt_one_iff] at hint
    omega
  · rintro rfl
    exact ⟨x, rfl, by linarith⟩

/-- For every local zone: `phttpdate` takes back what `httpdate` makes of a time exactly if the
    local zone is as far west then as `altzone`. And a date with a numeric zone gives the instant
    that it denotes (to the second, and without any difference if its zone is in full hours)
    exactly if the local offset at the date is `altzone` and what the division of the zone goes
    wrong by. `strptime` is to take back what `strftime` makes of the time. -/
theorem phttpdate_iff (strftime : ℤ → List Char) (strptime : List Char → Option ℤ)
    (zone : Localzone) (halt : Small zone.altzone) :
    (∀ ts, strptime (strftime ts) = some ts → Small ts → Small (zone.west ts) →
        (phttpdate strptime zone (httpdate strftime ts) = .ok (some (ts : ℤ)) ↔
          zone.west ts = zone.altzone)) ∧
      ∀ (date hh mm : List Char) (tm : ℤ) (sign : Char), strptime date = some tm → Small tm →
        Small (zone.west tm) → sign = '+' ∨ sign = '-' →
        (hh.length = 2 ∧ ∀ c ∈ hh, c.isDigit = true) →
        (mm.length = 2 ∧ ∀ c ∈ mm, c.isDigit = true) →
        (Gives (phttpdate strptime zone (date ++ ' ' :: sign :: (hh ++ mm)))
            (tm - offset sign (decimal hh) (decimal mm)) ↔
          zone.west tm - zone.altzone = zoneerror sign (decimal mm)) ∧
        (decimal mm = 0 →
          (phttpdate strptime zone (date ++ ' ' :: sign :: (hh ++ mm)) =
              .ok (some (tm - offset sign (decimal hh) (decimal mm) : ℤ)) ↔
            zone.west tm - zone.altzone = zoneerror sign (decimal mm))) := by
  refine ⟨fun ts hts hsmall hwest => ?_, fun date hh mm tm sign hdate htm hwest hsign hh2 hm2 => ?_⟩
  · have h := phttpdate_hours_iff zone halt hts hsmall hwest '+' (.inl rfl) ['0', '0'] ['0', '0']
      ⟨rfl, List.all_eq_true.mp rfl⟩ ⟨rfl, List.all_eq_true.mp rfl⟩ rfl
    have hoff : offset '+' (decimal ['0', '0']) (decimal ['0', '0']) = 0 := by decide
    have herr : zoneerror '+' (decimal ['0', '0']) = 0 := by decide
    rw [hoff, herr, Int.sub_zero, Int.sub_eq_zero] at h
    exact h
  · exact ⟨phttpdate_gives_iff zone halt hdate htm hwest sign hsign hh mm hh2 hm2,
      phttpdate_hours_iff zone halt hdate htm hwest sign hsign hh mm hh2 hm2⟩

/-! ## Central Europe -/

/-- Winter in central Europe. -/
def winter : Localzone := ⟨fun _ => -3600, -7200⟩

def newyear : List Char := "Thu, 01 Jan 1970 00:00:00".toList

/-- `strptime`, on that date. -/
def readnewyear (s : List Char) : Option ℤ := if s = newyear then some 0 else none

theorem small_of {n : ℤ} (h : -10000 < n ∧ n < 10000) : Small n := by
  rw [Small, abs_lt]
  constructor <;> omega

theorem phttpdate_iff_newyear :
    (phttpdate readnewyear winter (httpdate (fun _ => newyear) 0) = .ok (some (0 : ℤ)) ↔
        winter.west 0 = winter.altzone) ∧
      (Gives (phttpdate readnewyear winter (newyear ++ ' ' :: '+' :: (['0', '1'] ++ ['3', '0'])))
          (0 - offset '+' (decimal ['0', '1']) (decimal ['3', '0'])) ↔
        winter.west 0 - winter.altzone = zoneerror '+' (decimal ['3', '0'])) :=
  ⟨(phttpdate_iff (fun _ => newyear) readnewyear winter (small_of (by decide))).1 0
      (if_pos rfl) (small_of (by decide)) (small_of (by decide)),
    ((phttpdate_iff (fun _ => newyear) readnewyear winter (small_of (by decide))).2 newyear
      ['0', '1'] ['3', '0'] 0 '+' (if_pos rfl) (small_of (by decide)) (small_of (by decide))
      (.inl rfl) ⟨rfl, List.all_eq_true.mp rfl⟩ ⟨rfl, List.all_eq_true.mp rfl⟩).1⟩

/-- In winter, a time is read an hour late; and also where there is only one local offset, a zone
    with half an hour is not read as what it denotes. -/
theorem phttpdate_winter :
    phttpdate readnewyear winter (httpdate (fun _ => newyear) 0) = .ok (some 3600) ∧
      ¬ Gives (phttpdate readnewyear ⟨fun _ => 0, 0⟩
          (newyear ++ ' ' :: '+' :: (['0', '1'] ++ ['3', '0'])))
        (0 - offset '+' (decimal ['0', '1']) (decimal ['3', '0'])) := by
  have hdate : readnewyear newyear = some 0 := if_pos rfl
  constructor
  · have hzone := phttpdate_zone winter hdate '+' (.inl rfl) ['0', '0', '0', '0'] rfl
      (List.all_eq_true.mp rfl)
    have hwest : Small (winter.west 0) := small_of (by decide)
    have halt : Small winter.altzone := small_of (by decide)
    have hhours := phttpdate_hours (small_of (by decide)) hwest halt '+'
      (show (0 : ℤ) ≤ 0 ∧ (0 : ℤ) < 100 by decide)
    have hint : zoneint '+' ['0', '0', '0', '0'] = zonenumber '+' 0 0 := by decide
    have hval : (0 + winter.west 0 - offset '+' 0 0 - winter.altzone : ℤ) = 3600 := by decide
    rw [hint, hhours, hval] at hzone
    exact hzone
  · have h := phttpdate_gives_iff ⟨fun _ => 0, 0⟩ (small_of (by decide)) hdate
      (small_of (by decide)) (small_of (by decide)) '+' (.inl rfl) ['0', '1'] ['3', '0']
      ⟨rfl, List.all_eq_true.mp rfl⟩ ⟨rfl, List.all_eq_true.mp rfl⟩
    rw [h]
    decide

end Ashd.Wsgiutil
