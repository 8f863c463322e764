/-
The two conversions of a time of the server.

The server tells times of UTC, and `mktime` takes what `strptime` reads for local time.
-/
import SiaFS.Bus.Scans
import SiaFS.Lib.Calendar

namespace SiaFS

open Calendar

variable {σ : Type}

/-! ## Times as the server writes them -/

def timeDigit (n : Nat) : UInt8 := (48 + n % 10).toUInt8

def twoDigits (n : Nat) : CStr := [timeDigit (n / 10), timeDigit n]

def fourDigits (n : Nat) : CStr :=
  [timeDigit (n / 1000), timeDigit (n / 100), timeDigit (n / 10), timeDigit n]

/-- A time of UTC from 1970 on, with the digits after its decimal point, if any. -/
structure UtcTime extends Date where
  hour : Nat
  minute : Nat
  second : Nat
  fraction : CStr
  year_ge : 1970 ≤ year
  year_le : year ≤ 9999
  hour_le : hour ≤ 23
  minute_le : minute ≤ 59
  second_le : second ≤ 60
  digits : ∀ b ∈ fraction, 48 ≤ b ∧ b ≤ 57

namespace UtcTime

def fractionText (t : UtcTime) : CStr := if t.fraction = [] then [] else 46 :: t.fraction

/-- `YYYY-MM-DDTHH:MM:SS[.fraction]Z` -/
def text (t : UtcTime) : CStr :=
  fourDigits t.year ++ [45] ++ twoDigits t.month ++ [45] ++ twoDigits t.day ++ [84] ++
    twoDigits t.hour ++ [58] ++ twoDigits t.minute ++ [58] ++ twoDigits t.second ++
    t.fractionText ++ [90]

/-- The whole seconds from the beginning of 1970. -/
def seconds (t : UtcTime) : Int :=
  86400 * t.dayNumber + 3600 * t.hour + 60 * t.minute + t.second

/-- The calendar fields. -/
def tm (t : UtcTime) : Tm :=
  { year := t.year, month := t.month, day := t.day, hour := t.hour, minute := t.minute
    second := t.second }

theorem text_length (t : UtcTime) : t.text.length = 20 + t.fractionText.length := by
  unfold text fourDigits twoDigits
  simp
  omega

/-- A time fits into 32 bytes with ten digits after the point. -/
theorem text_fits (t : UtcTime) : t.text.length < 32 ↔ t.fraction.length ≤ 10 := by
  rw [t.text_length, fractionText]
  by_cases h : t.fraction = []
  · simp [h]
  · rw [if_neg h, List.length_cons]
    omega

end UtcTime

/-! ## The C library -/

/-- The seconds between the fields and the beginning of 1970 on one clock. -/
def posixSeconds (tm : Tm) : Int :=
  86400 * posixDays tm.year.toNat tm.month tm.day + 3600 * tm.hour + 60 * tm.minute + tm.second

/-- A host with a fixed time zone, `zone` seconds ahead of UTC. -/
structure LocalClock (h : Host) (zone : Int) : Prop where
  strptime_eq : ∀ t : UtcTime, h.strptime t.text = some t.tm
  mktime_eq : ∀ t : UtcTime, h.mktime t.tm = posixSeconds t.tm - zone

theorem posixSeconds_tm (t : UtcTime) : posixSeconds t.tm = t.seconds := by
  show 86400 * posixDays t.year t.month t.day + 3600 * t.hour + 60 * t.minute + t.second = _
  rw [posixDays_eq t.toDate t.year_ge]
  rfl

section Conversions

variable {e : Env σ} {h : Host} {zone : Int} {path : CStr} {w : World σ}

/-- Every time comes out `zone` seconds early. -/
theorem LocalClock.string2unixtime_eq (hclock : LocalClock h zone) (t : UtcTime) :
    string2unixtime h t.text = t.seconds - zone := by
  rw [string2unixtime, hclock.strptime_eq, Option.map_some, Option.getD_some, hclock.mktime_eq,
    posixSeconds_tm]

theorem unixtime_apply {first : Option CStr} {text : CStr}
    (hfirst : (sia_bus_objects_modtime e path w).1 = .ok first)
    (hsecond : (sia_bus_objects_modtime e path (sia_bus_objects_modtime e path w).2).1 =
      .ok (some text)) :
    (sia_bus_objects_unixtime e path w).1 =
      if text.length < 32 then .ok (string2unixtime e.host text) else .error .outOfBounds := by
  rw [sia_bus_objects_unixtime, Exec.bind_of_ok (Prod.ext hfirst rfl),
    Exec.bind_of_ok (Prod.ext hsecond rfl)]
  by_cases hfits : text.length < 32
  · have hcopy : copyTimestamp (some text) = .ok text := if_pos hfits
    rw [if_pos hfits, Exec.lift_ok_bind hcopy, string2unixtime]
    cases e.host.strptime text <;> rfl
  · have hcopy : copyTimestamp (some text) = .error .outOfBounds := if_neg hfits
    rw [if_neg hfits, hcopy]
    rfl

end Conversions

/-- The conversions give the seconds of a time exactly when the host keeps UTC, and the one
of a path then needs at most ten digits after the point.  Two hosts agree exactly when they
have one time zone. -/
theorem unixtime_iff {e : Env σ} {zone : Int} (hclock : LocalClock e.host zone) (t : UtcTime)
    {path : CStr} {w : World σ} {first : Option CStr}
    (hfirst : (sia_bus_objects_modtime e path w).1 = .ok first)
    (hsecond : (sia_bus_objects_modtime e path (sia_bus_objects_modtime e path w).2).1 =
      .ok (some t.text)) :
    (string2unixtime e.host t.text = t.seconds ↔ zone = 0) ∧
    ((sia_bus_objects_unixtime e path w).1 = .ok t.seconds ↔
      zone = 0 ∧ t.fraction.length ≤ 10) ∧
    ∀ h zone', LocalClock h zone' →
      (string2unixtime e.host t.text = string2unixtime h t.text ↔ zone = zone') := by
  have hiff : t.seconds - zone = t.seconds ↔ zone = 0 := by omega
  rw [unixtime_apply hfirst hsecond, hclock.string2unixtime_eq, hiff]
  refine ⟨Iff.rfl, ?_, fun h zone' hclock' => ?_⟩
  · rw [← t.text_fits]
    by_cases hfits : t.text.length < 32
    · rw [if_pos hfits, Except.ok.injEq, hiff]
      simp [hfits]
    · rw [if_neg hfits]
      simp [hfits]
  · rw [hclock'.string2unixtime_eq]
    omega

/-! ## A host -/

/-- The number that digits make. -/
def timeNumber (digits : CStr) : Nat := digits.foldl (fun n b => 10 * n + (b.toNat - 48)) 0

/-- `strptime` of a text that matches the format up to the zone, which takes no byte. -/
def readTime : CStr → Option Tm
  | y₃ :: y₂ :: y₁ :: y₀ :: 45 :: m₁ :: m₀ :: 45 :: d₁ :: d₀ :: 84 :: h₁ :: h₀ :: 58 ::
      n₁ :: n₀ :: 58 :: s₁ :: s₀ :: _ =>
    some { year := timeNumber [y₃, y₂, y₁, y₀]
           month := timeNumber [m₁, m₀]
           day := timeNumber [d₁, d₀]
           hour := timeNumber [h₁, h₀]
           minute := timeNumber [n₁, n₀]
           second := timeNumber [s₁, s₀] }
  | _ => none

/-- The host of the mounts with a clock of this zone. -/
def clockHost (zone : Int) : Host :=
  { plainHost with strptime := readTime, mktime := fun tm => posixSeconds tm - zone }

theorem timeDigit_toNat (n : Nat) : (timeDigit n).toNat - 48 = n % 10 := by
  have hlt : 48 + n % 10 < 256 := by omega
  show (48 + n % 10).toUInt8.toNat - 48 = n % 10
  rw [Nat.toUInt8_eq, UInt8.toNat_ofNat_of_lt' hlt]
  omega

theorem timeNumber_twoDigits {n : Nat} (h : n < 100) : timeNumber (twoDigits n) = n := by
  unfold timeNumber twoDigits
  rw [List.foldl_cons, List.foldl_cons, List.foldl_nil, timeDigit_toNat, timeDigit_toNat]
  omega

theorem timeNumber_fourDigits {n : Nat} (h : n < 10000) : timeNumber (fourDigits n) = n := by
  unfold timeNumber fourDigits
  rw [List.foldl_cons, List.foldl_cons, List.foldl_cons, List.foldl_cons, List.foldl_nil,
    timeDigit_toNat, timeDigit_toNat, timeDigit_toNat, timeDigit_toNat]
  omega

theorem daysInMonth_le (leap : Bool) (month : Nat) : daysInMonth leap month ≤ 31 := by
  unfold daysInMonth
  split <;> (try split) <;> decide

theorem readTime_text (t : UtcTime) : readTime t.text = some t.tm := by
  have hmonth := t.month_le
  have hday := Nat.le_trans t.day_le (daysInMonth_le _ _)
  have hhour := t.hour_le
  have hminute := t.minute_le
  have hsecond := t.second_le
  show some (Tm.mk (timeNumber (fourDigits t.year)) (timeNumber (twoDigits t.month))
    (timeNumber (twoDigits t.day)) (timeNumber (twoDigits t.hour)) (timeNumber (twoDigits t.minute))
    (timeNumber (twoDigits t.second))) = _
  rw [timeNumber_fourDigits (Nat.lt_succ_of_le t.year_le), timeNumber_twoDigits,
    timeNumber_twoDigits, timeNumber_twoDigits, timeNumber_twoDigits, timeNumber_twoDigits]
  · rfl
  all_goals omega

theorem clockHost_strptime (zone : Int) : (clockHost zone).strptime = readTime := rfl

theorem clockHost_clock (zone : Int) : LocalClock (clockHost zone) zone := by
  refine ⟨fun t => ?_, fun _ => rfl⟩
  rw [clockHost_strptime, readTime_text]

/-- 2024-04-20T03:34:36 and this fraction. -/
def aprilTime (fraction : CStr) (digits : ∀ b ∈ fraction, 48 ≤ b ∧ b ≤ 57) : UtcTime where
  year := 2024
  month := 4
  day := 20
  hour := 3
  minute := 34
  second := 36
  fraction := fraction
  month_pos := by decide
  month_le := by decide
  day_pos := by decide
  day_le := by decide
  year_ge := by decide
  year_le := by decide
  hour_le := by decide
  minute_le := by decide
  second_le := by decide
  digits := digits

def goTime : UtcTime := aprilTime (lit "367719838") (by decide +kernel)

/-- A mount in this zone, with a directory of this time. -/
def zoneMount (zone : Int) (text : CStr) : Env Unit :=
  { listMount [.obj [(lit "name", .str (lit "/d/")), (lit "size", .num 0),
      (lit "modTime", .str text)]] with host := clockHost zone }

theorem unixtime_iff_utc :
    (sia_bus_objects_unixtime (zoneMount 0 goTime.text) (lit "/d") (mounted () none)).1 =
        .ok goTime.seconds ↔ (0 : Int) = 0 ∧ goTime.fraction.length ≤ 10 := by
  have hfirst : (sia_bus_objects_modtime (zoneMount 0 goTime.text) (lit "/d")
      (mounted () none)).1 = .ok (some goTime.text) := rfl
  exact (unixtime_iff (clockHost_clock 0) goTime hfirst rfl).2.1

/-- An hour east of UTC, and a time with eleven digits. -/
theorem zone_shifts_time :
    goTime.text = lit "2024-04-20T03:34:36.367719838Z" ∧ goTime.seconds = 1713584076 ∧
      string2unixtime (clockHost 3600) goTime.text = 1713580476 ∧
      (sia_bus_objects_unixtime (zoneMount 3600 goTime.text) (lit "/d")
        (mounted () none)).1.toOption = some 1713580476 ∧
      (sia_bus_objects_unixtime (zoneMount 0 (lit "2024-04-20T03:34:36.36771983812Z")) (lit "/d")
        (mounted () none)).1 = .error .outOfBounds :=
  ⟨by decide +kernel, by decide +kernel, by decide +kernel, by decide +kernel, rfl⟩

end SiaFS
