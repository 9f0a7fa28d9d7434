import Webtermo.Execution.Sntp.Dst

open Define Calendar Date

namespace Sntp

variable {r : Rtc} {t : Nat} {m m₁ : Memory}

-- The date of a local time
abbrev date (t : Nat) : Date :=
  ofDays (t / 86400)

-- The standard time of a zone
def zoneTime (zone : UInt8) (utc : Nat) : Nat :=
  if zone ≤ 12 then utc + zone.toNat * 3600 else utc - (zone.toNat - 20) * 3600

-- The standard time lies between two o'clock of the last Sundays of March and of October.
def Summer (t : Nat) : Prop :=
  let hours := 24 * (date t).number + t % 86400 / 3600
  24 * lastSunday (date t).year 3 + 2 ≤ hours ∧ hours < 24 * lastSunday (date t).year 10 + 2

instance : Decidable (Summer t) :=
  inferInstanceAs <| Decidable (_ ∧ _)

def localTime (zone : UInt8) (dst : Bool) (utc : Nat) : Nat :=
  let t := zoneTime zone utc
  if dst ∧ Summer t then t + 3600 else t

-- The RTC is given a local time, with the weekdays from 1 to 7.
structure Shows (t : Nat) (d : RtcDate) (c : RtcTime) : Prop where
  year    : 2000 + d.year.toNat = (date t).year
  month   : d.month.toNat = (date t).month
  day     : d.date.toNat = (date t).day
  weekday : d.weekDay.toNat = if (date t).weekday = 0 then 7 else (date t).weekday
  hours   : c.hours.toNat = t % 86400 / 3600
  minutes : c.minutes.toNat = t % 3600 / 60
  seconds : c.seconds.toNat = t % 60

-- What the RTC accepts
structure Accepted (d : RtcDate) (c : RtcTime) : Prop where
  year    : d.year ≤ 99
  month   : 1 ≤ d.month ∧ d.month ≤ 12
  date    : 1 ≤ d.date ∧ d.date ≤ 31
  weekDay : 1 ≤ d.weekDay ∧ d.weekDay ≤ 7
  hours   : c.hours ≤ 23
  minutes : c.minutes ≤ 59
  seconds : c.seconds ≤ 59

-- The members of `rtc` stand for a local time.
structure Stands (r : Rtc) (t : Nat) : Prop where
  year  : r.year.toNat = (date t).year
  month : r.month.toNat = (date t).month
  mday  : r.mday.toNat = (date t).day
  wday  : r.wday.toNat = (date t).weekday
  hour  : r.hour.toNat = t % 86400 / 3600
  min   : r.min.toNat = t % 3600 / 60
  sec   : r.sec.toNat = t % 60

theorem date_day_le : (date t).day ≤ 31 :=
  Nat.le_trans (date t).day_le monthDays_le

theorem stands_iff_reads : Stands r t ↔ Reads r (.ofSeconds t) :=
  ⟨fun h => ⟨h.year, h.month, h.mday, h.wday, h.hour, h.min, h.sec⟩,
    fun h => ⟨h.year, h.month, h.mday, h.wday, h.hour, h.min, h.sec⟩⟩

theorem summer_iff : Summer t ↔ InSummer (.ofSeconds t) := by
  simp only [Summer, InSummer, changeover, DateTime.seconds, DateTime.ofSeconds, date]
  omega

-- `adjustDST` adds an hour in the summer.
theorem adjustDST_stands (h : Stands r t) :
    Stands (adjustDST r) (if Summer t then t + 3600 else t) := by
  have := (stands_iff_reads.mp h).adjustDST
  rw [stands_iff_reads, apply_ite DateTime.ofSeconds]
  simpa only [← summer_iff, DateTime.later_ofSeconds] using this

theorem ofTm_stands (hy : (date t).year < 2100) (hy₁ : 1900 ≤ (date t).year) :
    Stands (.ofTm { localtime t with
      mon := (localtime t).mon + 1, year := (localtime t).year + 1900 }) t := by
  have := (date t).month_pos
  have := (date t).month_le
  have := date_day_le (t := t)
  have : (date t).weekday < 7 := Nat.mod_lt _ (by decide)
  simp only [date] at *
  constructor <;> simp [Rtc.ofTm, localtime, date] <;> omega

-- The seconds from the start of 2000 to the end of 2035
def Supported (utc : Nat) : Prop :=
  946684800 ≤ utc ∧ utc < 2082758400

instance : Decidable (Supported utc) :=
  inferInstanceAs <| Decidable (_ ∧ _)

-- The time zones that the page can store
def Stored (zone : UInt8) : Prop :=
  zone ≤ 12 ∨ (21 ≤ zone ∧ zone ≤ 32)

instance : Decidable (Stored zone) :=
  inferInstanceAs <| Decidable (_ ∨ _)

theorem shifted_eq (hu : Supported utc) (hz : Stored zone) :
    shifted zone utc = some (zoneTime zone utc) := by
  have ⟨hu, _⟩ := hu
  simp only [Stored, UInt8.le_iff_toNat_le, UInt8.reduceToNat] at hz
  simp only [shifted, zoneTime, UInt8.lt_iff_toNat_lt, UInt8.le_iff_toNat_le, UInt8.reduceToNat,
    Nat.toUInt16_eq, UInt16.toNat_ofNat']
  obtain hz | hz := hz
  · have h : ¬20 < zone.toNat := by omega
    rw [if_neg h, if_pos hz, Nat.mod_eq_of_lt (by omega)]
  · have h : 20 < zone.toNat := by omega
    have h₁ : ¬zone.toNat ≤ 12 := by omega
    rw [if_pos h, if_neg h₁, Nat.mod_eq_of_lt (by omega), if_pos (by omega)]

theorem zoneTime_bounds (hu : Supported utc) (hz : Stored zone) :
    946684800 - 43200 ≤ zoneTime zone utc ∧ zoneTime zone utc < 2082758400 + 43200 := by
  have ⟨hu, hu₁⟩ := hu
  simp only [Stored, UInt8.le_iff_toNat_le, UInt8.reduceToNat] at hz
  simp only [zoneTime, UInt8.le_iff_toNat_le, UInt8.reduceToNat]
  split <;> omega

-- Years of which the first second is known bound the years of other times.
theorem year_bounds (h : 946684800 - 43200 ≤ t) (h₁ : t < 2082758400 + 86400) :
    1999 ≤ (date t).year ∧ (date t).year ≤ 2036 := by
  have hn : (date t).number = epoch.number + t / 86400 := number_ofDays
  have he : epoch.number = 719529 := by decide
  have hl := yearStart_lt_number (d := date t)
  have hu := number_le_yearStart (d := date t)
  constructor
  case left =>
    by_contra hy
    have : yearStart ((date t).year + 1) ≤ yearStart 1999 := yearStart_le (by omega)
    have : yearStart 1999 = 730120 := by decide
    omega
  case right =>
    by_contra hy
    have : yearStart 2037 ≤ yearStart (date t).year := yearStart_le (by omega)
    have : yearStart 2037 = 744000 := by decide
    omega

-- What the RTC is given from `rtc` is right but for Sundays and for the years before 2000.
theorem stands_iff (h : Stands r t) (hy : (date t).year < 2100) (hy₁ : 1999 ≤ (date t).year) :
    (Shows t ⟨(r.year - 2000).toUInt8, r.month, r.mday, r.wday⟩ ⟨r.hour, r.min, r.sec⟩ ∧
      Accepted ⟨(r.year - 2000).toUInt8, r.month, r.mday, r.wday⟩ ⟨r.hour, r.min, r.sec⟩) ↔
    (date t).weekday ≠ 0 ∧ 2000 ≤ (date t).year := by
  have year : (r.year - 2000).toUInt8.toNat = ((date t).year + 63536) % 256 := by
    simp only [UInt16.toNat_toUInt8, UInt16.toNat_sub, h.year, UInt16.reduceToNat]
    omega
  constructor
  case mp =>
    intro ⟨shows, accepted⟩
    constructor
    case left =>
      intro hw
      have := accepted.weekDay.1
      simp only [UInt8.le_iff_toNat_le, h.wday, hw] at this
      exact absurd this (by decide)
    case right =>
      have := shows.year
      omega
  case mpr =>
    intro ⟨hw, hn⟩
    have := (date t).month_pos
    have := (date t).month_le
    have := (date t).day_pos
    have := date_day_le (t := t)
    have : (date t).weekday < 7 := Nat.mod_lt _ (by decide)
    constructor
    case left =>
      refine ⟨?_, h.month, h.mday, ?_, h.hour, h.min, h.sec⟩
      · rw [year]
        omega
      · rw [if_neg hw]
        exact h.wday
    case right =>
      constructor
      all_goals
        simp only [UInt8.le_iff_toNat_le, UInt8.reduceToNat, year, h.month, h.mday, h.wday, h.hour,
          h.min, h.sec]
        omega

theorem localTime_stands (h : Stands r (zoneTime zone utc)) :
    Stands (if dst then adjustDST r else r) (localTime zone dst utc) := by
  unfold localTime
  cases dst with
  | false => simpa using h
  | true  => simpa using adjustDST_stands h

theorem localTime_bounds :
    zoneTime zone utc ≤ localTime zone dst utc ∧
      localTime zone dst utc ≤ zoneTime zone utc + 3600 := by
  simp only [localTime]
  split <;> omega

-- For every timestamp, time zone and DST setting, the RTC is given the local time exactly if it is
-- not on a Sunday and not before 2000.
theorem pipeline_law {utc : Nat} (hu : Supported utc) (hz : Stored (m eeTimeZone)) :
    (∃ m₁ d c, sntpProcess m (utc.toUInt32 + diffSec) = some (m₁, d, c) ∧
      Shows (localTime (m eeTimeZone) (m eeDstState = 1) utc) d c ∧ Accepted d c) ↔
    (date (localTime (m eeTimeZone) (m eeDstState = 1) utc)).weekday ≠ 0 ∧
      2000 ≤ (date (localTime (m eeTimeZone) (m eeDstState = 1) utc)).year := by
  have ⟨hl, hl₁⟩ := zoneTime_bounds hu hz
  have ⟨hd, hd₁⟩ := @localTime_bounds (m eeTimeZone) utc (m eeDstState = 1)
  have hr : (utc.toUInt32 + diffSec - diffSec).toNat = utc := by
    have := hu.2
    rw [UInt32.add_sub_cancel]
    simp
    omega
  have ⟨hy, hy₁⟩ := year_bounds hl (by omega)
  have h : Stands _ (zoneTime (m eeTimeZone) utc) := ofTm_stands (by omega) (by omega)
  have ⟨hn, hn₁⟩ := year_bounds (Nat.le_trans hl hd) (by omega)
  rw [← stands_iff (localTime_stands h) (by omega) hn]
  simp only [sntpProcess, hr, sntpSetSystemTime, shifted_eq hu hz, Option.bind_eq_bind,
    Option.bind_some, Option.some.injEq, Prod.mk.injEq, decide_eq_true_eq]
  constructor
  case mp =>
    intro ⟨_, _, _, ⟨_, hd, hc⟩, shows⟩
    exact hd ▸ hc ▸ shows
  case mpr => exact fun shows => ⟨_, _, _, ⟨rfl, rfl, rfl⟩, shows⟩

-- The first and the seventh of July 2024, a Monday and a Sunday
def july (day : Nat) (h : 1 ≤ day ∧ day ≤ 31) : Date :=
  ⟨2024, 7, day, by decide, by decide, h.1, h.2⟩

theorem ofDays_monday : ofDays 19905 = july 1 (by decide) :=
  ofDays_eq (by decide)

theorem ofDays_sunday : ofDays 19911 = july 7 (by decide) :=
  ofDays_eq (by decide)

-- The zone is one hour ahead, and DST is enabled.
def zagreb : Memory :=
  fun x => if x = eeTimeZone ∨ x = eeDstState then 1 else 0

theorem pipeline_law_monday : ∃ m₁ d c,
    sntpProcess zagreb ((1719835200 : Nat).toUInt32 + diffSec) = some (m₁, d, c) ∧
      Shows (1719835200 + 7200) d c ∧ Accepted d c := by
  have hd : date (zoneTime 1 1719835200) = july 1 (by decide) := ofDays_monday
  have hs : Summer (zoneTime 1 1719835200) := by
    unfold Summer
    rw [hd]
    decide
  have hl : localTime (zagreb eeTimeZone) (zagreb eeDstState = 1) 1719835200 = 1719835200 + 7200 := by
    have hz : zagreb eeTimeZone = 1 := by decide
    have hd : zagreb eeDstState = 1 := by decide
    simp only [localTime, hz, hd, hs]
    simp [zoneTime]
  have hd₁ : date (1719835200 + 7200) = july 1 (by decide) := ofDays_monday
  have := pipeline_law (m := zagreb) (show Supported 1719835200 by decide) (by decide)
  rw [hl, hd₁] at this
  exact this.mpr (by decide)

theorem weekDay_eq (hz : shifted (m eeTimeZone) n = some t) (hd : m eeDstState ≠ 1)
    (h : sntpSetSystemTime m n = some (m₁, d, c)) : d.weekDay = (date t).weekday.toUInt8 := by
  simp only [sntpSetSystemTime, hz, hd, if_false, Option.bind_eq_bind, Option.bind_some,
    Option.some.injEq, Prod.mk.injEq] at h
  rw [← h.2.1]
  rfl

-- The RTC gets the weekday 0 of a Sunday.
theorem sunday_zero :
    ¬∀ m utc, Supported utc → Stored (m eeTimeZone) → ∃ m₁ d c,
      sntpProcess m (utc.toUInt32 + diffSec) = some (m₁, d, c) ∧
      Shows (localTime (m eeTimeZone) (m eeDstState = 1) utc) d c ∧ Accepted d c := by
  intro h
  have ⟨m₁, d, c, hp, _, accepted⟩ := h (fun _ => 0) 1720310400 (by decide) (by decide)
  have ht : (Nat.toUInt32 1720310400 + diffSec - diffSec).toNat = 1720310400 := by decide
  rw [sntpProcess, ht] at hp
  have hw := weekDay_eq (t := 1720310400) (by decide) (by decide) hp
  have hd : date 1720310400 = july 7 (by decide) := ofDays_sunday
  rw [hd] at hw
  exact absurd accepted.weekDay.1 <| by rw [hw]; decide

end Sntp
