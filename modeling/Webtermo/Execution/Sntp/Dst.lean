import Webtermo.Execution.Sntp.State

open Calendar Date

namespace Sntp

variable {r : Rtc} {c : DateTime}

-- The members of `r` are a date and a time with the weekday.
structure Reads (r : Rtc) (c : DateTime) : Prop where
  year  : r.year.toNat = c.date.year
  month : r.month.toNat = c.date.month
  mday  : r.mday.toNat = c.date.day
  wday  : r.wday.toNat = c.date.weekday
  hour  : r.hour.toNat = c.hour
  min   : r.min.toNat = c.minute
  sec   : r.sec.toNat = c.second

-- Two o'clock of the last Sunday of a month
def changeover (year month : Nat) : Nat :=
  86400 * lastSunday year month + 7200

def InSummer (c : DateTime) : Prop :=
  changeover c.date.year 3 ≤ c.seconds ∧ c.seconds < changeover c.date.year 10

instance : Decidable (InSummer c) :=
  inferInstanceAs <| Decidable (_ ∧ _)

-- The last Sunday is one of the month, and no Sunday of the month is later.
theorem changeover_eq (hm : 1 ≤ m) (hm₁ : m ≤ 12) :
    ∃ d : Date, d.year = y ∧ d.month = m ∧ d.weekday = 0 ∧
      (∀ d₁ : Date, d₁.year = y → d₁.month = m → d₁.weekday = 0 → d₁.number ≤ d.number) ∧
      changeover y m = (DateTime.mk d 2 0 0 (by decide) (by decide) (by decide)).seconds := by
  have ⟨d, hy, hd, hw, hn⟩ := exists_lastSunday (y := y) hm hm₁
  refine ⟨d, hy, hd, hw, fun d₁ hy₁ hd₁ hw₁ => ?_, ?_⟩
  · rw [hn, ← hy₁, ← hd₁]
    exact number_le_lastSunday hw₁
  · rw [changeover, ← hn]
    rfl

-- In a month before or behind the one of the changeover

theorem seconds_lt_changeover (h : c.date.month < m) : c.seconds < changeover c.date.year m := by
  have := number_lt_lastSunday h
  have := c.hour_lt
  have := c.minute_lt
  have := c.second_lt
  unfold DateTime.seconds changeover
  omega

theorem changeover_lt_seconds (hm : 1 ≤ m) (h : m < c.date.month) :
    changeover c.date.year m < c.seconds := by
  have := lastSunday_lt_number hm h
  unfold DateTime.seconds changeover
  omega

-- In the month of the changeover, which has 31 days
theorem changeover_le_seconds (hd : monthDays c.date.year c.date.month = 31) :
    changeover c.date.year c.date.month ≤ c.seconds ↔
      25 ≤ (c.date.day : Int) - c.date.weekday ∧ (c.date.weekday ≠ 0 ∨ 2 ≤ c.hour) := by
  have := lastSunday_le_number hd
  have := number_eq_lastSunday hd
  have := c.hour_lt
  have := c.minute_lt
  have := c.second_lt
  unfold DateTime.seconds changeover
  omega

theorem Reads.isDST_iff (h : Reads r c) : isDST r ↔ InSummer c := by
  have h₃ : r.month < 3 ↔ c.date.month < 3 := by simp [UInt8.lt_iff_toNat_lt, h.month]
  have h₁₀ : 10 < r.month ↔ 10 < c.date.month := by simp [UInt8.lt_iff_toNat_lt, h.month]
  have e₃ : r.month = 3 ↔ c.date.month = 3 := by simp [← UInt8.toNat_inj, h.month]
  have e₁₀ : r.month = 10 ↔ c.date.month = 10 := by simp [← UInt8.toNat_inj, h.month]
  have w₀ : r.wday = 0 ↔ c.date.weekday = 0 := by simp [← UInt8.toNat_inj, h.wday]
  have h₂ : 2 ≤ r.hour ↔ 2 ≤ c.hour := by simp [UInt8.le_iff_toNat_le, h.hour]
  simp only [isDST, Bool.or_eq_true, decide_eq_true_eq, h₃, h₁₀, h.mday, h.wday]
  split
  case isTrue hm =>
    refine iff_of_false nofun fun ⟨hl, hu⟩ => ?_
    obtain hm | hm := hm
    · exact absurd (seconds_lt_changeover hm) <| Nat.not_lt.mpr hl
    · exact absurd (changeover_lt_seconds (by decide) hm) <| Nat.not_lt.mpr <| Nat.le_of_lt hu
  case isFalse hm =>
    simp only [Bool.and_eq_true, Bool.or_eq_true, decide_eq_true_eq, ne_eq, decide_not,
      Bool.not_eq_eq_eq_not, Bool.not_true, decide_eq_false_iff_not, w₀, h₂]
    by_cases hm₃ : c.date.month = 3
    case pos =>
      have hl := changeover_le_seconds (c := c) (by rw [hm₃]; rfl)
      have hu : c.seconds < changeover c.date.year 10 := seconds_lt_changeover (by omega)
      rw [hm₃] at hl
      rw [InSummer, hl, and_iff_left hu]
      split
      case isTrue hc => exact iff_of_true (by simp [e₁₀, hm₃]) hc
      case isFalse hc => exact iff_of_false (by simp [e₃, hm₃]) hc
    case neg =>
      have hl : changeover c.date.year 3 < c.seconds := changeover_lt_seconds (by decide) (by omega)
      rw [InSummer, and_iff_right <| Nat.le_of_lt hl]
      by_cases hm₁₀ : c.date.month = 10
      case pos =>
        have hu := changeover_le_seconds (c := c) (by rw [hm₁₀]; rfl)
        rw [hm₁₀] at hu
        rw [← Nat.not_le, hu]
        split
        case isTrue hc => exact iff_of_false (by simp [e₁₀, hm₁₀]) (· hc)
        case isFalse hc => exact iff_of_true (by simp [e₃, hm₃]) hc
      case neg =>
        have hu : c.seconds < changeover c.date.year 10 := seconds_lt_changeover (by omega)
        refine iff_of_true ?_ hu
        split <;> simp [e₁₀, e₃, hm₃, hm₁₀]

theorem InSummer.month (h : InSummer c) : 3 ≤ c.date.month ∧ c.date.month ≤ 10 := by
  have ⟨hl, hu⟩ := h
  constructor
  case left =>
    by_contra hm
    exact absurd (seconds_lt_changeover <| Nat.not_le.mp hm) <| Nat.not_lt.mpr hl
  case right =>
    by_contra hm
    exact absurd (changeover_lt_seconds (by decide) <| Nat.not_le.mp hm) <| Nat.not_lt.mpr <|
      Nat.le_of_lt hu

theorem daysInMonth_eq {month : Nat} (h : 3 ≤ month) (hm : month ≤ 10) :
    (daysInMonth.getD (month - 1) 0).toNat = monthDays y month := by
  have : month = 3 ∨ month = 4 ∨ month = 5 ∨ month = 6 ∨ month = 7 ∨ month = 8 ∨ month = 9 ∨
      month = 10 := by omega
  obtain rfl | rfl | rfl | rfl | rfl | rfl | rfl | rfl := this <;> rfl

-- An hour later on the same day
theorem Reads.sameDay (h : Reads r c) (hh : c.hour + 1 < 24) :
    Reads { r with hour := r.hour + 1, dst := 1 } c.later := by
  rw [DateTime.later, dif_pos hh]
  refine ⟨h.year, h.month, h.mday, h.wday, ?_, h.min, h.sec⟩
  simp only [UInt8.toNat_add, h.hour, UInt8.toNat_one]
  omega

-- The date of the next day, which is in the same year
theorem Reads.nextDate (h : Reads r c) (hm : c.date.month < 12)
    (hl : last.toNat = monthDays c.date.year c.date.month) :
    r.year.toNat = c.date.next.year ∧
    (if r.mday = last then r.month + 1 else r.month).toNat = c.date.next.month ∧
    ((if r.mday = last then 0 else r.mday) + 1).toNat = c.date.next.day := by
  have he : r.mday = last ↔ ¬c.date.day < monthDays c.date.year c.date.month := by
    have := c.date.day_le
    rw [← UInt8.toNat_inj, h.mday, hl]
    omega
  have mday : (r.mday + 1).toNat = c.date.day + 1 := by
    have := Nat.le_trans c.date.day_le monthDays_le
    rw [UInt8.toNat_add, h.mday, UInt8.toNat_one]
    omega
  have month : (r.month + 1).toNat = c.date.month + 1 := by
    rw [UInt8.toNat_add, h.month, UInt8.toNat_one]
    omega
  unfold next
  by_cases hl : r.mday = last
  case pos =>
    rw [if_pos hl, if_pos hl, dif_neg <| he.mp hl, dif_pos hm]
    exact ⟨h.year, month, rfl⟩
  case neg =>
    rw [if_neg hl, if_neg hl, dif_pos <| not_not.mp <| mt he.mpr hl]
    exact ⟨h.year, h.month, mday⟩

theorem Reads.nextWeekday (h : Reads r c) :
    (if r.wday + 1 = 7 then 0 else r.wday + 1).toNat = c.date.next.weekday := by
  have wday : (r.wday + 1).toNat = c.date.weekday + 1 := by
    have : c.date.weekday < 7 := Nat.mod_lt _ (by decide)
    rw [UInt8.toNat_add, h.wday, UInt8.toNat_one]
    omega
  have hw : r.wday + 1 = 7 ↔ c.date.weekday + 1 = 7 := by
    rw [← UInt8.toNat_inj, wday]
    rfl
  rw [weekday_next]
  simp only [hw]
  split
  case isTrue => rfl
  case isFalse => exact wday

-- An hour later on the next day
theorem Reads.nextDay (h : Reads r c) (hh : ¬c.hour + 1 < 24) (hm : c.date.month < 12)
    (hl : last.toNat = monthDays c.date.year c.date.month) :
    Reads { r with
      month := if r.mday = last then r.month + 1 else r.month
      mday  := (if r.mday = last then 0 else r.mday) + 1
      wday  := if r.wday + 1 = 7 then 0 else r.wday + 1
      hour  := 0
      dst   := 1
    } c.later := by
  have ⟨year, month, mday⟩ := h.nextDate hm hl
  rw [DateTime.later, dif_neg hh]
  exact ⟨year, month, mday, h.nextWeekday, rfl, h.min, h.sec⟩

theorem Reads.adjustDST (h : Reads r c) :
    Reads (adjustDST r) (if InSummer c then c.later else c) := by
  unfold Sntp.adjustDST
  by_cases hs : InSummer c
  case neg =>
    rw [if_neg hs, if_neg (mt h.isDST_iff.mp hs)]
    exact ⟨h.year, h.month, h.mday, h.wday, h.hour, h.min, h.sec⟩
  case pos =>
    have ⟨hm, hm₁⟩ := hs.month
    rw [if_pos hs, if_pos (h.isDST_iff.mpr hs)]
    have hh : r.hour + 1 = 24 ↔ ¬c.hour + 1 < 24 := by
      have := c.hour_lt
      rw [← UInt8.toNat_inj, UInt8.toNat_add, h.hour, UInt8.toNat_one]
      simp only [UInt8.reduceToNat]
      omega
    simp only [hh]
    split
    case isTrue hh =>
      exact h.nextDay hh (by omega) (by rw [h.month]; exact daysInMonth_eq hm hm₁)
    case isFalse hh => exact h.sameDay <| not_not.mp hh

-- In every year, the summer time begins and ends at two o'clock of a last Sunday, and it is an hour
-- ahead of the standard time.
theorem dst_law (h : Reads r c) :
    (isDST r ↔ InSummer c) ∧ Reads (adjustDST r) (if isDST r then c.later else c) := by
  have hd := h.isDST_iff
  have := h.adjustDST
  simp only [← hd] at this
  exact ⟨hd, this⟩

-- The last hour of the last Sunday of March 2024, of which the next is in April
def easter : DateTime :=
  ⟨⟨2024, 3, 31, by decide, by decide, by decide, by decide⟩, 23, 30, 0, by decide, by decide, by decide⟩

def easterMonday : DateTime :=
  ⟨⟨2024, 4, 1, by decide, by decide, Date.first_pos, by decide⟩, 0, 30, 0, DateTime.midnight_lt, by decide,
    by decide⟩

theorem dst_law_easter :
    (isDST ⟨2024, 3, 31, 0, 23, 30, 0, 0⟩ ↔ InSummer easter) ∧
    Reads (adjustDST ⟨2024, 3, 31, 0, 23, 30, 0, 0⟩) easterMonday :=
  dst_law (c := easter) ⟨rfl, rfl, rfl, by decide, rfl, rfl, rfl⟩

end Sntp
