import Mathlib

-- The Gregorian calendar
namespace Calendar

def isLeap (y : Nat) : Prop :=
  y % 4 = 0 ∧ (y % 100 ≠ 0 ∨ y % 400 = 0)

instance : Decidable (isLeap y) :=
  inferInstanceAs <| Decidable (_ ∧ _)

def monthDays (y : Nat) : Nat → Nat
  | 2              => if isLeap y then 29 else 28
  | 4 | 6 | 9 | 11 => 30
  | _              => 31

@[ext]
structure Date where
  year      : Nat
  month     : Nat
  day       : Nat
  month_pos : 1 ≤ month
  month_le  : month ≤ 12
  day_pos   : 1 ≤ day
  day_le    : day ≤ monthDays year month
  deriving DecidableEq

theorem monthDays_le : monthDays y m ≤ 31 := by
  unfold monthDays
  split <;> try split
  all_goals decide

theorem monthDays_ge : 28 ≤ monthDays y m := by
  unfold monthDays
  split <;> try split
  all_goals decide

theorem monthDays_pos : 1 ≤ monthDays y m :=
  Nat.le_trans (by decide) monthDays_ge

namespace Date

variable {d d₁ d₂ : Date}

theorem first_pos : 1 ≤ 1 :=
  Nat.le_refl 1

def next (d : Date) : Date :=
  if h : d.day < monthDays d.year d.month then
    { d with day := d.day + 1, day_pos := by omega, day_le := h }
  else if h : d.month < 12 then
    ⟨d.year, d.month + 1, 1, by omega, h, first_pos, monthDays_pos⟩
  else
    ⟨d.year + 1, 1, 1, by decide, by decide, first_pos, monthDays_pos⟩

-- The days of the years before `y`, of which 0 is the first
def yearStart (y : Nat) : Nat :=
  365 * y + (y + 3) / 4 - (y + 99) / 100 + (y + 399) / 400

-- The days of the months before `m`
def monthStart (y : Nat) : Nat → Nat
  | 0 | 1 => 0
  | m + 2 => monthStart y (m + 1) + monthDays y (m + 1)

-- The number of a date. Dates that follow each other have numbers that do so.
def number (d : Date) : Nat :=
  yearStart d.year + monthStart d.year d.month + d.day

-- The day of the week, from Sunday on
def weekday (d : Date) : Nat :=
  (d.number + 5) % 7

theorem monthStart_succ (h : 1 ≤ m) : monthStart y (m + 1) = monthStart y m + monthDays y m := by
  cases m with
  | zero   => omega
  | succ m => rfl

theorem yearStart_succ : yearStart (y + 1) = yearStart y + monthStart y 13 := by
  have hm : monthStart y 13 = if isLeap y then 366 else 365 := by
    simp only [monthStart, monthDays]
    split <;> rfl
  have h₄ : (y + 4) / 4 = (y + 3) / 4 + if y % 4 = 0 then 1 else 0 := by
    split <;> omega
  have h₁ : (y + 100) / 100 = (y + 99) / 100 + if y % 100 = 0 then 1 else 0 := by
    split <;> omega
  have h₀ : (y + 400) / 400 = (y + 399) / 400 + if y % 400 = 0 then 1 else 0 := by
    split <;> omega
  have hl : (if isLeap y then 366 else 365) + (if y % 100 = 0 then 1 else 0) =
      365 + (if y % 4 = 0 then 1 else 0) + if y % 400 = 0 then 1 else 0 := by
    have : y % 400 = 0 → y % 100 = 0 := by omega
    have : y % 100 = 0 → y % 4 = 0 := by omega
    unfold isLeap
    grind
  have : (y + 99) / 100 ≤ 365 * y := by omega
  rw [hm]
  simp only [yearStart, Nat.add_right_comm y 1, Nat.add_assoc, Nat.reduceAdd, h₄, h₁, h₀]
  omega

theorem number_next : d.next.number = d.number + 1 := by
  have day_le := d.day_le
  have month_le := d.month_le
  have hm := monthStart_succ (y := d.year) d.month_pos
  unfold next
  split
  case isTrue => rfl
  case isFalse hd =>
    split
    case isTrue =>
      simp only [number, hm]
      omega
    case isFalse hl =>
      have h : d.month = 12 := by omega
      have hy := yearStart_succ (y := d.year)
      have h₁ : monthStart (d.year + 1) 1 = 0 := rfl
      simp only [h] at hm hd day_le
      simp only [number, hy, hm, h, h₁]
      omega

theorem monthStart_le (h₁ : 1 ≤ m) (h : m ≤ n) : monthStart y m ≤ monthStart y n := by
  induction h with
  | refl => exact Nat.le_refl _
  | step hn ih =>
    rw [monthStart_succ (Nat.le_trans h₁ hn)]
    omega

theorem yearStart_le (h : y ≤ z) : yearStart y ≤ yearStart z := by
  induction h with
  | refl => exact Nat.le_refl _
  | step _ ih =>
    rw [yearStart_succ]
    omega

theorem yearStart_lt_number : yearStart d.year < d.number := by
  have := d.day_pos
  unfold number
  omega

theorem number_le_monthStart :
    d.number ≤ yearStart d.year + monthStart d.year (d.month + 1) := by
  have := d.day_le
  rw [number, monthStart_succ d.month_pos]
  omega

theorem number_le_yearStart : d.number ≤ yearStart (d.year + 1) := by
  have := d.month_le
  have := number_le_monthStart (d := d)
  have := monthStart_le (y := d.year) (n := 13) (Nat.le_add_left 1 d.month) (by omega)
  rw [yearStart_succ]
  omega

theorem year_le_of_number (h : d₁.number = d₂.number) : d₁.year ≤ d₂.year := by
  by_contra hy
  have := yearStart_le (y := d₂.year + 1) (z := d₁.year) (by omega)
  have := number_le_yearStart (d := d₂)
  have := yearStart_lt_number (d := d₁)
  omega

theorem month_le_of_number (h : d₁.number = d₂.number) (hy : d₁.year = d₂.year) :
    d₁.month ≤ d₂.month := by
  by_contra hm
  have := monthStart_le (y := d₂.year) (m := d₂.month + 1) (n := d₁.month) (by omega) (by omega)
  have := number_le_monthStart (d := d₂)
  have := d₁.day_pos
  simp only [number, hy] at *
  omega

theorem number_inj (h : d₁.number = d₂.number) : d₁ = d₂ := by
  have hy : d₁.year = d₂.year := Nat.le_antisymm (year_le_of_number h) (year_le_of_number h.symm)
  have hm : d₁.month = d₂.month :=
    Nat.le_antisymm (month_le_of_number h hy) (month_le_of_number h.symm hy.symm)
  refine Date.ext hy hm ?_
  simp only [number, hy, hm] at h
  omega

-- The first of January 1970
def epoch : Date where
  year      := 1970
  month     := 1
  day       := 1
  month_pos := by decide
  month_le  := by decide
  day_pos   := by decide
  day_le    := by decide

def ofDays (n : Nat) : Date :=
  next^[n] epoch

theorem ofDays_succ : ofDays (n + 1) = (ofDays n).next :=
  Function.iterate_succ_apply' next n epoch

theorem number_ofDays : (ofDays n).number = epoch.number + n := by
  induction n with
  | zero => rfl
  | succ n ih => rw [ofDays_succ, number_next, ih, Nat.add_assoc]

theorem ofDays_eq (h : d.number = epoch.number + n) : ofDays n = d :=
  number_inj <| number_ofDays.trans h.symm

-- The number of the last Sunday of a month
def lastSunday (y m : Nat) : Nat :=
  let last := yearStart y + monthStart y m + monthDays y m
  last - (last + 5) % 7

-- A date of another month

theorem number_lt_lastSunday (h : d.month < m) : d.number < lastSunday d.year m := by
  have := number_le_monthStart (d := d)
  have := monthStart_le (y := d.year) (n := m) (Nat.le_add_left 1 d.month) h
  have : 28 ≤ monthDays d.year m := monthDays_ge
  simp only [lastSunday]
  omega

theorem lastSunday_lt_number (hm : 1 ≤ m) (h : m < d.month) : lastSunday d.year m < d.number := by
  have := monthStart_succ (y := d.year) hm
  have := monthStart_le (y := d.year) (Nat.le_add_left 1 m) h
  have := d.day_pos
  simp only [lastSunday, number]
  omega

-- In a month of 31 days, the last Sunday is the 25th or later.

theorem lastSunday_le_number (h : monthDays d.year d.month = 31) :
    lastSunday d.year d.month ≤ d.number ↔ d.weekday + 25 ≤ d.day := by
  have := d.day_le
  simp only [lastSunday, weekday, number, h] at *
  omega

theorem number_eq_lastSunday (h : monthDays d.year d.month = 31) :
    d.number = lastSunday d.year d.month ↔ d.weekday = 0 ∧ 25 ≤ d.day := by
  have := d.day_le
  simp only [lastSunday, weekday, number, h] at *
  omega

theorem number_le_lastSunday (h : d.weekday = 0) : d.number ≤ lastSunday d.year d.month := by
  have := d.day_le
  simp only [lastSunday, weekday, number] at *
  omega

theorem exists_lastSunday (hm : 1 ≤ m) (hm₁ : m ≤ 12) :
    ∃ d : Date, d.year = y ∧ d.month = m ∧ d.weekday = 0 ∧ d.number = lastSunday y m := by
  have h : 28 ≤ monthDays y m := monthDays_ge
  let k := (yearStart y + monthStart y m + monthDays y m + 5) % 7
  have hk : k < 7 := Nat.mod_lt _ (by decide)
  refine ⟨⟨y, m, monthDays y m - k, hm, hm₁, by omega, Nat.sub_le ..⟩, rfl, rfl, ?_, ?_⟩
  all_goals
    simp only [weekday, number, lastSunday, k]
    omega

theorem weekday_next : d.next.weekday = if d.weekday + 1 = 7 then 0 else d.weekday + 1 := by
  split
  all_goals
    simp only [weekday, number_next] at *
    omega

end Date

@[ext]
structure DateTime where
  date      : Date
  hour      : Nat
  minute    : Nat
  second    : Nat
  hour_lt   : hour < 24
  minute_lt : minute < 60
  second_lt : second < 60

namespace DateTime

variable {c c₁ c₂ : DateTime}

def seconds (c : DateTime) : Nat :=
  86400 * c.date.number + 3600 * c.hour + 60 * c.minute + c.second

-- An hour later
theorem midnight_lt : 0 < 24 := by
  decide

def later (c : DateTime) : DateTime :=
  if h : c.hour + 1 < 24 then
    { c with hour := c.hour + 1, hour_lt := h }
  else
    { c with date := c.date.next, hour := 0, hour_lt := midnight_lt }

theorem seconds_later : c.later.seconds = c.seconds + 3600 := by
  have := c.hour_lt
  unfold later
  split
  case isTrue =>
    simp only [seconds]
    omega
  case isFalse =>
    simp only [seconds, Date.number_next]
    omega

theorem seconds_inj (h : c₁.seconds = c₂.seconds) : c₁ = c₂ := by
  have := c₁.hour_lt
  have := c₁.minute_lt
  have := c₁.second_lt
  have := c₂.hour_lt
  have := c₂.minute_lt
  have := c₂.second_lt
  unfold seconds at h
  have hd : c₁.date.number = c₂.date.number := by omega
  exact DateTime.ext (Date.number_inj hd) (by omega) (by omega) (by omega)

-- The seconds are counted from the beginning of 1970.
def ofSeconds (t : Nat) : DateTime where
  date      := Date.ofDays (t / 86400)
  hour      := t % 86400 / 3600
  minute    := t % 3600 / 60
  second    := t % 60
  hour_lt   := by omega
  minute_lt := by omega
  second_lt := Nat.mod_lt _ (by decide)

theorem seconds_ofSeconds : (ofSeconds t).seconds = 86400 * Date.epoch.number + t := by
  simp only [seconds, ofSeconds, Date.number_ofDays]
  omega

theorem later_ofSeconds : (ofSeconds t).later = ofSeconds (t + 3600) :=
  seconds_inj <| by rw [seconds_later, seconds_ofSeconds, seconds_ofSeconds, Nat.add_assoc]

end DateTime
end Calendar
