import Webtermo.Library.Run
import Webtermo.Execution.Alarm.State

namespace Alarm

variable {m m₁ m₂ : SensorMem} {t : ℚ} {ts : List ℚ} {o : List Test}

-- One evaluation of `test_alarm`, with the sensor before and after it and the value it returns
structure Test where
  temp   : ℚ
  before : SensorMem
  after  : SensorMem
  alarm  : UInt8

-- `test_alarm` for one temperature after the other
def tests : Machine SensorMem ℚ Test where
  step m t :=
    let r := testAlarm { m with temp := t }
    some (r.1, [⟨t, m, r.1, r.2⟩])

namespace SensorMem

def high (m : SensorMem) : ℚ :=
  m.senzor.highLimit.toInt

def low (m : SensorMem) : ℚ :=
  m.senzor.lowLimit.toInt

def hist (m : SensorMem) : ℚ :=
  m.senzor.his.toNat

-- The limits that a temperature is compared with
def Concerned (m : SensorMem) (limit : ℚ) : Prop :=
  (m.senzor.state = Alarm.no ∧ (limit = m.high ∨ limit = m.low)) ∨
  (m.senzor.state = Alarm.hi ∧ limit = m.high) ∨
  (m.senzor.state = Alarm.low ∧ limit = m.low)

end SensorMem

structure Test.Ok (o : Test) : Prop where
  raised  : o.alarm ≠ 0 ↔ o.before.senzor.state = Alarm.no ∧
    (o.after.senzor.state = Alarm.hi ∨ o.after.senzor.state = Alarm.low)
  direct  : ¬(o.before.senzor.state = Alarm.hi ∧ o.after.senzor.state = Alarm.low) ∧
    ¬(o.before.senzor.state = Alarm.low ∧ o.after.senzor.state = Alarm.hi)
  cleared : o.after.delayWord =
    if o.before.senzor.state ≠ Alarm.no ∧ o.after.senzor.state = Alarm.no then 0
    else o.before.delayWord
  within  : ∀ limit, o.before.Concerned limit → |o.temp - limit| < o.before.hist →
    o.after.senzor.state = o.before.senzor.state

def reports (o : List Test) : Nat :=
  o.countP (·.alarm ≠ 0)

-- Wherever the temperature stays constant, at most one alarm is reported.
def AtMostOneReport (m : SensorMem) (ts : List ℚ) : Prop :=
  ∀ us t n vs m₁ o₁ m₂ o₂, ts = us ++ List.replicate n t ++ vs → tests.run m us = some (m₁, o₁) →
    tests.run m₁ (List.replicate n t) = some (m₂, o₂) → reports o₂ ≤ 1

-- Without a hysteresis, the temperature is that of a limit.
def OnLimit (m : SensorMem) (t : ℚ) : Prop :=
  m.senzor.his = 0 ∧ (t = m.high ∨ t = m.low)

-- A temperature is read often enough for an alarm to end and come again.
def Bounces (m : SensorMem) (t : ℚ) (n : Nat) : Prop :=
  OnLimit m t ∧ ((m.senzor.state = Alarm.no ∧ 3 ≤ n) ∨
    ((m.senzor.state = Alarm.hi ∨ m.senzor.state = Alarm.low) ∧ 4 ≤ n))

def Calm (m : SensorMem) (ts : List ℚ) : Prop :=
  ∀ us t n vs m₁ o₁, ts = us ++ List.replicate n t ++ vs → tests.run m us = some (m₁, o₁) →
    ¬Bounces m₁ t n

-- The ways that `test_alarm` can go
inductive Crossing (m : SensorMem) (t : ℚ) : SensorMem → UInt8 → Prop
  | enterHigh (off : m.senzor.state = Alarm.no) (above : m.high + m.hist ≤ t) :
    Crossing m t { m with temp := t, senzor := { m.senzor with state := Alarm.hi } } 1
  | enterLow (off : m.senzor.state = Alarm.no) (not_above : t < m.high + m.hist)
    (below : t ≤ m.low - m.hist) :
    Crossing m t { m with temp := t, senzor := { m.senzor with state := Alarm.low } } 2
  | leaveHigh (on : m.senzor.state = Alarm.hi) (below : t ≤ m.high - m.hist) :
    Crossing m t
      { m with temp := t, senzor := { m.senzor with state := Alarm.no }, delayWord := 0 } 0
  | leaveLow (on : m.senzor.state = Alarm.low) (above : m.low + m.hist ≤ t) :
    Crossing m t
      { m with temp := t, senzor := { m.senzor with state := Alarm.no }, delayWord := 0 } 0
  | stay (off : m.senzor.state = Alarm.no → t < m.high + m.hist ∧ m.low - m.hist < t)
    (high : m.senzor.state = Alarm.hi → m.high - m.hist < t)
    (low : m.senzor.state = Alarm.low → t < m.low + m.hist) :
    Crossing m t { m with temp := t } 0

theorem testAlarm_crossing (m : SensorMem) (t : ℚ) :
    let r := testAlarm { m with temp := t }
    Crossing m t r.1 r.2 := by
  simp only [testAlarm]
  split
  case isTrue off =>
    split
    case isTrue above => exact .enterHigh off above
    case isFalse above =>
      split
      case isTrue below => exact .enterLow off (not_le.mp above) below
      case isFalse below =>
        refine .stay (fun _ => ⟨not_le.mp above, not_le.mp below⟩) ?_ ?_ <;> simp [off]
  case isFalse off =>
    split
    case isTrue on =>
      split
      case isTrue below => exact .leaveHigh on below
      case isFalse below => refine .stay ?_ (fun _ => not_le.mp below) ?_ <;> simp [on]
    case isFalse high =>
      split
      case isTrue on =>
        split
        case isTrue above => exact .leaveLow on above
        case isFalse above => refine .stay ?_ ?_ fun _ => not_le.mp above <;> simp [on]
      case isFalse low => exact .stay (absurd · off) (absurd · high) (absurd · low)

theorem tests_step (h : tests.step m t = some (m₁, o)) :
    ∃ alarm, Crossing m t m₁ alarm ∧ o = [⟨t, m, m₁, alarm⟩] := by
  cases h
  exact ⟨_, testAlarm_crossing m t, rfl⟩

namespace Crossing

variable {a : UInt8}

-- The settings of the sensor stay.
theorem limits (h : Crossing m t m₁ a) :
    m₁.senzor.highLimit = m.senzor.highLimit ∧ m₁.senzor.lowLimit = m.senzor.lowLimit ∧
    m₁.senzor.his = m.senzor.his := by
  cases h <;> exact ⟨rfl, rfl, rfl⟩

theorem onLimit (h : Crossing m t m₁ a) : OnLimit m₁ t ↔ OnLimit m t := by
  have ⟨hh, hl, hs⟩ := h.limits
  simp only [OnLimit, SensorMem.high, SensorMem.low, hh, hl, hs]

-- A temperature strictly within the hysteresis crosses no threshold, as long as the limits are in order.
theorem within (h : Crossing m t m₁ a) (hl : m.low < m.high) (hc : m.Concerned limit)
    (hw : |t - limit| < m.hist) : m₁.senzor.state = m.senzor.state := by
  have ⟨h₁, h₂⟩ := abs_lt.mp hw
  cases h with
  | stay => rfl
  | enterHigh off above =>
    obtain ⟨_, rfl | rfl⟩ | ⟨on, _⟩ | ⟨on, _⟩ := hc
    case inl.inl => linarith
    case inl.inr => linarith
    all_goals simp [off] at on
  | enterLow off _ below =>
    obtain ⟨_, rfl | rfl⟩ | ⟨on, _⟩ | ⟨on, _⟩ := hc
    case inl.inl => linarith
    case inl.inr => linarith
    all_goals simp [off] at on
  | leaveHigh on below =>
    obtain ⟨off, _⟩ | ⟨_, rfl⟩ | ⟨low, _⟩ := hc
    case inr.inl => linarith
    case inl => simp [on] at off
    case inr.inr => simp [on] at low
  | leaveLow on above =>
    obtain ⟨off, _⟩ | ⟨high, _⟩ | ⟨_, rfl⟩ := hc
    case inr.inr => linarith
    case inl => simp [on] at off
    case inr.inl => simp [on] at high

theorem ok (h : Crossing m t m₁ a) (hl : m.low < m.high) : Test.Ok ⟨t, m, m₁, a⟩ where
  raised  := by
    cases h with
    | stay => simp only [ne_eq, not_true, false_iff]; rintro ⟨off, on⟩; simp [off] at on
    | _ => simp_all
  direct  := by
    cases h <;> simp_all
  cleared := by
    cases h <;> simp_all
  within  := fun _ => h.within hl

end Crossing

-- No further evaluation for the temperature changes the alarm.
def Settled (m : SensorMem) (t : ℚ) : Prop :=
  (m.senzor.state = Alarm.hi ∧ m.high - m.hist < t) ∨
  (m.senzor.state = Alarm.low ∧ t < m.low + m.hist) ∨
  (m.senzor.state ≠ Alarm.no ∧ m.senzor.state ≠ Alarm.hi ∧ m.senzor.state ≠ Alarm.low)

theorem Settled.crossing (hs : Settled m t) (h : Crossing m t m₁ a) : a = 0 ∧ Settled m₁ t := by
  cases h with
  | stay => exact ⟨rfl, hs⟩
  | enterHigh off => simp [Settled, off] at hs
  | enterLow off => simp [Settled, off] at hs
  | leaveHigh on below =>
    obtain ⟨_, above⟩ | ⟨low, _⟩ | ⟨_, high, _⟩ := hs
    case inl => exact absurd above <| not_lt.mpr below
    case inr.inl => simp [on] at low
    case inr.inr => exact absurd on high
  | leaveLow on above =>
    obtain ⟨high, _⟩ | ⟨_, below⟩ | ⟨_, _, low⟩ := hs
    case inl => simp [on] at high
    case inr.inl => exact absurd below <| not_lt.mpr above
    case inr.inr => exact absurd on low

theorem his_pos (h : m.senzor.his ≠ 0) : 0 < m.hist := by
  have : m.senzor.his.toNat ≠ 0 := fun hn => h <| UInt8.toNat_inj.mp hn
  exact Nat.cast_pos.mpr <| Nat.pos_of_ne_zero this

theorem hist_nonneg : 0 ≤ m.hist :=
  Nat.cast_nonneg _

-- An alarm that is reported for a temperature that is not on a limit stays.
theorem Crossing.settles (h : Crossing m t m₁ a) (ha : a ≠ 0) (hl : ¬OnLimit m t) : Settled m₁ t := by
  have h₀ := hist_nonneg (m := m)
  cases h with
  | stay | leaveHigh | leaveLow => contradiction
  | enterHigh _ above =>
    refine .inl ⟨rfl, ?_⟩
    by_cases hs : m.senzor.his = 0
    case pos =>
      have : t ≠ m.high := fun ht => hl ⟨hs, .inl ht⟩
      have := lt_of_le_of_ne (le_trans (le_add_of_nonneg_right h₀) above) this.symm
      exact lt_of_le_of_lt (sub_le_self _ h₀) this
    case neg =>
      have := his_pos hs
      change m.high - m.hist < t
      linarith
  | enterLow _ _ below =>
    refine .inr <| .inl ⟨rfl, ?_⟩
    by_cases hs : m.senzor.his = 0
    case pos =>
      have : t ≠ m.low := fun ht => hl ⟨hs, .inr ht⟩
      have := lt_of_le_of_ne (le_trans below (sub_le_self _ h₀)) this
      exact lt_of_lt_of_le this (le_add_of_nonneg_right h₀)
    case neg =>
      have := his_pos hs
      change t < m.low + m.hist
      linarith

-- On a limit without a hysteresis, each evaluation changes the alarm.
theorem OnLimit.crossing (ho : OnLimit m t) (hl : m.low < m.high) (h : Crossing m t m₁ a) :
    (m.senzor.state = Alarm.no → a ≠ 0 ∧ (m₁.senzor.state = Alarm.hi ∨ m₁.senzor.state = Alarm.low)) ∧
    (m.senzor.state = Alarm.hi ∨ m.senzor.state = Alarm.low → a = 0 ∧ m₁.senzor.state = Alarm.no) := by
  have h₀ : m.hist = 0 := by simp [SensorMem.hist, ho.1]
  have ht := ho.2
  cases h with
  | enterHigh off => simp [off]
  | enterLow off => simp [off]
  | leaveHigh on => simp [on]
  | leaveLow on => simp [on]
  | stay off high low =>
    rw [h₀] at off high low
    constructor
    case left =>
      intro hn
      have ⟨h₁, h₂⟩ := off hn
      cases ht <;> linarith
    case right =>
      intro hn
      cases hn
      case inl hn =>
        have := high hn
        cases ht <;> linarith
      case inr hn =>
        have := low hn
        cases ht <;> linarith

section

variable {n : Nat}

theorem tests_cons (h : tests.run m (t :: ts) = some (m₂, o)) :
    ∃ m₁ a o₁, Crossing m t m₁ a ∧ tests.run m₁ ts = some (m₂, o₁) ∧
      reports o = (if a ≠ 0 then 1 else 0) + reports o₁ := by
  have ⟨m₁, _, o₁, hs, hr, ho⟩ := Machine.run_cons h
  have ⟨a, hc, hs⟩ := tests_step hs
  refine ⟨m₁, a, o₁, hc, hr, ?_⟩
  simp only [ho, hs, reports, List.countP_append, List.countP_singleton, decide_eq_true_eq]

theorem reports_settled (hs : Settled m t) (h : tests.run m (List.replicate n t) = some (m₁, o)) :
    reports o = 0 := by
  induction n generalizing m o with
  | zero =>
    cases h
    rfl
  | succ n ih =>
    have ⟨_, a, o₁, hc, hr, ho⟩ := tests_cons h
    have ⟨ha, hs⟩ := hs.crossing hc
    simp [ho, ha, ih hs hr]

theorem reports_le_one (hl : ¬OnLimit m t) (h : tests.run m (List.replicate n t) = some (m₁, o)) :
    reports o ≤ 1 := by
  induction n generalizing m o with
  | zero =>
    cases h
    exact Nat.zero_le 1
  | succ n ih =>
    have ⟨_, a, o₁, hc, hr, ho⟩ := tests_cons h
    by_cases ha : a = 0
    case pos => simpa [ho, ha] using ih (fun ho => hl <| hc.onLimit.mp ho) hr
    case neg => simp [ho, ha, reports_settled (hc.settles ha hl) hr]

-- The alarms alternate with their ends.
theorem reports_onLimit (ho : OnLimit m t) (hl : m.low < m.high)
    (h : tests.run m (List.replicate n t) = some (m₁, o)) :
    (m.senzor.state = Alarm.no → reports o = (n + 1) / 2) ∧
    (m.senzor.state = Alarm.hi ∨ m.senzor.state = Alarm.low → reports o = n / 2) := by
  induction n generalizing m o with
  | zero =>
    cases h
    simp [reports]
  | succ n ih =>
    have ⟨m₂, a, o₁, hc, hr, hn⟩ := tests_cons h
    have ⟨hh, hw, _⟩ := hc.limits
    have hl₂ : m₂.low < m₂.high := by simpa only [SensorMem.low, SensorMem.high, hh, hw] using hl
    have ⟨ih₁, ih₂⟩ := ih (hc.onLimit.mpr ho) hl₂ hr
    have ⟨h₁, h₂⟩ := ho.crossing hl hc
    constructor
    case left =>
      intro off
      have ⟨ha, on⟩ := h₁ off
      rw [hn, if_pos ha, ih₂ on]
      omega
    case right =>
      intro on
      have ⟨ha, off⟩ := h₂ on
      rw [hn, if_neg (not_not.mpr ha), ih₁ off]
      omega

theorem reports_le_one_iff (hl : m.low < m.high)
    (h : tests.run m (List.replicate n t) = some (m₁, o)) : reports o ≤ 1 ↔ ¬Bounces m t n := by
  by_cases ho : OnLimit m t
  case neg => simpa [Bounces, ho] using reports_le_one ho h
  case pos =>
    have ⟨h₁, h₂⟩ := reports_onLimit ho hl h
    by_cases off : m.senzor.state = Alarm.no
    case pos =>
      simp only [Bounces, ho, off, h₁ off]
      simp
      omega
    case neg =>
      by_cases on : m.senzor.state = Alarm.hi ∨ m.senzor.state = Alarm.low
      case pos =>
        simp only [Bounces, ho, off, on, h₂ on]
        simp
        omega
      case neg =>
        have hs : Settled m t := .inr <| .inr ⟨off, not_or.mp on⟩
        have hb : ¬Bounces m t n := fun hb => hb.2.elim (absurd ·.1 off) (absurd ·.1 on)
        simp only [reports_settled hs h, hb, Nat.zero_le, not_false_eq_true]

end

theorem tests_exists : ∃ m₁ o, tests.run m ts = some (m₁, o) :=
  Machine.run_exists fun _ _ => ⟨_, _, rfl⟩

-- The limits stay in order, and every evaluation is as it should be.
theorem tests_ok (hl : m.low < m.high) (h : tests.run m ts = some (m₁, o)) :
    m₁.low < m₁.high ∧ ∀ w ∈ o, w.Ok := by
  induction ts generalizing m o with
  | nil =>
    cases h
    exact ⟨hl, by simp⟩
  | cons t ts ih =>
    have ⟨m₂, o₁, o₂, hs, hr, ho⟩ := Machine.run_cons h
    have ⟨a, hc, hs⟩ := tests_step hs
    have ⟨hh, hw, _⟩ := hc.limits
    have ⟨hl₁, hk⟩ := ih (by simpa only [SensorMem.low, SensorMem.high, hh, hw] using hl) hr
    refine ⟨hl₁, ?_⟩
    simp only [ho, hs, List.forall_mem_append, List.forall_mem_singleton]
    exact ⟨hc.ok hl, hk⟩

theorem limits_lt (h : m.senzor.lowLimit < m.senzor.highLimit) : m.low < m.high :=
  Int.cast_lt.mpr <| Int8.lt_iff_toInt_lt.mp h

-- Every evaluation is as it should be, and a constant temperature is reported at most once exactly
-- if it does not lie on a limit of a sensor without hysteresis until its alarm has come again.
theorem hysteresis_law (h : m.senzor.lowLimit < m.senzor.highLimit) :
    ∃ m₁ o, tests.run m ts = some (m₁, o) ∧
      ((∀ w ∈ o, w.Ok) ∧ AtMostOneReport m ts ↔ Calm m ts) := by
  have hl := limits_lt h
  have ⟨m₁, o, hr⟩ := @tests_exists m ts
  refine ⟨m₁, o, hr, ?_⟩
  rw [and_iff_right (tests_ok hl hr).2]
  constructor
  case mp =>
    intro ha us t n vs m₂ o₂ hts h₂
    have ⟨m₃, o₃, h₃⟩ := @tests_exists m₂ (List.replicate n t)
    exact reports_le_one_iff (tests_ok hl h₂).1 h₃ |>.mp <| ha us t n vs m₂ o₂ m₃ o₃ hts h₂ h₃
  case mpr =>
    intro hc us t n vs m₂ o₂ m₃ o₃ hts h₂ h₃
    exact reports_le_one_iff (tests_ok hl h₂).1 h₃ |>.mpr <| hc us t n vs m₂ o₂ hts h₂

-- A sensor with limits of 20 and 25 degrees
def between (his : UInt8) : SensorMem where
  senzor    := { (default : Sensor) with lowLimit := 20, highLimit := 25, his }
  temp      := 0
  state     := ok
  nvSum     := 0
  nvCount   := 0
  delayWord := 0

theorem hysteresis_law_between :
    (between 1).senzor.lowLimit < (between 1).senzor.highLimit ∧
    ∃ m₁ o, tests.run (between 1) [24, 26, 25, 24] = some (m₁, o) ∧
      ((∀ w ∈ o, w.Ok) ∧ AtMostOneReport (between 1) [24, 26, 25, 24] ↔
        Calm (between 1) [24, 26, 25, 24]) :=
  ⟨by decide, hysteresis_law (by decide)⟩

-- Without a hysteresis, a temperature that stays on a limit is reported again and again.
theorem hysteresis_bounces :
    (between 0).senzor.lowLimit < (between 0).senzor.highLimit ∧
    ¬AtMostOneReport (between 0) [25, 25, 25] := by
  refine ⟨by decide, fun h => ?_⟩
  have h := h [] 25 3 [] (between 0) [] _ _ rfl rfl rfl
  exact absurd h <| by decide +kernel

end Alarm
