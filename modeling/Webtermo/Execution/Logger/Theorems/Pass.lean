import Webtermo.Library.Trace
import Webtermo.Execution.Logger.State
import Webtermo.Execution.Alarm.Theorems.Run

-- What the parts of a pass of `ptReadTemp` do to the readings

namespace Alarm

variable {m m₁ m₂ : SensorMem} {s s₁ : State} {k j : Fin 8}

-- The readings of a sensor, and whether it is to be tested, are the same in both.
structure Kept (m m₁ : SensorMem) : Prop where
  temp    : m₁.temp = m.temp
  nvSum   : m₁.nvSum = m.nvSum
  nvCount : m₁.nvCount = m.nvCount
  enble   : m₁.senzor.enble = m.senzor.enble
  error   : m₁.senzor.errorCounter = 0 ↔ m.senzor.errorCounter = 0

namespace Kept

theorem refl : Kept m m :=
  ⟨rfl, rfl, rfl, rfl, .rfl⟩

theorem trans (h : Kept m m₁) (h₁ : Kept m₁ m₂) : Kept m m₂ :=
  ⟨h₁.temp.trans h.temp, h₁.nvSum.trans h.nvSum, h₁.nvCount.trans h.nvCount,
    h₁.enble.trans h.enble, h₁.error.trans h.error⟩

theorem testAlarm : Kept m (testAlarm m).1 := by
  cases testAlarm_cases m with
  | quiet same =>
    rw [same]
    exact refl
  | enter _ _ _ same | leave same =>
    rw [same]
    exact ⟨rfl, rfl, rfl, rfl, .rfl⟩

theorem testSensor : Kept m (testSensor m).1 := by
  by_cases he : m.senzor.enble = 0
  case pos => exact testSensor_off he ▸ refl
  case neg =>
    by_cases hn : m.senzor.errorCounter = 0
    case pos =>
      rw [testSensor_read he hn]
      split
      · exact testAlarm
      · exact testAlarm.trans ⟨rfl, rfl, rfl, rfl, .rfl⟩
    case neg =>
      by_cases hc : m.senzor.errorCounter = onewireErrorCount
      case pos =>
        rw [testSensor_error he hc]
        exact ⟨rfl, rfl, rfl, rfl, iff_of_false (by simp) hn⟩
      case neg => exact testSensor_waiting hn hc ▸ refl

theorem scanSensors : Kept (s.sen k) ((scanSensors s rest).1.sen k) := by
  induction rest generalizing s with
  | nil => exact testSensor
  | cons j rest ih =>
    simp only [Alarm.scanSensors]
    split
    case isTrue => exact refl
    case isFalse =>
      refine trans ?_ ih
      by_cases h : k = j
      case pos =>
        rw [h, State.set_sen_self]
        exact ⟨rfl, rfl, rfl, rfl, .rfl⟩
      case neg => exact State.set_sen_ne s h ▸ refl

end Kept

-- What a reading does to its sensor
inductive Reading (m m₁ : SensorMem) (ds : DsBuf) : Prop
  | good (hg : goodReading ds) (sum : m₁.nvSum = m.nvSum + m₁.temp)
    (count : m₁.nvCount = m.nvCount + 1) (enble : m₁.senzor.enble = m.senzor.enble)
    (error : m₁.senzor.errorCounter = 0)
  | bad (hb : ¬goodReading ds) (temp : m₁.temp = m.temp) (sum : m₁.nvSum = m.nvSum)
    (count : m₁.nvCount = m.nvCount) (enble : m₁.senzor.enble = m.senzor.enble)
    (error : m₁.senzor.errorCounter ≠ 0)

theorem readSensor_reading (h : readSensor m ds = some m₁) : Reading m m₁ ds := by
  by_cases hg : goodReading ds
  case pos =>
    simp only [readSensor, hg, if_true, Option.bind_eq_bind, Option.bind_eq_some_iff] at h
    obtain ⟨_, _, h⟩ := h
    cases h
    exact .good hg rfl rfl rfl rfl
  case neg =>
    simp only [readSensor, hg, Bool.false_eq_true, if_false] at h
    cases h
    refine .bad hg rfl rfl rfl rfl ?_
    simp only
    split
    case isTrue hl =>
      intro he
      have := congrArg UInt8.toNat he
      simp only [onewireErrorCount, UInt8.lt_iff_toNat_lt, UInt8.toNat_add] at hl this
      simp at hl this
      omega
    case isFalse hl =>
      intro he
      exact hl <| he ▸ by decide

theorem after_sorted : (after k).Pairwise (· < ·) :=
  List.Pairwise.filter _ (List.pairwise_lt_finRange 8)

theorem mem_after : j ∈ after k ↔ k < j := by
  simp [after]

-- All that a resumption of `ptReadTemp` can do
inductive Resumed (s : State) (ds : DsBuf) (s₁ : State) : Prop
  | yield (loc : s.ptReadTemp = .start) (h : s₁ = { s with ptReadTemp := .yielded })
  | scan (loc : s.ptReadTemp = .yielded) (h : s₁ = (scanSensors s (List.finRange 8)).1)
  | read (k : Fin 8) (m : SensorMem) (loc : s.ptReadTemp = .wait k)
    (hm : readSensor (s.sen k) ds = some m) (h : s₁ = (scanSensors (s.set k m) (after k)).1)

theorem ptReadTemp_cases (h : ptReadTemp s ds = some (s₁, o)) : Resumed s ds s₁ := by
  unfold ptReadTemp at h
  cases hl : s.ptReadTemp with
  | start =>
    simp only [hl] at h
    cases h
    exact .yield hl rfl
  | yielded =>
    simp only [hl, Option.some.injEq] at h
    exact .scan hl (congrArg Prod.fst h).symm
  | wait k =>
    simp only [hl, Option.bind_eq_bind, Option.bind_eq_some_iff] at h
    have ⟨m, hm, h⟩ := h
    cases h
    exact .read k m hl hm rfl

end Alarm
