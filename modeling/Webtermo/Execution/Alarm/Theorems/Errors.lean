import Webtermo.Library.Run
import Webtermo.Library.Trace
import Webtermo.Execution.Alarm.Theorems.Run

namespace Alarm

variable {n n₁ : UInt8} {t o : List Check} {m m₁ : SensorMem}

-- A pass of `ptReadTemp` for an enabled sensor: the bytes that it answers, and what `test_alarm`
-- returns where it is evaluated. That depends on the temperature, and not on the error counter.
structure Pass where
  ds   : DsBuf
  kind : Fin 3

-- What is seen of a pass: the error counter after the reading and after the pass, whether
-- `test_alarm` is evaluated, and the alarm
structure Check where
  good    : Bool
  read    : UInt8
  tested  : Bool
  alarm   : UInt8
  counter : UInt8

def readErrors (n : UInt8) (ds : DsBuf) : UInt8 :=
  if goodReading ds then 0 else if n < onewireErrorCount then n + 1 else n

def pass (n : UInt8) (p : Pass) : Check :=
  let good := goodReading p.ds
  let read := readErrors n p.ds
  if read = 0 then
    ⟨good, read, true, p.kind.val.toUInt8, read⟩
  else if read = onewireErrorCount then
    ⟨good, read, false, Alarm.err, read + 2⟩
  else
    ⟨good, read, false, 0, read⟩

-- The error counter of a sensor over the passes
def passes : Machine UInt8 Pass Check where
  step n p := some ((pass n p).counter, [pass n p])

def counters : List UInt8 :=
  [0, 1, 2, 3, 4, 5, 7]

-- The failed readings at the end of a trace
def failures (t : List Check) : Nat :=
  (t.reverse.takeWhile (!·.good)).length

def counterAfter (failures : Nat) : UInt8 :=
  if failures ≤ 4 then failures.toUInt8 else 7

structure Check.Ok (t : List Check) (o : Check) : Prop where
  alarm   : o.alarm = Alarm.err ↔ ¬o.good ∧ failures t = 4
  tested  : o.tested ↔ o.good
  read    : o.read ∈ counters
  counter : o.counter ∈ counters

theorem failures_concat : failures (t ++ [w]) = if w.good then 0 else failures t + 1 := by
  cases h : w.good <;> simp [failures, h]

theorem pass_good (h : goodReading p.ds) : pass n p = ⟨true, 0, true, p.kind.val.toUInt8, 0⟩ := by
  simp [pass, readErrors, h]

-- A failed reading after some failed ones
theorem pass_bad (h : ¬goodReading p.ds) :
    let o := pass (counterAfter k) p
    ¬o.good ∧ ¬o.tested ∧ (o.alarm = Alarm.err ↔ k = 4) ∧ o.read ∈ counters ∧ o.counter ∈ counters ∧
      o.counter = counterAfter (k + 1) := by
  match k with
  | 0 | 1 | 2 | 3 | 4 => simp [pass, readErrors, h, counterAfter, counters]
  | k + 5 => simp [pass, readErrors, h, counterAfter, counters]

theorem kind_ne_err : ∀ k : Fin 3, k.val.toUInt8 ≠ Alarm.err := by
  decide

theorem pass_ok (h : n = counterAfter (failures t)) :
    (pass n p).Ok t ∧ (pass n p).counter = counterAfter (failures (t ++ [pass n p])) := by
  rw [failures_concat]
  by_cases hg : goodReading p.ds
  case pos =>
    rw [pass_good hg]
    exact ⟨⟨by simpa using kind_ne_err p.kind, by simp, .head _, .head _⟩, rfl⟩
  case neg =>
    have ⟨hg, ht, ha, hr, hc, hn⟩ := pass_bad (k := failures t) hg
    rw [← h] at hg ht ha hr hc hn
    refine ⟨⟨ha.trans <| iff_and_self.mpr fun _ => hg, by simp [ht, hg], hr, hc⟩, ?_⟩
    rw [if_neg hg, hn]

-- The counter is that of the failed readings at the end of the trace.
structure Counted (t : List Check) (n : UInt8) : Prop where
  ok      : Always Check.Ok t
  counter : n = counterAfter (failures t)

theorem Counted.step (c : Counted t n) (h : passes.step n p = some (n₁, o)) : Counted (t ++ o) n₁ := by
  cases h
  have ⟨hk, hn⟩ := pass_ok (p := p) c.counter
  exact ⟨c.ok.concat hk, hn⟩

theorem testAlarm_kind (m : SensorMem) : ∃ kind : Fin 3, (testAlarm m).2 = kind.val.toUInt8 := by
  simp only [testAlarm]
  split
  case isTrue =>
    split
    case isTrue => exact ⟨1, rfl⟩
    case isFalse => split <;> [exact ⟨2, rfl⟩; exact ⟨0, rfl⟩]
  case isFalse =>
    refine ⟨0, ?_⟩
    split
    case isTrue => split <;> rfl
    case isFalse => split <;> [(split <;> rfl); rfl]

-- The thread takes an enabled sensor through such a pass.
theorem pass_refines (he : m.senzor.enble ≠ 0) (h : readSensor m ds = some m₁) :
    ∃ kind, let o := pass m.senzor.errorCounter ⟨ds, kind⟩
      m₁.senzor.errorCounter = o.read ∧ (testSensor m₁).1.senzor.errorCounter = o.counter ∧
      ((testSensor m₁).2 ↔ o.alarm ≠ 0) := by
  have ⟨kind, hk⟩ := testAlarm_kind m₁
  have ⟨hs, _⟩ := readSensor_spec h
  have hr : m₁.senzor.errorCounter = readErrors m.senzor.errorCounter ds := by
    rw [hs]
    rfl
  have he₁ : m₁.senzor.enble ≠ 0 := by simpa only [hs] using he
  refine ⟨kind, ?_⟩
  simp only [pass, ← hr]
  by_cases hn : m₁.senzor.errorCounter = 0
  case pos =>
    have hc : (testAlarm m₁).1.senzor.errorCounter = m₁.senzor.errorCounter := by
      cases testAlarm_cases m₁ with
      | quiet same => rw [same]
      | enter _ _ _ same => rw [same]
      | leave same => rw [same]
    rw [testSensor_read he₁ hn, hk, if_pos hn]
    refine ⟨rfl, ?_⟩
    split
    case isTrue h₀ => simpa [h₀] using hc
    case isFalse h₀ => simpa [h₀] using hc
  case neg =>
    rw [if_neg hn]
    by_cases hc : m₁.senzor.errorCounter = onewireErrorCount
    case pos => simp [testSensor_error he₁ hc, hc]
    case neg =>
      rw [testSensor_waiting hn hc, if_neg hc]
      simp

end Alarm
