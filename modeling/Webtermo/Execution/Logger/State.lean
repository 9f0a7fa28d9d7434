import Webtermo.Execution.Alarm.State

-- `SaveTemp` and `SaveHaccp` of `logger.c`, between the resumptions of `ptReadTemp`
namespace Logger

inductive Log
  | temp
  | haccp
  deriving DecidableEq

-- The readings of one sensor in the NVRAM for its mean kinetic temperature
structure Mkt where
  log   : Fin 20 → ℚ
  count : UInt32

structure State where
  dev         : Alarm.State
  measureType : Fin 8 → UInt8
  mkt         : Fin 8 → Mkt

-- `nvSumSen1` and `nvCountSen1` lack the base of the backup SRAM, so they point to two vectors in the
-- flash. What is written there is lost.
structure Flash where
  sum   : UInt32
  count : UInt32

def Flash.ftmp (f : Flash) : Option ℚ := do
  let sum ← floatVal f.sum
  if f.count = 0 then none else some (sum / f.count.toNat)

inductive Obs
  -- `ptReadTemp` starts a pass
  | start
  | accepted (k : Fin 8) (x : ℚ)
  -- `test_alarm` is called
  | tested (k : Fin 8) (x : ℚ)
  -- a log is given a value, `before` is what `temp[k]` has been when the record was started
  | logged (l : Log) (k : Fin 8) (before x : ℚ)
  deriving DecidableEq

def updateMkt (m : Mkt) (x : ℚ) : Mkt :=
  if h : m.count < 20 then
    { log := Function.update m.log ⟨m.count.toNat, h⟩ x, count := m.count + 1 }
  else
    { m with log := fun i => if h : i.val < 19 then m.log ⟨i.val + 1, by omega⟩ else x }

-- `CalculateMKT` computes with `exp` and `log` from what the NVRAM holds from the sensor's log on.
variable (calculateMkt : (Fin 8 → Mkt) → Fin 8 → ℚ)

-- One turn of the loop of `SaveTemp` or `SaveHaccp`. Only the former keeps the log for the MKT.
def saveSensor (l : Log) (before : Fin 8 → ℚ) (s : State) (k : Fin 8) : State × List Obs :=
  let m := s.dev.sen k
  if m.senzor.enble = 1 then
    if m.nvCount ≠ 0 then
      let ftmp := m.nvSum / m.nvCount.toNat
      let mkt  := if l = .temp then Function.update s.mkt k (updateMkt (s.mkt k) ftmp) else s.mkt
      let temp := if s.measureType k = 1 then calculateMkt mkt k else ftmp
      ({ s with dev := s.dev.set k { m with temp, nvSum := 0, nvCount := 0 }, mkt },
        [.logged l k (before k) temp])
    else
      (s, [.logged l k (before k) m.temp])
  else
    (s, [])

def saveSensors (l : Log) (before : Fin 8 → ℚ) (s : State) : List (Fin 8) → State × List Obs
  | []      => (s, [])
  | k :: ks =>
    let (s, o)  := saveSensor calculateMkt l before s k
    let (s, o₁) := saveSensors l before s ks
    (s, o ++ o₁)

-- The mean of sensor 1 is first taken from the flash.
def save (f : Flash) (l : Log) (s : State) : Option (State × List Obs) := do
  let temp ← f.ftmp
  let before k := (s.dev.sen k).temp
  let dev := s.dev.set 0 { s.dev.sen 0 with temp }
  some <| saveSensors calculateMkt l before { s with dev } (List.finRange 8)

-- `test_alarm` has left `temp`, `ENBLE` and an `error_counter` of 0 as they are.
def tests (s : Alarm.State) : List Obs :=
  (List.finRange 8).filterMap fun k =>
    let m := s.sen k
    if m.senzor.enble ≠ 0 ∧ m.senzor.errorCounter = 0 then some (.tested k m.temp) else none

-- What is seen of a resumption of `ptReadTemp` that leads from `s` to `s₁`
def readObs (s s₁ : Alarm.State) (ds : Alarm.DsBuf) : List Obs :=
  let tested := if s₁.ptReadTemp = .start then tests s₁ else []
  match s.ptReadTemp with
  | .start   => []
  | .yielded => .start :: tested
  | .wait k  => (if Alarm.goodReading ds then [.accepted k (s₁.sen k).temp] else []) ++ tested

inductive Event
  | readTemp (ds : Alarm.DsBuf)
  | alarmDelay
  | post (k : Fin 8) (sen : Sensor) (measureType : UInt8)
  | save (l : Log)

def logger (f : Flash) : Machine State Event Obs where
  step s
    | .readTemp ds => do
      let (dev, _) ← Alarm.ptReadTemp s.dev ds
      some ({ s with dev }, readObs s.dev dev ds)
    | .alarmDelay => some ({ s with dev := (Alarm.ptAlarmDelay s.dev).1 }, [])
    | .post k sen type => some ({ s with
        dev         := (Alarm.saveSensor s.dev k sen).1
        measureType := Function.update s.measureType k type
      }, [])
    | .save l => save calculateMkt f l s

end Logger
