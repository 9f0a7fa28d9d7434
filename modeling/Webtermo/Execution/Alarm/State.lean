import Webtermo.Objects.Structures
import Webtermo.Objects.Float
import Webtermo.Execution.Wapp.Step

namespace Alarm

-- What the device keeps for each of its sensors: `senzor[k]`, `temp[k]`, `state[k]` and the words of
-- the NVRAM.
structure SensorMem where
  senzor    : Sensor
  temp      : ℚ
  state     : UInt8
  nvSum     : ℚ
  nvCount   : UInt32
  delayWord : UInt32

-- Where `ptReadTemp` resumes
inductive PtReadTemp
  | start
  | yielded
  -- in the conversion time of a sensor
  | wait (k : Fin 8)
  deriving DecidableEq

structure State where
  sen        : Fin 8 → SensorMem
  ptReadTemp : PtReadTemp

def State.set (s : State) (k : Fin 8) (m : SensorMem) : State :=
  { s with sen := Function.update s.sen k m }

@[simp] theorem State.set_sen_self (s : State) : (s.set k m).sen k = m := by
  simp [set]

@[simp] theorem State.set_sen_ne (s : State) (h : i ≠ k) : (s.set k m).sen i = s.sen i := by
  simp [set, h]

@[simp] def ko : UInt8 := 0
@[simp] def ok : UInt8 := 1

@[simp] def onewireErrorCount : UInt8 := 5

def calcCrc (buff : Bytes) : UInt8 :=
  buff.foldl (fun shiftReg b => (List.range 8).foldl (fun shiftReg j =>
    let fbBit := ((b >>> j.toUInt8) &&& 1) ^^^ (shiftReg &&& 1)
    if fbBit ≠ 0 then shiftReg >>> 1 ^^^ 0x8c else shiftReg >>> 1) shiftReg) 0

-- The nine bytes that a sensor is read with
abbrev DsBuf := Fin 9 → UInt8

-- The checksum, spoilt on purpose for the value that a sensor has after its own reset
def chkSum (ds : DsBuf) : UInt8 :=
  let crc := calcCrc ((List.finRange 8).map fun i => ds i.castSucc)
  if ds 0 = 0x50 ∧ ds 1 = 0x05 then crc + 1 else crc

def goodReading (ds : DsBuf) : Bool :=
  chkSum ds = ds 8

-- The conversion of a reading, with the divisions of its `float` taken exactly
def readtemp (ds : DsBuf) : ℚ :=
  let raw     := (ds 1).toNat * 256 + (ds 0).toNat
  let signBit := raw ≥ 0x8000
  let raw     := if signBit then (0x10000 - raw) % 0x10000 else raw
  let fTemp   := mkRat (6 * raw + raw / 4 : Nat) 100
  if signBit then -fTemp else fTemp

-- The reading of an enabled sensor. A calibration that is not finite has no temperature.
def readSensor (m : SensorMem) (ds : DsBuf) : Option SensorMem :=
  if goodReading ds then do
    let kalibracija ← floatVal m.senzor.kalibracija
    let temp := readtemp ds + kalibracija
    some { m with
      temp    := temp
      nvSum   := m.nvSum + temp
      nvCount := m.nvCount + 1
      senzor  := { m.senzor with errorCounter := 0 }
      state   := ok
    }
  else
    let n := m.senzor.errorCounter
    some { m with
      senzor := { m.senzor with errorCounter := if n < onewireErrorCount then n + 1 else n }
      state  := ko
    }

-- `test_alarm`. The return value is the kind of the alarm.
def testAlarm (m : SensorMem) : SensorMem × UInt8 :=
  let high : ℚ := m.senzor.highLimit.toInt
  let low  : ℚ := m.senzor.lowLimit.toInt
  let hist : ℚ := m.senzor.his.toNat
  let enter (state : UInt8) := { m with senzor := { m.senzor with state } }
  let leave := { m with senzor := { m.senzor with state := Alarm.no }, delayWord := 0 }
  if m.senzor.state = Alarm.no then
    if high + hist ≤ m.temp then (enter Alarm.hi, 1)
    else if m.temp ≤ low - hist then (enter Alarm.low, 2)
    else (m, 0)
  else if m.senzor.state = Alarm.hi then
    if m.temp ≤ high - hist then (leave, 0) else (m, 0)
  else if m.senzor.state = Alarm.low then
    if low + hist ≤ m.temp then (leave, 0) else (m, 0)
  else
    (m, 0)

-- The second loop of `ptReadTemp` for one sensor, and whether it raises an alarm
def testSensor (m : SensorMem) : SensorMem × Bool :=
  if m.senzor.enble = 0 then
    (m, false)
  else
    let (m, alarm) :=
      if m.senzor.errorCounter = 0 then
        testAlarm m
      else if m.senzor.errorCounter = onewireErrorCount then
        let errorCounter := m.senzor.errorCounter + 2
        ({ m with senzor := { m.senzor with errorCounter } }, Alarm.err)
      else
        (m, 0)
    if alarm = 0 then (m, false) else ({ m with delayWord := 1 }, true)

-- Sensor `k` is enabled and in an alarm or in a read error that has been raised.
def InAlarm (m : SensorMem) : Prop :=
  m.senzor.enble ≠ 0 ∧ (m.senzor.state ≠ Alarm.no ∨ onewireErrorCount < m.senzor.errorCounter)

instance : Decidable (InAlarm m) :=
  inferInstanceAs <| Decidable (_ ∧ _)

-- What can be seen of an action: whether it is a tick, for which sensors it sends or raises an
-- alarm, and how it leaves the sensors
structure Obs where
  tick    : Bool
  called  : Fin 8 → Bool
  raised  : Fin 8 → Bool
  inAlarm : Fin 8 → Bool
  delay   : Fin 8 → Nat

def State.look (s : State) (tick : Bool) (called raised : Fin 8 → Bool) : Obs where
  tick    := tick
  called  := called
  raised  := raised
  inAlarm := fun k => InAlarm (s.sen k)
  delay   := fun k => (s.sen k).senzor.delay.toNat

-- The sensors share no memory, so their loops are written for all of them at once.
def testSensors (s : State) : State × List Obs :=
  let s₁ := { s with sen := fun k => (testSensor (s.sen k)).1, ptReadTemp := .start }
  (s₁, [s₁.look false (fun _ => false) (fun k => (testSensor (s.sen k)).2)])

-- The first loop of `ptReadTemp` from the given sensors on, up to the next conversion
def scanSensors (s : State) : List (Fin 8) → State × List Obs
  | [] => testSensors s
  | k :: rest =>
    if (s.sen k).senzor.enble ≠ 0 then
      ({ s with ptReadTemp := .wait k }, [])
    else
      scanSensors (s.set k { s.sen k with state := 0 }) rest

def after (k : Fin 8) : List (Fin 8) :=
  (List.finRange 8).filter (k < ·)

-- `ptReadTemp` resumed, when its timer has expired. `ds` is what the sensor answers.
def ptReadTemp (s : State) (ds : DsBuf) : Option (State × List Obs) :=
  match s.ptReadTemp with
  | .start   => some ({ s with ptReadTemp := .yielded }, [])
  | .yielded => some (scanSensors s (List.finRange 8))
  | .wait k  => do
    let m ← readSensor (s.sen k) ds
    let s₁ := s.set k m
    let (s₂, o) := scanSensors s₁ (after k)
    some (s₂, s₁.look false (fun _ => false) (fun _ => false) :: o)

-- The first loop of `ptAlarmDelay`
def ptAlarmDelay (s : State) : State × List Obs :=
  let turn k := Wapp.delayTurn (s.sen k).delayWord (s.sen k).senzor.delay
  let s₁ := { s with sen := fun k => { s.sen k with delayWord := (turn k).1 } }
  (s₁, [s₁.look true (fun k => (turn k).2) (fun _ => false)])

-- A save handler can set everything of `senzor[k]` but its alarm and its error counter.
def saveSensor (s : State) (k : Fin 8) (sen : Sensor) : State × List Obs :=
  let m := s.sen k
  let senzor := { sen with state := m.senzor.state, errorCounter := m.senzor.errorCounter }
  let s₁ := s.set k { m with senzor }
  (s₁, [s₁.look false (fun _ => false) (fun _ => false)])

inductive Event
  | readTemp (ds : DsBuf)
  | alarmDelay
  | post (k : Fin 8) (sen : Sensor)

def device : Machine State Event Obs where
  step s
    | .readTemp ds => ptReadTemp s ds
    | .alarmDelay  => some (ptAlarmDelay s)
    | .post k sen  => some (saveSensor s k sen)

end Alarm
