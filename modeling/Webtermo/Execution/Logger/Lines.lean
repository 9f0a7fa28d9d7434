import Webtermo.Execution.Logger.State
import Webtermo.Library.CString
import Webtermo.Library.Decimal
import Webtermo.Objects.Single

open Define

-- The lines that `SaveTemp`, `SaveHaccp` and `SaveAlarm` put together in `dsave`, with the temperatures as the
-- `float`s that the code keeps
namespace Logger

-- What `getTime` and `getDate` leave for them
structure Moment where
  datum   : UInt8
  sat     : UInt8
  minuta  : UInt8
  sekunda : UInt8

-- `sprintf(dsave, "%d;%d:%d:%d;", datum, sat, minuta, sekunda)`
def Moment.print (c : Moment) : Bytes :=
  Decimal.print c.datum ++ ascii ";" ++ Decimal.print c.sat ++ ascii ":" ++ Decimal.print c.minuta ++
    ascii ":" ++ Decimal.print c.sekunda ++ ascii ";"

-- What a sensor is read with: `fTemp`, and the calibration that is added to it
def fTemp (ds : Alarm.DsBuf) : Single :=
  Single.ofRat (Alarm.readtemp ds)

def newTemp (ds : Alarm.DsBuf) (kalibracija : UInt32) : Single :=
  (fTemp ds).add (floatVal kalibracija)

-- The readings of one sensor in the NVRAM for its mean kinetic temperature
structure MktLog where
  log   : Fin 20 → Single
  count : UInt32

-- `UpdateMKT`
def MktLog.update (m : MktLog) (newtemp : Single) : MktLog :=
  if h : m.count < 20 then
    { log := Function.update m.log ⟨m.count.toNat, h⟩ newtemp, count := m.count + 1 }
  else
    { m with log := fun i => if h : i.val + 1 < 20 then m.log ⟨i.val + 1, h⟩ else newtemp }

-- What the loops of `SaveTemp` and `SaveHaccp` find of a sensor
structure Slot where
  enble       : UInt8
  measureType : UInt8
  temp        : Single
  nvSum       : Single
  nvCount     : UInt32
  mkt         : MktLog

def Slot.mean (m : Slot) : Single :=
  m.nvSum.div m.nvCount

def Flash.mean (f : Flash) : Single :=
  Single.div (floatVal f.sum) f.count

-- What a turn of the loop hands to `temp_to_ascii`, if the sensor is enabled
def Slot.shown (m : Slot) : Option Single :=
  if m.enble = 1 then some m.temp else none

def column (temp : Option Single) (dsave : CString 120) : Option (CString 120) := do
  let dsave ← match temp with
    | none   => some dsave
    | some t => dsave.strcat (← tempToAscii (← t))
  dsave.strcat (ascii ";")

section

-- `CalculateMKT` computes with `exp` and `log` from what the NVRAM holds from the sensor's log on.
variable (calculateMkt : (Fin 8 → MktLog) → Fin 8 → Single)

-- One turn of the loop up to `temp_to_ascii`. Only `SaveTemp` keeps the log for the MKT.
def saveSlot (l : Log) (s : Fin 8 → Slot) (k : Fin 8) : Slot :=
  let m := s k
  if m.enble = 1 ∧ m.nvCount ≠ 0 then
    let mkt  := if l = .temp then m.mkt.update m.mean else m.mkt
    let temp := if m.measureType = 1 then calculateMkt (Function.update (fun j => (s j).mkt) k mkt) k else m.mean
    { m with temp, nvSum := some 0, nvCount := 0, mkt }
  else m

def saveLines (l : Log) (s : Fin 8 → Slot) (dsave : CString 120) : List (Fin 8) → Option (CString 120)
  | []      => some dsave
  | k :: ks => do
    let m := saveSlot calculateMkt l s k
    saveLines l (Function.update s k m) (← column m.shown dsave) ks

-- `SaveTemp` and `SaveHaccp` up to `lfs_append`. The mean of sensor 1 is first taken from the flash.
def saveLine (f : Flash) (l : Log) (c : Moment) (s : Fin 8 → Slot) : Option Bytes := do
  let dsave ← CString.strcpy c.print
  let s := Function.update s 0 { s 0 with temp := f.mean }
  let dsave ← saveLines calculateMkt l s dsave (List.finRange 8)
  let dsave ← dsave.strcat (ascii "\r\n")
  some dsave.bytes

end

def alarmText (type : UInt8) : Bytes :=
  if type = Alarm.hi then ascii "VISOKA TEMPERATURA;"
  else if type = Alarm.low then ascii "NISKA TEMPERATURA;"
  else []

-- `rBuf` when 30 bytes have been read from the name of a sensor on. They need not hold a NUL.
def readName (eeprom : Memory) (rBuf : Buffer 1024) (sensorNum : Fin 8) : Option (Buffer 1024) :=
  rBuf.write 0 <| eeprom.read ((sensorNum + 1) * 0x100 + eeSensorName) 30

def saveAlarm (c : Moment) (eeprom : Memory) (rBuf : Buffer 1024) (tAlarm : Single) (sensorNum : Fin 8)
    (type : UInt8) : Option Bytes := do
  let dsave : CString 100 ← CString.strcpy c.print
  let rBuf ← readName eeprom rBuf sensorNum
  let name ← rBuf.text 0
  let ttoa ← tempToAscii (← tAlarm)
  let dsave ← dsave.strcats [name, ascii ";", ttoa, ascii ";", alarmText type, ascii "\r\n"]
  some dsave.bytes

end Logger
