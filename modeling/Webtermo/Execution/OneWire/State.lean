import Webtermo.Execution.Alarm.State

-- `ptReadTemp` with its calls of `OWreset`, `OWWriteByte` and `OWReadByte`
namespace OneWire

open Alarm (SensorMem DsBuf)

-- A call with what it returns. An error is the code that stands for it.
inductive Call
  | reset (r : Except UInt8 Unit)
  | write (dta : UInt8) (r : Except UInt8 Unit)
  | read (r : Except UInt8 UInt8)

def Call.failed : Call → Bool
  | reset (.error _) | write _ (.error _) | read (.error _) => true
  | _                                                       => false

-- The answers to the calls that address a sensor and give it a command
structure Select where
  reset : Except UInt8 Unit
  write : Fin 10 → Except UInt8 Unit

structure Answers where
  select : Select
  read   : Fin 9 → Except UInt8 UInt8

def matchRom : UInt8 := 0x55
def convert  : UInt8 := 0x44
def readPad  : UInt8 := 0xBE

def select (code : Buffer 8) (command : UInt8) (a : Select) : List Call :=
  .reset a.reset ::
    (matchRom :: code.bytes ++ [command]).zipWith Call.write (List.ofFn a.write)

-- A byte is stored at the end of `OWReadByte`, so that a call that fails leaves `*dta` as it is.
def owReadByte (dta : UInt8) : Except UInt8 UInt8 → UInt8
  | .ok b    => b
  | .error _ => dta

-- The return codes are not used.
def readScratchpad (ds : DsBuf) (a : Answers) : DsBuf :=
  fun i => owReadByte (ds i) (a.read i)

inductive Obs
  -- the turn of sensor `k` in the first loop of a pass starts
  | turn (k : Fin 8)
  | call (c : Call)
  -- the turn ends with the contents of `dsBuf`, and leads the sensor from one state to another
  | reading (k : Fin 8) (ds : DsBuf) (m m₁ : SensorMem)

-- `dsBuf` is shared by all sensors.
structure State where
  dev   : Alarm.State
  dsBuf : DsBuf

inductive Event
  | readTemp (a : Answers) (next : Select)
  -- whatever else the device does to its sensors between two resumptions
  | other (sen : Fin 8 → SensorMem)

-- The turn of the sensor that is next in the loop starts with its conversion.
def startTurn (s : Alarm.State) (next : Select) : List Obs :=
  match s.ptReadTemp with
  | .wait k => .turn k :: (select (s.sen k).senzor.code convert next).map .call
  | _       => []

def ptReadTemp (s : State) (a : Answers) (next : Select) : Option (State × List Obs) :=
  match s.dev.ptReadTemp with
  | .wait k => do
    let m  := s.dev.sen k
    let ds := readScratchpad s.dsBuf a
    let m₁ ← Alarm.readSensor m ds
    let (dev, _) ← Alarm.ptReadTemp s.dev ds
    let calls := select m.senzor.code readPad a.select ++ (List.ofFn a.read).map .read
    some (⟨dev, ds⟩, calls.map .call ++ .reading k ds m m₁ :: startTurn dev next)
  | _ => do
    let (dev, _) ← Alarm.ptReadTemp s.dev s.dsBuf
    some ({ s with dev }, startTurn dev next)

def bus : Machine State Event Obs where
  step s
    | .readTemp a next => ptReadTemp s a next
    | .other sen       => some ({ s with dev := { s.dev with sen } }, [])

end OneWire
