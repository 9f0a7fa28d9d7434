import Webtermo.Execution.Config.Handlers
import Webtermo.Execution.Sntp.State

open Sntp (RtcDate RtcTime)

-- `SaveTime`
namespace Clock

-- The calendar of the RTC
structure Rtc where
  date : RtcDate
  time : RtcTime
  deriving DecidableEq

def setDate (r : Rtc) (year month date day : UInt8) : Rtc :=
  { r with date := { year, month, date, weekDay := day } }

def setTime (r : Rtc) (hour min sec : UInt8) : Rtc :=
  { r with time := { hours := hour, minutes := min, seconds := sec } }

inductive Var
  | sat | minuta | sekunda | datum | dan | godina | mjesec
  deriving DecidableEq

namespace Var

def tag : Var → Bytes
  | sat     => Config.xmlTag "HOUR"
  | minuta  => Config.xmlTag "MIN"
  | sekunda => Config.xmlTag "SEC"
  | datum   => Config.xmlTag "DATE"
  | dan     => Config.xmlTag "DAY"
  | godina  => Config.xmlTag "YEAR"
  | mjesec  => Config.xmlTag "MONTH"

-- What is taken from `tb`
def read (tb : Tb) : Var → UInt8
  | godina => ((tb.get 0).toUInt16 * 256 + (tb.get 1).toUInt16 - 2000).toUInt8
  | _      => tb.get 1

end Var

structure State where
  vars : Var → UInt8
  tb   : Tb

namespace State

-- `IntToFile` gets `tb` for its input and for its output, which it leaves alone if it fails. Its result
-- is not looked at.
def receive (b : Body) (s : State) (v : Var) : Option State := do
  let (varlen, tb) ← xmlParser v.tag b s.tb
  if varlen = 0 then
    some { s with tb }
  else
    let tb ← match ← intToFile varlen tb with
      | none        => some tb
      | some (h, l) => tb.write 0 [h, l]
    some { vars := Function.update s.vars v (v.read tb), tb }

end State

def saveTime (b : Body) (s : State) (r : Rtc) : Option (State × Rtc) := do
  let s ← [.sat, .minuta, .sekunda].foldlM (State.receive b) s
  let r := setTime r (s.vars .sat) (s.vars .minuta) (s.vars .sekunda)
  let s ← [.datum, .dan, .godina, .mjesec].foldlM (State.receive b) s
  let r := setDate r (s.vars .godina) (s.vars .mjesec) (s.vars .datum) (s.vars .dan)
  some (s, r)

end Clock
