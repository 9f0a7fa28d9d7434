import Webtermo.Execution.Alarm.State

namespace Alarm

def owiCrcOk : UInt8 := 0
def owiCrcError : UInt8 := 1

-- The two arguments after one turn of the loop
def OwiComputeCRC8.turn (inData seed : UInt8) : UInt8 × UInt8 :=
  let temp := (seed ^^^ inData) &&& 0x01
  (inData >>> 1, if temp = 0 then seed >>> 1 else ((seed ^^^ 0x18) >>> 1) ||| 0x80)

def owiComputeCRC8 (inData seed : UInt8) : UInt8 :=
  (Nat.repeat (fun (inData, seed) => OwiComputeCRC8.turn inData seed) 8 (inData, seed)).2

def owiCheckRomCRC (romValue : Fin 8 → UInt8) : UInt8 :=
  let crc8 := ((List.finRange 7).map fun i => romValue i.castSucc).foldl
    (fun crc8 romValue => owiComputeCRC8 romValue crc8) 0
  if crc8 = romValue 7 then owiCrcOk else owiCrcError

end Alarm
