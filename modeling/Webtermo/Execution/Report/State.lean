import Webtermo.Execution.Alarm.State

-- The alarms that `ptReadTemp` raises, and what `ptAlarmDelay` reports of them over both channels
namespace Report

-- The sensors, and the memory that the two channels have besides
structure State where
  dev  : Alarm.State
  wapp : Wapp.State

-- What `SendWApp` and `SendSMS` see
def State.look (s : State) : Wapp.State := { s.wapp with
  temp   := fun k => (s.dev.sen k).temp
  senzor := fun k => (s.dev.sen k).senzor
}

inductive Obs
  -- `ptReadTemp` raises an alarm of a kind, which sets the delay word of sensor `k` to 1.
  | raised (k : Fin 8) (kind : UInt8)
  -- The delay of sensor `k` has run out, and the calls of `SendWApp` and `SendSMS` lead from `s` to `s₁`.
  | reported (k : Fin 8) (s s₁ : Wapp.State)

-- `test_alarm` returns the new `STATE`, and `ALARM_ERR` moves the error counter on.
def raisedKind (m : Alarm.SensorMem) : UInt8 :=
  if m.senzor.errorCounter = 0 then m.senzor.state else Alarm.err

def raises (s : Alarm.State) (o : List Alarm.Obs) : List Obs :=
  (List.finRange 8).filterMap fun k =>
    if o.any (·.raised k) then some (.raised k <| raisedKind (s.sen k)) else none

-- One turn of a loop of `ptAlarmDelay`
def slotStep (s : State) : Wapp.Slot → Option (State × List Obs)
  | .sen k => do
    let m := s.dev.sen k
    let (word, expired) := Wapp.delayTurn m.delayWord m.senzor.delay
    let s := { s with dev := s.dev.set k { m with delayWord := word } }
    if expired then do
      let (wapp, _) ← (Wapp.Slot.sen k).send s.look
      some ({ s with wapp }, [.reported k s.look wapp])
    else
      some (s, [])
  | .inp i => do
    let (wapp, _) ← (Wapp.Slot.inp i).step s.look
    some ({ s with wapp }, [])

def delayLoop : Machine State Wapp.Slot Obs where
  step := slotStep

inductive Event
  | readTemp (ds : Alarm.DsBuf)
  | alarmDelay
  | post (k : Fin 8) (sen : Sensor)
  -- the temperatures that the loggers leave, the EEPROM, and everything else that the channels use
  | others (temp : Fin 8 → ℚ) (wapp : Wapp.State)

def device : Machine State Event Obs where
  step s
    | .readTemp ds => do
      let (dev, o) ← Alarm.ptReadTemp s.dev ds
      some ({ s with dev }, raises dev o)
    | .alarmDelay  => delayLoop.run s Wapp.slots
    | .post k sen  => some ({ s with dev := (Alarm.saveSensor s.dev k sen).1 }, [])
    | .others temp wapp =>
      let sen k := { s.dev.sen k with temp := temp k }
      some (⟨{ s.dev with sen }, wapp⟩, [])

end Report
