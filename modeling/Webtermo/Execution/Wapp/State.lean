import Webtermo.Library.Run
import Webtermo.Library.Paged
import Webtermo.Objects.Define
import Webtermo.Objects.Float
import Webtermo.Objects.Structures

open Define

namespace Wapp

inductive Status
  | free
  | busy
  deriving DecidableEq

-- Where `ptWapp` resumes: at its beginning, after its `PT_YIELD`, or at the `PT_WAIT_UNTIL` that
-- stands before the given recipients.
inductive PtWapp
  | start
  | yielded
  | wait (rest : List (Fin 5))
  deriving DecidableEq

def PtWapp.ahead : PtWapp → List (Fin 5)
  | start | yielded => List.finRange 5
  | wait rest       => rest

-- An HTTP request that the client has accepted and not finished yet.
structure Request where
  num      : Fin 5
  url      : Bytes
  received : Bool

-- What `send_infobip` leaves behind for the SMS client.
structure Infobip where
  poruka    : Buffer 160
  gsmEnable : Fin 5 → Bool
  active    : Bool

-- The memory that `ptWapp` and the callbacks of the HTTP client only read. Sensors, inputs and save
-- handlers write it at any time.
structure Env where
  eeprom    : Memory
  rBuf      : Buffer 1024
  temp      : Fin 8 → ℚ
  senzor    : Fin 8 → Sensor
  -- `SendSMS` reads `senzor[255]` for sensor 0, which lies behind the array.
  senzor255 : Sensor
  dinput    : Fin 3 → DInput
  delaySen  : Fin 8 → UInt32
  delayIn   : Fin 3 → UInt32
  infobip   : Infobip

structure State extends Env where
  wapp       : Whatsapp
  wAppflag   : Bool
  wAppStatus : Status
  ptWapp     : PtWapp
  url        : Buffer 200
  requests   : List Request

def State.init (env : Env) : State := { env with
  wapp       := { msg := Buffer.zero 128, enable := fun _ => false }
  wAppflag   := false
  wAppStatus := .free
  ptWapp     := .start
  url        := Buffer.zero 200
  requests   := []
}

inductive Obs
  -- `SendWApp` or `SendWAppInput` has left a text for the flagged recipients.
  | expired (flagged : List (Fin 5)) (text : Bytes)
  -- `send_whatsapp_message` has been called.
  | handed (num : Fin 5) (text : Bytes)
  -- `ptWapp` has reached its final `wAppflag = 0`.
  | done
  deriving DecidableEq

-- The temperature against the limits of a sensor.
def alarmType (t : ℚ) (sen : Sensor) : UInt8 :=
  if (sen.highLimit.toInt : ℚ) < t then Alarm.hi
  else if t < (sen.lowLimit.toInt : ℚ) then Alarm.low
  else Alarm.no

def State.setRBuf (s : State) (rBuf : Buffer 1024) : State :=
  { s with rBuf }

def State.setMsg (s : State) (msg : Buffer 128) : State :=
  { s with wapp := { s.wapp with msg } }

def State.setPoruka (s : State) (poruka : Buffer 160) : State :=
  { s with infobip := { s.infobip with poruka } }

namespace State

variable {s : State}

@[simp] theorem setRBuf_rBuf : (s.setRBuf b).rBuf = b := rfl
@[simp] theorem setRBuf_eeprom : (s.setRBuf b).eeprom = s.eeprom := rfl
@[simp] theorem setRBuf_temp : (s.setRBuf b).temp = s.temp := rfl
@[simp] theorem setRBuf_senzor : (s.setRBuf b).senzor = s.senzor := rfl
@[simp] theorem setRBuf_senzor255 : (s.setRBuf b).senzor255 = s.senzor255 := rfl
@[simp] theorem setRBuf_infobip : (s.setRBuf b).infobip = s.infobip := rfl
@[simp] theorem setRBuf_wapp : (s.setRBuf b).wapp = s.wapp := rfl
@[simp] theorem setMsg_rBuf : (s.setMsg m).rBuf = s.rBuf := rfl
@[simp] theorem setMsg_eeprom : (s.setMsg m).eeprom = s.eeprom := rfl
@[simp] theorem setMsg_msg : (s.setMsg m).wapp.msg = m := rfl
@[simp] theorem setPoruka_eeprom : (s.setPoruka p).eeprom = s.eeprom := rfl

end State

-- `EEread` into the head of `rBuf`
def eeRead (s : State) (addr n : Nat) : Option State :=
  (s.rBuf.write 0 (s.eeprom.read addr n)).map s.setRBuf

def strcats (b : Buffer cap) (ts : List Bytes) : Option (Buffer cap) :=
  ts.foldlM Buffer.strcat b

namespace SendWApp

-- The lines about the temperature that `SendWApp` adds to its text
def alarmLines (type : UInt8) (t : ℚ) : Option (List Bytes) :=
  if type = Alarm.hi then do
    some [ascii " ALARM VISOKE TEMPERATURE \r", ← tempToAscii t, ascii " C\n"]
  else if type = Alarm.low then do
    some [ascii " ALARM NISKE TEMPERATURE \r", ← tempToAscii t, ascii " C\n"]
  else
    some []

-- The flags that stand in `rBuf` from `pos` on
def flags (rBuf : Buffer 1024) (pos : Nat) (n : Fin 5) : Bool :=
  rBuf.get (pos + n) ≠ 0

def flagged (enable : Fin 5 → Bool) : List (Fin 5) :=
  (List.finRange 5).filter (enable ·)

-- The last part of `SendWApp` and of `SendWAppInput`
def arm (s : State) (pos : Nat) : State × List Obs :=
  let enable := flags s.rBuf pos
  let s := { s with
    wapp     := { s.wapp with enable }
    wAppflag := (List.finRange 5).any (enable ·)
  }
  (s, [.expired (flagged enable) ((s.wapp.msg.text 0).getD [])])

end SendWApp

open SendWApp in
def sendWApp (s : State) (sen : Fin 8) : Option (State × List Obs) := do
  let tAlarm := s.temp sen
  let type   := alarmType tAlarm (s.senzor sen)
  let s   ← eeRead s eeObjectName 64
  let msg ← s.wapp.msg.strcpy (← s.rBuf.text 0)
  let msg ← msg.strcat (ascii "\n")
  let s   ← eeRead s ((sen + 1) * 0x100) 256
  let msg ← msg.strcat (← s.rBuf.text eeSensorName)
  let msg ← msg.strcat (ascii "\n")
  let msg ← strcats msg (← alarmLines type tAlarm)
  some <| arm (s.setMsg msg) eeWapp1On

open SendWApp in
def sendWAppInput (s : State) (inp : Fin 3) : Option (State × List Obs) := do
  let s   ← eeRead s eeObjectName 64
  let msg ← s.wapp.msg.strcpy (← s.rBuf.text 0)
  let msg ← msg.strcat (ascii "\n")
  let s   ← eeRead s (eeInputName1 + inp * 0x20) 30
  let msg ← msg.strcat (← s.rBuf.text 0)
  let msg ← msg.strcat (ascii "\n")
  let msg ← msg.strcat (ascii " ALARM  \r")
  let s   ← eeRead s eeInputWapp1 5
  some <| arm (s.setMsg msg) 0

-- `send_infobip` switches the fifth number on whatever its flag says.
def sendInfobip (s : State) (sms : Fin 5 → Bool) : State := { s with
  infobip := { s.infobip with
    gsmEnable := fun n => n = 4 || sms n
    active    := true
  }
}

namespace SendSMS

def alarmLines (type : UInt8) (t : ℚ) : Option (List Bytes) :=
  if type = Alarm.hi then do
    some [ascii " ALARM VISOKE TEMPERATURE ", ← tempToAscii t, ascii " C\r\n"]
  else if type = Alarm.low then do
    some [ascii " ALARM NISKE TEMPERATURE \r\n", ← tempToAscii t, ascii " C\r\n"]
  else if type = Alarm.err then
    some [ascii " GRESKA OCITANJA SENZORA \r\n"]
  else
    some []

-- The index `cnt = broj_senzora - 1` is an 8-bit one and is taken before `broj_senzora++`.
def limits (s : State) (sen : Fin 8) : Sensor :=
  if h : sen.val = 0 then s.senzor255 else s.senzor ⟨sen.val - 1, by omega⟩

end SendSMS

-- `SendSMS(sen, 1)`
def sendSMS (s : State) (sen : Fin 8) : Option State := do
  let s      ← eeRead s (0x100 * (sen + 1) + eeSensorName) 16
  let tAlarm := s.temp sen
  let type   := alarmType tAlarm (SendSMS.limits s sen)
  let poruka ← s.infobip.poruka.strcpy (← s.rBuf.text 0)
  let poruka ← poruka.strcat (ascii "\r\n")
  let poruka ← strcats poruka (← SendSMS.alarmLines type tAlarm)
  let s      ← eeRead (s.setPoruka poruka) (0x100 * (sen + 1) + eeSms1) 5
  some <| sendInfobip s (SendWApp.flags s.rBuf 0)

-- `SendSMS(inp, 2)`
def sendSMSInput (s : State) (inp : Fin 3) : Option State := do
  let s      ← eeRead s (eeInputName1 + inp * 0x20) 30
  let poruka ← s.infobip.poruka.strcpy (← s.rBuf.text 0)
  let poruka ← strcats poruka [ascii "\r\n", ascii " ALARM ", ascii "\r\n"]
  let s      ← eeRead (s.setPoruka poruka) eeInputSms1 5
  some <| sendInfobip s (SendWApp.flags s.rBuf 0)

end Wapp
