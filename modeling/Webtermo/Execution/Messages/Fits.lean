import Webtermo.Library.Percent
import Webtermo.Objects.Temperature
import Webtermo.Execution.Wcl.State

open Define

-- The buffers that messages are put together in, and what there is room for in them
namespace Messages

open Wapp (alarmType)

-- `rBuf` with `n` bytes of the EEPROM at its head
def load (m : Memory) (addr n : Nat) (rBuf : Bytes) : Bytes :=
  m.read addr n ++ rBuf.drop n

section Names

variable (s : Wapp.State)

-- The names as they are read, up to the first NUL in `rBuf`
def objekt : Option Bytes :=
  cstr <| load s.eeprom eeObjectName 64 s.rBuf.bytes

def senzor (sen : Fin 8) : Option Bytes :=
  cstr <| (load s.eeprom ((sen + 1) * 0x100) 256 s.rBuf.bytes).drop eeSensorName

-- Behind the name of an input stands what is left of the name of the object.
def ulaz (inp : Fin 3) : Option Bytes :=
  cstr <| load s.eeprom (eeInputName1 + inp * 0x20) 30 <| load s.eeprom eeObjectName 64 s.rBuf.bytes

def smsSenzor (sen : Fin 8) : Option Bytes :=
  cstr <| load s.eeprom (0x100 * (sen + 1) + eeSensorName) 16 s.rBuf.bytes

def smsUlaz (inp : Fin 3) : Option Bytes :=
  cstr <| load s.eeprom (eeInputName1 + inp * 0x20) 30 s.rBuf.bytes

-- The number and the key of a recipient
def stored (addr : Nat) : Bytes :=
  s.eeprom.read addr 32 |>.takeWhile (· ≠ 0)

end Names

def tempLength (t : ℚ) : Option Nat :=
  if Temperature.Fits t then some (myFtoa t 2).length else none

-- The length of the lines about an alarm, with `hi` or `low` characters besides the temperature
def lines (hi low : Nat) (type : UInt8) (t : ℚ) : Option Nat :=
  if type = Alarm.hi then (tempLength t).map (hi + ·)
  else if type = Alarm.low then (tempLength t).map (low + ·)
  else some 0

-- What there has to be room for in `wapp.Msg`, in `infobip_poruka` and in `URL`

def WAppRoom (s : Wapp.State) (sen : Fin 8) : Prop :=
  ∃ o ∈ objekt s, ∃ n ∈ senzor s sen,
    ∃ k ∈ lines 30 29 (alarmType (s.temp sen) (s.senzor sen)) (s.temp sen),
      o.length + n.length + k + 2 < 128

def WAppInputRoom (s : Wapp.State) (inp : Fin 3) : Prop :=
  ∃ o ∈ objekt s, ∃ n ∈ ulaz s inp, o.length + n.length + 11 < 128

def SmsRoom (s : Wapp.State) (sen : Fin 8) : Prop :=
  ∃ n ∈ smsSenzor s sen,
    ∃ k ∈ lines 30 31 (alarmType (s.temp sen) (Wapp.SendSMS.limits s sen)) (s.temp sen),
      n.length + k + 2 < 160

def SmsInputRoom (s : Wapp.State) (inp : Fin 3) : Prop :=
  ∃ n ∈ smsUlaz s inp, n.length + 11 < 160

-- The enabled sensors, and the name that stands in `rBuf`
def enabled (s : Wapp.State) : List (Fin 8) :=
  (List.finRange 8).filter fun k => (s.senzor k).enble ≠ 0

def StatusRoom (s : Wapp.State) : Prop :=
  enabled s ≠ [] → ∃ n ∈ s.rBuf.text 0x20, n.length < 32 ∧
    (∀ k ∈ enabled s, Temperature.Fits (s.temp k)) ∧
    ((enabled s).map fun k => min 8 n.length + (myFtoa (s.temp k) 2).length + 5).sum < 160

-- Every character that is not plain takes three.
def UrlRoom (s : Wapp.State) (snum : Fin 5) (m : Bytes) : Prop :=
  (stored s (eeWapp1Num + snum * 0x80)).length + (stored s (eeWapp1Key + snum * 0x80)).length +
    (m.length + 2 * m.countP (!Wapp.UrlEncode.plain ·)) + 34 < 200

-- A function has stayed inside of its arrays and has left the text in its buffer.
def Built (b : Option (Buffer cap)) (text : Option Bytes) : Prop :=
  ∃ b₁ ∈ b, ∃ t ∈ text, b₁.text 0 = some t

-- The lines of the status
def statusText (s : Wapp.State) : Option Bytes :=
  ((enabled s).mapM (Wcl.Sms.statusLine s)).map List.flatten

def Unreserved (c : UInt8) : Prop :=
  c ∈ ascii "ABCDEFGHIJKLMNOPQRSTUVWXYZabcdefghijklmnopqrstuvwxyz0123456789-._~"

-- A request with a text parameter that says exactly `m`
structure Request (s : Wapp.State) (snum : Fin 5) (m url : Bytes) (e : Bytes) : Prop where
  url     : url = ascii "/whatsapp.php?phone=" ++ stored s (eeWapp1Num + snum * 0x80) ++
    ascii "&text=" ++ e ++ ascii "&apikey=" ++ stored s (eeWapp1Key + snum * 0x80)
  decoded : Percent.decode e = m
  escaped : Percent.Escaped Unreserved e

def Requested (s : Wapp.State) (snum : Fin 5) (m : Bytes) (accepted : Bool) : Prop :=
  ∃ s₁ ∈ Wapp.sendWhatsappMessage s snum m accepted, ∃ url e, s₁.url.text 0 = some url ∧
    Request s snum m url e

end Messages
