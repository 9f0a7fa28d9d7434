import Webtermo.Execution.Wapp.State

open Define

namespace Wapp

-- One turn of a loop of `ptAlarmDelay`: the word that it stores and whether the delay has run out.
def delayTurn (word : UInt32) (delay : UInt16) : UInt32 × Bool :=
  let delaytimer := if word ≠ 0 then word + 1 else word
  if delay.toUInt32 < delaytimer then (0, true) else (delaytimer, false)

inductive Slot
  | sen (cnt : Fin 8)
  | inp (cnt : Fin 3)
  deriving DecidableEq

namespace Slot

def turn (s : State) : Slot → UInt32 × Bool
  | sen cnt => delayTurn (s.delaySen cnt) (s.senzor cnt).delay
  | inp cnt => delayTurn (s.delayIn cnt) (s.dinput cnt).delay

def store (s : State) (word : UInt32) : Slot → State
  | sen cnt => { s with delaySen := Function.update s.delaySen cnt word }
  | inp cnt => { s with delayIn := Function.update s.delayIn cnt word }

def send (s : State) : Slot → Option (State × List Obs)
  | sen cnt => do
    let (s, o) ← sendWApp s cnt
    some (← sendSMS s cnt, o)
  | inp cnt => do
    let (s, o) ← sendWAppInput s cnt
    some (← sendSMSInput s cnt, o)

def step (s : State) (slot : Slot) : Option (State × List Obs) :=
  let (word, expired) := slot.turn s
  if expired then slot.send (slot.store s word) else some (slot.store s word, [])

end Slot

def delayLoop : Machine State Slot Obs where
  step := Slot.step

def slots : List Slot :=
  (List.finRange 8).map .sen ++ (List.finRange 3).map .inp

-- The pass of `ptAlarmDelay` once its timer of one second has expired
def ptAlarmDelay (s : State) : Option (State × List Obs) :=
  delayLoop.run s slots

namespace UrlEncode

def hex (n : UInt8) : UInt8 :=
  if n < 10 then '0'.toNat.toUInt8 + n else 'a'.toNat.toUInt8 + (n - 10)

def isAlnum (c : UInt8) : Bool :=
  (48 ≤ c && c ≤ 57) || (65 ≤ c && c ≤ 90) || (97 ≤ c && c ≤ 122)

def plain (c : UInt8) : Bool :=
  isAlnum c || (ascii "-_.~").contains c

end UrlEncode

open UrlEncode in
def urlEncode (str : Bytes) : Bytes :=
  str.flatMap fun c => if plain c then [c] else ascii "%" ++ [hex (c >>> 4), hex (c &&& 15)]

-- `wappNum` and `wappApiKey` have 34 bytes, of which only the first 32 are ever written.
def readKey (s : State) (addr : Nat) : Option Bytes := do
  let key ← (Buffer.zero 34).write 0 (s.eeprom.read addr 32)
  key.text 0

-- The `URL` that `send_whatsapp_message` prints
def callmebotUrl (s : State) (snum : Fin 5) (message : Bytes) : Option Bytes := do
  let num ← readKey s (eeWapp1Num + snum * 0x80)
  let key ← readKey s (eeWapp1Key + snum * 0x80)
  some <| ascii "/whatsapp.php?phone=" ++ num ++ ascii "&text=" ++ urlEncode message ++
    ascii "&apikey=" ++ key

-- `accepted` is the answer of `httpc_get_file_dns`. The code does not look at it.
def sendWhatsappMessage (s : State) (snum : Fin 5) (message : Bytes) (accepted : Bool) :
    Option State := do
  let text ← callmebotUrl s snum message
  let url  ← s.url.strcpy text
  let requests := if accepted then [⟨snum, text, false⟩] else []
  some { s with url, requests := s.requests ++ requests }

-- `ptWapp` suspended before the given recipients
def State.before (s : State) (rest : List (Fin 5)) : State :=
  { s with ptWapp := .wait rest }

def State.setBusy (s : State) : State :=
  { s with wAppStatus := .busy }

-- `ptWapp` from a `PT_WAIT_UNTIL` on, which suspends it as long as the channel is busy
def ptWappFrom (s : State) (accepted : Bool) : List (Fin 5) → Option (State × List Obs)
  | [] =>
    if s.wAppStatus = .busy then
      some (s.before [], [])
    else
      some ({ s with wAppflag := false, ptWapp := .start }, [.done])
  | n :: rest =>
    if s.wAppStatus = .busy then
      some (s.before (n :: rest), [])
    else if s.wapp.enable n then do
      let message ← s.wapp.msg.text 0
      let s₁ ← sendWhatsappMessage s.setBusy n message accepted
      let (s₂, o) ← ptWappFrom s₁ accepted rest
      some (s₂, .handed n message :: o)
    else
      ptWappFrom s accepted rest

def ptWapp (s : State) (accepted : Bool) : Option (State × List Obs) :=
  match s.ptWapp with
  | .start     => some ({ s with ptWapp := .yielded }, [])
  | .yielded   => ptWappFrom s accepted (List.finRange 5)
  | .wait rest => ptWappFrom s accepted rest

def loggerAlarmPoll (s : State) (accepted : Bool) : Option (State × List Obs) :=
  if s.wAppflag then ptWapp s accepted else some (s, [])

-- The client calls the receive callback for a part of the response to request `i`.
def wappReceive (s : State) (i : Nat) : State := { s with
  wAppStatus := .free
  requests   := s.requests.modify i ({ · with received := true })
}

-- The client calls the result callback and forgets the request. `wappResult` only prints.
def wappResult (s : State) (i : Nat) : State := { s with
  requests := s.requests.eraseIdx i
}

-- The texts "WAPP1 test poruka" to "WAPP5 test poruka"
def testText (n : Fin 5) : Bytes :=
  ascii "WAPP" ++ ('1'.toNat + n).toUInt8 :: ascii " test poruka"

-- `TestWApp` for one of its five commands
def testWApp (s : State) (n : Fin 5) : Option State := do
  let msg ← s.wapp.msg.strcpy (testText n)
  some { s with wAppflag := true, wapp := { msg, enable := Function.update s.wapp.enable n true } }

-- The steps of the main loop that concern the WhatsApp channel, in any order
inductive Event
  | alarmDelay
  | poll (accepted : Bool)
  | receive (i : Nat)
  | result (i : Nat)
  -- `ptReadTemp`, `ScanInputs`, the SMS client and the save handlers
  | others (env : Env)
  | testWApp (n : Fin 5)

def step (s : State) : Event → Option (State × List Obs)
  | .alarmDelay    => ptAlarmDelay s
  | .poll accepted => loggerAlarmPoll s accepted
  | .receive i     => if i < s.requests.length then some (wappReceive s i, []) else none
  | .result i      => if i < s.requests.length then some (wappResult s i, []) else none
  | .others env    => some ({ s with toEnv := env }, [])
  | .testWApp n    => (testWApp s n).map (·, [])

def device : Machine State Event Obs where
  step := step

end Wapp
