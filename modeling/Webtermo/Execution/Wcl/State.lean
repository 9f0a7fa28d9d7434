import Webtermo.Execution.Wapp.Step
import Webtermo.Execution.Wcl.Xml

open Define

-- The two clients of the SMS service, `ptWCL` for the messages and `ptWCLcredit` for the credit, with
-- the lwIP connections that they hold
namespace Wcl

inductive Client
  | wcl
  | credit
  deriving DecidableEq

-- The buffers that are passed to `tcp_write` without a copy
inductive Buf
  | wtxBuf
  | infobip
  | crBuf
  deriving DecidableEq

-- `WCL_WAITING`, `WCL_CONNECTED` and `WCL_ANSWER`
inductive GsmState
  | waiting
  | connected
  | answer
  deriving DecidableEq

-- Where a thread resumes. Only `ptWCL` sends a header before its body.
inductive Pt
  | start
  | yielded
  | connecting
  | headerSent
  | awaiting
  deriving DecidableEq

structure State where
  -- everything that the SMS texts are made of, with `infobip_poruka`, the flags `sms` and `wcl_active`
  dev          : Wapp.State
  creditActive : Bool
  xmlBuf       : CString xmlCap
  buf          : Buf → CString 1024
  infobiplen   : Nat
  -- `gsmState` and `gsmCreditState`
  gsm          : Client → GsmState
  -- `wcl_pcb` and `wcl_status_pcb`
  pcb          : Client → Option Nat
  pt           : Client → Pt
  -- Every pcb has a name of its own: the next one, and those that lwIP has not freed.
  next         : Nat
  live         : List Nat
  -- the writes without a copy that have not been acknowledged
  unacked      : List (Nat × Buf)

def State.init (env : Wapp.Env) : State where
  dev          := .init { env with infobip := ⟨Buffer.zero 160, fun _ => false, false⟩ }
  creditActive := false
  xmlBuf       := ⟨[], nil_lt_xmlCap⟩
  buf          := fun _ => ⟨[], by decide⟩
  infobiplen   := 0
  gsm          := fun _ => .waiting
  pcb          := fun _ => none
  pt           := fun _ => .start
  next         := 0
  live         := []
  unacked      := []

-- An EEPROM and sensors that are all zero
def blank : State :=
  .init ⟨fun _ => 0, Buffer.zero 1024, fun _ => 0, default, default, default, fun _ => 0, fun _ => 0,
    ⟨Buffer.zero 160, fun _ => false, false⟩⟩

-- The calls that the threads make on a pcb
inductive TcpCall
  | arg
  | sent
  | recv
  | write (b : Buf) (text : Bytes)
  | output
  | close
  deriving DecidableEq

inductive Obs
  -- `SendWApp` leaves flags for the delay that has run out, and `SendSMS` passes arguments.
  | alarm (slot : Wapp.Slot) (dev : Wapp.State) (wapp sms : Fin 5 → Bool)
  -- `send_infobip` has been called.
  | sms (args : Fin 5 → Bool)
  -- `TestWApp` is asked for one recipient, with the flags before and after.
  | testWApp (n : Fin 5) (before after : Fin 5 → Bool)
  -- `CrateInfobipXMLString` leaves a text in `XMLBuf`.
  | xml (c : Client) (dev : Wapp.State) (text : Bytes)
  -- A buffer has been written to.
  | rebuilt (b : Buf) (inFlight changed : Bool)
  -- what `tcp_new` returns
  | new (c : Client) (pcb : Option Nat)
  | call (c : Client) (f : TcpCall) (pcb : Option Nat)
  -- A thread ends.
  | ended (c : Client)
  -- lwIP frees a pcb.
  | freed (pcb : Nat)

-- What a resumption finds: whether its timer has expired, whether `tcp_new` has a pcb left, whether
-- `tcp_write` takes the data, and what is in `tbuf`
structure Answers where
  expired   : Bool
  allocated : Bool
  accepted  : Bool
  tbuf      : Bytes

namespace State

def goto (s : State) (c : Client) (pt : Pt) : State :=
  { s with pt := Function.update s.pt c pt }

@[simp] theorem goto_pt_self (s : State) : (s.goto c p).pt c = p := by
  simp [goto]

@[simp] theorem goto_pt_ne (s : State) (h : d ≠ c) : (s.goto c p).pt d = s.pt d := by
  simp [goto, h]

def setGsm (s : State) (c : Client) (gsm : GsmState) : State :=
  { s with gsm := Function.update s.gsm c gsm }

def active (s : State) : Client → Bool
  | .wcl    => s.dev.infobip.active
  | .credit => s.creditActive

def deactivate (s : State) : Client → State
  | .wcl    => { s with dev := { s.dev with infobip := { s.dev.infobip with active := false } } }
  | .credit => { s with creditActive := false }

-- Data of a buffer wait for their acknowledgement.
def inFlight (s : State) (b : Buf) : Bool :=
  s.unacked.any (·.2 = b)

def setBuf (s : State) (b : Buf) (text : CString 1024) : State × List Obs :=
  ({ s with buf := Function.update s.buf b text },
    [.rebuilt b (s.inFlight b) (s.buf b ≠ text)])

end State

-- `wcl__close` and `wcl_status_close`, after which the thread ends
def close (s : State) (c : Client) : State × List Obs :=
  ((s.deactivate c).goto c .start,
    [.call c .arg (s.pcb c), .call c .sent (s.pcb c), .call c .recv (s.pcb c),
      .call c .close (s.pcb c), .ended c])

-- From `tcp_new` to `tcp_connect`
def connect (s : State) (c : Client) (allocated : Bool) : State × List Obs :=
  let pcb := if allocated then some s.next else none
  let s := if allocated then { s with next := s.next + 1, live := s.next :: s.live } else s
  ({ s.setGsm c .waiting with pcb := Function.update s.pcb c pcb }.goto c .connecting, [.new c pcb])

-- `tcp_write` and `tcp_output`
def write (s : State) (c : Client) (b : Buf) (accepted : Bool) : State × List Obs :=
  let queued := match s.pcb c with
    | some pcb => if accepted && s.live.contains pcb then [(pcb, b)] else []
    | none     => []
  ({ s with unacked := s.unacked ++ queued },
    [.call c (.write b (s.buf b).bytes) (s.pcb c), .call c .output (s.pcb c)])

def crateInfobipXMLString (s : State) (c : Client) : Option (State × List Obs) := do
  let (dev, xmlBuf) ← addParts s.dev (← CString.strcpy []) (parts s.dev.infobip.gsmEnable)
  let infobip ← CString.strcpy (ascii "XML=")
  let infobip ← infobip.strcat (rfc1738Escape 1024 0 xmlBuf.bytes)
  let (s₁, o) := { s with dev, xmlBuf }.setBuf .infobip infobip
  some ({ s₁ with infobiplen := infobip.bytes.length }, .xml c s.dev xmlBuf.bytes :: o)

def postHeader (infobiplen : Nat) : List Bytes :=
  [ascii "POST /api/sendsms/xml HTTP/1.1\r\n", ascii "Host: api2.infobip.com\r\n",
    ascii "Accept: */*\r\n", ascii "Content-length: ", ascii (toString infobiplen), crlf,
    ascii "Content-Type: application/x-www-form-urlencoded\r\n", crlf]

-- The header is put together in `XMLBuf`.
def setHeader (s : State) : Option (State × List Obs) := do
  let xmlBuf ← (← CString.strcpy []).strcats (postHeader s.infobiplen)
  let wtxBuf ← CString.strcpy xmlBuf.bytes
  some <| { s with xmlBuf }.setBuf .wtxBuf wtxBuf

-- A thread from its wait for the answer on
def awaitAnswer (s : State) (c : Client) (expired : Bool) : State × List Obs :=
  if expired ∨ s.gsm c = .answer then close s c else (s, [])

def ptWCL (s : State) (a : Answers) : Option (State × List Obs) :=
  match s.pt .wcl with
  | .start      => some (s.goto .wcl .yielded, [])
  | .yielded    => do
    let (s₁, o₁) ← crateInfobipXMLString s .wcl
    let (s₂, o₂) ← setHeader s₁
    let (s₃, o₃) := connect s₂ .wcl a.allocated
    some (s₃, o₁ ++ o₂ ++ o₃)
  | .connecting =>
    if a.expired then
      some (close s .wcl)
    else if s.gsm .wcl = .connected then
      let (s₁, o) := write (s.setGsm .wcl .waiting) .wcl .wtxBuf a.accepted
      some (s₁.goto .wcl .headerSent, o)
    else
      some (s, [])
  | .headerSent =>
    if a.expired then
      let (s₁, o₁) := write s .wcl .infobip a.accepted
      let (s₂, o₂) := awaitAnswer (s₁.goto .wcl .awaiting) .wcl false
      some (s₂, o₁ ++ o₂)
    else
      some (s, [])
  | .awaiting   => some (awaitAnswer s .wcl a.expired)

-- The request for the credit, whose user name and password are read into `rBuf`
def setRequest (s : State) (tbuf : Bytes) : Option (State × List Obs) := do
  let xmlBuf ← s.xmlBuf.strcats (addTag (ascii "PASS") tbuf)
  let dev   ← Wapp.eeRead s.dev eeGsmUname 16
  let crBuf ← (← CString.strcpy (ascii "GET /api/command?username=")).strcat (← dev.rBuf.text 0)
  let crBuf ← crBuf.strcat (ascii "&password=")
  let dev   ← Wapp.eeRead dev eeGsmPass 16
  let crBuf ← crBuf.strcat (← dev.rBuf.text 0)
  let crBuf ← crBuf.strcats [ascii "&cmd=CREDITS HTTP/1.1\r\n", ascii "Host: api.infobip.com\r\n",
    ascii "Connection: keep-alive\r\n", ascii "Cache-Control: no-cache\r\n",
    ascii "User-Agent: Larus web server\r\n",
    ascii "Accept: text/html,application/xhtml+xml,application/xml;q=0.9,*/*;q=0.8\r\n",
    ascii "Accept-Encoding: gzip,deflate\r\n",
    ascii "Accept-Language: hr-HR,hr;q=0.8,en-US;q=0.6,en;q=0.4\r\n",
    ascii "Accept-Charset: windows-1250,utf-8;q=0.7,*;q=0.3\r\n", crlf]
  some <| { s with dev, xmlBuf }.setBuf .crBuf crBuf

-- `CrateInfobipXMLString(infobip)` is called here too, although its result is not sent.
def ptWCLcredit (s : State) (a : Answers) : Option (State × List Obs) :=
  match s.pt .credit with
  | .start      => some (s.goto .credit .yielded, [])
  | .yielded    => do
    let (s₁, o₁) ← crateInfobipXMLString s .credit
    let (s₂, o₂) ← setRequest s₁ a.tbuf
    let (s₃, o₃) := connect s₂ .credit a.allocated
    some (s₃, o₁ ++ o₂ ++ o₃)
  | .connecting =>
    if a.expired then
      some (close s .credit)
    else if s.gsm .credit = .connected then
      let (s₁, o) := write (s.setGsm .credit .waiting) .credit .crBuf a.accepted
      some (s₁.goto .credit .awaiting, o)
    else
      some (s, [])
  | _           => some (awaitAnswer s .credit a.expired)

def resume (s : State) (c : Client) (a : Answers) : Option (State × List Obs) :=
  if s.active c then
    match c with
    | .wcl    => ptWCL s a
    | .credit => ptWCLcredit s a
  else
    some (s, [])

-- The callbacks of a connection, which lwIP calls as long as the thread holds a pcb
def callback (s : State) (c : Client) (gsm : GsmState) : Option (State × List Obs) :=
  match s.pt c, s.pcb c with
  | .start, _ | .yielded, _ | _, none => none
  | _, some pcb                       => if pcb ∈ s.live then some (s.setGsm c gsm, []) else none

-- The oldest write of a connection is acknowledged.
def ack (s : State) (pcb : Nat) : State :=
  { s with unacked := s.unacked.eraseP (·.1 = pcb) }

def free (s : State) (pcb : Nat) : Option (State × List Obs) :=
  if pcb ∈ s.live then
    let s := { s with live := s.live.erase pcb, unacked := s.unacked.filter (·.1 ≠ pcb) }
    some (s, [.freed pcb])
  else
    none

namespace Sms

-- One turn of a loop of `ptAlarmDelay`
def slot (s : State) (slot : Wapp.Slot) : Option (State × List Obs) := do
  let (dev, _) ← slot.step s.dev
  let sms := Wapp.SendWApp.flags dev.rBuf 0
  let o := if (slot.turn s.dev).2 then [.alarm slot s.dev dev.wapp.enable sms, .sms sms] else []
  some ({ s with dev }, o)

-- The texts "SMS1 test poruka" to "SMS5 test poruka"
def testText (n : Fin 5) : Bytes :=
  ascii "SMS" ++ ('1'.toNat + n).toUInt8 :: ascii " test poruka"

def call (s : State) (poruka : Buffer 160) (args : Fin 5 → Bool) : State × List Obs :=
  ({ s with dev := Wapp.sendInfobip (s.dev.setPoruka poruka) args }, [.sms args])

-- `TestSms` for one of its five commands
def test (s : State) (n : Fin 5) : Option (State × List Obs) := do
  some <| call s (← s.dev.infobip.poruka.strcpy (testText n)) (· = n)

-- The line of a sensor in the status. Its name is taken from whatever is in `rBuf`.
def statusLine (dev : Wapp.State) (k : Fin 8) : Option Bytes := do
  let name ← (Buffer.zero 32).strcpy (← dev.rBuf.text 0x20)
  some <| (← name.text 0).take 8 ++ ascii " " ++ (← tempToAscii (dev.temp k)) ++ ascii " C\r\n"

def status (s : State) : Option (State × List Obs) := do
  let enabled := (List.finRange 8).filter fun k => (s.dev.senzor k).enble ≠ 0
  let poruka ← s.dev.infobip.poruka.strcpy []
  let poruka ← Wapp.strcats poruka (← enabled.mapM (statusLine s.dev))
  some <| call s poruka fun n => enabled ≠ [] ∧ s.dev.rBuf.get (0x63 + n) = 1

end Sms

inductive Event
  | slot (slot : Wapp.Slot)
  | testSms (n : Fin 5)
  | smsStatus
  | testWApp (n : Fin 5)
  -- `logger_alarm_poll`, and the callbacks of the HTTP client
  | poll (accepted : Bool)
  | receive (i : Nat)
  | result (i : Nat)
  | getCredit
  -- the two calls of `wcl_poll`
  | resume (c : Client) (a : Answers)
  | connected (c : Client)
  | answer (c : Client)
  | ack (pcb : Nat)
  | freed (pcb : Nat)
  -- A page is put together in `XMLBuf`.
  | page (doc : CString xmlCap)
  -- the sensors, the inputs and the save handlers
  | others (env : Wapp.Env)

def step (s : State) : Event → Option (State × List Obs)
  | .slot slot       => Sms.slot s slot
  | .testSms n       => Sms.test s n
  | .smsStatus       => Sms.status s
  | .testWApp n      => do
    let dev ← Wapp.testWApp s.dev n
    some ({ s with dev }, [.testWApp n s.dev.wapp.enable dev.wapp.enable])
  | .poll accepted   => do
    let (dev, _) ← Wapp.loggerAlarmPoll s.dev accepted
    some ({ s with dev }, [])
  | .receive i       => some ({ s with dev := Wapp.wappReceive s.dev i }, [])
  | .result i        => some ({ s with dev := Wapp.wappResult s.dev i }, [])
  | .getCredit       => some ({ s with creditActive := true }, [])
  | .resume c a      => resume s c a
  | .connected c     => callback s c .connected
  | .answer c        => callback s c .answer
  | .ack pcb         => some (ack s pcb, [])
  | .freed pcb       => free s pcb
  | .page doc        => some ({ s with xmlBuf := doc }, [])
  | .others env      =>
    let infobip := s.dev.infobip
    some ({ s with dev := { s.dev with toEnv := { env with infobip } } }, [])

def device : Machine State Event Obs where
  step := step

end Wcl
