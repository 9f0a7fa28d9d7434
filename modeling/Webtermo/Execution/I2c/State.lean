import Webtermo.Library.Early

-- The 1-wire functions of `drajveri.c`, which talk to a DS2482 over I2C
namespace I2c

def icTimeoutMs : Nat := 50

def i2cTimeoutErr : UInt8 := 23

def delayCountNum : Nat := 500

def ds2482 : UInt8 := 0x30

def cmdDrst : UInt8 := 0xF0
def cmdWcfg : UInt8 := 0xD2
def cmd1wrs : UInt8 := 0xB4
def cmd1wrb : UInt8 := 0x96
def cmd1wwb : UInt8 := 0xA5
def cmdSrp  : UInt8 := 0xE1

def status1wb : UInt8 := 0x01

inductive Direction
  | transmitter
  | receiver
  deriving DecidableEq

-- What the functions have the I2C peripheral do
inductive Op
  | start
  | stop
  | address (adr : UInt8) (direction : Direction)
  | data (dta : UInt8)
  | ack (enable : Bool)
  | receive (dta : UInt8)
  deriving DecidableEq

-- What the peripheral and the slaves contribute
structure Env where
  -- The milliseconds from the beginning of a wait to the event, if it comes at all
  event : Nat → Option Nat
  data  : Nat → UInt8
  -- `adrs` in `DS2482_channel_select` before it is assigned
  adrs  : UInt8

structure State where
  i2cTimer : Nat
  i2cError : Bool
  dta      : UInt8
  -- The values of `I2CTimer` at which the waits began
  waits    : List Nat
  received : Nat
  log      : List Op

-- A call, whatever the calls before it have left
def State.init (i2cTimer : Nat) (i2cError : Bool) (dta : UInt8) : State where
  i2cTimer := i2cTimer
  i2cError := i2cError
  dta      := dta
  waits    := []
  received := 0
  log      := []

abbrev Program := EStateM UInt8 State

def op (x : Op) : Program Unit :=
  modify fun s => { s with log := s.log ++ [x] }

-- The loop that waits for an event, where `I2CTimer` is counted up by the interrupt once a
-- millisecond and looked at after the event. Its exit issues a STOP, or does not.
def await (env : Env) (stop : Bool) : Program Unit := do
  modify fun s => { s with i2cTimer := 1 }
  let s ← get
  modify fun s => { s with waits := s.waits ++ [s.i2cTimer] }
  match (env.event s.waits.length).filter (s.i2cTimer + · ≤ icTimeoutMs + 1) with
  | some ms => modify fun s => { s with i2cTimer := s.i2cTimer + ms }
  | none    =>
    if stop then op .stop
    modify fun s => { s with i2cTimer := 0 }
    throw i2cTimeoutErr

def generateStart (env : Env) : Program Unit := do
  op .start
  await env true

def send7bitAddress (env : Env) (adr : UInt8) (direction : Direction) : Program Unit := do
  op (.address adr direction)
  await env true

def sendData (env : Env) (dta : UInt8) : Program Unit := do
  op (.data dta)
  await env true

def receiveData (env : Env) : Program UInt8 := do
  let s ← get
  let dta := env.data s.received
  modify fun s => { s with received := s.received + 1, log := s.log ++ [Op.receive dta] }
  return dta

-- The loop over the status, where `delay_count` can still be counted up so many times without being
-- greater than `DELAY_COUNT_NUM`
def waitStatus (env : Env) : Nat → Program Unit
  | 0     => do
    await env true
    let status ← receiveData env
    modify fun s => { s with i2cError := true }
    throw status
  | n + 1 => do
    await env true
    let status ← receiveData env
    if status &&& status1wb ≠ 0 then waitStatus env n

def ds2482ChannelSelect (env : Env) (chnl : UInt8) : UInt8 :=
  let chnl :=
    if chnl = 1 then 4 else if chnl = 2 then 3 else if chnl = 3 then 2 else if chnl = 4 then 1 else chnl
  if chnl = 1 then ds2482
  else if chnl = 2 then ds2482 + 4
  else if chnl = 3 then ds2482 + 2
  else if chnl = 4 then ds2482 + 6
  else env.adrs

def owReset (env : Env) (channel : UInt8) : Program UInt8 := do
  let chipAdr := ds2482ChannelSelect env channel
  await env true
  generateStart env
  send7bitAddress env chipAdr .transmitter
  sendData env cmd1wrs
  generateStart env
  send7bitAddress env chipAdr .receiver
  op (.ack true)
  await env true
  let _ ← receiveData env
  waitStatus env delayCountNum
  await env true
  op (.ack false)
  let _ ← receiveData env
  op (.ack false)
  let _ ← receiveData env
  op .stop
  return 0

def owWriteByte (env : Env) (channel dta : UInt8) : Program UInt8 := do
  let chipAdr := ds2482ChannelSelect env channel
  await env false
  generateStart env
  send7bitAddress env chipAdr .transmitter
  sendData env cmd1wwb
  sendData env dta
  generateStart env
  send7bitAddress env chipAdr .receiver
  op (.ack true)
  await env true
  let _ ← receiveData env
  waitStatus env delayCountNum
  await env true
  op (.ack false)
  let _ ← receiveData env
  op .stop
  return 0

def owReadByte (env : Env) (channel : UInt8) : Program UInt8 := do
  let chipAdr := ds2482ChannelSelect env channel
  await env false
  generateStart env
  send7bitAddress env chipAdr .transmitter
  sendData env cmd1wrb
  generateStart env
  send7bitAddress env chipAdr .receiver
  op (.ack true)
  await env true
  let _ ← receiveData env
  waitStatus env delayCountNum
  await env true
  op (.ack false)
  let _ ← receiveData env
  await env true
  op (.ack true)
  generateStart env
  send7bitAddress env chipAdr .transmitter
  sendData env cmdSrp
  sendData env 0xE1
  generateStart env
  send7bitAddress env chipAdr .receiver
  op (.ack false)
  await env true
  let dta ← receiveData env
  modify fun s => { s with dta }
  op .stop
  return 0

def ds2482Reset (env : Env) (channel : UInt8) : Program UInt8 := do
  let chipAdr := ds2482ChannelSelect env channel
  await env false
  generateStart env
  send7bitAddress env chipAdr .transmitter
  sendData env cmdDrst
  generateStart env
  send7bitAddress env chipAdr .receiver
  op (.ack false)
  await env true
  let status ← receiveData env
  op .stop
  return if status &&& 0xF7 = 0x10 then 1 else 0

def ds2482Init (env : Env) (channel : UInt8) : Program UInt8 := do
  let chipAdr := ds2482ChannelSelect env channel
  await env false
  generateStart env
  send7bitAddress env chipAdr .transmitter
  sendData env cmdWcfg
  sendData env 0xA5
  generateStart env
  send7bitAddress env chipAdr .receiver
  op (.ack false)
  await env true
  let status ← receiveData env
  op .stop
  return if status &&& 0xF7 = 0x10 then 1 else 0

inductive Call
  | owReset (channel : UInt8)
  | owWriteByte (channel dta : UInt8)
  | owReadByte (channel : UInt8)
  | ds2482Reset (channel : UInt8)
  | ds2482Init (channel : UInt8)

def Call.program (env : Env) : Call → Program UInt8
  | owReset channel         => I2c.owReset env channel
  | owWriteByte channel dta => I2c.owWriteByte env channel dta
  | owReadByte channel      => I2c.owReadByte env channel
  | ds2482Reset channel     => I2c.ds2482Reset env channel
  | ds2482Init channel      => I2c.ds2482Init env channel

end I2c
