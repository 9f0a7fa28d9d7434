import Webtermo.Execution.Config.Boot
import Webtermo.Objects.Eeprom

open Config (bytes16 bytes32)

-- The EEPROM on the I2C bus, and the functions of `24C128.c` that talk to it
namespace Bus

-- What the EEPROM expects next
inductive Mode
  | idle
  | started
  | addressHigh
  | addressLow (high : UInt8)
  -- the bytes of a write, which has its effect at the STOP
  | data (d : Bytes)
  | reading
  | released
  deriving DecidableEq

structure Chip where
  mem     : Memory
  pointer : Nat
  mode    : Mode
  -- how often the address will not be acknowledged, because a page is being written
  cycle   : Nat

namespace Chip

def start (c : Chip) : Chip :=
  { c with mode := .started }

-- The address of the EEPROM and the direction, with its acknowledgement
def select (c : Chip) (receiver : Bool) : Chip × Bool :=
  if c.mode = .started ∧ c.cycle = 0 then
    ({ c with mode := if receiver then .reading else .addressHigh }, true)
  else ({ c with mode := .released, cycle := c.cycle - 1 }, false)

-- A byte for the EEPROM, with its acknowledgement
def send (c : Chip) (b : UInt8) : Chip × Bool :=
  match c.mode with
  | .addressHigh  => ({ c with mode := .addressLow b }, true)
  | .addressLow a =>
    ({ c with mode := .data [], pointer := (a.toNat * 2 ^ 8 + b.toNat) % Eeprom.size }, true)
  | .data d       => ({ c with mode := .data (d ++ [b]) }, true)
  | .idle | .started | .reading | .released => (c, false)

def receive (c : Chip) (ack : Bool) : Option (Chip × UInt8) :=
  if c.mode = .reading then
    some ({ c with
      mode    := if ack then .reading else .released
      pointer := (c.pointer + 1) % Eeprom.size }, c.mem c.pointer)
  else none

-- A page is written from here on, if there are data for it.
def stop (c : Chip) (cycle : Nat) : Chip :=
  match c.mode with
  | .data (b :: d) =>
    { c with mem := c.mem.writePage Eeprom.page c.pointer (b :: d), mode := .idle, cycle }
  | _ => { c with mode := .idle }

end Chip

-- The loop of `EE_WaitEepromStandbyState`, for as many turns
def waitEepromStandbyState : (turns : Nat) → Chip → Option Chip
  | 0,         _ => none
  | turns + 1, c =>
    let (c, ack) := c.start.select false
    if ack then some (c.stop 0) else waitEepromStandbyState turns c

-- The wait for an event that does not come has no end.
def send7bitAddress (c : Chip) (receiver : Bool) : Option Chip :=
  let (c, ack) := c.select receiver
  if ack then some c else none

def sendData (c : Chip) (b : UInt8) : Option Chip :=
  let (c, ack) := c.send b
  if ack then some c else none

-- The head that the functions have in common
def location (turns : Nat) (c : Chip) (addr : UInt16) : Option Chip := do
  let c ← waitEepromStandbyState turns c
  let c ← send7bitAddress c.start false
  let c ← sendData c (addr >>> 8).toUInt8
  sendData c addr.toUInt8

-- The bytes that are acknowledged
def receiveData (c : Chip) : Nat → Option (Chip × Bytes)
  | 0     => some (c, [])
  | n + 1 => do
    let (c, b) ← c.receive true
    let (c, d) ← receiveData c n
    some (c, b :: d)

-- With a size of 0 the only byte would be written in front of the array.
def eeRead (turns : Nat) (c : Chip) (addr : UInt16) (size : Nat) : Option (Chip × Bytes) :=
  if size = 0 then none
  else do
    let c ← location turns c addr
    let c ← send7bitAddress c.start true
    let (c, d) ← receiveData c (size - 1)
    let (c, b) ← c.receive false
    some (c.stop 0, d ++ [b])

def eeRead8 (turns : Nat) (c : Chip) (addr : UInt16) : Option (Chip × UInt8) := do
  let (c, d) ← eeRead turns c addr 1
  some (c, d.getD 0 0)

def eeRead16 (turns : Nat) (c : Chip) (addr : UInt16) : Option (Chip × UInt16) := do
  let (c, d) ← eeRead turns c addr 2
  some (c, (d.getD 0 0).toUInt16 <<< 8 + (d.getD 1 0).toUInt16)

def eeRead32 (turns : Nat) (c : Chip) (addr : UInt16) : Option (Chip × UInt32) := do
  let (c, d) ← eeRead turns c addr 4
  let retdata := (d.getD 0 0).toUInt32 <<< 8
  let retdata := (retdata + (d.getD 1 0).toUInt32) <<< 8
  let retdata := (retdata + (d.getD 2 0).toUInt32) <<< 8
  some (c, retdata + (d.getD 3 0).toUInt32)

-- The write cycle keeps the EEPROM from answering as often as `cycle` says. The counter of the bytes has 16
-- bits, so that it never gets to a larger size.
def eeWrite (turns : Nat) (c : Chip) (addr : UInt16) (d : Bytes) (cycle : Nat) : Option Chip :=
  if 2 ^ 16 ≤ d.length then none
  else do
    let c ← location turns c addr
    let c ← d.foldlM sendData c
    some (c.stop cycle)

def eeWrite8 (turns : Nat) (c : Chip) (addr : UInt16) (evar : UInt8) (cycle : Nat) : Option Chip :=
  eeWrite turns c addr [evar] cycle

def eeWrite16 (turns : Nat) (c : Chip) (addr : UInt16) (evar : UInt16) (cycle : Nat) : Option Chip :=
  eeWrite turns c addr (bytes16 evar) cycle

def eeWrite32 (turns : Nat) (c : Chip) (addr : UInt16) (evar : UInt32) (cycle : Nat) : Option Chip :=
  eeWrite turns c addr (bytes32 evar) cycle

inductive Call
  | read (addr : UInt16) (size : Nat)
  | read8 (addr : UInt16)
  | read16 (addr : UInt16)
  | read32 (addr : UInt16)
  | write (addr : UInt16) (d : Bytes)
  | write8 (addr : UInt16) (evar : UInt8)
  | write16 (addr : UInt16) (evar : UInt16)
  | write32 (addr : UInt16) (evar : UInt32)

-- A call, and how often the EEPROM does not acknowledge its address after a write
structure Event where
  call  : Call
  cycle : Nat

inductive Obs
  | bytes (d : Bytes)
  | byte (x : UInt8)
  | half (x : UInt16)
  | word (x : UInt32)
  deriving DecidableEq

def step (turns : Nat) (c : Chip) (e : Event) : Option (Chip × List Obs) :=
  match e.call with
  | .read addr size => (eeRead turns c addr size).map fun (c, d) => (c, [.bytes d])
  | .read8 addr     => (eeRead8 turns c addr).map fun (c, x) => (c, [.byte x])
  | .read16 addr    => (eeRead16 turns c addr).map fun (c, x) => (c, [.half x])
  | .read32 addr    => (eeRead32 turns c addr).map fun (c, x) => (c, [.word x])
  | .write addr d   => (eeWrite turns c addr d e.cycle).map (·, [])
  | .write8 addr x  => (eeWrite8 turns c addr x e.cycle).map (·, [])
  | .write16 addr x => (eeWrite16 turns c addr x e.cycle).map (·, [])
  | .write32 addr x => (eeWrite32 turns c addr x e.cycle).map (·, [])

def driver (turns : Nat) : Machine Chip Event Obs where
  step := step turns

-- The memory that the functions stand for
def memory : Machine Memory Event Obs where
  step m e := match e.call with
    | .read addr size => some (m, [.bytes <| m.read addr.toNat size])
    | .read8 addr     => some (m, [.byte <| m addr.toNat])
    | .read16 addr    => some (m, [.half <| Config.eeRead16 m addr.toNat])
    | .read32 addr    => some (m, [.word <| Config.eeRead32 m addr.toNat])
    | .write addr d   => some (m.writePage Eeprom.page addr.toNat d, [])
    | .write8 addr x  => some (m.writePage Eeprom.page addr.toNat [x], [])
    | .write16 addr x => some (m.writePage Eeprom.page addr.toNat (bytes16 x), [])
    | .write32 addr x => some (m.writePage Eeprom.page addr.toNat (bytes32 x), [])

-- What is addressed lies in the EEPROM.
def Call.Fits : Call → Prop
  | read addr size => 0 < size ∧ addr.toNat + size ≤ Eeprom.size
  | read8 addr     => addr.toNat + 1 ≤ Eeprom.size
  | read16 addr    => addr.toNat + 2 ≤ Eeprom.size
  | read32 addr    => addr.toNat + 4 ≤ Eeprom.size
  | write addr d => addr.toNat < Eeprom.size ∧ d.length < 2 ^ 16
  | write8 addr _ | write16 addr _ | write32 addr _ => addr.toNat < Eeprom.size

end Bus
