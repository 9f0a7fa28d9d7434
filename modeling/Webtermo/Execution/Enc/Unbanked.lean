import Webtermo.Execution.Enc.Registers

-- The registers from 0x80 on, which belong to no bank: an operation names them by their whole address.
namespace Enc

abbrev u32 := BitVec 32

-- `((u08*) & v)[x]`
def byte (v : BitVec w) (x : Nat) : u08 :=
  v.extractLsb' (8 * x) 8

def rcru : u08 := 0x20
def wcru : u08 := 0x22

-- The unbanked registers of the chip, and the bytes that it has been sent since `ENC_CS_LOW()`
structure Chip where
  reg     : u08 → u16
  session : List u08

-- A byte that is written to `SPDR`, and the one that is read from it then. What the chip sends when it
-- has nothing to answer is not known.
def Chip.exchange (idle : List u08 → u08) (c : Chip) (b : u08) : Chip × u08 :=
  let c₁ := { c with session := c.session ++ [b] }
  match c.session with
  | [op, address] =>
    let old := c.reg address
    if op = rcru then (c₁, byte old 0)
    else if op = wcru then
      ({ c₁ with reg := Function.update c.reg address (byte old 1 ++ b) }, idle c₁.session)
    else (c₁, idle c₁.session)
  | [op, address, _] =>
    let old := c.reg address
    if op = rcru then (c₁, byte old 1)
    else if op = wcru then
      ({ c₁ with reg := Function.update c.reg address (b ++ byte old 0) }, idle c₁.session)
    else (c₁, idle c₁.session)
  | _ => (c₁, idle c₁.session)

-- The state of the loop in `enc424j600ExecuteOp32`. The bytes of the stack are counted from `returnValue`
-- on, which is a `u16`, and so are the places that have been stored to.
structure Op32 where
  chip   : Chip
  stack  : Nat → u08
  stores : List Nat

def Op32.turn (idle : List u08 → u08) (data : u32) (s : Op32) (x : Nat) : Op32 :=
  let (chip, b) := s.chip.exchange idle (byte data x)
  { chip := chip, stack := Function.update s.stack x b, stores := s.stores ++ [x] }

def executeOp32 (idle : List u08 → u08) (c : Chip) (op : u08) (data : u32) (stack : Nat → u08) :
    Op32 × u32 :=
  let (c, _) := Chip.exchange idle { c with session := [] } op
  let s := (List.range 3).foldl (Op32.turn idle data) ⟨c, stack, []⟩
  (s, (s.stack 1 ++ s.stack 0).setWidth 32)

structure Driver where
  banked : State
  chip   : Chip

-- What a call finds and what it does not control: the answer of a banked register, and the stack
structure Call where
  answer : Answer
  stack  : Nat → u08

-- The bank that an address asks for, where those above 0x60 are no banks
def bankOf (address : u16) : u08 :=
  byte address 0 &&& 0xE0

-- The value that is returned, and the stores of `enc424j600ExecuteOp32`
def readReg (idle : List u08 → u08) (d : Driver) (address : u16) (x : Call) :
    Driver × u16 × List Nat :=
  if bankOf address ≤ 0x60 then
    let (s, _, value) := access d.banked ⟨.rcr, byte address 0, 0⟩ x.answer false
    ({ d with banked := s }, value, [])
  else
    let (s, returnValue32) := executeOp32 idle d.chip rcru (address.setWidth 32) x.stack
    ({ d with chip := s.chip }, byte returnValue32 2 ++ byte returnValue32 1, s.stores)

-- The highest byte of `data32` is not assigned.
def writeReg (idle : List u08 → u08) (d : Driver) (address data : u16) (x : Call) :
    Driver × List Nat :=
  if bankOf address ≤ 0x60 then
    let (s, _, _) := access d.banked ⟨.wcr, byte address 0, data⟩ x.answer false
    ({ d with banked := s }, [])
  else
    let data32 : u32 := x.stack 3 ++ byte data 1 ++ byte data 0 ++ byte address 0
    let (s, _) := executeOp32 idle d.chip wcru data32 x.stack
    ({ d with chip := s.chip }, s.stores)

inductive RegEvent
  | read (address : u16) (x : Call)
  | write (address data : u16) (x : Call)

inductive RegObs
  | read (value : u16) (stores : List Nat)
  | write (stores : List Nat)
  deriving DecidableEq

def regDevice (idle : List u08 → u08) : Machine Driver RegEvent RegObs where
  step d
    | .read address x       =>
      let (d, value, stores) := readReg idle d address x
      some (d, [.read value stores])
    | .write address data x =>
      let (d, stores) := writeReg idle d address data x
      some (d, [.write stores])

end Enc
