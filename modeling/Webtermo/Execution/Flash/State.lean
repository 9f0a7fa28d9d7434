import Webtermo.Library.Nor
import Webtermo.Library.Run

-- The flash chip behind littlefs, and the functions that send its commands
namespace Flash

def flashCmdRdsr : UInt8 := 0x05
def flashCmdWren : UInt8 := 0x06
def flashCmdPp   : UInt8 := 0x12
def flashCmdRead : UInt8 := 0x13
def flashCmdSe   : UInt8 := 0x21

def flashWipMask : UInt8 := 0x01

def lfsBlockSize : Nat := 4096
def lfsBlocksNum : Nat := 0x2000000 / 4096

structure Chip where
  mem : Memory
  wel : Bool
  wip : Bool

def address (a₃ a₂ a₁ a₀ : UInt8) : Nat :=
  a₃.toNat * 2 ^ 24 + a₂.toNat * 2 ^ 16 + a₁.toNat * 2 ^ 8 + a₀.toNat

def Chip.status (c : Chip) : UInt8 :=
  (if c.wip then 0x01 else 0) ||| (if c.wel then 0x02 else 0)

-- What the chip makes of the bytes that it gets while it is selected, with its answer. A command that
-- comes while an operation is in progress is ignored, and so is one that is not complete.
def Chip.select (c : Chip) (bytes : Bytes) : Chip × Bytes :=
  match bytes with
  | []            => (c, [])
  | op :: bytes =>
    if op = flashCmdRdsr then
      (c, bytes.map fun _ => c.status)
    else if c.wip then
      (c, [])
    else if op = flashCmdWren then
      ({ c with wel := true }, [])
    else
      match bytes with
      | a₃ :: a₂ :: a₁ :: a₀ :: d =>
        let a := address a₃ a₂ a₁ a₀
        if op = flashCmdRead then
          (c, c.mem.read a d.length)
        else if op = flashCmdPp ∧ c.wel ∧ d ≠ [] then
          ({ mem := Nor.programPage c.mem 256 a d, wel := false, wip := true }, [])
        else if op = flashCmdSe ∧ c.wel then
          ({ mem := Nor.erase c.mem 4096 (a / 4096), wel := false, wip := true }, [])
        else
          (c, [])
      | _ => (c, [])

-- The calls of littlefs
inductive Call
  | read (block off : UInt32) (size : Nat)
  | prog (block off : UInt32) (buffer : Bytes)
  | erase (block : UInt32)
  deriving DecidableEq

inductive Task
  -- the loop of `IsReady`
  | ready
  | command (bytes : Bytes)
  -- the command of a read, with the bytes that are sent to get its answer
  | read (bytes : Bytes)
  | done (data : Bytes)

structure State where
  chip : Chip
  call : Option Call
  todo : List Task

def State.init (mem : Memory) (wel : Bool) : State where
  chip := ⟨mem, wel, false⟩
  call := none
  todo := []

inductive Event
  | call (c : Call)
  -- the next step of the call that is going on
  | next
  -- The chip is done with a program or an erase.
  | finish

inductive Obs
  | select (bytes : Bytes) (wip : Bool)
  | returned (c : Call) (data : Bytes)
  deriving DecidableEq

def addressBytes (a : UInt32) : Bytes :=
  [(a >>> 24).toUInt8, (a >>> 16).toUInt8, (a >>> 8).toUInt8, a.toUInt8]

def cmdRead (flashAddress : UInt32) (byteLength : Nat) : List Task :=
  [.read <| flashCmdRead :: addressBytes flashAddress ++ List.replicate byteLength 0]

def cmdPp (flashAddress : UInt32) (source : Bytes) : List Task :=
  [.ready, .command [flashCmdWren], .command <| flashCmdPp :: addressBytes flashAddress ++ source,
    .ready, .done []]

def cmdSe (flashAddress : UInt32) : List Task :=
  [.ready, .command [flashCmdWren], .command <| flashCmdSe :: addressBytes flashAddress, .ready,
    .done []]

-- `block_device_read`, `block_device_prog` and `block_device_erase`
def Call.tasks : Call → List Task
  | read block off size   => cmdRead (block * lfsBlockSize.toUInt32 + off) size
  | prog block off buffer => cmdPp (block * lfsBlockSize.toUInt32 + off) buffer
  | erase block           => cmdSe (block * lfsBlockSize.toUInt32)

def next (s : State) : Task → State × List Obs
  | .ready =>
    let answer := (s.chip.select [flashCmdRdsr, 0]).2
    let busy := answer.getD 0 0 &&& flashWipMask = flashWipMask
    (if busy then { s with todo := .ready :: s.todo } else s,
      [.select [flashCmdRdsr, 0] s.chip.wip])
  | .command bytes =>
    ({ s with chip := (s.chip.select bytes).1 }, [.select bytes s.chip.wip])
  | .read bytes =>
    let (chip, answer) := s.chip.select bytes
    ({ s with chip, todo := .done answer :: s.todo }, [.select bytes s.chip.wip])
  | .done data =>
    ({ s with call := none }, s.call.toList.map (.returned · data))

def device : Machine State Event Obs where
  step s
    | .call c =>
      if s.call.isNone then some ({ s with call := c, todo := c.tasks }, []) else none
    | .next   =>
      match s.todo with
      | []           => none
      | task :: todo => some <| next { s with todo } task
    | .finish =>
      if s.chip.wip then some ({ s with chip := { s.chip with wip := false } }, []) else none

end Flash
