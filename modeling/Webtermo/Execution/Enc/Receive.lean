import Webtermo.Execution.Enc.Registers
import Webtermo.Library.Ring

-- Receiving frames from the ring of the controller. The memory of the ring begins at RXSTART.
namespace Enc.Receive

def ringSize : Nat := ramSize - rxStart

-- A frame with the part of its status vector that the driver does not look at
structure Frame where
  data  : Bytes
  flags : UInt8 × UInt8 × UInt8 × UInt8
  deriving DecidableEq

-- The bytes that it takes up, with the pointer, the status vector and up to the next even address
def Frame.room (f : Frame) : Nat :=
  (8 + f.data.length + 1) / 2 * 2

def le16 (n : Nat) : Bytes :=
  [UInt8.ofNat (n % 256), UInt8.ofNat (n / 256)]

def ofLe16 (b₀ b₁ : UInt8) : Nat :=
  b₁.toNat * 256 + b₀.toNat

def Frame.bytes (f : Frame) (next : Nat) : Bytes :=
  le16 next ++ le16 f.data.length ++ [f.flags.1, f.flags.2.1, f.flags.2.2.1, f.flags.2.2.2] ++ f.data

structure State where
  -- The controller: the ring, the address that the next frame goes to, and the frames that count as
  -- received
  ring              : Memory
  head              : Nat
  pktcnt            : Nat
  erxtail           : Nat
  erxrdpt           : Nat
  nextPacketPointer : Nat

-- After `enc424j600Init`
def State.init (ring : Memory) (erxrdpt : Nat) : State where
  ring              := ring
  head              := rxStart
  pktcnt            := 0
  erxtail           := ramSize - 2
  erxrdpt           := erxrdpt
  nextPacketPointer := rxStart

inductive Event
  | arrive (f : Frame)
  -- `enc424j600PacketReceive`
  | packetReceive (len : Nat)

inductive Obs
  -- The controller has stored a frame at an address.
  | stored (address : Nat) (f : Frame)
  -- the bytes of a frame that a call has delivered, with what it returns
  | received (len : Nat) (packet : Bytes) (returned : Nat)
  -- PKTIF is not set.
  | nothing

-- The address so many bytes further on in the ring
def advance (address n : Nat) : Nat :=
  rxStart + (address - rxStart + n) % ringSize

-- The controller stores a frame unless the ring up to ERXTAIL or its counter is full.
def arrive (s : State) (f : Frame) : State × List Obs :=
  let free := (s.erxtail + ringSize - s.head) % ringSize
  if f.room ≤ free ∧ s.pktcnt < 255 then
    let next := advance s.head f.room
    ({ s with
      ring   := Ring.write s.ring ringSize (s.head - rxStart) (f.bytes next)
      head   := next
      pktcnt := s.pktcnt + 1
    }, [.stored s.head f])
  else
    (s, [])

def readMemoryWindow (s : State) (length : Nat) : State × Bytes :=
  ({ s with erxrdpt := advance s.erxrdpt length },
    Ring.read s.ring ringSize (s.erxrdpt - rxStart) length)

def packetReceive (s : State) (len : Nat) : State × List Obs :=
  if s.pktcnt = 0 then
    (s, [.nothing])
  else
    let s := { s with erxrdpt := s.nextPacketPointer }
    let (s, next) := readMemoryWindow s 2
    let s := { s with nextPacketPointer := ofLe16 (next.getD 0 0) (next.getD 1 0) }
    let (s, statusVector) := readMemoryWindow s 6
    let reclen := ofLe16 (statusVector.getD 0 0) (statusVector.getD 1 0)
    let n := if reclen ≤ len then reclen else len
    let (s, packet) := readMemoryWindow s n
    let newRXTail := if s.nextPacketPointer = rxStart then ramSize - 2 else s.nextPacketPointer - 2
    ({ s with pktcnt := s.pktcnt - 1, erxtail := newRXTail }, [.received len packet n])

def device : Machine State Event Obs where
  step s
    | .arrive f          => some (arrive s f)
    | .packetReceive len => some (packetReceive s len)

end Enc.Receive
