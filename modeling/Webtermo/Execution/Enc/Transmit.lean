import Webtermo.Execution.Enc.Registers
import Webtermo.Library.Paged

-- Sending a frame, with the controller at work in between the accesses of the driver. The registers
-- are reached as `Enc.bank_law` says.
namespace Enc.Transmit

def encTmpLen : Nat := 1600

def macon2Fuldpx : u16 := 0x0001

-- The accesses of `enc424j600PacketSend` and `enc424j600MACFlush`
inductive Task
  -- a byte into the window at EGPWRPT
  | byte (b : UInt8)
  | egpwrpt (address : Nat)
  | etxlen (len : Nat)
  -- the read of EIR
  | linkif
  -- the write that clears the flag in EIR, the read of MACON2, that of ESTAT and the writes after it
  | clear
  | macon2
  | phydpx (w : u16)
  | setMabbipg (data : u16)
  | setMacon2 (data : u16)
  -- the read of ESTAT
  | phylnk
  | txrts

structure State where
  ram     : Memory
  egpwrpt : Nat
  etxlen  : Nat
  -- While TXRTS is set, the bytes that the controller has sent of the frame
  sending : Option Bytes
  linkif  : Bool
  phylnk  : Bool
  phydpx  : Bool
  macon2  : u16
  mabbipg : u16
  -- `enc_buf`
  encBuf  : Buffer encTmpLen
  -- What is left of the call that is going on
  todo    : List Task

def State.txrts (s : State) : Bool :=
  s.sending.isSome

-- After `enc424j600Init`, with whatever the reset leaves in the other registers
def State.init (ram : Memory) (etxlen : Nat) (macon2 mabbipg : u16) : State where
  ram     := ram
  egpwrpt := 0
  etxlen  := etxlen
  sending := none
  linkif  := false
  phylnk  := false
  phydpx  := false
  macon2  := macon2
  mabbipg := mabbipg
  encBuf  := .zero encTmpLen
  todo    := []

inductive Event
  -- `low_level_output` for the payloads of a chain
  | output (chain : List Bytes)
  -- the next access of the call that is going on
  | next
  -- The controller sends the next byte of its frame, or is done with all of them, or gives it up.
  | send
  | done
  | abort
  | link (up duplex : Bool)

inductive Obs
  | output (frame : Bytes)
  -- the start of `enc424j600PacketSend`
  | packetSend (egpwrpt : Nat)
  | memory (address : Nat) (old new : UInt8) (txrts : Bool)
  | etxlen (old new : Nat) (txrts : Bool)
  | wire (frame : Bytes)
  deriving DecidableEq

-- The loop of `low_level_output`
def copy (b : Buffer encTmpLen) (l : Nat) : List Bytes → Option (Buffer encTmpLen)
  | []                => some b
  | payload :: chain => do
    let b ← b.write l payload
    copy b (l + payload.length) chain

def packetSend (packet : Bytes) : List Task :=
  packet.map .byte ++ [Task.egpwrpt txStart, .etxlen packet.length, .linkif]

def lowLevelOutput (s : State) (chain : List Bytes) : Option (State × List Obs) := do
  let totLen := (chain.map (·.length)).sum
  let encBuf ← copy s.encBuf 0 chain
  let packet ← encBuf.read 0 totLen
  some ({ s with encBuf, todo := packetSend packet }, [.output chain.flatten, .packetSend s.egpwrpt])

def next (s : State) : Task → State × List Obs
  | .byte b =>
    ({ s with ram := Function.update s.ram s.egpwrpt b, egpwrpt := (s.egpwrpt + 1) % ramSize },
      [.memory s.egpwrpt (s.ram s.egpwrpt) b s.txrts])
  | .egpwrpt address => ({ s with egpwrpt := address }, [])
  | .etxlen len      => ({ s with etxlen := len }, [.etxlen s.etxlen len s.txrts])
  | .linkif          => ({ s with todo := (if s.linkif then [.clear] else [.phylnk]) ++ s.todo }, [])
  | .clear           => ({ s with linkif := false, todo := .macon2 :: s.todo }, [])
  | .macon2          => ({ s with todo := .phydpx s.macon2 :: s.todo }, [])
  | .phydpx w        =>
    let tasks :=
      if s.phydpx then
        [.setMabbipg 0x15, .setMacon2 (w ||| macon2Fuldpx)]
      else
        [.setMabbipg 0x12, .setMacon2 (w &&& ~~~macon2Fuldpx)]
    ({ s with todo := tasks ++ s.todo }, [])
  | .setMabbipg data => ({ s with mabbipg := data }, [])
  | .setMacon2 data  => ({ s with macon2 := data, todo := .phylnk :: s.todo }, [])
  | .phylnk          => ({ s with todo := (if s.phylnk then [.txrts] else []) ++ s.todo }, [])
  -- The bit field set does nothing to a bit that is set.
  | .txrts           => ({ s with sending := some <| s.sending.getD [] }, [])

def device : Machine State Event Obs where
  step s
    | .output chain   => if s.todo.isEmpty then lowLevelOutput s chain else none
    | .next           =>
      match s.todo with
      | []           => none
      | task :: todo => some <| next { s with todo } task
    | .send           => do
      let sent ← s.sending
      if sent.length < s.etxlen then
        some ({ s with sending := some <| sent ++ [s.ram (txStart + sent.length)] }, [])
      else
        none
    | .done           => do
      let sent ← s.sending
      if sent.length < s.etxlen then none else some ({ s with sending := none }, [.wire sent])
    | .abort          => if s.txrts then some ({ s with sending := none }, []) else none
    | .link up duplex => some ({ s with linkif := true, phylnk := up, phydpx := duplex }, [])

end Enc.Transmit
