import Webtermo.Library.Run

-- The registers of the Ethernet controller, as the driver reaches them over SPI
namespace Enc

abbrev u08 := BitVec 8

abbrev u16 := BitVec 16

def txStart : Nat := 0x0000
def rxStart : Nat := 0x0600
def ramSize : Nat := 0x6000

def b0sel : u08 := 0xC0
def b1sel : u08 := 0xC2
def b2sel : u08 := 0xC4
def b3sel : u08 := 0xC6

def etxst    : u08 := 0x00
def erxst    : u08 := 0x04
def erxtail  : u08 := 0x06
def eudast   : u08 := 0x16
def eudand   : u08 := 0x18
def estat    : u08 := 0x1A
def econ1    : u08 := 0x1E
def miregadr : u08 := 0x54
def maadr3   : u08 := 0x60
def maadr2   : u08 := 0x62
def maadr1   : u08 := 0x64
def miwr     : u08 := 0x66
def mistat   : u08 := 0x6A
def econ2    : u08 := 0x6E

def econ1Rxen   : u16 := 0x0001
def econ2Ethrst : u16 := 0x0010
def mistatBusy  : u16 := 0x0001

-- `ESTAT_CLKRDY | ESTAT_RSTDONE | ESTAT_PHYRDY`
def estatReady : u16 := 0x1A00

-- What the chip is asked to do with a register
inductive Kind
  | rcr
  | wcr
  | bfs
  | bfc
  deriving DecidableEq

def Kind.op : Kind → u08
  | rcr => 0x00
  | wcr => 0x40
  | bfs => 0x80
  | bfc => 0xA0

-- A register of the chip
structure Reg where
  bank : u08
  arg  : u08
  deriving DecidableEq

-- The register at a place of a bank. Those from 0x16 on are visible in every bank.
def Reg.at (bank arg : u08) : Reg where
  bank := if 0x16 ≤ arg then 0 else bank
  arg  := arg

-- The register that an address of the driver stands for
def Reg.ofAddress (address : u08) : Reg :=
  .at (address &&& 0xE0) (address &&& 0x1F)

structure Access where
  kind    : Kind
  address : u08
  data    : u16

inductive Task
  -- `enc424j600ReadReg`, `enc424j600WriteReg`, `enc424j600BFSReg` and `enc424j600BFCReg`
  | access (a : Access)
  -- The loop that waits for the end of an access to the PHY
  | mistat
  -- The steps of `enc424j600SendSystemReset`
  | select
  | write
  | verify
  | reset
  | force
  | ready
  | check

structure State where
  currentBank : u08
  -- The bank that is selected in the chip, and the register that the driver checks its reset with
  bank        : u08
  eudast      : u16
  -- What is left of the call that is going on
  todo        : List Task

def State.start (currentBank bank : u08) (eudast : u16) : State where
  currentBank := currentBank
  bank        := bank
  eudast      := eudast
  todo        := []

-- What the chip contributes to an access: whether it has its effect on EUDAST or as a reset, and what
-- the other registers read as
structure Answer where
  works : Bool
  value : u16

inductive Event
  | access (a : Access)
  | sendSystemReset
  | init
  -- the next step of the call that is going on
  | next (a : Answer)

-- An access to the chip
structure Obs where
  kind     : Kind
  address  : u08
  -- What the chip has taken it for
  reached  : Option (Kind × Reg)
  -- `currentBank` is the bank of the chip, both when the call begins and at its access.
  coherent : Bool
  inReset  : Bool

-- An access that the chip sees in the first byte of an operation
def decode (op : u08) : Option (Kind × u08) :=
  if op &&& 0xE0 = Kind.rcr.op then some (.rcr, op &&& 0x1F)
  else if op &&& 0xE0 = Kind.wcr.op then some (.wcr, op &&& 0x1F)
  else if op &&& 0xE0 = Kind.bfs.op then some (.bfs, op &&& 0x1F)
  else if op &&& 0xE0 = Kind.bfc.op then some (.bfc, op &&& 0x1F)
  else none

def executeOp0 (s : State) (op : u08) : State :=
  if op = b0sel then { s with bank := 0x00 }
  else if op = b1sel then { s with bank := 0x20 }
  else if op = b2sel then { s with bank := 0x40 }
  else if op = b3sel then { s with bank := 0x60 }
  else s

-- What an access does to a register
def Kind.apply (old data : u16) : Kind → u16
  | rcr => old
  | wcr => data
  | bfs => old ||| data
  | bfc => old &&& ~~~data

def Access.resets (a : Access) : Prop :=
  Reg.ofAddress a.address = Reg.ofAddress Enc.econ2 ∧ (a.kind = .wcr ∨ a.kind = .bfs) ∧
    a.data &&& econ2Ethrst ≠ 0

instance {a : Access} : Decidable a.resets :=
  inferInstanceAs <| Decidable (_ ∧ _)

-- The effect of an access on a register of the chip
def effect (s : State) (kind : Kind) (reg : Reg) (data : u16) : State :=
  if reg = .ofAddress Enc.eudast then
    { s with eudast := kind.apply s.eudast data }
  else if reg = .ofAddress Enc.econ2 ∧ (kind = .wcr ∨ kind = .bfs) ∧ data &&& econ2Ethrst ≠ 0 then
    { s with bank := 0x00, eudast := 0 }
  else
    s

-- An access that has reached the chip, with the value that is read
def executeOp16 (s : State) (op : u08) (data : u16) (a : Answer) :
    State × Option (Kind × Reg) × u16 :=
  match decode op with
  | none             => (s, none, a.value)
  | some (kind, arg) =>
    let reg := Reg.at s.bank arg
    let value := if reg = .ofAddress Enc.eudast then s.eudast else a.value
    (if a.works then effect s kind reg data else s, some (kind, reg), value)

-- The head that the four functions have in common
def changeBank (s : State) (address : u08) : State :=
  let bank := address &&& 0xE0
  if bank = s.currentBank then
    s
  else
    let s :=
      if bank = 0x00 then executeOp0 s b0sel
      else if bank = 0x20 then executeOp0 s b1sel
      else if bank = 0x40 then executeOp0 s b2sel
      else if bank = 0x60 then executeOp0 s b3sel
      else s
    { s with currentBank := bank }

def access (s : State) (x : Access) (a : Answer) (inReset : Bool) : State × Obs × u16 :=
  let s₁ := changeBank s x.address
  let (s₂, reached, value) := executeOp16 s₁ (x.kind.op ||| (x.address &&& 0x1F)) x.data a
  (s₂, {
    kind     := x.kind
    address  := x.address
    reached  := reached
    coherent := s.currentBank = s.bank ∧ s₁.currentBank = s₁.bank
    inReset  := inReset
  }, value)

def sendSystemReset : List Task :=
  [.select, .write, .verify, .reset, .force, .ready, .check]

-- What `enc424j600Init` does after the reset
def initTasks : List Task := [
  .access ⟨.wcr, etxst, .ofNat _ txStart⟩,
  .access ⟨.wcr, erxst, .ofNat _ rxStart⟩,
  .access ⟨.wcr, erxtail, .ofNat _ (ramSize - 2)⟩,
  .access ⟨.wcr, Enc.eudast, .ofNat _ ramSize⟩,
  .access ⟨.wcr, eudand, .ofNat _ (ramSize + 1)⟩,
  .access ⟨.rcr, maadr1, 0⟩,
  .access ⟨.rcr, maadr2, 0⟩,
  .access ⟨.rcr, maadr3, 0⟩,
  -- `enc424j600WritePHYReg(PHANA, ...)`
  .access ⟨.wcr, miregadr, 0x0104⟩,
  .access ⟨.wcr, miwr, 0x05E1⟩,
  .mistat,
  .access ⟨.bfs, econ1, econ1Rxen⟩
]

-- The next step of the call that is going on
def next (s : State) (a : Answer) : Task → State × List Obs
  | .access x =>
    let (s, o, _) := access s x a false
    (s, [o])
  | .mistat =>
    let (s, o, value) := access s ⟨.rcr, Enc.mistat, 0⟩ a false
    (if value &&& mistatBusy ≠ 0 then { s with todo := .mistat :: s.todo } else s, [o])
  | .select => (executeOp0 s b0sel, [])
  | .write =>
    let (s, o, _) := access s ⟨.wcr, Enc.eudast, 0x1234⟩ a true
    (s, [o])
  | .verify =>
    let (s, o, value) := access s ⟨.rcr, Enc.eudast, 0⟩ a true
    (if value ≠ 0x1234 then { s with todo := .write :: .verify :: s.todo } else s, [o])
  | .reset =>
    let (s, o, _) := access s ⟨.bfs, econ2, econ2Ethrst⟩ a true
    (s, [o])
  | .force => ({ s with currentBank := 0 }, [])
  | .ready =>
    let (s, o, value) := access s ⟨.rcr, estat, 0⟩ a true
    (if value &&& estatReady ≠ estatReady then { s with todo := .ready :: s.todo } else s, [o])
  | .check =>
    let (s, o, value) := access s ⟨.rcr, Enc.eudast, 0⟩ a true
    (if value ≠ 0 then { s with todo := Enc.sendSystemReset ++ s.todo } else s, [o])

def bankDevice : Machine State Event Obs where
  step s
    | .access x         => if s.todo = [] then some ({ s with todo := [.access x] }, []) else none
    | .sendSystemReset => if s.todo = [] then some ({ s with todo := Enc.sendSystemReset }, []) else none
    | .init             =>
      if s.todo = [] then
        some ({ s with currentBank := 0, todo := Enc.sendSystemReset ++ initTasks }, [])
      else
        none
    | .next a           =>
      match s.todo with
      | []           => none
      | task :: todo => some (next { s with todo } a task)

end Enc
