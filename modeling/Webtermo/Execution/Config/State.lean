import Webtermo.Library.Run
import Webtermo.Library.Paged
import Webtermo.Objects.Define
import Webtermo.Objects.Parsers

namespace Config

-- The configuration variables of one byte: those of `senzor[k]`, of `dinput[i]` and of `sntp`
inductive Var8
  | lowLimit (k : Fin 8)
  | highLimit (k : Fin 8)
  | his (k : Fin 8)
  | enble (k : Fin 8)
  | kanal (k : Fin 8)
  | enable (i : Fin 3)
  | type (i : Fin 3)
  | dston
  | sntpon
  deriving DecidableEq

-- The configuration variables of two bytes
inductive Var16
  | delay (k : Fin 8)
  | inputDelay (i : Fin 3)
  | scansetup
  deriving DecidableEq

inductive Var
  | u8 (v : Var8)
  | u16 (v : Var16)
  | kalibracija (k : Fin 8)
  | code (k : Fin 8)
  deriving DecidableEq

-- The calibration is kept as the bit pattern of its `float`.
abbrev Var.Val : Var → Type
  | u8 _          => UInt8
  | u16 _         => UInt16
  | kalibracija _ => UInt32
  | code _        => Buffer 8

instance : {v : Var} → DecidableEq v.Val
  | .u8 _ | .u16 _ | .kalibracija _ | .code _ => inferInstance

structure Ram where
  vars     : (v : Var) → v.Val
  username : Buffer 25
  password : Buffer 25

def Ram.set (r : Ram) (v : Var) (x : v.Val) : Ram :=
  { r with vars := Function.update r.vars v x }

@[simp]
theorem Ram.set_self {r : Ram} {v : Var} {x : v.Val} : (r.set v x).vars v = x :=
  Function.update_self ..

theorem Ram.set_of_ne {r : Ram} {v w : Var} {x : w.Val} (h : v ≠ w) :
    (r.set w x).vars v = r.vars v :=
  Function.update_of_ne h ..

-- The flags of five recipients are read into locals of a handler before they are saved.
inductive Flags
  | wapp
  | sms
  deriving DecidableEq

structure State where
  eeprom : Memory
  ram    : Ram
  tb     : Tb
  pb     : Buffer 40
  rBuf   : Buffer 1024
  flags  : Flags → Fin 5 → UInt8

-- A call of `EEwrite`, `EEwrite_8`, `EEwrite_16` or `EEwrite_32`
structure Write where
  addr : Nat
  data : Bytes
  deriving DecidableEq

-- `EEwrite_16` and `EEwrite_32` send the highest byte first.
def bytes16 (x : UInt16) : Bytes :=
  [(x >>> 8).toUInt8, x.toUInt8]

def bytes32 (x : UInt32) : Bytes :=
  [(x >>> 24).toUInt8, (x >>> 16).toUInt8, (x >>> 8).toUInt8, x.toUInt8]

def Var.encode : (v : Var) → v.Val → Bytes
  | u8 _,          x => [x]
  | u16 _,         x => bytes16 x
  | kalibracija _, x => bytes32 x
  | code _,        x => x.bytes

-- What a handler does with one tag, in the order of its statements. The address is the one that is
-- written to, and a variable is set together with it.
inductive Cmd
  -- `rBuf[0] = 0xAA; rBuf[1] = 0x55`
  | mark
  -- `IPtoFile`, four bytes
  | ip (tag : Bytes) (addr : Nat)
  -- `IntToFile`, two bytes
  | int (tag : Bytes) (addr : Nat)
  | int16 (tag : Bytes) (addr : Nat) (v : Var16)
  -- `StringToFile` to `pb`, up to the NUL
  | string (tag : Bytes) (addr : Nat)
  -- the same with 32 bytes
  | naziv (tag : Bytes) (addr : Nat)
  -- `strcpy` to `pb`
  | number (tag : Bytes) (addr : Nat)
  -- `StringToFile` to `rBuf`, which is written in any case
  | text (tag : Bytes) (addr : Nat)
  -- `DS18B20CodeToArray`
  | code (tag : Bytes) (addr : Nat) (k : Fin 8)
  -- `getTemp`
  | temp (tag : Bytes) (addr : Nat) (v : Option Var8)
  -- `atof`
  | kalib (tag : Bytes) (addr : Nat) (k : Fin 8)
  -- `strcmp` with a text, and the bytes for equal and for different
  | switch (tag : Bytes) (addr : Nat) (on : Bytes) (yes no : UInt8) (v : Option Var8)
  -- `strcmp` with ON, for a local
  | flag (tag : Bytes) (f : Flags) (i : Fin 5)
  -- the locals are saved
  | flush (f : Flags) (addr : Nat)
  -- `atoi`
  | zona (tag : Bytes) (addr : Nat)
  -- `Base64Decode` of up to 30 bytes to `pb`
  | base64 (tag : Bytes) (addr : Nat)
  deriving DecidableEq

namespace Cmd

def tag : Cmd → Option Bytes
  | mark | flush .. => none
  | ip t _ | int t _ | int16 t _ _ | string t _ | naziv t _ | number t _ | text t _ | code t _ _
  | temp t _ _ | kalib t _ _ | switch t _ _ _ _ _ | flag t _ _ | zona t _ | base64 t _ => some t

def addr : Cmd → Option Nat
  | mark | flag .. => none
  | ip _ a | int _ a | int16 _ a _ | string _ a | naziv _ a | number _ a | text _ a | code _ a _
  | temp _ a _ | kalib _ a _ | switch _ a _ _ _ _ | flush _ a | zona _ a | base64 _ a => some a

def var : Cmd → Option Var
  | int16 _ _ v                          => some <| .u16 v
  | temp _ _ (some v)                    => some <| .u8 v
  | switch _ _ _ _ _ (some v)            => some <| .u8 v
  | kalib _ _ k                          => some <| .kalibracija k
  | code _ _ k                           => some <| .code k
  | _                                    => none

end Cmd

namespace State

def eeWrite (s : State) (addr : Nat) (data : Bytes) : State × List Write :=
  ({ s with eeprom := s.eeprom.writePage 64 addr data }, [⟨addr, data⟩])

-- A byte that may also be kept in a variable
def save8 (s : State) (addr : Nat) (v : Option Var8) (x : UInt8) : State × List Write :=
  match v with
  | none   => s.eeWrite addr [x]
  | some v => { s with ram := s.ram.set (.u8 v) x }.eeWrite addr [x]

def saveText (s : State) (addr : Nat) (buf : Buffer cap) : Option (State × List Write) := do
  let t ← buf.text 0
  some <| s.eeWrite addr (t ++ [0])

end State

-- `atof` is the conversion to the bit pattern of a `float`.
variable (atof : Bytes → UInt32)

-- A command after `XMLParser`, for a `varlen` that is not 0
def Cmd.parse (c : Cmd) (varlen : Nat) (s : State) : Option (State × List Write) :=
  match c with
  | .mark | .flush .. => some (s, [])
  | .ip _ addr => do
    let (octets, ok) ← ipToFile varlen s.tb
    let pb ← s.pb.write 0 octets
    let s := { s with pb }
    some <| if ok then s.eeWrite addr (pb.bytes.take 4) else (s, [])
  | .int _ addr => do
    match ← intToFile varlen s.tb with
    | none        => some (s, [])
    | some (a, b) =>
      let pb ← s.pb.write 0 [a, b]
      some <| { s with pb }.eeWrite addr [a, b]
  | .int16 _ addr v => do
    match ← intToFile varlen s.tb with
    | none        => some (s, [])
    | some (a, b) =>
      let pb ← s.pb.write 0 [a, b]
      let x := a.toUInt16 * 256 + b.toUInt16
      some <| { s with pb, ram := s.ram.set (.u16 v) x }.eeWrite addr (bytes16 x)
  | .string _ addr => do
    let (t, tb) ← stringToFile varlen s.tb
    let pb ← s.pb.strcpy t
    let s := { s with tb, pb }
    if t = [] then some (s, []) else s.saveText addr pb
  | .naziv _ addr => do
    let (t, tb) ← stringToFile varlen s.tb
    let pb ← s.pb.strcpy t
    let s := { s with tb, pb }
    some <| if t = [] then (s, []) else s.eeWrite addr (pb.bytes.take 32)
  | .number _ addr => do
    let t ← s.tb.text 0
    let pb ← (if t = [] then some s.pb else s.pb.strcpy t)
    { s with pb }.saveText addr pb
  | .text .. => do
    let (t, tb) ← stringToFile varlen s.tb
    let rBuf ← s.rBuf.strcpy t
    some ({ s with tb, rBuf }, [])
  | .code _ addr k => do
    let x ← ds18b20CodeToArray varlen s.tb (s.ram.vars (.code k))
    some <| { s with ram := s.ram.set (.code k) x }.eeWrite addr x.bytes
  | .temp _ addr v => do
    let (x, tb) ← getTemp varlen s.tb
    some <| { s with tb }.save8 addr v x
  | .kalib _ addr k =>
    let x := atof <| s.tb.bytes.takeWhile (· ≠ 0)
    some <| { s with ram := s.ram.set (.kalibracija k) x }.eeWrite addr (bytes32 x)
  | .switch _ addr on yes no v =>
    some <| s.save8 addr v (if s.tb.isText on then yes else no)
  | .flag _ f i =>
    let x := if s.tb.isText (ascii "ON") then 1 else 0
    some ({ s with flags := Function.update s.flags f (Function.update (s.flags f) i x) }, [])
  | .zona _ addr =>
    some <| s.eeWrite addr [(atoi s.tb.bytes % 256).toNat.toUInt8]
  | .base64 _ addr =>
    -- a text that fills `pb` ends the decoding, others are read up to their `varlen`
    if 130 < varlen ∧ (Base64.sextets s.tb.bytes).length ≤ 40 then none
    else do
      let pb ← s.pb.write 0 (base64Decode (s.tb.bytes.take varlen) 30)
      { s with pb }.saveText addr pb

-- The part of a command that does not depend on `varlen`
def Cmd.finish (c : Cmd) (s : State) : Option (State × List Write) :=
  match c with
  | .mark => do
    let rBuf ← s.rBuf.write 0 [0xAA, 0x55]
    some ({ s with rBuf }, [])
  | .text _ addr => s.saveText addr s.rBuf
  | .flush f addr => do
    let rBuf ← s.rBuf.write 0 (List.ofFn <| s.flags f)
    some <| { s with rBuf }.eeWrite addr (List.ofFn <| s.flags f)
  | _ => some (s, [])

def Cmd.receive (b : Body) (c : Cmd) (s : State) : Option (State × List Write) :=
  match c.tag with
  | none     => some (s, [])
  | some tag => do
    let (varlen, tb) ← xmlParser tag b s.tb
    if varlen = 0 then some ({ s with tb }, []) else c.parse atof varlen { s with tb }

def Cmd.exec (b : Body) (c : Cmd) (s : State) : Option (State × List Write) := do
  let (s, o)  ← c.receive atof b s
  let (s, o₁) ← c.finish s
  some (s, o ++ o₁)

def handler (b : Body) : Machine State Cmd Write where
  step s c := c.exec atof b s

end Config
