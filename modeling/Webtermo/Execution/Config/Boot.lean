import Webtermo.Execution.Config.State

open Define

-- `InitParam` of `main.c`
namespace Config

def sensorBlock (k : Fin 8) : Nat :=
  0x100 * (k.val + 1)

-- Where the value of a variable is kept
def Var.home : Var → Nat
  | u8 (.lowLimit k)    => sensorBlock k + eeLowAlarm
  | u8 (.highLimit k)   => sensorBlock k + eeHighAlarm
  | u8 (.his k)         => sensorBlock k + eeHist
  | u8 (.enble k)       => sensorBlock k + eeSensorActive
  | u8 (.kanal k)       => sensorBlock k + eeChannel
  | u8 (.enable i)      => eeInputAlarm1 + i.val
  | u8 (.type i)        => eeInputTip1 + i.val
  | u8 .dston           => eeDstState
  | u8 .sntpon          => eeSntpState
  | u16 (.delay k)      => sensorBlock k + eeDelay
  | u16 (.inputDelay i) => eeInputDelay1 + 2 * i.val
  | u16 .scansetup      => eeScanTime
  | kalibracija k       => sensorBlock k + eeCalib
  | code k              => sensorBlock k + eeSensorCode

def eeRead16 (m : Memory) (addr : Nat) : UInt16 :=
  (m addr).toUInt16 <<< 8 + (m (addr + 1)).toUInt16

def eeRead32 (m : Memory) (addr : Nat) : UInt32 :=
  (((m addr).toUInt32 <<< 8 + (m (addr + 1)).toUInt32) <<< 8 + (m (addr + 2)).toUInt32) <<< 8 +
    (m (addr + 3)).toUInt32

def Var.load (m : Memory) : (v : Var) → v.Val
  | u8 v          => m (u8 v).home
  | u16 v         => eeRead16 m (u16 v).home
  | kalibracija k => eeRead32 m (kalibracija k).home
  | code k        => ⟨m.read (code k).home 8, Memory.read_length⟩

theorem bytes16_eq {x : UInt16} : (x >>> 8).toUInt8.toUInt16 <<< 8 + x.toUInt8.toUInt16 = x := by
  apply UInt16.toNat_inj.mp
  have := x.toNat_lt
  simp [Nat.shiftLeft_eq, Nat.shiftRight_eq_div_pow]
  omega

theorem bytes32_eq {x : UInt32} :
    (((x >>> 24).toUInt8.toUInt32 <<< 8 + (x >>> 16).toUInt8.toUInt32) <<< 8 +
      (x >>> 8).toUInt8.toUInt32) <<< 8 + x.toUInt8.toUInt32 = x := by
  apply UInt32.toNat_inj.mp
  have := x.toNat_lt
  simp [Nat.shiftLeft_eq, Nat.shiftRight_eq_div_pow]
  omega

-- The bytes of a value are loaded as that value.
theorem Var.load_eq {v : Var} {x : v.Val} (h : m.read v.home (v.encode x).length = v.encode x) :
    v.load m = x := by
  cases v with
  | u8 v =>
    have hx : m (u8 v).home = x := by simpa [encode, Memory.read] using h
    exact hx
  | u16 v =>
    obtain ⟨h₀, h₁⟩ : m (u16 v).home = (x >>> 8).toUInt8 ∧ m ((u16 v).home + 1) = x.toUInt8 := by
      simpa [encode, bytes16, Memory.read, List.range_succ] using h
    simp only [load, eeRead16, h₀, h₁]
    exact bytes16_eq
  | kalibracija k =>
    obtain ⟨h₀, h₁, h₂, h₃⟩ : m (kalibracija k).home = (x >>> 24).toUInt8 ∧
        m ((kalibracija k).home + 1) = (x >>> 16).toUInt8 ∧
        m ((kalibracija k).home + 2) = (x >>> 8).toUInt8 ∧
        m ((kalibracija k).home + 3) = x.toUInt8 := by
      simpa [encode, bytes32, Memory.read, List.range_succ] using h
    simp only [load, eeRead32, h₀, h₁, h₂, h₃]
    exact bytes32_eq
  | code k =>
    cases x with
    | mk bytes hl =>
      simp only [encode, hl] at h
      simp only [load, h]

theorem Var.encode_inj {v : Var} {x y : v.Val} (h : v.encode x = v.encode y) : x = y := by
  cases v with
  | u8 v => exact (List.cons.inj h).1
  | u16 v =>
    simp only [encode, bytes16, List.cons.injEq] at h
    rw [← bytes16_eq (x := x), h.1, h.2.1, bytes16_eq]
  | kalibracija k =>
    simp only [encode, bytes32, List.cons.injEq] at h
    rw [← bytes32_eq (x := x), h.1, h.2.1, h.2.2.1, h.2.2.2.1, bytes32_eq]
  | code k =>
    cases x
    cases y
    cases h
    rfl

-- What the branch for a new EEPROM does
inductive Default
  | byte (addr : Nat) (x : UInt8)
  | word (addr : Nat) (x : UInt16)
  | long (addr : Nat) (x : UInt32)
  -- `strcpy` to `rBuf`, of which `n` bytes are written
  | text (addr : Nat) (s : Bytes) (n : Nat)
  -- bytes of `rBuf` that are set one by one
  | bytes (addr : Nat) (d : Bytes)
  -- the user `s` with the password `s`
  | credentials
  -- `memset` of 256 bytes of `rBuf`, the settings in them, and the first 64 bytes written
  | sensor (addr : Nat)

-- The settings of a sensor in its block
def sensorDefaults : Bytes :=
  List.replicate eeLowAlarm 0 ++ [10, 40, 0, 1, 0, 1] ++ List.replicate 242 0

def Default.exec (s : State) : Default → Option (State × List Write)
  | byte addr x   => some <| s.eeWrite addr [x]
  | word addr x   => some <| s.eeWrite addr (bytes16 x)
  | long addr x   => some <| s.eeWrite addr (bytes32 x)
  | text addr t n => do
    let rBuf ← s.rBuf.strcpy t
    some <| { s with rBuf }.eeWrite addr (rBuf.bytes.take n)
  | bytes addr d  => do
    let rBuf ← s.rBuf.write 0 d
    some <| { s with rBuf }.eeWrite addr d
  | credentials   => do
    let username ← s.ram.username.strcpy (ascii "s")
    let password ← s.ram.password.strcpy (ascii "s")
    some ({ s with ram := { s.ram with username, password } }, [])
  | sensor addr   => do
    let rBuf ← s.rBuf.write 0 sensorDefaults
    some <| { s with rBuf }.eeWrite addr (sensorDefaults.take 64)

def initSensors : List Default :=
  (List.finRange 8).flatMap fun k => [
    .sensor (sensorBlock k),
    .text (sensorBlock k + eeSensorName) (ascii "Senzor" ++ [49 + k.val.toUInt8]) 32
  ]

def initSMS : List Default :=
  [
    .bytes eeGsmIp [193, 105, 74, 59, 0, 80],
    .text eeGsmUname (ascii "admin") 6,
    .text eeGsmPass (ascii "admin") 6
  ] ++
  (List.range 5).map (fun i => .text (eeGsm1Num + 0x20 * i) (ascii "0911234567") 11) ++
  (List.range 5).map (fun i => .text (eeGsm1Name + 0x20 * i) (ascii "ime " ++ [49 + i.toUInt8]) 6)

def initSNTP : List Default := [
  .text eeSntp1 (ascii "hr.pool.ntp.org") 16,
  .text eeSntp2 (ascii "at.pool.ntp.org") 16,
  .byte eeTimeZone 1,
  .byte eeSntpState 1,
  .byte eeDstActive 1
]

def defaults : List Default :=
  [
    .word eeInit 0x55AA,
    .long eeIp 0xC0A801C8,
    .long eeSubnet 0xFFFFFF00,
    .long eeGateway 0xC0A80101,
    .long eeDns 0x08080808,
    .word eeHttpPort 80,
    .byte eeDdnsState 0,
    .byte eeDhcpState 0,
    .text eeDdnsHost (ascii "myhostname.com") 32,
    .text eeObjectName (ascii "Larus Webtermo") 32,
    .text eePass (ascii "s") 16,
    .text eeUsername (ascii "s") 16,
    .credentials,
    .word eeScanTime 15
  ] ++ initSensors ++ initSMS ++ initSNTP

def boot : Machine State Default Write where
  step s d := d.exec s

-- The settings are read when the jumper is not set. The sensors are read through `rBuf`.
def loadParam (jumper : Bool) (s : State) : Option State := do
  let rBuf ← s.rBuf.write 0 (s.eeprom.read (sensorBlock 7) 0x30)
  let vars := fun v : Var => v.load s.eeprom
  if jumper then
    let username ← s.ram.username.strcpy (ascii "s")
    let password ← s.ram.password.strcpy (ascii "s")
    some { s with rBuf, ram := { vars, username, password } }
  else
    let password ← s.ram.password.write 0 (s.eeprom.read eePass 16)
    let username ← s.ram.username.write 0 (s.eeprom.read eeUsername 16)
    some { s with rBuf, ram := { vars, username, password } }

def initParam (jumper : Bool) (s : State) : Option State :=
  if eeRead16 s.eeprom eeInit = 0x55AA then loadParam jumper s
  else (boot.run s defaults).map (·.1)

-- Startup code clears all variables.
def State.reset (eeprom : Memory) : State where
  eeprom := eeprom
  ram    := {
    vars     := fun | .u8 _ | .u16 _ | .kalibracija _ => 0 | .code _ => .zero 8
    username := .zero 25
    password := .zero 25
  }
  tb     := .zero 130
  pb     := .zero 40
  rBuf   := .zero 1024
  flags  := fun _ _ => 0

end Config
