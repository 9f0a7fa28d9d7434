import Webtermo.Execution.Config.Boot
import Webtermo.Execution.Lfs.State
import Webtermo.Execution.Wcl.Xml
import Webtermo.Library.Xml
import Webtermo.Objects.Float
import Webtermo.Objects.Structures

open Define

-- The generators of `XMLTagovi.c` for the pages of the web server
namespace Pages

-- The arrays that texts are put together in
inductive Arr
  | tmpBuf
  | lstr
  | tbuf
  | rBuf
  | twiBuf
  deriving DecidableEq

def Arr.cap : Arr → Nat
  | tmpBuf | tbuf => 80
  | lstr          => 50
  | rBuf          => 1024
  | twiBuf        => 256

-- `sat`, `minuta`, `sekunda`, `datum`, `mjesec`, `godina` and `dan`
structure Clock where
  sat     : UInt8
  minuta  : UInt8
  sekunda : UInt8
  datum   : UInt8
  mjesec  : UInt8
  godina  : UInt8
  dan     : UInt8

-- What the generators read
structure Env where
  eeprom       : Memory
  senzor       : Fin 8 → Sensor
  temp         : Fin 8 → ℚ
  state        : Fin 8 → UInt8
  dinput       : Fin 3 → DInput
  -- `NV_DELAY_SEN1` and `NV_DELAY_IN1`, and the words that follow them
  delaySen     : Fin 8 → UInt32
  delayIn      : Fin 3 → UInt32
  macAddr      : Buffer 6
  -- the levels of the input pins
  pins         : Fin 3 → Bool
  credit       : Buffer 16
  status       : Buffer 32
  -- `wcl_credit_active`
  creditActive : Bool
  clock        : Clock
  totsect      : UInt32
  freesect     : UInt32

abbrev Arrays := (a : Arr) → Buffer a.cap

structure State extends Env where
  arr    : Arrays
  xmlBuf : CString Wcl.xmlCap
  xLen   : Nat

-- An entry that `lfs_dir_read` has filled in, and what is in `filetime` after `lfs_getattr`
structure Info where
  reg      : Bool
  name     : Bytes
  nul      : 0 ∉ name
  size     : UInt32
  filetime : Lfs.FileTime

-- A directory as `lfs_dir_read` lists it: with a positive result for each entry, and then with 0 at
-- its end or with an error
structure Listing where
  entries : List Info
  res     : Int
  last    : res ≤ 0

-- What a generator finds out from the RTC, from the bus and from littlefs, and the value that `cnt`
-- happens to have in `XMLOnline`
structure Answers where
  clock      : Clock
  code       : Buffer 8
  blockCount : UInt32
  usedBlocks : UInt32
  listing    : Listing
  cnt        : UInt8

def Answers.total (ans : Answers) : UInt32 :=
  ans.blockCount * 4096

def Answers.free (ans : Answers) : UInt32 :=
  ans.total - ans.usedBlocks * 4096

namespace Arrays

def set (arr : Arrays) (a : Arr) (b : Buffer a.cap) : Arrays :=
  Function.update arr a b

-- `EEread` into the head of an array
def eeRead (arr : Arrays) (m : Memory) (a : Arr) (addr n : Nat) : Option Arrays :=
  ((arr a).write 0 (m.read addr n)).map (arr.set a)

end Arrays

-- `%d` for a number that is not negative
def dec (n : Nat) : Bytes :=
  (Nat.toDigits 10 n).map (·.toNat.toUInt8)

def decInt (n : Int) : Bytes :=
  if n < 0 then 45 :: dec n.natAbs else dec n.natAbs

-- The text of `AddTempTag`, which is a `signed char` all the time
def tempText (xval : Int8) : Bytes :=
  if xval < 0 then 45 :: decInt (-1 - xval + 1).toInt else decInt xval.toInt

def hexDigit (n : UInt8) : UInt8 :=
  if n < 10 then n + 48 else n + 55

def hextoascii (c : UInt8) : Bytes :=
  [hexDigit (c >>> 4), hexDigit (c &&& 15)]

-- `%X`
def hex (c : UInt8) : Bytes :=
  if c < 16 then [hexDigit c] else hextoascii c

-- An integer part that is too large for a `long` has no defined value.
def ftoa (f : ℚ) (precision : Nat) : Option Bytes :=
  let rounder := if precision = 0 then 0 else MyFtoa.rounders precision
  if (if f < 0 then -f else f) + rounder < 2 ^ 31 then some (myFtoa f precision) else none

-- Hours, minutes and seconds until an alarm, which are 16-bit variables
def delay (limit : UInt16) (delaytimer : UInt32) : UInt16 × UInt16 × UInt16 :=
  if delaytimer = 0 then (0, 0, 0) else
    let delaysec := limit.toUInt32 - delaytimer
    let delayhh  := (delaysec / 3600).toUInt16
    let delaymm  := ((delaysec - delayhh.toUInt32 * 3600) / 60).toUInt16
    let delayss  := (delaysec - delayhh.toUInt32 * 3600 - delaymm.toUInt32 * 60).toUInt16
    (delayhh, delaymm, delayss)

-- What a generator prints: one of some constants, numbers with a constant after each of them, or a
-- value in one of the other formats
inductive Value
  | oneOf (texts : List Bytes) (i : Env → Answers → Nat)
  | number (n : Env → Answers → UInt32)
  | fields (l : List ((Env → Answers → UInt16) × Bytes))
  | temp (t : Env → Answers → Int8)
  | ftoa (f : Env → Answers → Option ℚ) (precision : Nat)
  | code (c : Env → Answers → Buffer 8)
  | mac

def Value.print (env : Env) (ans : Answers) : Value → Option Bytes
  | oneOf texts i    => some <| texts.getD (i env ans) []
  | number n         => some <| decInt (n env ans).toInt32.toInt
  | fields l         => some <| l.flatMap fun f => dec (f.1 env ans).toNat ++ f.2
  | temp t           => some <| tempText (t env ans)
  | ftoa f precision => do Pages.ftoa (← f env ans) precision
  | code c           => some <| (c env ans).bytes.flatMap hextoascii
  | mac              => some (env.macAddr.bytes.flatMap fun v => hex v ++ [58]).dropLast

-- What a generator does at a time
inductive Part
  | openTag (tag : Bytes)
  | closeTag (tag : Bytes)
  -- `AddTag` with a constant, `AddNumTag` or `AddTempTag`
  | value (tag : Bytes) (v : Value)
  -- `AddTag` with what has been printed into an array
  | printed (tag : Bytes) (a : Arr) (v : Value)
  -- `AddTag` with what `EEread` has read into an array
  | stored (tag : Bytes) (a : Arr) (addr n : Nat)
  | eeRead (a : Arr) (addr : Env → Answers → Nat) (n : Nat)
  | clear (a : Arr) (n : Nat)
  -- `AddTag` with `infobip_credit`, with `infobip_status`, and with the name of an entry
  | credit (tag : Bytes)
  | status (tag : Bytes)
  | name (tag name : Bytes)

open Xml (Piece)

-- What `OpenTag`, `CloseTag` and `AddTag` append to `XMLBuf`
def strings : Piece → List Bytes
  | .opening tag      => Wcl.openTag tag
  | .closing tag      => Wcl.closeTag tag
  | .element tag text => Wcl.addTag tag text

-- The arrays after a part, and the call of one of these functions in it
def Part.call (env : Env) (ans : Answers) (arr : Arrays) : Part → Option (Arrays × List Piece)
  | openTag tag         => some (arr, [.opening tag])
  | closeTag tag        => some (arr, [.closing tag])
  | value tag v         => do some (arr, [.element tag (← v.print env ans)])
  | printed tag a v     => do
    let b ← (arr a).strcpy (← v.print env ans)
    some (arr.set a b, [.element tag (← b.text 0)])
  | stored tag a addr n => do
    let arr ← arr.eeRead env.eeprom a addr n
    some (arr, [.element tag (← (arr a).text 0)])
  | eeRead a addr n     => do some (← arr.eeRead env.eeprom a (addr env ans) n, [])
  | clear a n           => do
    let b ← (arr a).write 0 (List.replicate n 0)
    some (arr.set a b, [])
  | credit tag          => do some (arr, [.element tag (← env.credit.text 0)])
  | status tag          => do some (arr, [.element tag (← env.status.text 0)])
  | name tag n          => some (arr, [.element tag n])

def Part.add (s : State) (ans : Answers) (p : Part) : Option (State × List Piece) := do
  let (arr, qs) ← p.call s.toEnv ans s.arr
  let xmlBuf    ← s.xmlBuf.strcats (qs.flatMap strings)
  some ({ s with arr, xmlBuf }, qs)

def addParts (s : State) (ans : Answers) : List Part → Option (State × List Piece)
  | []      => some (s, [])
  | p :: ps => do
    let (s, qs) ← p.add s ans
    let (s, rs) ← addParts s ans ps
    some (s, qs ++ rs)

end Pages
