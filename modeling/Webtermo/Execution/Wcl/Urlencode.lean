import Webtermo.Library.Percent
import Webtermo.Execution.Wcl.State

-- `urlencode.c` on the arrays that it writes to
namespace Wcl

-- `rfc1738_escape` from the place `q` on, which stops at the place `last`. A character that is escaped
-- is printed with a NUL behind it.
def rfc1738EscapeIn.loop (last q : Nat) (mem : Buffer cap) : Bytes → Option (Buffer cap)
  | []     => mem.write q [0]
  | c :: p =>
    if q < last then
      if Rfc1738.doEscape c then do
        let mem ← mem.write q (ascii "%" ++ [Rfc1738.hex (c >>> 4), Rfc1738.hex (c &&& 15)] ++ [0])
        loop last (q + 2 + 1) mem p
      else do
        let mem ← mem.write q [c]
        loop last (q + 1) mem p
    else
      mem.write q [0]

-- `rfc1738_escape` into what lies at `escbuf` in an array
def rfc1738EscapeIn (mem : Buffer cap) (escbuf size : Nat) (url : Bytes) : Option (Buffer cap) :=
  rfc1738EscapeIn.loop (escbuf + size - 1) escbuf mem url

-- `s[i] = s[j]`, and what becomes of it if an escape starts there. The result is where `s` has been
-- read up to.
def rfc1738Unescape.turn (s : Buffer cap) (i j : Nat) (c : UInt8) : Option (Buffer cap × Nat) := do
  let s ← s.write i [c]
  if c ≠ 37 then some (s, j) else
  let a ← s.bytes[j + 1]?
  if a = 0 then some (s, j) else
  let b ← s.bytes[j + 2]?
  if b = 0 ∨ ¬Percent.isXDigit a ∨ ¬Percent.isXDigit b then some (s, j) else
  if a = 37 then some (← s.write i [37], j + 1) else
  some (← s.write i [Percent.value a <<< 4 ||| Percent.value b], j + 2)

-- `i` is written and `j` is read. Behind the array nothing can be read.
def rfc1738Unescape.loop (i j : Nat) (s : Buffer cap) : (fuel : Nat) → Option (Buffer cap)
  | 0        => none
  | fuel + 1 => do
    let c ← s.bytes[j]?
    if c = 0 then s.write i [0] else
    let (s, j) ← turn s i j c
    loop (i + 1) (j + 1) s fuel

def rfc1738Unescape (s : Buffer cap) : Option (Buffer cap) :=
  rfc1738Unescape.loop 0 0 s (cap + 1)

-- `CrateInfobipXMLString` with what `rfc1738_escape` writes to `&infobip[4]`
def crateInfobip (dev : Wapp.State) (infobip : Buffer 1024) : Option (Buffer 1024) := do
  let (_, xmlBuf) ← addParts dev (← CString.strcpy []) (parts dev.infobip.gsmEnable)
  let infobip ← infobip.strcpy (ascii "XML=")
  rfc1738EscapeIn infobip 4 1024 xmlBuf.bytes

end Wcl
