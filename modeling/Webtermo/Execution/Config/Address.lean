import Webtermo.Library.Decimal
import Webtermo.Execution.Config.Boot

-- The addresses of the network settings as texts
namespace Address

-- The bytes of a word in memory, the lowest one first
def littleEndian (x : UInt32) : Bytes :=
  [x.toUInt8, (x >>> 8).toUInt8, (x >>> 16).toUInt8, (x >>> 24).toUInt8]

-- `sprintf` ends each number with a NUL, which the dot then takes the place of.
def longToIp.loop (buf : Buffer cap) (pos : Nat) (tlen : UInt8) :
    (pr : Bytes) → Option (Buffer cap × Nat × UInt8)
  | []      => some (buf, pos, tlen)
  | b :: pr => do
    let s := Decimal.print b
    let buf ← buf.write pos (s ++ [0])
    let buf ← buf.write (pos + s.length) [46]
    loop buf (pos + s.length + 1) (tlen + s.length.toUInt8 + 1) pr

-- The bytes of the address are turned round in place before they are printed.
def longToIp (buf : Buffer cap) (lAdr : UInt32) : Option (UInt8 × Buffer cap) := do
  let (buf, pos, tlen) ← longToIp.loop buf 0 0 (littleEndian lAdr).reverse
  let buf ← buf.write (pos - 1) [0]
  some (tlen - 1, buf)

end Address
