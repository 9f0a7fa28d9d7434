import Webtermo.Library.Buffer

-- The value of a finite single precision pattern; infinities and NaN have none.
def floatVal (p : UInt32) : Option ℚ :=
  let m := (p &&& 0x7FFFFF).toNat
  let e := ((p >>> 23) &&& 0xFF).toNat
  let abs : ℚ :=
    if e = 0 then mkRat m (2 ^ 149)
    else if e < 150 then mkRat (2 ^ 23 + m) (2 ^ (150 - e))
    else ((2 ^ 23 + m) * 2 ^ (e - 150) : Nat)
  if e = 255 then none
  else some (if p >>> 31 = 0 then abs else -abs)

-- `my_ftoa`, with the additions and multiplications of its `double` taken exactly.
namespace MyFtoa

def rounders : Nat → ℚ
  | 0     => mkRat 1 2
  | n + 1 => rounders n / 10

def digit (n : Nat) : UInt8 :=
  '0'.toNat.toUInt8 + (n % 10).toUInt8

-- The integer part is converted from its last digit on and then reversed.
def intPart : Nat → Nat → Bytes
  | 0,        _ => []
  | fuel + 1, n => if n = 0 then [] else intPart fuel (n / 10) ++ [digit n]

def decimals : Nat → ℚ → Bytes
  | 0,             _ => []
  | precision + 1, f =>
    let c := (f * 10).floor
    digit c.toNat :: decimals precision (f * 10 - c)

end MyFtoa

open MyFtoa in
def myFtoa (f : ℚ) (precision : Nat) : Bytes :=
  let sign := if f < 0 then ascii "-" else []
  let f    := (if f < 0 then -f else f) + (if precision = 0 then 0 else rounders precision)
  let i    := f.floor.toNat
  let int  := if i = 0 then ascii "0" else intPart i i
  sign ++ int ++ if precision = 0 then [] else ascii "." ++ decimals precision (f - i)

-- `temp_to_ascii` into a local `char ttoa[10]`
def tempToAscii (rtemp : ℚ) : Option Bytes := do
  let ttoa ← (Buffer.zero 10).strcpy (myFtoa rtemp 2)
  ttoa.text 0
