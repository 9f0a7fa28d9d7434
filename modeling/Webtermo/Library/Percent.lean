import Webtermo.Library.Buffer

-- Percent encoding: a byte stands for itself, or it is quoted by `%` and two digits.
namespace Percent

def isXDigit (c : UInt8) : Bool :=
  48 ≤ c ∧ c ≤ 57 ∨ 65 ≤ c ∧ c ≤ 70 ∨ 97 ≤ c ∧ c ≤ 102

def value (c : UInt8) : UInt8 :=
  if c ≤ 57 then c - 48 else if c ≤ 70 then c - 55 else c - 87

def code (hex : UInt8 → UInt8) (quoted : UInt8 → Bool) (c : UInt8) : Bytes :=
  if quoted c then [37, hex (c >>> 4), hex (c &&& 15)] else [c]

def encode (hex : UInt8 → UInt8) (quoted : UInt8 → Bool) (s : Bytes) : Bytes :=
  s.flatMap (code hex quoted)

-- A `%` that no two digits follow stands for itself.
def decode : Bytes → Bytes
  | []               => []
  | 37 :: a :: b :: l =>
    if isXDigit a ∧ isXDigit b then (value a <<< 4 ||| value b) :: decode l
    else 37 :: decode (a :: b :: l)
  | c :: l           => c :: decode l

-- A text of plain characters and of escapes
inductive Escaped (Plain : UInt8 → Prop) : Bytes → Prop
  | nil    : Escaped Plain []
  | plain  : Plain c → Escaped Plain e → Escaped Plain (c :: e)
  | escape : isXDigit a → isXDigit b → Escaped Plain e → Escaped Plain (37 :: a :: b :: e)

-- `hex` prints the digits of a byte.
structure Digits (hex : UInt8 → UInt8) : Prop where
  isXDigit_hi : ∀ c : UInt8, isXDigit (hex (c >>> 4))
  isXDigit_lo : ∀ c : UInt8, isXDigit (hex (c &&& 15))
  value_eq    : ∀ c : UInt8, value (hex (c >>> 4)) <<< 4 ||| value (hex (c &&& 15)) = c

variable {hex : UInt8 → UInt8} {quoted : UInt8 → Bool} {s l e : Bytes} {c : UInt8}

-- Two digits as a byte
theorem toNat_pair {x y : UInt8} (hx : x < 16) (hy : y < 16) :
    (x <<< 4 ||| y).toNat = 16 * x.toNat + y.toNat := by
  have hx : x.toNat < 16 := hx
  have hy : y.toNat < 2 ^ 4 := hy
  have hs : x.toNat <<< 4 = 16 * x.toNat := by rw [Nat.shiftLeft_eq, Nat.mul_comm]
  rw [UInt8.toNat_or, UInt8.toNat_shiftLeft]
  simp only [UInt8.reduceToNat, Nat.reduceMod]
  rw [Nat.mod_eq_of_lt (by omega), ← Nat.shiftLeft_add_eq_or_of_lt hy, hs]

theorem nibbles : ∀ c : UInt8, c >>> 4 < 16 ∧ c &&& 15 < 16 ∧ c >>> 4 <<< 4 ||| c &&& 15 = c :=
  forall_byte <| by decide +kernel

theorem forall_nibble {P : UInt8 → Prop} (h : ∀ x : Fin 16, P x.val.toUInt8) (c : UInt8) :
    P (c >>> 4) ∧ P (c &&& 15) := by
  have h (x : UInt8) (hx : x < 16) : P x := by simpa using h ⟨x.toNat, hx⟩
  obtain ⟨hi, lo, -⟩ := nibbles c
  exact ⟨h _ hi, h _ lo⟩

theorem Digits.of_nibbles
    (h : ∀ x : Fin 16, isXDigit (hex x.val.toUInt8) ∧ value (hex x.val.toUInt8) = x.val.toUInt8) :
    Digits hex := by
  have hx := forall_nibble (P := fun c => isXDigit (hex c) ∧ value (hex c) = c) h
  exact {
    isXDigit_hi := fun c => (hx c).1.1
    isXDigit_lo := fun c => (hx c).2.1
    value_eq    := fun c => by rw [(hx c).1.2, (hx c).2.2, (nibbles c).2.2]
  }

theorem decode_cons (h : c ≠ 37) : decode (c :: l) = c :: decode l := by
  rw [decode]
  exact fun _ _ _ h₁ => absurd h₁ h

theorem decode_escape (ha : isXDigit a) (hb : isXDigit b) :
    decode (37 :: a :: b :: l) = (value a <<< 4 ||| value b) :: decode l := by
  rw [decode, if_pos ⟨ha, hb⟩]

theorem decode_percent (h : ∀ a b r, l = a :: b :: r → ¬(isXDigit a ∧ isXDigit b)) :
    decode (37 :: l) = 37 :: decode l := by
  match l with
  | [] | [_]        => rfl
  | a :: b :: r => rw [decode, if_neg <| h a b r rfl]

theorem code_length : (code hex quoted c).length = if quoted c then 3 else 1 := by
  rw [code]
  split <;> rfl

theorem encode_cons : encode hex quoted (c :: s) = code hex quoted c ++ encode hex quoted s :=
  List.flatMap_cons

theorem encode_length : (encode hex quoted s).length = s.length + 2 * s.countP quoted := by
  induction s with
  | nil => rfl
  | cons c s ih =>
    rw [encode_cons, List.length_append, code_length, ih, List.length_cons, List.countP_cons]
    split <;> omega

theorem length_le_encode : s.length ≤ (encode hex quoted s).length :=
  encode_length ▸ Nat.le_add_right ..

-- An encoded byte is read back in front of whatever follows.
theorem decode_code (hx : Digits hex) (hq : quoted 37) :
    decode (code hex quoted c ++ l) = c :: decode l := by
  rw [code]
  split
  case isTrue =>
    simp only [List.cons_append, List.nil_append]
    rw [decode_escape (hx.isXDigit_hi c) (hx.isXDigit_lo c), hx.value_eq]
  case isFalse h =>
    exact decode_cons <| by rintro rfl; exact h hq

theorem decode_encode (hx : Digits hex) (hq : quoted 37) : decode (encode hex quoted s) = s := by
  induction s with
  | nil => rfl
  | cons c s ih => rw [encode_cons, decode_code hx hq, ih]

theorem escaped_encode {Plain : UInt8 → Prop} (hx : Digits hex)
    (hp : ∀ c ∈ s, quoted c = false → Plain c) : Escaped Plain (encode hex quoted s) := by
  induction s with
  | nil => exact .nil
  | cons c s ih =>
    have ih := ih fun c hc => hp c <| List.mem_cons_of_mem _ hc
    rw [encode_cons, code]
    split
    case isTrue => exact .escape (hx.isXDigit_hi c) (hx.isXDigit_lo c) ih
    case isFalse h => exact .plain (hp c List.mem_cons_self <| by simpa using h) ih

theorem Escaped.nul_not_mem {Plain : UInt8 → Prop} (h : Escaped Plain e) (hp : ¬Plain 0) : 0 ∉ e := by
  induction h with
  | nil => exact List.not_mem_nil
  | plain hc _ ih =>
    rw [List.mem_cons, not_or]
    exact ⟨by rintro rfl; exact hp hc, ih⟩
  | escape ha hb _ ih =>
    simp only [List.mem_cons, not_or]
    refine ⟨by decide, ?_, ?_, ih⟩
    · rintro rfl
      exact absurd ha <| by decide
    · rintro rfl
      exact absurd hb <| by decide

end Percent
