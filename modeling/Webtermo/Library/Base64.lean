import Webtermo.Library.Buffer

-- Base-64, with the characters of both of its alphabets
namespace Base64

-- The six bits that a character stands for
def sextet (c : UInt8) : Option UInt8 :=
  if 65 ≤ c ∧ c ≤ 90 then some (c - 65)
  else if 97 ≤ c ∧ c ≤ 122 then some (c - 97 + 26)
  else if 48 ≤ c ∧ c ≤ 57 then some (c - 48 + 52)
  else if c = 43 ∨ c = 45 then some 62
  else if c = 47 ∨ c = 95 then some 63
  else none

-- All other characters, the padding among them, are skipped.
def sextets (text : Bytes) : Bytes :=
  text.filterMap sextet

-- The bytes that the sextets make up completely
def decode : Bytes → Bytes
  | a :: b :: c :: d :: s => (a <<< 2 ||| b >>> 4) :: (b <<< 4 ||| c >>> 2) :: (c <<< 6 ||| d) :: decode s
  | [a, b, c] => [a <<< 2 ||| b >>> 4, b <<< 4 ||| c >>> 2]
  | [a, b]    => [a <<< 2 ||| b >>> 4]
  | _         => []

-- The first bits of the byte that the last sextets leave incomplete
def leftover : Bytes → Bytes
  | _ :: _ :: _ :: _ :: s => leftover s
  | [_, _, c] => [c <<< 6]
  | [_, b]    => [b <<< 4]
  | [a]       => [a <<< 2]
  | []        => []

theorem leftover_length_le : (leftover s).length ≤ 1 := by
  induction s using leftover.induct with
  | case1 _ _ _ _ s ih => exact ih
  | case2 => simp [leftover]
  | case3 => simp [leftover]
  | case4 => simp [leftover]
  | case5 => simp [leftover]

theorem sextets_cons_none (h : sextet c = none) : sextets (c :: s) = sextets s := by
  simp [sextets, h]

-- The character of the standard alphabet that stands for six bits
def char (x : UInt8) : UInt8 :=
  if x < 26 then x + 65
  else if x < 52 then x - 26 + 97
  else if x < 62 then x - 52 + 48
  else if x = 62 then 43
  else 47

def pad : UInt8 := 61

-- The bytes in groups of six bits, the last of which is filled up with zeros
def groups : Bytes → Bytes
  | a :: b :: c :: s =>
    a >>> 2 :: ((a &&& 3) <<< 4 ||| b >>> 4) :: ((b &&& 15) <<< 2 ||| c >>> 6) :: (c &&& 63) ::
      groups s
  | [a, b] => [a >>> 2, (a &&& 3) <<< 4 ||| b >>> 4, (b &&& 15) <<< 2]
  | [a]    => [a >>> 2, (a &&& 3) <<< 4]
  | []     => []

-- The padding makes the text a multiple of four characters.
def encode (s : Bytes) : Bytes :=
  (groups s).map char ++ List.replicate ((3 - s.length % 3) % 3) pad

theorem sextet_char : ∀ x, x < 64 → sextet (char x) = some x :=
  forall_byte <| by decide +kernel

theorem or_lt {x y : UInt8} (hx : x < 64) (hy : y < 64) : x ||| y < 64 :=
  Nat.or_lt_two_pow (n := 6) hx hy

-- How the groups share out the bits of a byte
structure Bits (x : UInt8) : Prop where
  lt     : x >>> 2 < 64 ∧ x >>> 4 < 64 ∧ x >>> 6 < 64 ∧ (x &&& 3) <<< 4 < 64 ∧ (x &&& 15) <<< 2 < 64 ∧
    x &&& 63 < 64
  toNat  : (x >>> 2).toNat = x.toNat / 4 ∧ (x >>> 4).toNat = x.toNat / 16 ∧
    (x >>> 6).toNat = x.toNat / 64 ∧ ((x &&& 3) <<< 4).toNat = x.toNat % 4 * 2 ^ 4 ∧
    ((x &&& 15) <<< 2).toNat = x.toNat % 16 * 2 ^ 2 ∧ (x &&& 63).toNat = x.toNat % 64
  first  : (x >>> 2) <<< 2 ||| ((x &&& 3) <<< 4) >>> 4 = x
  second : (x >>> 4) <<< 4 ||| ((x &&& 15) <<< 2) >>> 2 = x
  third  : (x >>> 6) <<< 6 ||| (x &&& 63) = x
  zero   : x >>> 4 >>> 4 = 0 ∧ x >>> 6 >>> 2 = 0 ∧ (x &&& 3) <<< 4 <<< 4 = 0 ∧
    (x &&& 15) <<< 2 <<< 6 = 0

instance : DecidablePred Bits :=
  fun _ => decidable_of_iff (_ ∧ _ ∧ _ ∧ _ ∧ _ ∧ _)
    ⟨fun ⟨h₁, h₂, h₃, h₄, h₅, h₆⟩ => ⟨h₁, h₂, h₃, h₄, h₅, h₆⟩,
      fun ⟨h₁, h₂, h₃, h₄, h₅, h₆⟩ => ⟨h₁, h₂, h₃, h₄, h₅, h₆⟩⟩

theorem bits : ∀ x, Bits x :=
  forall_byte <| by decide +kernel

theorem groups_lt : ∀ x ∈ groups s, x < 64 := by
  induction s using groups.induct with
  | case1 a b c s ih =>
    have ⟨ha₂, _, _, ha, _⟩ := (bits a).lt
    have ⟨_, hb₄, _, _, hb, _⟩ := (bits b).lt
    have ⟨_, _, hc₆, _, _, hc⟩ := (bits c).lt
    simp only [groups, List.forall_mem_cons]
    exact ⟨ha₂, or_lt ha hb₄, or_lt hb hc₆, hc, ih⟩
  | case2 a b =>
    have ⟨ha₂, _, _, ha, _⟩ := (bits a).lt
    have ⟨_, hb₄, _, _, hb, _⟩ := (bits b).lt
    simp only [groups, List.forall_mem_cons]
    exact ⟨ha₂, or_lt ha hb₄, hb, by simp⟩
  | case3 a =>
    have ⟨ha₂, _, _, ha, _⟩ := (bits a).lt
    simp only [groups, List.forall_mem_cons]
    exact ⟨ha₂, ha, by simp⟩
  | case4 => simp [groups]

theorem sextets_map_char (h : ∀ x ∈ s, x < 64) : sextets (s.map char) = s := by
  induction s with
  | nil => rfl
  | cons x s ih =>
    have ⟨hx, hs⟩ := List.forall_mem_cons.mp h
    have ih := ih hs
    simp only [sextets] at ih
    simp [sextets, sextet_char x hx, ih]

theorem sextets_encode : sextets (encode s) = groups s := by
  have hp {n : Nat} : sextets (List.replicate n pad) = [] := by
    simp [sextets, show sextet pad = none from rfl]
  have ha {a b : Bytes} : sextets (a ++ b) = sextets a ++ sextets b := List.filterMap_append
  rw [encode, ha, sextets_map_char groups_lt, hp, List.append_nil]

theorem groups_length : (groups s).length = s.length + (s.length + 2) / 3 := by
  induction s using groups.induct with
  | case1 a b c s ih =>
    simp only [groups, List.length_cons, ih]
    omega
  | case2 => simp [groups]
  | case3 => simp [groups]
  | case4 => rfl

theorem encode_length : (encode s).length = (s.length + 2) / 3 * 4 := by
  simp only [encode, List.length_append, List.length_map, List.length_replicate, groups_length]
  omega

theorem mem_encode (h : c ∈ encode s) : c = pad ∨ ∃ x < 64, c = char x := by
  obtain hg | hp := List.mem_append.mp h
  · have ⟨x, hx, hc⟩ := List.mem_map.mp hg
    exact .inr ⟨x, groups_lt x hx, hc.symm⟩
  · exact .inl (List.eq_of_mem_replicate hp)

theorem first_eq {a b : UInt8} : (a >>> 2) <<< 2 ||| ((a &&& 3) <<< 4 ||| b >>> 4) >>> 4 = a := by
  rw [UInt8.shiftRight_or, (bits b).zero.1, UInt8.or_zero, (bits a).first]

theorem second_eq {a b c : UInt8} :
    ((a &&& 3) <<< 4 ||| b >>> 4) <<< 4 ||| ((b &&& 15) <<< 2 ||| c >>> 6) >>> 2 = b := by
  rw [UInt8.shiftLeft_or, UInt8.shiftRight_or, (bits a).zero.2.2.1, (bits c).zero.2.1, UInt8.or_zero,
    UInt8.zero_or, (bits b).second]

theorem third_eq {b c : UInt8} : ((b &&& 15) <<< 2 ||| c >>> 6) <<< 6 ||| (c &&& 63) = c := by
  rw [UInt8.shiftLeft_or, (bits b).zero.2.2.2, UInt8.zero_or, (bits c).third]

theorem decode_groups : decode (groups s) = s := by
  induction s using groups.induct with
  | case1 a b c s ih => simp only [groups, decode, first_eq, second_eq, third_eq, ih]
  | case2 a b =>
    have hb := second_eq (a := a) (b := b) (c := 0)
    simp only [UInt8.zero_shiftRight, UInt8.or_zero] at hb
    simp only [groups, decode, first_eq, hb]
  | case3 a =>
    have ha := first_eq (a := a) (b := 0)
    simp only [UInt8.zero_shiftRight, UInt8.or_zero] at ha
    simp only [groups, decode, ha]
  | case4 => rfl

-- Bytes that do not fill their last group leave a byte of zeros behind.
theorem leftover_groups : leftover (groups s) = if 3 ∣ s.length then [] else [0] := by
  induction s using groups.induct with
  | case1 a b c s ih =>
    have hl : 3 ∣ (a :: b :: c :: s).length ↔ 3 ∣ s.length := by
      simp only [List.length_cons]
      omega
    simp only [groups, leftover, ih, hl]
  | case2 a b => simp [groups, leftover, (bits b).zero]
  | case3 a => simp [groups, leftover, (bits a).zero]
  | case4 => rfl

-- The definition of the encoding

def alphabet : Bytes :=
  ascii "ABCDEFGHIJKLMNOPQRSTUVWXYZabcdefghijklmnopqrstuvwxyz0123456789+/"

-- The character of the alphabet for six bits of a number, from the given one on
def letter (v i : Nat) : UInt8 :=
  alphabet.getD (v / 2 ^ i % 64) 0

-- The encoding with padding as it is defined: three bytes are a number of 24 bits, which is cut into
-- four characters, and missing bytes count as zeros.
def standard : Bytes → Bytes
  | a :: b :: c :: s =>
    let v := a.toNat * 2 ^ 16 + b.toNat * 2 ^ 8 + c.toNat
    letter v 18 :: letter v 12 :: letter v 6 :: letter v 0 :: standard s
  | [a, b] =>
    let v := a.toNat * 2 ^ 16 + b.toNat * 2 ^ 8
    [letter v 18, letter v 12, letter v 6, pad]
  | [a] =>
    let v := a.toNat * 2 ^ 16
    [letter v 18, letter v 12, pad, pad]
  | [] => []

theorem char_eq : ∀ x, x < 64 → char x = alphabet.getD x.toNat 0 :=
  forall_byte <| by decide +kernel

theorem letter_eq {x : UInt8} (h : v / 2 ^ i % 64 = x.toNat) : letter v i = char x := by
  have hx : x < 64 := UInt8.lt_iff_toNat_lt.mpr <| h ▸ Nat.mod_lt _ (by decide)
  rw [letter, h, char_eq x hx]

theorem toNat_merge {x y : UInt8} (i : Nat) (hx : x.toNat = n * 2 ^ i) (hy : y.toNat < 2 ^ i) :
    (x ||| y).toNat = n * 2 ^ i + y.toNat := by
  rw [UInt8.toNat_or, hx, ← Nat.shiftLeft_eq, Nat.shiftLeft_add_eq_or_of_lt hy]

theorem encode_cons : encode (a :: b :: c :: s) =
    char (a >>> 2) :: char ((a &&& 3) <<< 4 ||| b >>> 4) :: char ((b &&& 15) <<< 2 ||| c >>> 6) ::
      char (c &&& 63) :: encode s := by
  have hl : (a :: b :: c :: s).length % 3 = s.length % 3 := Nat.add_mod_right s.length 3
  rw [encode, hl]
  rfl

theorem standard_eq : standard s = encode s := by
  have second (a b : UInt8) : ((a &&& 3) <<< 4 ||| b >>> 4).toNat = a.toNat % 4 * 2 ^ 4 + b.toNat / 16 := by
    have ⟨_, hb, _⟩ := (bits b).toNat
    have ⟨_, _, _, ha, _⟩ := (bits a).toNat
    have := b.toNat_lt
    rw [toNat_merge 4 ha (by omega), hb]
  have third (b c : UInt8) : ((b &&& 15) <<< 2 ||| c >>> 6).toNat = b.toNat % 16 * 2 ^ 2 + c.toNat / 64 := by
    have ⟨_, _, hc, _⟩ := (bits c).toNat
    have ⟨_, _, _, _, hb, _⟩ := (bits b).toNat
    have := c.toNat_lt
    rw [toNat_merge 2 hb (by omega), hc]
  induction s using standard.induct with
  | case1 a b c s ih =>
    have ⟨ha, _⟩ := (bits a).toNat
    have ⟨_, _, _, _, _, hc⟩ := (bits c).toNat
    have := a.toNat_lt
    have := b.toNat_lt
    have := c.toNat_lt
    rw [standard, encode_cons, ih, letter_eq (x := a >>> 2), letter_eq (x := (a &&& 3) <<< 4 ||| b >>> 4),
      letter_eq (x := (b &&& 15) <<< 2 ||| c >>> 6), letter_eq (x := c &&& 63)]
    all_goals
      simp only [ha, second, third, hc]
      omega
  | case2 a b =>
    have ⟨ha, _⟩ := (bits a).toNat
    have ⟨_, _, _, _, hb, _⟩ := (bits b).toNat
    have := a.toNat_lt
    have := b.toNat_lt
    have he : encode [a, b] =
        [char (a >>> 2), char ((a &&& 3) <<< 4 ||| b >>> 4), char ((b &&& 15) <<< 2), pad] := rfl
    rw [standard, he, letter_eq (x := a >>> 2), letter_eq (x := (a &&& 3) <<< 4 ||| b >>> 4),
      letter_eq (x := (b &&& 15) <<< 2)]
    all_goals
      simp only [ha, second, hb]
      omega
  | case3 a =>
    have ⟨ha, _, _, ha₁, _⟩ := (bits a).toNat
    have := a.toNat_lt
    have he : encode [a] = [char (a >>> 2), char ((a &&& 3) <<< 4), pad, pad] := rfl
    rw [standard, he, letter_eq (x := a >>> 2), letter_eq (x := (a &&& 3) <<< 4)]
    all_goals
      simp only [ha, ha₁]
      omega
  | case4 => rfl

end Base64
