import Webtermo.Objects.Ftoa

-- The texts of temperatures, which are kept in arrays of ten characters
namespace Temperature

open Ftoa

theorem convert_length_le_iff (h : n ≤ fuel) : (convert fuel n).length ≤ k ↔ n < 10 ^ k := by
  induction fuel generalizing n k with
  | zero => simp [convert, Nat.le_zero.mp h]
  | succ fuel ih =>
    by_cases hn : n = 0
    case pos => simp [hn, convert]
    case neg =>
      rw [convert_succ hn, List.length_cons]
      cases k with
      | zero => simp [hn]
      | succ k =>
        rw [Nat.succ_le_succ_iff, ih (by omega), pow_succ]
        omega

theorem integer_length_le_iff : (integer n).length ≤ k + 1 ↔ n < 10 ^ (k + 1) := by
  rw [integer]
  split
  case isTrue h =>
    have : (ascii "0").length = 1 := by decide +kernel
    simp [h, this]
  case isFalse => rw [List.length_reverse, convert_length_le_iff (Nat.le_refl n)]

def signLength (t : ℚ) : Nat :=
  if t < 0 then 1 else 0

-- The decimals and their point take three characters.
theorem myFtoa_length (t : ℚ) : (myFtoa t 2).length =
    signLength t + ((integer ⌊|t| + rounder 2⌋.toNat).length + 3) := by
  have hg : 0 ≤ |t| + rounder 2 := add_nonneg (abs_nonneg t) rounder_bounds.1
  have hl := (fraction_spec 2 (Int.fract_nonneg (|t| + rounder 2)) (Int.fract_lt_one _)).2.1
  have hs : (sign t).length = signLength t := by
    rw [sign, signLength]
    split
    case isTrue => decide +kernel
    case isFalse => rfl
  have hd : (ascii ".").length = 1 := by decide +kernel
  have hn : fraction 2 (Int.fract (|t| + rounder 2)) ≠ [] := by
    intro h
    rw [h] at hl
    contradiction
  rw [myFtoa_eq, text, if_neg hn]
  simp only [List.length_append, hs, hd, hl]

-- What a `ttoa[10]` has room for
def Fits (t : ℚ) : Prop :=
  -99999995 < 1000 * t ∧ 1000 * t < 999999995

instance : DecidablePred Fits :=
  fun _ => inferInstanceAs <| Decidable (_ ∧ _)

theorem fits_iff (t : ℚ) : (myFtoa t 2).length < 10 ↔ Fits t := by
  have hr : rounder 2 = 5 / 1000 := by norm_num [rounder, rounders_eq]
  have hg : 0 ≤ |t| + rounder 2 := add_nonneg (abs_nonneg t) rounder_bounds.1
  have floor_lt {n : Nat} : ⌊|t| + rounder 2⌋.toNat < n ↔ |t| + rounder 2 < n := by
    have := Int.floor_nonneg.mpr hg
    have : ⌊|t| + rounder 2⌋.toNat < n ↔ ⌊|t| + rounder 2⌋ < n := by omega
    rw [this, Int.floor_lt]
    rfl
  rw [myFtoa_length, signLength, Fits]
  by_cases h : t < 0
  case pos =>
    have hl : 1 + ((integer ⌊|t| + rounder 2⌋.toNat).length + 3) < 10 ↔
        (integer ⌊|t| + rounder 2⌋.toNat).length ≤ 5 := by omega
    rw [if_pos h, hl, integer_length_le_iff, floor_lt, hr, abs_of_neg h]
    push_cast
    constructor
    · intro h₁
      constructor <;> linarith
    · intro h₁
      linarith [h₁.1]
  case neg =>
    have hl : 0 + ((integer ⌊|t| + rounder 2⌋.toNat).length + 3) < 10 ↔
        (integer ⌊|t| + rounder 2⌋.toNat).length ≤ 6 := by omega
    rw [if_neg h, hl, integer_length_le_iff, floor_lt, hr, abs_of_nonneg (not_lt.mp h)]
    push_cast
    constructor
    · intro h₁
      constructor <;> linarith
    · intro h₁
      linarith [h₁.2]

theorem mem_myFtoa {f : ℚ} {precision : Nat} (h : c ∈ myFtoa f precision) :
    Decimal.Digit c ∨ c = 45 ∨ c = 46 := by
  have hg : 0 ≤ |f| + rounder precision := add_nonneg (abs_nonneg f) rounder_bounds.1
  have hd := (unsigned_spec hg : Numeral _ precision _ _).digits
  have hm : ascii "-" = [45] := by decide +kernel
  have hp : ascii "." = [46] := by decide +kernel
  rw [myFtoa_eq, text, sign, hm, hp] at h
  obtain h | h := List.mem_append.mp h
  case inl =>
    split at h
    case isTrue => exact .inr <| .inl <| List.mem_singleton.mp h
    case isFalse => cases h
  case inr =>
    obtain h | h := List.mem_append.mp h
    case inl => exact .inl <| hd c <| List.mem_append_left _ h
    case inr =>
      split at h
      case isTrue => cases h
      case isFalse =>
        obtain h | h := List.mem_cons.mp h
        case inl => exact .inr <| .inr h
        case inr => exact .inl <| hd c <| List.mem_append_right _ h

theorem tempToAscii_eq (t : ℚ) : tempToAscii t = if Fits t then some (myFtoa t 2) else none := by
  have h₀ : 0 ∉ myFtoa t 2 := fun h => absurd (mem_myFtoa h) (by decide)
  rw [tempToAscii]
  split
  case isTrue h =>
    obtain ⟨b, hb, ht⟩ := Buffer.strcpy_spec (b := .zero 10) h₀ <| fits_iff t |>.mpr h
    rw [hb]
    exact ht
  case isFalse h =>
    cases hb : (Buffer.zero 10).strcpy (myFtoa t 2) with
    | none => rfl
    | some b =>
      have := Buffer.strcpy_isSome_iff (b := .zero 10) (s := myFtoa t 2) |>.mp (by simp [hb])
      exact absurd (fits_iff t |>.mp this) h

end Temperature
