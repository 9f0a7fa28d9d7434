import Webtermo.Library.Binary
import Webtermo.Objects.Temperature

-- A `float`. Infinities and NaN have no value.
abbrev Single := Option ℚ

namespace Single

-- Rounding to the 24 digits of a `float`
def round (x : ℚ) : ℚ :=
  Binary.round 24 (-126) x

def ofRat (x : ℚ) : Single :=
  if |round x| < 2 ^ 128 then some (round x) else none

def add (a b : Single) : Single := do
  ofRat ((← a) + (← b))

-- The quotient of a `float` and an `uint32_t`, which is turned into a `float` for it
def div (a : Single) (n : UInt32) : Single := do
  let a ← a
  if n = 0 then none else ofRat (a / round n.toNat)

theorem abs_round_le {e : ℤ} (he : -126 ≤ e) (h : |x| ≤ 2 ^ e) : |round x| ≤ 2 ^ e := by
  rw [abs_le'] at h ⊢
  refine ⟨Binary.round_le_zpow (by decide) he h.1, ?_⟩
  rw [round, ← Binary.round_neg]
  exact Binary.round_le_zpow (by decide) he h.2

theorem ofRat_of_le {e : ℤ} (he : -126 ≤ e) (he₁ : e < 128) (h : |x| ≤ 2 ^ e) : ofRat x = some (round x) := by
  refine if_pos <| (abs_round_le he h).trans_lt ?_
  rw [← zpow_natCast]
  exact zpow_lt_zpow_right₀ (by norm_num) (by exact_mod_cast he₁)

-- What is rounded to a temperature that a `ttoa[10]` has room for. These are the middles of the largest `float`s
-- below 100000 and 1000000, and these numbers.
def Fits (x : ℚ) : Prop :=
  -25599999 < 256 * x ∧ 32 * x < 31999999

instance : DecidablePred Fits :=
  fun _ => inferInstanceAs <| Decidable (_ ∧ _)

-- The numbers from 2^19 on are 1 / 16 apart, those from 2^16 on 1 / 128.
theorem fits_round_iff (x : ℚ) : Temperature.Fits (round x) ↔ Fits x := by
  have high := Binary.round_split (x := x) (p := 24) (m := -126) (e := 19) (n := 15999999)
    (by decide) (by decide) (by decide) (by norm_num) (by norm_num)
  have low := Binary.round_split (x := -x) (p := 24) (m := -126) (e := 16) (n := 12799999)
    (by decide) (by decide) (by decide) (by norm_num) (by norm_num)
  rw [Binary.round_neg] at low
  norm_num at high low
  rw [Temperature.Fits, Fits, round]
  refine and_congr ⟨fun h => ?_, fun h => ?_⟩ ⟨fun h => ?_, fun h => ?_⟩
  · by_contra hx
    have := low.2 (by linarith)
    linarith
  · have := low.1 (by linarith)
    linarith
  · by_contra hx
    have := high.2 (by linarith)
    linarith
  · have := high.1 (by linarith)
    linarith

theorem Fits.abs_le_zpow (h : Fits x) : |x| ≤ 2 ^ (20 : ℤ) := by
  obtain ⟨h₁, h₂⟩ := h
  rw [abs_le]
  constructor <;> norm_num <;> linarith

-- The text of a number that is rounded fits exactly if the number lies between these bounds.
theorem ofRat_fits_iff (x : ℚ) : (∃ t ∈ ofRat x, Temperature.Fits t) ↔ Fits x := by
  constructor
  case mp =>
    rintro ⟨t, ht, hf⟩
    have ht : ofRat x = some t := ht
    rw [ofRat] at ht
    split at ht
    case isTrue =>
      cases ht
      exact (fits_round_iff x).mp hf
    case isFalse => cases ht
  case mpr =>
    intro h
    exact ⟨round x, ofRat_of_le (by decide) (by decide) h.abs_le_zpow, (fits_round_iff x).mpr h⟩

end Single
