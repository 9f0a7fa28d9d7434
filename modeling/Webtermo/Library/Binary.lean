import Mathlib

-- Numbers of a limited count of binary digits, and the rounding to the nearest of them
namespace Binary

variable {x y : ℚ} {n e : ℤ}

-- Of two integers that are as near, the even one
def nearest (x : ℚ) : ℤ :=
  if Int.fract x < 1 / 2 ∨ Int.fract x = 1 / 2 ∧ Even ⌊x⌋ then ⌊x⌋ else ⌊x⌋ + 1

theorem floor_le_nearest : ⌊x⌋ ≤ nearest x := by
  unfold nearest
  split <;> omega

theorem nearest_le_floor_add_one : nearest x ≤ ⌊x⌋ + 1 := by
  unfold nearest
  split <;> omega

@[simp] theorem nearest_intCast (n : ℤ) : nearest n = n := by
  simp [nearest]

theorem nearest_mono (h : x ≤ y) : nearest x ≤ nearest y := by
  obtain hf | hf := (Int.floor_mono h).lt_or_eq
  case inl =>
    have h₁ := nearest_le_floor_add_one (x := x)
    have h₂ := floor_le_nearest (x := y)
    omega
  case inr =>
    have hr : Int.fract x ≤ Int.fract y := by
      rw [Int.fract, Int.fract, hf]
      linarith
    have himp : (Int.fract y < 1 / 2 ∨ Int.fract y = 1 / 2 ∧ Even ⌊y⌋) →
        Int.fract x < 1 / 2 ∨ Int.fract x = 1 / 2 ∧ Even ⌊x⌋ := by
      rintro (hy | ⟨hy, he⟩)
      · exact .inl (hr.trans_lt hy)
      · obtain hx | hx := hr.lt_or_eq
        · exact .inl (hx.trans_eq hy)
        · exact .inr ⟨hx.trans hy, hf ▸ he⟩
    unfold nearest
    split <;> split
    case isTrue.isTrue => omega
    case isTrue.isFalse => omega
    case isFalse.isTrue hx hy => exact absurd (himp hy) hx
    case isFalse.isFalse => omega

theorem nearest_neg (x : ℚ) : nearest (-x) = -nearest x := by
  by_cases h₀ : Int.fract x = 0
  case pos =>
    obtain ⟨n, rfl⟩ : ∃ n : ℤ, (n : ℚ) = x := Int.fract_eq_zero_iff.mp h₀
    rw [← Int.cast_neg, nearest_intCast, nearest_intCast]
  case neg =>
    have hf : Int.fract (-x) = 1 - Int.fract x := Int.fract_neg h₀
    have hl : ⌊-x⌋ = -⌊x⌋ - 1 := by
      have h₁ := Int.floor_add_fract (-x)
      have h₂ := Int.floor_add_fract x
      rw [hf] at h₁
      have : ((⌊-x⌋ : ℤ) : ℚ) = ((-⌊x⌋ - 1 : ℤ) : ℚ) := by
        push_cast
        linarith
      exact_mod_cast this
    have he : Even (-⌊x⌋ - 1) ↔ ¬Even ⌊x⌋ := by
      rw [Int.even_sub_one, even_neg]
    simp only [nearest, hf, hl, he]
    obtain h | h | h := lt_trichotomy (Int.fract x) (1 / 2)
    case inl =>
      rw [if_neg (by rintro (h₁ | ⟨h₁, -⟩) <;> linarith), if_pos (.inl h)]
      ring
    case inr.inl =>
      by_cases hx : Even ⌊x⌋
      case pos =>
        rw [if_neg (by rintro (h₁ | ⟨-, h₁⟩) <;> first | linarith | exact h₁ hx), if_pos (.inr ⟨h, hx⟩)]
        ring
      case neg =>
        rw [if_pos (.inr ⟨by linarith, hx⟩), if_neg (by rintro (h₁ | ⟨-, h₁⟩) <;> first | linarith | exact hx h₁)]
        ring
    case inr.inr =>
      rw [if_pos (.inl (by linarith)), if_neg (by rintro (h₁ | ⟨h₁, -⟩) <;> linarith)]
      ring

-- From the middle on, the number above an odd one is taken.
theorem nearest_le_iff (hn : Odd n) : nearest x ≤ n ↔ x < n + 1 / 2 := by
  constructor
  case mp =>
    intro h
    by_contra hx
    have hm : nearest (n + 1 / 2) = n + 1 := by
      have hf : Int.fract ((n : ℚ) + 1 / 2) = 1 / 2 := by
        rw [Int.fract_intCast_add, Int.fract_eq_self]
        norm_num
      have hl : ⌊(n : ℚ) + 1 / 2⌋ = n := by
        rw [Int.floor_intCast_add]
        norm_num
      rw [nearest, hf, hl, if_neg]
      rintro (h₁ | ⟨-, h₁⟩)
      · exact absurd h₁ (lt_irrefl _)
      · exact absurd h₁ (Int.not_even_iff_odd.mpr hn)
    have := nearest_mono (not_lt.mp hx)
    omega
  case mpr =>
    intro h
    have hl : ⌊x⌋ < n + 1 := by
      rw [Int.floor_lt]
      push_cast
      linarith
    obtain hl | hl : ⌊x⌋ < n ∨ ⌊x⌋ = n := by omega
    case inl => exact nearest_le_floor_add_one.trans hl
    case inr =>
      have hr : Int.fract x < 1 / 2 := by
        rw [Int.fract, hl]
        linarith
      rw [nearest, if_pos (.inl hr), hl]

section

-- The count of the digits, and the least exponent
variable (p : ℕ) (m : ℤ)

-- The distance between the numbers around `x`
def quantum (x : ℚ) : ℚ :=
  2 ^ (max (Int.log 2 |x|) m - p + 1)

def round (x : ℚ) : ℚ :=
  nearest (x / quantum p m x) * quantum p m x

end

variable {p : ℕ} {m : ℤ}

theorem quantum_pos : 0 < quantum p m x :=
  zpow_pos (by norm_num) _

theorem round_neg (x : ℚ) : round p m (-x) = -round p m x := by
  have hq : quantum p m (-x) = quantum p m x := by rw [quantum, quantum, abs_neg]
  rw [round, round, hq, neg_div, nearest_neg]
  push_cast
  ring

-- The number between two powers of two is a multiple of one quantum.
theorem quantum_eq (h₁ : 2 ^ e ≤ x) (h₂ : x < 2 ^ (e + 1)) (he : m ≤ e) :
    quantum p m x = 2 ^ (e - p + 1) := by
  have h₀ : 0 < x := (zpow_pos (by norm_num) e).trans_le h₁
  have hl : Int.log 2 |x| = e := by
    rw [abs_of_pos h₀]
    have h₁ := (Int.zpow_le_iff_le_log (b := 2) (by decide) h₀).mp (by exact_mod_cast h₁)
    have h₂ := (Int.lt_zpow_iff_log_lt (b := 2) (by decide) h₀).mp (by exact_mod_cast h₂)
    omega
  rw [quantum, hl, max_eq_left he]

-- A power of two is a number of its own.
theorem round_le_zpow (hp : 0 < p) (he : m ≤ e) (h : x ≤ 2 ^ e) : round p m x ≤ 2 ^ e := by
  have hq : 0 < quantum p m x := quantum_pos
  have hk : max (Int.log 2 |x|) m ≤ e ∨ x ≤ 0 := by
    obtain h₀ | h₀ := le_or_gt x 0
    case inl => exact .inr h₀
    case inr =>
      refine .inl (max_le ?_ he)
      rw [abs_of_pos h₀, ← Int.log_zpow (R := ℚ) (b := 2) (by decide) e]
      exact Int.log_mono_right h₀ (by exact_mod_cast h)
  obtain hk | h₀ := hk
  case inr =>
    have hn : nearest (x / quantum p m x) ≤ 0 := by
      have := nearest_mono (div_nonpos_of_nonpos_of_nonneg h₀ hq.le)
      rwa [← Int.cast_zero, nearest_intCast] at this
    have : round p m x ≤ 0 := mul_nonpos_of_nonpos_of_nonneg (by exact_mod_cast hn) hq.le
    exact this.trans (zpow_pos (by norm_num) e).le
  case inl =>
    -- The power of two is so many times the quantum.
    have hm : (2 : ℚ) ^ e = (2 ^ (e - max (Int.log 2 |x|) m + p - 1).toNat : ℤ) * quantum p m x := by
      rw [quantum]
      push_cast
      rw [← zpow_natCast, Int.toNat_of_nonneg (by omega), ← zpow_add₀ (by norm_num)]
      congr 1
      omega
    have hn : nearest (x / quantum p m x) ≤ 2 ^ (e - max (Int.log 2 |x|) m + p - 1).toNat := by
      rw [hm, ← div_le_iff₀ hq] at h
      have := nearest_mono h
      rwa [nearest_intCast] at this
    rw [hm]
    exact mul_le_mul_of_nonneg_right (by exact_mod_cast hn) hq.le

theorem zpow_le_round (hp : 0 < p) (he : m ≤ e) (h : 2 ^ e ≤ x) : 2 ^ e ≤ round p m x := by
  have hq : 0 < quantum p m x := quantum_pos
  have h₀ : 0 < x := (zpow_pos (by norm_num) e).trans_le h
  have hl : (2 : ℚ) ^ Int.log 2 |x| ≤ x := by
    rw [abs_of_pos h₀]
    exact_mod_cast Int.zpow_log_le_self (b := 2) (by decide) h₀
  have hel : e ≤ Int.log 2 |x| := by
    rw [abs_of_pos h₀]
    exact (Int.zpow_le_iff_le_log (b := 2) (by decide) h₀).mp (by exact_mod_cast h)
  have hm : (2 : ℚ) ^ Int.log 2 |x| = (2 ^ (p - 1) : ℤ) * quantum p m x := by
    rw [quantum, max_eq_left (he.trans hel)]
    push_cast
    rw [← zpow_natCast, ← zpow_add₀ (by norm_num)]
    congr 1
    omega
  have hn : 2 ^ (p - 1) ≤ nearest (x / quantum p m x) := by
    rw [hm, ← le_div_iff₀ hq] at hl
    have := nearest_mono hl
    rwa [nearest_intCast] at this
  calc (2 : ℚ) ^ e ≤ 2 ^ Int.log 2 |x| := zpow_le_zpow_right₀ (by norm_num) hel
    _ = (2 ^ (p - 1) : ℤ) * quantum p m x := hm
    _ ≤ round p m x := mul_le_mul_of_nonneg_right (by exact_mod_cast hn) hq.le

-- Between an odd multiple of the quantum and the next one lies no number, and the middle is rounded up.
theorem round_split (hp : 0 < p) (he : m ≤ e) (hn : Odd n) (h₁ : (2 : ℚ) ^ e ≤ n * 2 ^ (e - p + 1))
    (h₂ : (n + 1 : ℚ) * 2 ^ (e - p + 1) ≤ 2 ^ (e + 1)) :
    (x < (n + 1 / 2) * 2 ^ (e - p + 1) → round p m x ≤ n * 2 ^ (e - p + 1)) ∧
      ((n + 1 / 2) * 2 ^ (e - p + 1) ≤ x → (n + 1) * 2 ^ (e - p + 1) ≤ round p m x) := by
  have hq : (0 : ℚ) < 2 ^ (e - p + 1) := zpow_pos (by norm_num) _
  obtain hx | hx := lt_or_ge x (2 ^ e)
  case inl =>
    refine ⟨fun _ => (round_le_zpow hp he hx.le).trans h₁, fun h => absurd hx (not_lt.mpr ?_)⟩
    exact h₁.trans <| (mul_le_mul_of_nonneg_right (by linarith) hq.le).trans h
  case inr =>
    obtain hx₁ | hx₁ := lt_or_ge x (2 ^ (e + 1))
    case inr =>
      refine ⟨fun h => absurd h (not_lt.mpr ?_), fun _ => h₂.trans <| zpow_le_round hp (by omega) hx₁⟩
      exact (mul_le_mul_of_nonneg_right (by linarith) hq.le).trans <| h₂.trans hx₁
    case inl =>
      rw [round, quantum_eq hx hx₁ he]
      constructor
      case left =>
        intro h
        have := (nearest_le_iff hn).mpr <| (div_lt_iff₀ hq).mpr h
        exact mul_le_mul_of_nonneg_right (by exact_mod_cast this) hq.le
      case right =>
        intro h
        have := (nearest_le_iff hn).not.mpr <| not_lt.mpr <| (le_div_iff₀ hq).mpr h
        have : n + 1 ≤ nearest (x / 2 ^ (e - p + 1)) := by omega
        exact mul_le_mul_of_nonneg_right (by exact_mod_cast this) hq.le

end Binary
