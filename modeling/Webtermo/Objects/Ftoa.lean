import Webtermo.Library.Decimal
import Webtermo.Objects.Float

-- `my_ftoa` as it writes its buffer, in exact arithmetic
namespace Ftoa

def maxPrecision : Int := 10

-- The precision that stands for a negative one
def automatic (f : ℚ) : Nat :=
  if f < 1 then 6
  else if f < 10 then 5
  else if f < 100 then 4
  else if f < 1000 then 3
  else if f < 10000 then 2
  else if f < 100000 then 1
  else 0

-- The digits of the integer part in the order in which they are stored
def convert : (fuel : Nat) → Nat → Bytes
  | 0,        _ => []
  | fuel + 1, n => if n = 0 then [] else ('0'.toNat.toUInt8 + (n % 10).toUInt8) :: convert fuel (n / 10)

-- The loop that swaps them in place, from both of its ends
def swap (buf : Bytes) (ptr p : Nat) : Option Bytes :=
  if ptr < p then do
    let c ← buf[p - 1]?
    let d ← buf[ptr]?
    swap ((buf.set (p - 1) d).set ptr c) (ptr + 1) (p - 1)
  else
    some buf
termination_by p - ptr

def fraction : (precision : Nat) → ℚ → Bytes
  | 0,             _ => []
  | precision + 1, f =>
    let c := (f * 10).floor.toNat.toUInt8
    ('0'.toNat.toUInt8 + c) :: fraction precision (f * 10 - c.toNat)

-- What is done once the value has its sign removed and has been rounded. The conversion to a `long` has no
-- result from 2^31 on.
def unsigned (buf : Bytes) (f : ℚ) (precision : Nat) : Option Bytes := do
  if 2 ^ 31 ≤ f then
    none
  else
    let intPart := f.floor.toNat
    let digits := convert intPart intPart
    let buf ←
      if intPart = 0 then some (buf ++ ascii "0")
      else swap (buf ++ digits) buf.length (buf.length + digits.length)
    some (buf ++ if precision = 0 then [] else ascii "." ++ fraction precision (f - intPart))

def run (f : ℚ) (precision : Int) : Option Bytes :=
  let precision := if maxPrecision < precision then maxPrecision else precision
  let buf := if f < 0 then ascii "-" else []
  let f := if f < 0 then -f else f
  let precision := if precision < 0 then automatic f else precision.toNat
  unsigned buf (if precision = 0 then f else f + MyFtoa.rounders precision) precision

-- A turn exchanges the outermost characters of what is left.
theorem swap_turn : swap (a ++ c :: (m ++ d :: b)) a.length (a.length + m.length + 2) =
    swap (a ++ d :: (m ++ c :: b)) (a.length + 1) (a.length + m.length + 1) := by
  have hl : a.length < a.length + m.length + 2 := by omega
  have hd : (a ++ c :: (m ++ d :: b))[a.length + m.length + 1]? = some d := by
    rw [List.getElem?_append_right (by omega)]
    simp [Nat.add_assoc]
  have hs : ((a ++ c :: (m ++ d :: b)).set (a.length + m.length + 1) c).set a.length d =
      a ++ d :: (m ++ c :: b) := by
    rw [List.set_append_right _ _ (by omega), List.set_append_right _ _ (Nat.le_refl _)]
    have hi : a.length + m.length + 1 - a.length = m.length + 1 := by omega
    simp [hi]
  rw [swap, if_pos hl]
  simp [hd, hs]

theorem swap_eq :
    swap (a ++ (m ++ b)) a.length (a.length + m.length) = some (a ++ (m.reverse ++ b)) := by
  have stop {l : Bytes} {p q : Nat} (h : ¬p < q) : swap l p q = some l := by rw [swap, if_neg h]
  induction m using List.bidirectionalRec generalizing a b with
  | nil => exact stop (by simp)
  | singleton c =>
    have hl : a.length < a.length + [c].length := by simp
    rw [swap, if_pos hl]
    simp [stop]
  | cons_append c m d ih =>
    have h₁ : a ++ (c :: (m ++ [d]) ++ b) = a ++ c :: (m ++ d :: b) := by simp
    have h₂ : a.length + (c :: (m ++ [d])).length = a.length + m.length + 2 := by
      simp
      omega
    have h₃ : a ++ d :: (m ++ c :: b) = a ++ [d] ++ (m ++ c :: b) := by simp
    have h₄ : a.length + 1 = (a ++ [d]).length := by simp
    have h₅ : a.length + m.length + 1 = (a ++ [d]).length + m.length := by
      simp
      omega
    rw [h₁, h₂, swap_turn, h₃, h₄, h₅, ih]
    simp

-- The text of a number that has been multiplied by a power of ten
structure Numeral (n : ℤ) (precision : Nat) (int dec : Bytes) : Prop where
  digits   : Decimal.Digits (int ++ dec)
  places   : dec.length = precision
  nonempty : int ≠ []
  -- Only a single digit may be a zero that nothing stands before.
  leading  : int.head? = some 48 → int.length = 1
  value    : (Decimal.value (int ++ dec) : ℤ) = n

def text (sign int dec : Bytes) : Bytes :=
  sign ++ (int ++ if dec = [] then [] else ascii "." ++ dec)

def sign (f : ℚ) : Bytes :=
  if f < 0 then ascii "-" else []

theorem digit_spec {n : Nat} (h : n < 10) : Decimal.Digit ('0'.toNat.toUInt8 + n.toUInt8) ∧
    ('0'.toNat.toUInt8 + n.toUInt8).toNat - 48 = n := by
  have : ∀ n < 10, Decimal.Digit ('0'.toNat.toUInt8 + n.toUInt8) ∧
    ('0'.toNat.toUInt8 + n.toUInt8).toNat - 48 = n := by decide +kernel
  exact this n h

theorem convert_succ (hn : n ≠ 0) : convert (fuel + 1) n =
    ('0'.toNat.toUInt8 + (n % 10).toUInt8) :: convert fuel (n / 10) := by
  rw [convert, if_neg hn]

theorem convert_spec (h : n ≤ fuel) :
    Decimal.Digits (convert fuel n).reverse ∧ Decimal.value (convert fuel n).reverse = n ∧
      (convert fuel n).reverse.head? ≠ some 48 := by
  induction fuel generalizing n with
  | zero =>
    rw [Nat.le_zero.mp h]
    simp [convert, Decimal.Digits, Decimal.value]
  | succ fuel ih =>
    by_cases hn : n = 0
    case pos => simp [hn, convert, Decimal.Digits, Decimal.value]
    case neg =>
      obtain ⟨hd, hv, hh⟩ := ih (n := n / 10) (by omega)
      obtain ⟨hd₁, hv₁⟩ := digit_spec (n := n % 10) (by omega)
      rw [convert_succ hn, List.reverse_cons]
      refine ⟨?_, ?_, ?_⟩
      · exact Decimal.Digits.append.mpr ⟨hd, by simpa [Decimal.Digits] using hd₁⟩
      · rw [Decimal.value_concat, hv, hv₁]
        omega
      · cases hc : (convert fuel (n / 10)).reverse with
        | nil =>
          rw [hc] at hv
          have : n / 10 = 0 := hv.symm
          intro h
          simp only [List.nil_append, List.head?_cons, Option.some.injEq] at h
          rw [h] at hv₁
          simp at hv₁
          omega
        | cons c t =>
          rw [hc] at hh
          simpa using hh

-- The digit that a turn takes off
theorem next_digit {f : ℚ} (h₀ : 0 ≤ f) (h₁ : f < 1) : ∃ n < 10, (f * 10).floor = (n : ℕ) ∧
    (n.toUInt8.toNat : ℚ) = n ∧ 0 ≤ f * 10 - n ∧ f * 10 - n < 1 := by
  obtain ⟨n, hn⟩ := Int.eq_ofNat_of_zero_le (Int.floor_nonneg.mpr (by positivity : 0 ≤ f * 10))
  have hf := Int.floor_le (f * 10)
  have hf₁ := Int.lt_floor_add_one (f * 10)
  have hlt : ⌊f * 10⌋ < 10 := Int.floor_lt.mpr (by push_cast; linarith)
  have hn₁₀ : n < 10 := by omega
  rw [hn] at hf hf₁
  push_cast at hf hf₁
  exact ⟨n, hn₁₀, hn, congrArg _ (Nat.mod_eq_of_lt (by omega)), by linarith, by linarith⟩

-- The last `precision` digits of `f * 10 ^ precision`
theorem fraction_spec (precision : Nat) (h₀ : 0 ≤ f) (h₁ : f < 1) :
    Decimal.Digits (fraction precision f) ∧ (fraction precision f).length = precision ∧
      (Decimal.value (fraction precision f) : ℤ) = ⌊f * 10 ^ precision⌋ := by
  induction precision generalizing f with
  | zero =>
    have : ⌊f⌋ = 0 := Int.floor_eq_zero_iff.mpr ⟨h₀, h₁⟩
    simp [fraction, Decimal.Digits, Decimal.value, this]
  | succ precision ih =>
    obtain ⟨n, hn₁₀, hc, hc₁, h₀, h₁⟩ := next_digit h₀ h₁
    obtain ⟨hd, hv⟩ := digit_spec hn₁₀
    obtain ⟨hd₁, hl₁, hv₁⟩ := ih h₀ h₁
    have hs : ⌊f * 10 ^ (precision + 1)⌋ = n * 10 ^ precision + ⌊(f * 10 - n) * 10 ^ precision⌋ := by
      have : f * 10 ^ (precision + 1) =
          (f * 10 - n) * 10 ^ precision + ((n * 10 ^ precision : ℤ) : ℚ) := by
        push_cast
        ring
      rw [this, Int.floor_add_intCast, Int.add_comm]
    rw [fraction, hc, Int.toNat_natCast, hc₁]
    refine ⟨List.forall_mem_cons.mpr ⟨hd, hd₁⟩, by rw [List.length_cons, hl₁], ?_⟩
    rw [← List.singleton_append, Decimal.value_append, hl₁, hs, ← hv₁]
    have : Decimal.value ['0'.toNat.toUInt8 + n.toUInt8] = n := by
      rw [← List.nil_append [_], Decimal.value_concat, hv]
      simp [Decimal.value]
    rw [this]
    push_cast
    rfl

-- The digits of the integer part as they stand behind the sign
def integer (n : Nat) : Bytes :=
  if n = 0 then ascii "0" else (convert n n).reverse

theorem swap_integer (hn : n ≠ 0) :
    swap (buf ++ convert n n) buf.length (buf.length + (convert n n).length) =
      some (buf ++ integer n) := by
  have := swap_eq (a := buf) (m := convert n n) (b := [])
  simpa [integer, hn] using this

theorem integer_spec : Decimal.Digits (integer n) ∧ Decimal.value (integer n) = n ∧
    integer n ≠ [] ∧ ((integer n).head? = some 48 → (integer n).length = 1) := by
  by_cases hn : n = 0
  case pos =>
    have h₀ : integer 0 = [48] := by decide +kernel
    rw [hn, h₀]
    simp [Decimal.Digits, Decimal.Digit, Decimal.value]
  case neg =>
    obtain ⟨hd, hv, hh⟩ := convert_spec (Nat.le_refl n)
    rw [integer, if_neg hn]
    refine ⟨hd, hv, fun h => ?_, fun h => absurd h hh⟩
    rw [h] at hv
    exact hn hv.symm

variable {f : ℚ} {precision : Nat}

theorem unsigned_eq (h₀ : 0 ≤ f) (h₁ : f < 2 ^ 31) : unsigned buf f precision =
    some (text buf (integer ⌊f⌋.toNat) (fraction precision (Int.fract f))) := by
  obtain ⟨n, hn⟩ := Int.eq_ofNat_of_zero_le (Int.floor_nonneg.mpr h₀)
  have hf : f - f.floor.toNat = Int.fract f := by
    rw [show f.floor = n from hn, Int.fract, hn]
    simp
  have hd : (if precision = 0 then [] else ascii "." ++ fraction precision (Int.fract f)) =
      if fraction precision (Int.fract f) = [] then [] else ascii "." ++ fraction precision (Int.fract f) := by
    cases precision <;> simp [fraction]
  have hi : ⌊f⌋ = f.floor := rfl
  simp only [unsigned, not_le.mpr h₁, if_false, hf, hd, hi, text, Option.bind_eq_bind]
  by_cases h : f.floor.toNat = 0
  case pos => simp [h, integer]
  case neg =>
    rw [if_neg h, swap_integer h]
    simp

theorem unsigned_spec (h₀ : 0 ≤ f) : Numeral ⌊f * 10 ^ precision⌋ precision
    (integer ⌊f⌋.toNat) (fraction precision (Int.fract f)) := by
  obtain ⟨n, hn⟩ := Int.eq_ofNat_of_zero_le (Int.floor_nonneg.mpr h₀)
  obtain ⟨hd, hl, hv⟩ := fraction_spec precision (Int.fract_nonneg f) (Int.fract_lt_one f)
  obtain ⟨hd₁, hv₁, hn₁, hh⟩ := integer_spec (n := n)
  rw [hn]
  refine ⟨Decimal.Digits.append.mpr ⟨hd₁, hd⟩, hl, hn₁, hh, ?_⟩
  have hs : ⌊f * 10 ^ precision⌋ = n * 10 ^ precision + ⌊Int.fract f * 10 ^ precision⌋ := by
    have : f * 10 ^ precision =
        Int.fract f * 10 ^ precision + ((n * 10 ^ precision : ℤ) : ℚ) := by
      rw [Int.fract, hn]
      push_cast
      ring
    rw [this, Int.floor_add_intCast, Int.add_comm]
  rw [Int.toNat_natCast, Decimal.value_append, hv₁, hs, ← hv, hl]
  push_cast
  rfl

-- What is added before the number is cut off
def rounder (precision : Nat) : ℚ :=
  if precision = 0 then 0 else MyFtoa.rounders precision

theorem rounders_eq : MyFtoa.rounders n = 1 / 2 / 10 ^ n := by
  induction n with
  | zero =>
    rw [MyFtoa.rounders, Rat.mkRat_eq_div]
    norm_num
  | succ n ih =>
    rw [MyFtoa.rounders, ih, pow_succ]
    ring

theorem rounder_bounds : 0 ≤ rounder n ∧ rounder n < 1 := by
  rw [rounder]
  split
  case isTrue => norm_num
  case isFalse =>
    have : (1 : ℚ) ≤ 10 ^ n := one_le_pow₀ (by norm_num)
    rw [rounders_eq]
    constructor
    · positivity
    · rw [div_lt_one (by positivity)]
      linarith

theorem abs_eq : (if f < 0 then -f else f) = |f| := by
  split
  case isTrue h => exact (abs_of_neg h).symm
  case isFalse h => exact (abs_of_nonneg (not_lt.mp h)).symm

theorem run_eq (hp : precision ≤ 10) : run f precision =
    unsigned (sign f) (|f| + rounder precision) precision := by
  have h₁ : ¬maxPrecision < precision := by
    rw [maxPrecision]
    omega
  have h₂ : ¬(precision : ℤ) < 0 := by omega
  have h₄ : (if precision = 0 then |f| else |f| + MyFtoa.rounders precision) = |f| + rounder precision := by
    rw [rounder]
    split <;> simp
  simp only [run, h₁, h₂, abs_eq, h₄, if_false, Int.toNat_natCast, sign]

-- The numeral of what is left after the rounding constant has been added
theorem run_spec (hf : |f| + 1 < 2 ^ 31) (hp : precision ≤ 10) : ∃ int dec,
    run f precision = some (text (sign f) int dec) ∧
      Numeral ⌊(|f| + rounder precision) * 10 ^ precision⌋ precision int dec := by
  obtain ⟨h₀, h₁⟩ := rounder_bounds (n := precision)
  have hg : 0 ≤ |f| + rounder precision := add_nonneg (abs_nonneg f) h₀
  exact ⟨_, _, by rw [run_eq hp, unsigned_eq hg (by linarith)], unsigned_spec hg⟩

theorem rounder_mul (hp : precision ≠ 0) :
    (|f| + rounder precision) * 10 ^ precision = |f| * 10 ^ precision + 1 / 2 := by
  have : (10 : ℚ) ^ precision ≠ 0 := by positivity
  rw [rounder, if_neg hp, rounders_eq]
  field_simp

theorem convert_reverse (fuel n : Nat) : (convert fuel n).reverse = MyFtoa.intPart fuel n := by
  induction fuel generalizing n with
  | zero => rfl
  | succ fuel ih =>
    rw [convert, MyFtoa.intPart]
    split
    case isTrue => rfl
    case isFalse =>
      rw [List.reverse_cons, ih]
      rfl

theorem fraction_eq (precision : Nat) (h₀ : 0 ≤ f) (h₁ : f < 1) :
    fraction precision f = MyFtoa.decimals precision f := by
  induction precision generalizing f with
  | zero => rfl
  | succ precision ih =>
    obtain ⟨n, hn₁₀, hc, hc₁, h₀, h₁⟩ := next_digit h₀ h₁
    simp only [fraction, MyFtoa.decimals, MyFtoa.digit, hc, Int.toNat_natCast, Nat.mod_eq_of_lt hn₁₀]
    rw [hc₁, ih h₀ h₁]
    rfl

theorem myFtoa_eq (f : ℚ) (precision : Nat) : myFtoa f precision =
    text (sign f) (integer ⌊|f| + rounder precision⌋.toNat)
      (fraction precision (Int.fract (|f| + rounder precision))) := by
  have hg : 0 ≤ |f| + rounder precision := add_nonneg (abs_nonneg f) rounder_bounds.1
  obtain ⟨n, hn⟩ := Int.eq_ofNat_of_zero_le (Int.floor_nonneg.mpr hg)
  have hn₁ : (|f| + rounder precision).floor = n := hn
  have hx : |f| + rounder precision - n = Int.fract (|f| + rounder precision) := by
    rw [Int.fract, hn]
    rfl
  have hr : (if precision = 0 then 0 else MyFtoa.rounders precision) = rounder precision := rfl
  have hd := fraction_eq precision (Int.fract_nonneg (|f| + rounder precision)) (Int.fract_lt_one _)
  have hp₀ (x : ℚ) : MyFtoa.decimals precision x = [] ↔ precision = 0 := by
    cases precision <;> simp [MyFtoa.decimals]
  simp only [myFtoa, abs_eq, hr, hn₁, hn, Int.toNat_natCast, hx, text, sign, integer, convert_reverse,
    hp₀, hd, List.append_assoc]

-- What the other modules take for the text is what is left in the buffer.
theorem run_eq_myFtoa (hf : |f| + 1 < 2 ^ 31) (hp : precision ≤ 10) :
    run f precision = some (myFtoa f precision) := by
  obtain ⟨h₀, h₁⟩ := rounder_bounds (n := precision)
  rw [run_eq hp, unsigned_eq (add_nonneg (abs_nonneg f) h₀) (by linarith), myFtoa_eq]

-- A number is rounded up exactly if at least half of a unit is cut off.
theorem floor_add_half {x : ℚ} : ⌊x + 1 / 2⌋ = ⌊x⌋ ↔ Int.fract x < 1 / 2 := by
  have := Int.fract_nonneg x
  have := Int.self_sub_floor x
  rw [Int.floor_eq_iff]
  constructor
  case mp =>
    intro ⟨_, h⟩
    linarith
  case mpr =>
    intro h
    constructor <;> linarith

-- The numeral is the one of the rounded value exactly if there are decimals or nothing to round up.
theorem ftoa_law (hf : |f| + 1 < 2 ^ 31) (hp : precision ≤ 10) :
    (∃ int dec, run f precision = some (text (sign f) int dec) ∧
      Numeral ⌊|f| * 10 ^ precision + 1 / 2⌋ precision int dec) ↔
        precision ≠ 0 ∨ Int.fract |f| < 1 / 2 := by
  obtain ⟨int, dec, hr, hn⟩ := run_spec hf hp
  by_cases h₀ : precision = 0
  case neg =>
    rw [rounder_mul h₀] at hn
    exact iff_of_true ⟨int, dec, hr, hn⟩ (.inl h₀)
  case pos =>
    have hs : |f| * 10 ^ precision + 1 / 2 = |f| + 1 / 2 := by simp [h₀]
    have hn₀ : (|f| + rounder precision) * 10 ^ precision = |f| := by simp [h₀, rounder]
    rw [hn₀] at hn
    rw [hs, ← floor_add_half]
    constructor
    case mp =>
      intro ⟨int₁, dec₁, hr₁, hn₁⟩
      have hd : dec = [] := List.eq_nil_of_length_eq_zero <| hn.places.trans h₀
      have hd₁ : dec₁ = [] := List.eq_nil_of_length_eq_zero <| hn₁.places.trans h₀
      have hi : int = int₁ := by simpa [hr, text, hd, hd₁] using hr₁
      refine .inr ?_
      rw [← hn₁.value, ← hn.value, hi, hd, hd₁]
    case mpr =>
      intro h
      rw [h.resolve_left (· h₀)]
      exact ⟨int, dec, hr, hn⟩

-- A carry goes through all digits.
theorem ftoa_law_carry :
    (∃ int dec, run (mkRat 9995 1000) 2 = some (text (sign (mkRat 9995 1000)) int dec) ∧
      Numeral ⌊|mkRat 9995 1000| * 10 ^ 2 + 1 / 2⌋ 2 int dec) ↔
        2 ≠ 0 ∨ Int.fract |mkRat 9995 1000| < 1 / 2 :=
  ftoa_law (by norm_num [Rat.mkRat_eq_div, abs_of_pos]) (by decide)

-- 1.5 is cut off and not rounded to 2.
theorem ftoa_cuts_off : run (3 / 2) 0 = some (ascii "1") ∧
    ¬∃ int dec, run (3 / 2) 0 = some (text (sign (3 / 2)) int dec) ∧
      Numeral ⌊|(3 / 2 : ℚ)| * 10 ^ 0 + 1 / 2⌋ 0 int dec := by
  have hi : ⌊(3 / 2 : ℚ)⌋ = 1 := by norm_num [Int.floor_eq_iff]
  have hg : |(3 / 2 : ℚ)| + rounder 0 = 3 / 2 := by norm_num [rounder, abs_of_pos]
  have hs : sign (3 / 2) = [] := by norm_num [sign]
  have h₁ : integer 1 = ascii "1" := by decide +kernel
  have hr : run (3 / 2) 0 = some (ascii "1") := by
    have : run (3 / 2) (0 : Nat) = unsigned (sign (3 / 2)) (|3 / 2| + rounder 0) 0 :=
      run_eq (by decide)
    rw [hg, unsigned_eq (by norm_num) (by norm_num), hi, hs] at this
    simpa [text, fraction, h₁] using this
  refine ⟨hr, ?_⟩
  intro ⟨int, dec, ht, hn⟩
  have hd : dec = [] := List.eq_nil_of_length_eq_zero hn.places
  have he : ascii "1" = int := by simpa [hr, hs, text, hd] using ht
  have hv : Decimal.value (ascii "1") = 1 := by decide +kernel
  have hf : ⌊|(3 / 2 : ℚ)| * 10 ^ 0 + 1 / 2⌋ = 2 := by norm_num [Int.floor_eq_iff, abs_of_pos]
  have := hn.value
  rw [← he, hd, List.append_nil, hv, hf] at this
  exact absurd this (by decide)

end Ftoa
