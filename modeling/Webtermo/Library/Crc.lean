import Mathlib

-- Cyclic redundancy checks with a register that is shifted to its low end
namespace Crc

variable {w : Nat} {poly s s₁ s₂ : BitVec w} {xs ys : List Bool}

def shift (poly s : BitVec w) : BitVec w :=
  if s.getLsbD 0 then s >>> 1 ^^^ poly else s >>> 1

-- A bit goes into the low end of the register, which is then shifted.
def step (poly s : BitVec w) (x : Bool) : BitVec w :=
  if x ^^ s.getLsbD 0 then s >>> 1 ^^^ poly else s >>> 1

def feed (poly s : BitVec w) (xs : List Bool) : BitVec w :=
  xs.foldl (step poly) s

-- The bits of a word, the low one first
def bits (x : BitVec w) : List Bool :=
  (List.range w).map x.getLsbD

-- The word of at most `w` bits
def word (w : Nat) : List Bool → BitVec w
  | []      => 0
  | x :: xs => (word w xs <<< 1) ^^^ (BitVec.ofBool x).setWidth w

-- All bits that are set lie among `n` consecutive ones, and there is one.
structure Burst (n : Nat) (xs : List Bool) : Prop where
  nonzero  : true ∈ xs
  confined : ∃ i, ∀ j, xs[j]? = some true → i ≤ j ∧ j < i + n

@[simp]
theorem feed_nil : feed poly s [] = s :=
  rfl

@[simp]
theorem feed_cons : feed poly s (x :: xs) = feed poly (step poly s x) xs :=
  rfl

theorem feed_append : feed poly s (xs ++ ys) = feed poly (feed poly s xs) ys :=
  List.foldl_append

-- The register is linear in what it holds and in what it is fed.

theorem shift_xor : shift poly (s₁ ^^^ s₂) = shift poly s₁ ^^^ shift poly s₂ := by
  simp only [shift, BitVec.getLsbD_xor, BitVec.ushiftRight_xor_distrib]
  cases s₁.getLsbD 0 <;> cases s₂.getLsbD 0 <;> simp
  case false.true => ac_rfl
  case true.false => ac_rfl
  case true.true =>
    calc s₁ >>> 1 ^^^ s₂ >>> 1
      _ = s₁ >>> 1 ^^^ s₂ >>> 1 ^^^ (poly ^^^ poly)   := by rw [BitVec.xor_self, BitVec.xor_zero]
      _ = s₁ >>> 1 ^^^ poly ^^^ (s₂ >>> 1 ^^^ poly)   := by ac_rfl

theorem shift_zero : shift poly 0#w = 0#w := by
  simp [shift]

theorem low_ofBool (hw : 0 < w) : ((BitVec.ofBool x).setWidth w).getLsbD 0 = x := by
  cases x <;> simp [hw]

theorem ofBool_shift : (BitVec.ofBool x).setWidth w >>> 1 = 0#w := by
  apply BitVec.eq_of_getLsbD_eq
  intro i hi
  cases x <;> simp

-- A bit that is fed may as well be added to the register before it is shifted.
theorem step_eq (hw : 0 < w) : step poly s x = shift poly (s ^^^ (BitVec.ofBool x).setWidth w) := by
  simp only [step, shift, BitVec.getLsbD_xor, low_ofBool hw, BitVec.ushiftRight_xor_distrib,
    ofBool_shift, BitVec.xor_zero, Bool.xor_comm]

theorem ofBool_xor : (BitVec.ofBool (x ^^ y)).setWidth w =
    (BitVec.ofBool x).setWidth w ^^^ (BitVec.ofBool y).setWidth w := by
  cases x <;> cases y <;> simp

theorem step_xor (hw : 0 < w) :
    step poly (s₁ ^^^ s₂) (x ^^ y) = step poly s₁ x ^^^ step poly s₂ y := by
  simp only [step_eq hw, ofBool_xor, ← shift_xor]
  congr 1
  ac_rfl

theorem feed_xor (hw : 0 < w) (h : xs.length = ys.length) :
    feed poly (s₁ ^^^ s₂) (List.zipWith xor xs ys) = feed poly s₁ xs ^^^ feed poly s₂ ys := by
  induction xs generalizing s₁ s₂ ys with
  | nil =>
    cases List.length_eq_zero_iff.mp h.symm
    rfl
  | cons x xs ih =>
    cases ys with
    | nil => simp at h
    | cons y ys =>
      simp only [List.zipWith_cons_cons, feed_cons, step_xor hw]
      exact ih <| Nat.succ.inj h

-- Bits that are zero only shift.

theorem feed_zeros (hw : 0 < w) (h : true ∉ xs) : feed poly s xs = (shift poly)^[xs.length] s := by
  induction xs generalizing s with
  | nil => rfl
  | cons x xs ih =>
    have ⟨hx, h⟩ : x = false ∧ true ∉ xs := by simpa using h
    have hs : step poly s x = shift poly s := by simp [step_eq hw, hx]
    rw [feed_cons, ih h, hs, List.length_cons, Function.iterate_succ_apply]

-- No register is shifted to zero, as long as the polynomial sets its high bit.
theorem shift_eq_zero (hp : poly.getLsbD (w - 1)) (h : shift poly s = 0#w) : s = 0#w := by
  have hw : 0 < w := by
    by_contra hw
    simp [Nat.eq_zero_of_not_pos hw] at hp
  have hl : s.getLsbD 0 = false := by
    cases hl : s.getLsbD 0
    case false => rfl
    case true =>
      have hn : s.getLsbD (1 + (w - 1)) = false := s.getLsbD_of_ge _ <| by omega
      have := congrArg (·.getLsbD (w - 1)) h
      simp [shift, hl, hp, hn] at this
  have hs : s >>> 1 = 0#w := by simpa [shift, hl] using h
  apply BitVec.eq_of_getLsbD_eq
  intro i hi
  cases i with
  | zero => simpa using hl
  | succ i =>
    have := congrArg (·.getLsbD i) hs
    simpa [Nat.add_comm] using this

theorem iterate_shift_eq_zero (hp : poly.getLsbD (w - 1)) (h : (shift poly)^[n] s = 0#w) : s = 0#w := by
  induction n generalizing s with
  | zero => exact h
  | succ n ih => exact shift_eq_zero hp <| ih h

theorem iterate_shift_zero : (shift poly)^[n] 0#w = 0#w :=
  Function.iterate_fixed shift_zero n

-- As many bits as the register holds may be added to it at once.

theorem word_getLsbD : (word w xs).getLsbD i = (decide (i < w) && xs.getD i false) := by
  induction xs generalizing i with
  | nil => simp [word]
  | cons x xs ih =>
    cases i with
    | zero   => cases x <;> simp [word]
    | succ i =>
      have hx : (BitVec.ofBool x).getLsbD (i + 1) = false := by simp
      simp only [word, BitVec.getLsbD_xor, BitVec.getLsbD_shiftLeft, BitVec.getLsbD_setWidth, hx, ih]
      by_cases hi : i + 1 < w
      case pos => simp [hi, show i < w by omega]
      case neg => simp [hi]

theorem word_bits (x : BitVec w) : word w (bits x) = x := by
  apply BitVec.eq_of_getLsbD_eq
  intro i hi
  rw [word_getLsbD]
  simp [bits, hi]

theorem word_shift (h : xs.length < w) : word w xs <<< 1 >>> 1 = word w xs := by
  apply BitVec.eq_of_getLsbD_eq
  intro i hi
  simp only [BitVec.getLsbD_ushiftRight, BitVec.getLsbD_shiftLeft, word_getLsbD]
  by_cases hn : 1 + i < w
  case pos => simp [hn, hi]
  case neg => simp [hn, show xs.length ≤ i by omega]

theorem shift_word (h : xs.length < w) : shift poly (s ^^^ word w xs <<< 1) = shift poly s ^^^ word w xs := by
  have hl : (word w xs <<< 1).getLsbD 0 = false := by simp
  rw [shift_xor]
  congr 1
  simp only [shift, hl, Bool.false_eq_true, if_false, word_shift h]

theorem feed_eq_iterate (h : xs.length ≤ w) :
    feed poly s xs = (shift poly)^[xs.length] (s ^^^ word w xs) := by
  induction xs generalizing s with
  | nil => simp [word]
  | cons x xs ih =>
    have h : xs.length < w := h
    have hs : s ^^^ word w (x :: xs) =
        (s ^^^ (BitVec.ofBool x).setWidth w) ^^^ word w xs <<< 1 := by
      rw [word]
      ac_rfl
    rw [feed_cons, ih (Nat.le_of_lt h), List.length_cons, Function.iterate_succ_apply, hs,
      shift_word h, step_eq (Nat.zero_lt_of_lt h)]

-- What a register is fed empties it exactly if it is what the register holds.
theorem feed_bits_eq_zero (hp : poly.getLsbD (w - 1)) : feed poly s (bits x) = 0#w ↔ x = s := by
  have hl : (bits x).length = w := by simp [bits]
  rw [feed_eq_iterate (Nat.le_of_eq hl), word_bits]
  constructor
  case mp => exact fun h => BitVec.xor_eq_zero_iff.mp (iterate_shift_eq_zero hp h) |>.symm
  case mpr =>
    intro h
    rw [h, BitVec.xor_self, iterate_shift_zero]

theorem word_ne_zero (h : true ∈ xs) (hl : xs.length ≤ w) : word w xs ≠ 0#w := by
  intro hz
  have ⟨i, hi, hx⟩ := List.mem_iff_getElem.mp h
  have hb : (word w xs).getLsbD i = _ := word_getLsbD
  rw [hz] at hb
  simp [hx, hi, Nat.lt_of_lt_of_le hi hl] at hb

-- A burst that is no longer than the register leaves something in it.
theorem feed_burst (hp : poly.getLsbD (w - 1)) (b : Burst w xs) : feed poly 0#w xs ≠ 0#w := by
  have hw : 0 < w := by
    by_contra hw
    simp [Nat.eq_zero_of_not_pos hw] at hp
  have ⟨i, hi⟩ := b.confined
  have h₁ : true ∉ xs.take i := by
    intro h
    have ⟨j, hj, hx⟩ := List.mem_iff_getElem.mp h
    have ⟨hj, hl⟩ : j < i ∧ j < xs.length := Nat.lt_min.mp <| by simpa using hj
    have := hi j <| by simpa [hl] using hx
    omega
  have h₃ : true ∉ xs.drop (i + w) := by
    intro h
    have ⟨j, hj, hx⟩ := List.mem_iff_getElem.mp h
    have := hi (i + w + j) <| by rw [← List.getElem?_drop, List.getElem?_eq_getElem hj, hx]
    omega
  have hs : xs = xs.take i ++ ((xs.drop i).take w ++ xs.drop (i + w)) := by
    rw [← List.drop_drop, List.take_append_drop, List.take_append_drop]
  have h₂ : true ∈ (xs.drop i).take w := by
    have := b.nonzero
    rw [hs, List.mem_append, List.mem_append] at this
    exact (this.resolve_left h₁).resolve_right h₃
  have hl : ((xs.drop i).take w).length ≤ w := List.length_take_le _ _
  intro h
  rw [hs, feed_append, feed_append, feed_zeros hw h₁, iterate_shift_zero, feed_zeros hw h₃,
    feed_eq_iterate hl, BitVec.zero_xor] at h
  exact word_ne_zero h₂ hl <| iterate_shift_eq_zero hp <| iterate_shift_eq_zero hp h

end Crc
