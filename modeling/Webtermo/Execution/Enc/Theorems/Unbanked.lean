import Webtermo.Execution.Enc.Unbanked

namespace Enc

theorem byte_append_one (b₁ b₀ : u08) : byte (b₁ ++ b₀) 1 = b₁ := by
  apply BitVec.eq_of_getLsbD_eq
  intro i hi
  simp only [byte, BitVec.getLsbD_append, BitVec.getLsbD_extractLsb']
  grind

theorem byte_append_zero (b₁ b₀ : u08) : byte (b₁ ++ b₀) 0 = b₀ := by
  apply BitVec.eq_of_getLsbD_eq
  intro i hi
  simp only [byte, BitVec.getLsbD_append, BitVec.getLsbD_extractLsb']
  grind

theorem append_byte (v : u16) : byte v 1 ++ byte v 0 = v := by
  apply BitVec.eq_of_getLsbD_eq
  intro i hi
  simp only [byte, BitVec.getLsbD_append, BitVec.getLsbD_extractLsb']
  grind

-- A `u16` that is taken for a `u32` keeps its two bytes, and the third one is zero.
theorem byte_setWidth (v : u16) (x : Nat) :
    byte (v.setWidth 32 : u32) x = if x < 2 then byte v x else 0 := by
  apply BitVec.eq_of_getLsbD_eq
  intro i hi
  split <;> simp only [byte, BitVec.getLsbD_setWidth, BitVec.getLsbD_extractLsb'] <;> grind

theorem byte_data32 (top b₁ b₀ address : u08) (x : Nat) (h : x < 3) :
    byte (top ++ b₁ ++ b₀ ++ address : u32) x = if x = 0 then address else if x = 1 then b₀ else b₁ := by
  apply BitVec.eq_of_getLsbD_eq
  intro i hi
  simp only [byte, BitVec.getLsbD_append, BitVec.getLsbD_extractLsb']
  grind

theorem byte_one_eq_zero {v : u16} : byte v 1 = 0 ↔ v.toNat < 2 ^ 8 := by
  simp [byte, ← BitVec.toNat_inj, BitVec.extractLsb'_toNat, Nat.shiftRight_eq_div_pow]
  omega

-- The loop stores its third byte behind the variable, whatever the operation is.
theorem executeOp32_stores : (executeOp32 idle c op w stack).1.stores = [0, 1, 2] :=
  rfl

theorem executeOp32_rcru_reg : (executeOp32 idle c rcru w stack).1.chip.reg = c.reg := by
  simp [executeOp32, List.range_succ, Op32.turn, Chip.exchange]

-- The lower byte of the register arrives, and the higher one does not.
theorem executeOp32_rcru :
    byte (executeOp32 idle c rcru w stack).2 1 = byte (c.reg (byte w 0)) 0 ∧
      byte (executeOp32 idle c rcru w stack).2 2 = 0 := by
  simp [executeOp32, List.range_succ, Op32.turn, Chip.exchange, byte_setWidth, byte_append_one]

theorem executeOp32_wcru : (executeOp32 idle c wcru w stack).1.chip.reg =
    Function.update c.reg (byte w 0) (byte w 2 ++ byte w 1) := by
  have : wcru ≠ rcru := by decide
  simp [executeOp32, List.range_succ, Op32.turn, Chip.exchange, this, byte_append_zero]

-- The driver takes an address for an unbanked one by its lower byte alone.
def Unbanked (address : u16) : Prop :=
  0x80 ≤ byte address 0

instance : Decidable (Unbanked address) :=
  inferInstanceAs <| Decidable (_ ≤ _)

theorem unbanked_iff : Unbanked address ↔ ¬bankOf address ≤ 0x60 := by
  have h : ∀ b : u08, 0x80 ≤ b ↔ ¬b &&& 0xE0 ≤ 0x60 := by decide +kernel
  exact h _

variable {idle : List u08 → u08} {d d₁ : Driver} {address data v : u16} {x : Call}

theorem readReg_reg : (readReg idle d address x).1.chip.reg = d.chip.reg := by
  rw [readReg]
  split
  case isTrue => rfl
  case isFalse => exact executeOp32_rcru_reg

-- What is read from an unbanked register is its lower byte.
theorem readReg_unbanked (h : Unbanked address) : (readReg idle d address x).2 =
    ((0 : u08) ++ byte (d.chip.reg (byte address 0)) 0, [0, 1, 2]) := by
  rw [readReg, if_neg (unbanked_iff.mp h)]
  simp only [executeOp32_rcru, executeOp32_stores, byte_setWidth]
  rfl

theorem writeReg_unbanked (h : Unbanked address) :
    (writeReg idle d address data x).1.chip.reg =
      Function.update d.chip.reg (byte address 0) data := by
  rw [writeReg, if_neg (unbanked_iff.mp h)]
  simp [executeOp32_wcru, byte_data32, append_byte]

theorem writeReg_banked (h : ¬Unbanked address) :
    (writeReg idle d address data x).1.chip = d.chip := by
  rw [writeReg, if_pos (not_not.mp <| mt unbanked_iff.mpr h)]

-- The event does not write to the register of `address`.
def RegEvent.Spares (address : u16) : RegEvent → Prop
  | read ..     => True
  | write a _ _ => byte a 0 ≠ byte address 0

theorem step_read : (regDevice idle).step d (.read address x) =
    some ((readReg idle d address x).1,
      [.read (readReg idle d address x).2.1 (readReg idle d address x).2.2]) :=
  rfl

theorem step_write : (regDevice idle).step d (.write address data x) =
    some ((writeReg idle d address data x).1, [.write (writeReg idle d address data x).2]) :=
  rfl

instance {e : RegEvent} : Decidable (e.Spares address) :=
  match e with
  | .read ..     => isTrue trivial
  | .write a _ _ => inferInstanceAs <| Decidable (byte a 0 ≠ byte address 0)

theorem step_keeps (h : e.Spares address) (hs : (regDevice idle).step d e = some (d₁, o)) :
    d₁.chip.reg (byte address 0) = d.chip.reg (byte address 0) := by
  cases e with
  | read a x =>
    simp only [step_read, Option.some.injEq, Prod.mk.injEq] at hs
    rw [← hs.1, readReg_reg]
  | write a data x =>
    simp only [step_write, Option.some.injEq, Prod.mk.injEq] at hs
    rw [← hs.1]
    by_cases ha : Unbanked a
    case pos => rw [writeReg_unbanked ha, Function.update_of_ne (Ne.symm h)]
    case neg => rw [writeReg_banked ha]

theorem run_keeps (h : ∀ e ∈ es, e.Spares address) (hr : (regDevice idle).run d es = some (d₁, o)) :
    d₁.chip.reg (byte address 0) = d.chip.reg (byte address 0) :=
  have g : (regDevice idle).Guarded (fun _ e => e.Spares address) d es := .of_forall h
  Machine.run_invariant (I := fun d₁ => d₁.chip.reg (byte address 0) = d.chip.reg (byte address 0))
    (fun hi he hs => step_keeps he hs |>.trans hi) rfl g hr

theorem run_exists (d : Driver) (es : List RegEvent) :
    ∃ d₁ o, (regDevice idle).run d es = some (d₁, o) :=
  Machine.run_exists fun d e => by cases e <;> exact ⟨_, _, rfl⟩

-- The value that a read returns is the one that was written, and nothing but `returnValue` was stored to.
def RegObs.Faithful (v : u16) : RegObs → Prop
  | read value stores => value = v ∧ ∀ n ∈ stores, n < 2
  | write stores      => ∀ n ∈ stores, n < 2

-- No read of an unbanked register is faithful: it stores behind the variable, and it returns nothing but the
-- lower byte of what was last written.
theorem unbanked_law (es : List RegEvent) (d : Driver) (h : Unbanked address) (he : ∀ e ∈ es, e.Spares address) :
    ∃ d₁ d₂ o value stores,
      (regDevice idle).run d (.write address v x :: es) = some (d₁, o) ∧
      (regDevice idle).step d₁ (.read address x₁) = some (d₂, [.read value stores]) ∧
      ¬(RegObs.read value stores).Faithful v ∧ (value = v ↔ v.toNat < 2 ^ 8) := by
  obtain ⟨d₁, o, hr⟩ : ∃ d₁ o, (regDevice idle).run d (.write address v x :: es) = some (d₁, o) :=
    run_exists d _
  obtain ⟨d₃, _, _, hs, hr₁, _⟩ := Machine.run_cons hr
  have hv : d₁.chip.reg (byte address 0) = v := by
    simp only [step_write, Option.some.injEq, Prod.mk.injEq] at hs
    rw [run_keeps he hr₁, ← hs.1, writeReg_unbanked h, Function.update_self]
  have hx : (readReg idle d₁ address x₁).2 = ((0 : u08) ++ byte v 0, [0, 1, 2]) := by
    rw [readReg_unbanked h, hv]
  refine ⟨d₁, _, o, _, _, hr, by rw [step_read, hx], by simp [RegObs.Faithful], ?_⟩
  rw [← byte_one_eq_zero]
  constructor
  case mp =>
    intro hw
    rw [← hw, byte_append_one]
  case mpr =>
    intro hw
    rw [← hw, append_byte]

def Driver.init : Driver where
  banked := .start 0 0 0
  chip   := ⟨fun _ => 0, []⟩

def Call.quiet : Call where
  answer := ⟨true, 0⟩
  stack  := fun _ => 0

-- Another register is written in between.
theorem unbanked_law_gap :
    ∃ d₁ d₂ o value stores,
      (regDevice fun _ => 0).run .init [.write 0x8A 0x0600 .quiet, .write 0x88 0xFFFF .quiet] =
        some (d₁, o) ∧
      (regDevice fun _ => 0).step d₁ (.read 0x8A .quiet) = some (d₂, [.read value stores]) ∧
      ¬(RegObs.read value stores).Faithful 0x0600 ∧ (value = 0x0600 ↔ 0x0600 < 2 ^ 8) :=
  unbanked_law [.write 0x88 0xFFFF .quiet] .init (by decide) (by decide)

-- `ERXRDPT` is set to the start of the receive buffer and reads as 0.
theorem unbanked_loses_byte :
    ((regDevice fun _ => 0).run .init [.write 0x8A 0x0600 .quiet, .read 0x8A .quiet]).map (·.2) =
      some [.write [0, 1, 2], .read 0 [0, 1, 2]] ∧
      ¬(RegObs.read 0 [0, 1, 2]).Faithful 0x0600 := by
  constructor
  · decide +kernel
  · simp [RegObs.Faithful]

end Enc
