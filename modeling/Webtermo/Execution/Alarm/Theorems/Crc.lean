import Webtermo.Library.Crc
import Webtermo.Execution.Alarm.Crc

open Crc

namespace Alarm

variable {b s : UInt8} {d e : Bytes}

-- The polynomial of both functions
def poly : BitVec 8 := 0x8C

-- The bits of a byte string, in the order in which they come over the wire
def wireBits (d : Bytes) : List Bool :=
  d.flatMap fun b => bits b.toBitVec

theorem poly_high : poly.getLsbD (8 - 1) := by
  decide

theorem bit_eq (b : UInt8) : b &&& 1 = if b.toBitVec.getLsbD 0 then 1 else 0 := by
  apply UInt8.toBitVec_inj.mp
  rw [UInt8.toBitVec_and]
  change b.toBitVec &&& 1#8 = _
  rw [BitVec.and_one_eq_setWidth_ofBool_getLsbD]
  cases b.toBitVec.getLsbD 0 <;> rfl

-- One turn of the inner loop of `calc_crc`
theorem calcCrc_turn (b : UInt8) (j : Nat) (hj : j < 8) :
    (let fbBit := ((b >>> j.toUInt8) &&& 1) ^^^ (s &&& 1)
     if fbBit ≠ 0 then s >>> 1 ^^^ 0x8c else s >>> 1).toBitVec =
      step poly s.toBitVec (b.toBitVec.getLsbD j) := by
  have hb : (b >>> j.toUInt8).toBitVec.getLsbD 0 = b.toBitVec.getLsbD j := by
    have : j % 256 % 8 = j := by omega
    simp [this]
  simp only [bit_eq, hb, step]
  cases b.toBitVec.getLsbD j <;> cases s.toBitVec.getLsbD 0 <;> rfl

theorem foldl_calcCrc {js : List Nat} (hj : ∀ j ∈ js, j < 8) :
    (js.foldl (fun s j =>
      let fbBit := ((b >>> j.toUInt8) &&& 1) ^^^ (s &&& 1)
      if fbBit ≠ 0 then s >>> 1 ^^^ 0x8c else s >>> 1) s).toBitVec =
      feed poly s.toBitVec (js.map b.toBitVec.getLsbD) := by
  induction js generalizing s with
  | nil => rfl
  | cons j js ih =>
    have ⟨hj, hs⟩ := List.forall_mem_cons.mp hj
    rw [List.foldl_cons, ih hs, calcCrc_turn b j hj]
    rfl

theorem foldl_bytes {f : UInt8 → UInt8 → UInt8}
    (h : ∀ s b, (f s b).toBitVec = feed poly s.toBitVec (bits b.toBitVec)) :
    (d.foldl f s).toBitVec = feed poly s.toBitVec (wireBits d) := by
  induction d generalizing s with
  | nil => rfl
  | cons b d ih =>
    have hb : wireBits (b :: d) = bits b.toBitVec ++ wireBits d := List.flatMap_cons
    rw [List.foldl_cons, ih, h, hb, feed_append]

theorem calcCrc_eq (d : Bytes) : (calcCrc d).toBitVec = feed poly 0#8 (wireBits d) :=
  foldl_bytes fun _ _ => foldl_calcCrc <| by simp

-- The two constants make up the polynomial: a shift leaves the high bit clear.
theorem owi_constants : ∀ s : UInt8, ((s ^^^ 0x18) >>> 1 ||| 0x80 : UInt8) = s >>> 1 ^^^ 0x8c :=
  forall_byte <| by decide +kernel

-- One turn of the loop of `OWI_ComputeCRC8`
theorem owiComputeCRC8_turn :
    (OwiComputeCRC8.turn b s).2.toBitVec = step poly s.toBitVec (b.toBitVec.getLsbD 0) := by
  have hx : (s ^^^ b).toBitVec.getLsbD 0 = (b.toBitVec.getLsbD 0 ^^ s.toBitVec.getLsbD 0) := by
    rw [UInt8.toBitVec_xor, BitVec.getLsbD_xor, Bool.xor_comm]
  simp only [OwiComputeCRC8.turn, bit_eq, hx, step, owi_constants]
  cases b.toBitVec.getLsbD 0 ^^ s.toBitVec.getLsbD 0 <;> rfl

theorem owiComputeCRC8_turns (n : Nat) (hn : n ≤ 8) :
    let r := Nat.repeat (fun (b, s) => OwiComputeCRC8.turn b s) n (b, s)
    r.1.toBitVec = b.toBitVec >>> n ∧
      r.2.toBitVec = feed poly s.toBitVec ((List.range n).map b.toBitVec.getLsbD) := by
  induction n with
  | zero => exact ⟨by simp [Nat.repeat], rfl⟩
  | succ n ih =>
    have ⟨hb, hs⟩ := ih <| Nat.le_of_succ_le hn
    refine ⟨?_, ?_⟩
    case refine_1 =>
      rw [Nat.repeat, BitVec.shiftRight_add, ← hb]
      rfl
    case refine_2 =>
      rw [Nat.repeat, owiComputeCRC8_turn, hb, hs, List.range_succ, List.map_append, feed_append,
        BitVec.getLsbD_ushiftRight]
      rfl

theorem owiComputeCRC8_eq :
    (owiComputeCRC8 b s).toBitVec = feed poly s.toBitVec (bits b.toBitVec) :=
  (owiComputeCRC8_turns 8 <| Nat.le_refl 8).2

theorem calcCrc_eq_fold : calcCrc d = d.foldl (fun seed b => owiComputeCRC8 b seed) 0 := by
  apply UInt8.toBitVec_inj.mp
  rw [calcCrc_eq, foldl_bytes fun _ _ => owiComputeCRC8_eq]
  rfl

theorem calcCrc_concat_eq_zero : calcCrc (d ++ [c]) = 0 ↔ c = calcCrc d := by
  have hc : wireBits (d ++ [c]) = wireBits d ++ bits c.toBitVec := by simp [wireBits]
  rw [← UInt8.toBitVec_inj, calcCrc_eq, hc, feed_append, ← calcCrc_eq, ← UInt8.toBitVec_inj]
  exact feed_bits_eq_zero poly_high

-- Both functions compute one checksum, which is zero for what carries its own.
theorem crc_agree (d : Bytes) (romValue : Fin 8 → UInt8) :
    calcCrc d = d.foldl (fun seed b => owiComputeCRC8 b seed) 0 ∧
    (owiCheckRomCRC romValue = owiCrcOk ↔
      calcCrc ((List.finRange 7).map fun i => romValue i.castSucc) = romValue 7) ∧
    calcCrc (d ++ [calcCrc d]) = 0 := by
  refine ⟨calcCrc_eq_fold, ?_, calcCrc_concat_eq_zero.mpr rfl⟩
  rw [owiCheckRomCRC, ← calcCrc_eq_fold]
  split <;> simp_all [owiCrcOk, owiCrcError]

-- The bytes of an error are added to those of the frame.

theorem wireBits_xor (h : e.length = d.length) :
    wireBits (List.zipWith (· ^^^ ·) d e) = List.zipWith xor (wireBits d) (wireBits e) := by
  induction d generalizing e with
  | nil => simp [wireBits]
  | cons b d ih =>
    cases e with
    | nil => simp at h
    | cons c e =>
      have hl : ∀ b : UInt8, (bits b.toBitVec).length = 8 := by simp [bits]
      have hb : bits (b ^^^ c).toBitVec = List.zipWith xor (bits b.toBitVec) (bits c.toBitVec) := by
        simp [bits, List.zipWith_map]
      have ih := ih <| Nat.succ.inj h
      simp only [wireBits, List.zipWith_cons_cons, List.flatMap_cons] at ih ⊢
      rw [List.zipWith_append (by rw [hl, hl]), ih, hb]

theorem wireBits_length : (wireBits d).length = d.length * 8 := by
  simp [wireBits, bits]

theorem calcCrc_xor (h : e.length = d.length) :
    calcCrc (List.zipWith (· ^^^ ·) d e) = calcCrc d ^^^ calcCrc e := by
  have hl : (wireBits d).length = (wireBits e).length := by simp only [wireBits_length, h]
  apply UInt8.toBitVec_inj.mp
  rw [UInt8.toBitVec_xor, calcCrc_eq, calcCrc_eq, calcCrc_eq, wireBits_xor h,
    ← feed_xor (by decide) hl, BitVec.xor_self]

-- No error that is confined to eight bits in a row of a string and its checksum goes undetected.
theorem burst_law (h : e.length = d.length) (b : Burst 8 (wireBits (e ++ [c]))) :
    calcCrc (List.zipWith (· ^^^ ·) d e) ≠ calcCrc d ^^^ c := by
  intro he
  have hc : c = calcCrc e := UInt8.xor_right_inj _ |>.mp (calcCrc_xor h ▸ he).symm
  have hz := congrArg UInt8.toBitVec <| calcCrc_concat_eq_zero.mpr hc
  rw [calcCrc_eq] at hz
  exact feed_burst poly_high b hz

-- A scratchpad, with an error over the end of its third byte
def burst : Bytes × Bytes :=
  ([0x90, 0x01, 0x4B, 0x46, 0x7F, 0xFF, 0x10, 0x10], [0, 0, 0xA0, 0x15, 0, 0, 0, 0])

theorem burst_law_over_bytes :
    burst.2.length = burst.1.length ∧ Burst 8 (wireBits (burst.2 ++ [0])) ∧
    calcCrc (List.zipWith (· ^^^ ·) burst.1 burst.2) ≠ calcCrc burst.1 ^^^ 0 := by
  have hl : (wireBits (burst.2 ++ [0])).length = 72 := wireBits_length
  have hj : ∀ j : Fin 72, (wireBits (burst.2 ++ [0]))[j.val]? = some true → 21 ≤ j.val ∧ j.val < 21 + 8 := by
    decide +kernel
  have b : Burst 8 (wireBits (burst.2 ++ [0])) :=
    ⟨by decide +kernel, 21, fun j h => hj ⟨j, hl ▸ (List.getElem?_eq_some_iff.mp h).1⟩ h⟩
  exact ⟨rfl, b, burst_law rfl b⟩

-- The scratchpad

def CrcOk (ds : DsBuf) : Prop :=
  calcCrc ((List.finRange 8).map fun i => ds i.castSucc) = ds 8

-- The temperature that a sensor has after its own reset
def PowerOn (ds : DsBuf) : Prop :=
  ds 0 = 0x50 ∧ ds 1 = 0x05

instance : Decidable (CrcOk ds) :=
  inferInstanceAs <| Decidable (_ = _)

instance : Decidable (PowerOn ds) :=
  inferInstanceAs <| Decidable (_ ∧ _)

-- The checksum that `ptReadTemp` spoils matches one that is wrong by one.
def OffByOne (ds : DsBuf) : Prop :=
  ds 8 = calcCrc ((List.finRange 8).map fun i => ds i.castSucc) + 1

theorem goodReading_of_powerOn (h : PowerOn ds) : goodReading ds ↔ OffByOne ds := by
  have hc : chkSum ds = calcCrc ((List.finRange 8).map fun i => ds i.castSucc) + 1 := if_pos h
  rw [goodReading, decide_eq_true_iff, hc, OffByOne, eq_comm]

theorem goodReading_of_not_powerOn (h : ¬PowerOn ds) : goodReading ds ↔ CrcOk ds := by
  have hc : chkSum ds = calcCrc ((List.finRange 8).map fun i => ds i.castSucc) := if_neg h
  rw [goodReading, decide_eq_true_iff, hc, CrcOk]

-- A frame is taken exactly if its checksum is right and it is not what a reset leaves, unless it is
-- what a reset leaves with a checksum that is wrong by one.
theorem acceptance_law :
    (goodReading ds ↔ CrcOk ds ∧ ¬PowerOn ds) ∧ (goodReading ds → CrcOk ds) ↔
      ¬(PowerOn ds ∧ OffByOne ds) := by
  by_cases hp : PowerOn ds
  case neg => simp [goodReading_of_not_powerOn hp, hp]
  case pos =>
    simp only [goodReading_of_powerOn hp, hp, not_true, and_false, iff_false, true_and]
    exact and_iff_left_of_imp fun h ho => absurd ho h

-- A sensor's value after a reset, whose checksum is `0x1C`
def resetFrame (crc : UInt8) : DsBuf :=
  fun i => [0x50, 0x05, 0x4B, 0x46, 0x7F, 0xFF, 0x0C, 0x10, crc].getD i 0

theorem acceptance_wrong_crc : goodReading (resetFrame 0x1D) ∧ ¬CrcOk (resetFrame 0x1D) := by
  decide +kernel

end Alarm
