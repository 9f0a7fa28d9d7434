import Webtermo.Execution.Ctz.Theorems

namespace Ctz

variable {d : Disk} {b : List Block} {x nblock head : Block} {f : File} {i n pos size : Nat}

theorem ctz_eq (h₀ : 0 < i) (hi : i < 2 ^ 32) : ctz i = padicValNat 2 i := by
  refine Nat.le_antisymm ?_ (le_ctz pow_padicValNat_dvd h₀ hi)
  exact (padicValNat_dvd_iff_le h₀.ne').mp <| dvd_of_le_ctz <| Nat.le_refl _

theorem ctz_le : ctz i ≤ 31 :=
  Nat.findGreatest_le 31

theorem popc_le (h : i < 2 ^ 32) : popc i ≤ 32 := by
  have hd : ∀ x ∈ Nat.digits 2 i, x ≤ 1 := fun x hx => Nat.lt_succ_iff.mp <| Nat.digits_lt_base (by decide) hx
  have hl : (Nat.digits 2 i).length ≤ 32 := (Nat.digits_length_le_iff (by decide) i).mpr h
  calc popc i ≤ (Nat.digits 2 i).length • 1 := List.sum_le_card_nsmul _ _ hd
    _         ≤ 32                          := by simpa using hl

-- A carry takes away as many ones as there are zeros at the end of the sum, and puts one in their place.
theorem popc_succ (h : i + 1 < 2 ^ 32) : popc (i + 1) + ctz (i + 1) = popc i + 1 := by
  have h₁ := sub_one_mul_padicValNat_factorial (p := 2) (i + 1)
  have h₂ := sub_one_mul_padicValNat_factorial (p := 2) i
  have hf : padicValNat 2 (i + 1).factorial = padicValNat 2 (i + 1) + padicValNat 2 i.factorial :=
    padicValNat.mul (Nat.succ_ne_zero i) (Nat.factorial_ne_zero i)
  have hl₁ : popc (i + 1) ≤ i + 1 := Nat.digit_sum_le 2 (i + 1)
  have hl₂ : popc i ≤ i := Nat.digit_sum_le 2 i
  rw [ctz_eq (by omega) h]
  simp only [popc] at *
  omega

-- How many pointers a block begins with
def skips (i : Nat) : Nat :=
  if i = 0 then 0 else ctz i + 1

-- The position of the first byte in a block
def start : Nat → Nat
  | 0     => 0
  | i + 1 => start i + (blockSize - 4 * skips i)

theorem skips_le : skips i ≤ 32 := by
  have := ctz_le (i := i)
  unfold skips
  split <;> omega

theorem start_succ : start (i + 1) + 4 * skips i = start i + blockSize := by
  have := skips_le (i := i)
  have : blockSize = 4096 := rfl
  rw [start]
  omega

theorem start_mono : Monotone start :=
  monotone_nat_of_le_succ fun _ => Nat.le_add_right ..

theorem le_start : i ≤ start i := by
  induction i with
  | zero => exact Nat.zero_le _
  | succ i ih =>
    have := start_succ (i := i)
    have := skips_le (i := i)
    have : blockSize = 4096 := rfl
    omega

-- The ones of the indices count the pointers of all blocks before.
theorem start_eq (h : i + 1 < 2 ^ 32) : start (i + 1) = 4088 * (i + 1) + 4 * (popc i + 2) := by
  have hb : blockSize = 4096 := rfl
  induction i with
  | zero => rfl
  | succ i ih =>
    have hs : skips (i + 1) = ctz (i + 1) + 1 := if_neg (Nat.succ_ne_zero i)
    have := ih (by omega)
    have := start_succ (i := i + 1)
    have := popc_succ (i := i) (by omega)
    omega

-- The index of a position is that of the block it lies in, and the offset lies behind the pointers.
theorem ctzIndex_eq (hi : i + 1 < 2 ^ 32) (h : start i ≤ pos) (h₁ : pos < start (i + 1)) :
    ctzIndex pos = (i, 4 * skips i + (pos - start i)) := by
  have hb : blockSize - 2 * 4 = 4088 := rfl
  have he := start_eq hi
  have hp := popc_le (i := i) (by omega)
  have hn : pos / 4088 = i ∨ pos / 4088 = i + 1 := by
    cases i with
    | zero => omega
    | succ i =>
      have := start_eq (i := i) (by omega)
      omega
  rw [ctzIndex, hb]
  cases i with
  | zero =>
    have hz : popc 0 = 0 := rfl
    have hs : 4 * skips 0 + (pos - start 0) = pos := by simp [skips, start]
    rw [hs]
    obtain hn | hn := hn
    · rw [if_pos hn]
    · have hq : (pos - 4 * (popc (pos / 4088 - 1) + 2)) / 4088 = 0 := by
        rw [hn, Nat.zero_add, Nat.sub_self, hz]
        omega
      rw [if_neg (by omega), hq]
      simp [hz]
  | succ i =>
    have hs : skips (i + 1) = ctz (i + 1) + 1 := if_neg (Nat.succ_ne_zero i)
    have hc := popc_succ (i := i) (by omega)
    have he₁ := start_eq (i := i) (by omega)
    have hq : (pos - 4 * (popc (pos / 4088 - 1) + 2)) / 4088 = i + 1 := by
      obtain hn | hn := hn
      · rw [hn, Nat.add_sub_cancel]
        omega
      · rw [hn, Nat.add_sub_cancel]
        omega
    rw [if_neg (by omega), hq]
    refine Prod.ext rfl ?_
    simp only
    omega

-- The bytes of the file come to their end in the last one of its blocks.
structure Fills (f : File) (size : Nat) : Prop where
  lower : start f.index < size
  upper : size ≤ start (f.index + 1)
  small : f.index + 1 < 2 ^ 32

theorem Fills.index (h : Fills f size) :
    ctzIndex (size - 1) = (f.index, 4 * skips f.index + (size - 1 - start f.index)) := by
  have := h.lower
  have := h.upper
  exact ctzIndex_eq h.small (by omega) (by omega)

theorem Fills.size_pos (h : Fills f size) : 0 < size :=
  Nat.zero_lt_of_lt h.lower

-- The last block is full if the bytes come to the beginning of the next one.
theorem Fills.full (h : Fills f size) :
    4 * skips f.index + (size - 1 - start f.index) + 1 = blockSize ↔ size = start (f.index + 1) := by
  have := h.lower
  have := h.upper
  have := start_succ (i := f.index)
  omega

-- What `lfs_ctz_extend` does is what it takes from the size.
theorem ctzExtendPos_eq (h : Fills f size) (hd : f.head = some head) :
    ctzExtendPos f.disk head size nblock =
      (ctzExtend f nblock (size = start (f.index + 1))).map fun f₁ =>
        (f₁.disk, 4 * skips f₁.index + (size - start f₁.index)) := by
  have hz : size ≠ 0 := h.size_pos.ne'
  have hf := h.full
  simp only [ctzExtendPos, ctzExtend, hd, if_neg hz, h.index]
  by_cases hs : size = start (f.index + 1)
  case pos =>
    have hk : skips (f.index + 1) = ctz (f.index + 1) + 1 := if_neg (Nat.succ_ne_zero _)
    rw [if_neg (not_not.mpr <| hf.mpr hs), if_pos (decide_eq_true hs)]
    cases link nblock (ctz (f.index + 1) + 1) 0 head (f.disk.erase nblock) with
    | none => rfl
    | some d => simp [hk, hs]
  case neg =>
    have := h.lower
    have ho : 4 * skips f.index + (size - 1 - start f.index) + 1 =
        4 * skips f.index + (size - start f.index) := by
      omega
    rw [if_pos (mt hf.mp hs), if_neg (by simpa using hs), Option.map_some, ho]

-- The file that stands for what is written
structure Stands (o : Open) (f : File) : Prop where
  disk : o.disk = f.disk
  head : f.head = if o.pos = 0 then none else some o.block
  fill : 0 < o.pos → Fills f o.pos
  zero : o.pos = 0 → f.index = 0

theorem Stands.blocks {o : Open} (h : Stands o f) : o.blocks = f.blocks := by
  rw [Open.blocks, File.blocks, h.head, ctzTraversePos]
  by_cases hz : o.pos = 0
  case pos => simp [hz]
  case neg => simp only [if_neg hz, (h.fill <| Nat.pos_of_ne_zero hz).index, h.disk, Option.bind_some]

-- The offset of what is written next lies behind the pointers, and the bytes have room behind it.
theorem Fills.write (h : start i ≤ pos) (h₁ : pos < start (i + 1)) (hf : f.index = i) (hn : 0 < n)
    (hm : pos + n ≤ fileMax) : Fills f (pos + min n (blockSize - (4 * skips i + (pos - start i)))) := by
  have hs := start_succ (i := i)
  have hle := le_start (i := i)
  have hmax : fileMax < 2 ^ 31 := by decide
  subst hf
  constructor <;> omega

theorem start_lt : start i < start (i + 1) := by
  have hb : blockSize = 4096 := rfl
  have := start_succ (i := i)
  have := skips_le (i := i)
  omega

theorem append_length (e : Event) (h : b ≠ []) :
    (append b e).length - 1 = b.length - 1 + if e.full then 1 else 0 := by
  have := List.length_pos_iff.mpr h
  unfold append
  split
  case isTrue => simp; omega
  case isFalse => simp

-- A piece extends the file with its last block as it is, or copied.
theorem step_stands {o : Open} {p : Piece} (h : Holds f b) (s : Stands o f) (hp : p.Possible o) :
    ∃ o₁ e f₁, appender.step o p = some (o₁, []) ∧ ctzExtend f p.nblock e = some f₁ ∧
      Holds f₁ (append b ⟨p.nblock, e⟩) ∧ Stands o₁ f₁ := by
  obtain ⟨hb, hn, hm⟩ := hp
  rw [s.blocks] at hb
  by_cases hz : o.pos = 0
  case pos =>
    have hd : f.head = none := s.head.trans <| if_pos hz
    obtain ⟨f₁, hf, h₁⟩ := step_holds (e := ⟨p.nblock, true⟩) h ⟨hb, by rw [s.zero hz]; decide⟩
    have he : ctzExtend f p.nblock true = some ⟨f.disk.erase p.nblock, some p.nblock, 0⟩ := by
      simp only [ctzExtend, hd]
    cases he.symm.trans hf
    have hs : 4 * skips 0 + (o.pos - start 0) = 0 := by
      rw [hz]
      rfl
    have hlt : o.pos < start (0 + 1) := by
      rw [hz]
      exact start_lt (i := 0)
    have hw := Fills.write (f := ⟨f.disk.erase p.nblock, some p.nblock, 0⟩) (Nat.zero_le o.pos) hlt rfl hn hm
    rw [hs] at hw
    refine ⟨⟨_, p.nblock, o.pos + min p.nsize (blockSize - 0)⟩, true, _, ?_, he, h₁, rfl, ?_, fun _ => hw,
      fun _ => rfl⟩
    · simp only [appender, ctzExtendPos, if_pos hz, s.disk, Option.bind_eq_bind, Option.bind_some]
    · exact (if_neg hw.size_pos.ne').symm
  case neg =>
    have hd : f.head = some o.block := s.head.trans <| if_neg hz
    have hf := s.fill <| Nat.pos_of_ne_zero hz
    have hne : b ≠ [] := by
      rintro rfl
      cases hd.symm.trans h.head
    obtain ⟨f₁, he, h₁⟩ := step_holds (e := ⟨p.nblock, o.pos = start (f.index + 1)⟩) h ⟨hb, hf.small⟩
    have hi : f₁.index = f.index + if o.pos = start (f.index + 1) then 1 else 0 := by
      rw [h₁.index, append_length _ hne, h.index]
      simp only [decide_eq_true_eq]
    have hp : start f₁.index ≤ o.pos ∧ o.pos < start (f₁.index + 1) := by
      have := hf.lower
      have := hf.upper
      have := start_lt (i := f.index + 1)
      rw [hi]
      split
      case isTrue hs => exact ⟨hs.ge, by omega⟩
      case isFalse hs => exact ⟨hf.lower.le, lt_of_le_of_ne hf.upper hs⟩
    have hw := Fills.write hp.1 hp.2 rfl hn hm
    have hx : ctzExtendPos o.disk o.block o.pos p.nblock =
        some (f₁.disk, 4 * skips f₁.index + (o.pos - start f₁.index)) := by
      rw [s.disk, ctzExtendPos_eq hf hd, he, Option.map_some]
    refine ⟨⟨f₁.disk, p.nblock,
      o.pos + min p.nsize (blockSize - (4 * skips f₁.index + (o.pos - start f₁.index)))⟩, _, f₁, ?_, he, h₁, rfl, ?_, fun _ => hw, fun hz => absurd hz hw.size_pos.ne'⟩
    · simp only [appender, hx, Option.bind_eq_bind, Option.bind_some]
    · rw [if_neg hw.size_pos.ne', h₁.head, append]
      split <;> exact List.getLast?_concat ..

theorem exists_start (pos : Nat) : ∃ i, start i ≤ pos ∧ pos < start (i + 1) := by
  refine ⟨Nat.findGreatest (start · ≤ pos) pos, ?_, ?_⟩
  · exact Nat.findGreatest_spec (P := (start · ≤ pos)) (Nat.zero_le _) (Nat.zero_le _)
  · by_contra hs
    have hle := Nat.le_of_not_lt hs
    have := Nat.le_findGreatest (P := (start · ≤ pos)) (le_start.trans hle) hle
    omega

-- A position is found in the block that holds it, behind the pointers of the block.
theorem Stands.find {o : Open} (h : Holds f b) (s : Stands o f) (hi : start i ≤ pos) (hi₁ : pos < start (i + 1))
    (hp : pos < o.pos) : ∃ x, b[i]? = some x ∧
      ctzFindPos o.disk o.block o.pos pos = some (x, 4 * skips i + (pos - start i)) := by
  have hf := s.fill (Nat.zero_lt_of_lt hp)
  have hd : f.head = some o.block := s.head.trans <| if_neg (Nat.ne_zero_of_lt hp)
  have hle : i ≤ f.index := by
    by_contra hlt
    have := start_mono (show f.index + 1 ≤ i by omega)
    have := hf.upper
    omega
  have hl := lt_length (h.last hd)
  obtain ⟨x, hx⟩ := exists_of_lt (b := b) (i := i) (by omega)
  refine ⟨x, hx, ?_⟩
  have hx := h.find hd hx (Nat.sub_le f.index i)
  have hs := hf.small
  simp only [ctzFindPos, hf.index, ctzIndex_eq (by omega) hi hi₁, s.disk, hx, Option.bind_eq_bind,
    Option.bind_some]

-- However a file is appended to: its blocks are different ones, and every position that has been written is
-- found in the block that holds it.
theorem appender_finds {ps : List Piece} (g : appender.Guarded (fun o p => p.Possible o) .empty ps) :
    ∃ o t b, appender.run .empty ps = some (o, t) ∧ o.blocks = List.reverse b ∧ b.Nodup ∧
      ∀ pos < o.pos, ∃ i x, b[i]? = some x ∧ start i ≤ pos ∧ pos < start (i + 1) ∧
        ctzFindPos o.disk o.block o.pos pos = some (x, 4 * skips i + (pos - start i)) := by
  have h₀ : ∃ f b, Holds f b ∧ Stands .empty f :=
    ⟨.empty, [], ⟨rfl, rfl, by decide, Linked.nil⟩, rfl, rfl, fun h => absurd h (Nat.lt_irrefl 0), fun _ => rfl⟩
  obtain ⟨o, t, hr, f, b, h, s⟩ := Machine.run_total (t := []) (I := fun _ o => ∃ f b, Holds f b ∧ Stands o f)
    (fun ⟨f, b, h, s⟩ hp => by
      obtain ⟨o₁, e, f₁, hs, -, h₁, s₁⟩ := step_stands h s hp
      exact ⟨o₁, [], hs, f₁, _, h₁, s₁⟩) h₀ g
  refine ⟨o, t, b, hr, s.blocks.trans h.blocks, h.linked.nodup, fun pos hp => ?_⟩
  obtain ⟨i, hi, hi₁⟩ := exists_start pos
  obtain ⟨x, hx, hc⟩ := s.find h hi hi₁ hp
  exact ⟨i, x, hx, hi, hi₁, hc⟩

end Ctz
