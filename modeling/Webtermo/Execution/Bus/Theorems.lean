import Webtermo.Execution.Bus.State

open Config (bytes16 bytes32)

namespace Bus

variable {c c₁ : Chip} {m : Memory} {addr : UInt16} {d l : Bytes} {turns n : Nat}

-- The EEPROM acknowledges at last, and the STOP leaves it as it is.
theorem wait_eq (h : c.cycle < turns) :
    waitEepromStandbyState turns c = some { c with mode := .idle, cycle := 0 } := by
  induction turns generalizing c with
  | zero => omega
  | succ n ih =>
    rw [waitEepromStandbyState]
    by_cases hc : c.cycle = 0
    case pos =>
      have hs : c.start.select false = ({ c with mode := .addressHigh, cycle := 0 }, true) := by
        simp [Chip.start, Chip.select, hc]
      rw [hs]
      rfl
    case neg =>
      have hs : c.start.select false = ({ c with mode := .released, cycle := c.cycle - 1 }, false) := by
        simp [Chip.start, Chip.select, hc]
      rw [hs]
      exact ih <| by simp only; omega

theorem send7bitAddress_start (h : c.cycle = 0) : send7bitAddress c.start x =
    some { c with mode := if x then .reading else .addressHigh } := by
  simp [send7bitAddress, Chip.start, Chip.select, h]

theorem pointer_eq (h : addr.toNat < Eeprom.size) :
    ((addr >>> 8).toUInt8.toNat * 2 ^ 8 + addr.toUInt8.toNat) % Eeprom.size = addr.toNat := by
  have h₁ : (addr >>> 8).toUInt8.toNat = addr.toNat / 2 ^ 8 := by
    simp [Nat.shiftRight_eq_div_pow]
    have := addr.toNat_lt
    omega
  have h₂ : addr.toUInt8.toNat = addr.toNat % 2 ^ 8 := by simp
  rw [h₁, h₂, Nat.mul_comm, Nat.div_add_mod, Nat.mod_eq_of_lt h]

theorem location_eq (h : c.cycle < turns) (ha : addr.toNat < Eeprom.size) : location turns c addr =
    some { c with pointer := addr.toNat, mode := .data [], cycle := 0 } := by
  have hs := send7bitAddress_start (c := { c with mode := .idle, cycle := 0 }) (x := false) rfl
  simp only [location, wait_eq h, hs, sendData, Chip.send, pointer_eq ha, Option.bind_eq_bind,
    Option.bind_some, Bool.false_eq_true, if_false, if_true]

-- The pointer runs over the end of the EEPROM only behind the last byte.
theorem receiveData_eq (hm : c.mode = .reading) (h : c.pointer + n ≤ Eeprom.size)
    (hp : c.pointer < Eeprom.size) : receiveData c n =
      some ({ c with pointer := (c.pointer + n) % Eeprom.size }, c.mem.read c.pointer n) := by
  induction n generalizing c with
  | zero =>
    rw [receiveData, Nat.add_zero, Nat.mod_eq_of_lt hp]
    rfl
  | succ n ih =>
    have hr : c.receive true =
        some ({ c with pointer := (c.pointer + 1) % Eeprom.size }, c.mem c.pointer) := by
      rw [Chip.receive, if_pos hm]
      obtain ⟨_, _, _, _⟩ := c
      cases hm
      rfl
    have hl : 0 < Eeprom.size := by decide
    have hn : (c.pointer + 1) % Eeprom.size + n ≤ Eeprom.size ∧
        c.mem.read ((c.pointer + 1) % Eeprom.size) n = c.mem.read (c.pointer + 1) n := by
      by_cases he : c.pointer + 1 < Eeprom.size
      case pos =>
        rw [Nat.mod_eq_of_lt he]
        exact ⟨by omega, rfl⟩
      case neg =>
        have hz : n = 0 := by omega
        subst hz
        exact ⟨Nat.le_of_lt <| Nat.mod_lt _ hl, rfl⟩
    have := ih (c := { c with pointer := (c.pointer + 1) % Eeprom.size }) hm hn.1 (Nat.mod_lt _ hl)
    simp only [receiveData, hr, this, Option.bind_eq_bind, Option.bind_some, hn.2, Nat.mod_add_mod]
    rw [Nat.add_comm n 1, Memory.read_add, Nat.add_assoc]
    simp [Memory.read]

-- A read returns what the memory holds, and leaves it as it is.
theorem eeRead_eq (h : c.cycle < turns) (hn : 0 < n) (ha : addr.toNat + n ≤ Eeprom.size) :
    ∃ c₁, eeRead turns c addr n = some (c₁, c.mem.read addr.toNat n) ∧ c₁.mem = c.mem ∧ c₁.cycle = 0 := by
  have hs := send7bitAddress_start (x := true)
    (c := { c with pointer := addr.toNat, mode := .data [], cycle := 0 }) rfl
  have hd := receiveData_eq (n := n - 1)
    (c := { c with pointer := addr.toNat, mode := .reading, cycle := 0 }) rfl
    (by simp only; omega) (by simp only; omega)
  have hl : addr.toNat + (n - 1) < Eeprom.size := by omega
  have he : c.mem.read addr.toNat (n - 1) ++ [c.mem (addr.toNat + (n - 1))] = c.mem.read addr.toNat n := by
    rw [show n = n - 1 + 1 by omega, Memory.read_add]
    simp [Memory.read]
  have hloc := @location_eq c addr turns h (by omega)
  refine ⟨⟨c.mem, (addr.toNat + (n - 1) + 1) % Eeprom.size, .idle, 0⟩, ?_, rfl, rfl⟩
  simp only [eeRead, if_neg (Nat.ne_of_gt hn), hloc, hs, hd, Chip.receive,
    Option.bind_eq_bind, Option.bind_some, if_true, Nat.mod_eq_of_lt hl, he]
  rfl

theorem foldlM_sendData (hm : c.mode = .data l) :
    d.foldlM sendData c = some { c with mode := .data (l ++ d) } := by
  induction d generalizing c l with
  | nil =>
    rw [List.append_nil, ← hm]
    rfl
  | cons b d ih =>
    have hs : sendData c b = some { c with mode := .data (l ++ [b]) } := by
      simp only [sendData, Chip.send, hm, if_true]
    rw [List.foldlM_cons, hs]
    have := ih (c := { c with mode := .data (l ++ [b]) }) rfl
    rw [List.append_assoc] at this
    exact this

-- A write has its effect on the page, whose writing may take its time.
theorem eeWrite_eq (h : c.cycle < turns) (ha : addr.toNat < Eeprom.size) (hl : d.length < 2 ^ 16)
    (hn : n < turns) :
    ∃ c₁, eeWrite turns c addr d n = some c₁ ∧
      c₁.mem = c.mem.writePage Eeprom.page addr.toNat d ∧ c₁.cycle < turns := by
  have hd := foldlM_sendData (d := d) (l := [])
    (c := { c with pointer := addr.toNat, mode := .data [], cycle := 0 }) rfl
  have hw : eeWrite turns c addr d n =
      some (Chip.stop { c with pointer := addr.toNat, mode := .data d, cycle := 0 } n) := by
    simp only [eeWrite, if_neg (Nat.not_le_of_lt hl), location_eq h ha, hd, Option.bind_eq_bind, Option.bind_some, List.nil_append]
  refine ⟨_, hw, ?_⟩
  cases d with
  | nil => exact ⟨rfl, Nat.zero_lt_of_lt h⟩
  | cons b d => exact ⟨rfl, hn⟩

theorem read_two : m.read a 2 = [m a, m (a + 1)] := rfl

theorem read_four : m.read a 4 = [m a, m (a + 1), m (a + 2), m (a + 3)] := rfl

-- The EEPROM holds the memory, and answers before the driver gives up.
structure Holds (turns : Nat) (m : Memory) (c : Chip) : Prop where
  mem   : c.mem = m
  cycle : c.cycle < turns

-- A call does to the EEPROM and returns what it does to the memory and returns from it.
theorem step_refines {e : Event} {o : List Obs} {m₁ : Memory} (h : Holds turns m c)
    (hf : e.call.Fits ∧ e.cycle < turns) (hs : memory.step m e = some (m₁, o)) :
    ∃ c₁, (driver turns).step c e = some (c₁, o) ∧ Holds turns m₁ c₁ := by
  obtain ⟨rfl, hc⟩ := h
  obtain ⟨call, cycle⟩ := e
  obtain ⟨hf, hn⟩ := hf
  have reads {addr : UInt16} {n : Nat} (h₀ : 0 < n) (ha : addr.toNat + n ≤ Eeprom.size) :
      ∃ c₁, eeRead turns c addr n = some (c₁, c.mem.read addr.toNat n) ∧ Holds turns c.mem c₁ := by
    obtain ⟨c₁, hr, hm, hz⟩ := eeRead_eq hc h₀ ha
    exact ⟨c₁, hr, hm, by omega⟩
  have writes {addr : UInt16} {d : Bytes} (ha : addr.toNat < Eeprom.size) (hl : d.length < 2 ^ 16) :
      ∃ c₁, eeWrite turns c addr d cycle = some c₁ ∧
        Holds turns (c.mem.writePage Eeprom.page addr.toNat d) c₁ := by
    obtain ⟨c₁, hw, hm, hz⟩ := eeWrite_eq hc ha hl hn
    exact ⟨c₁, hw, hm, hz⟩
  cases call with
  | read addr size =>
    cases hs
    obtain ⟨c₁, hr, hh⟩ := reads hf.1 hf.2
    exact ⟨c₁, by simp only [driver, step, hr, Option.map_some], hh⟩
  | read8 addr =>
    cases hs
    obtain ⟨c₁, hr, hh⟩ := reads (n := 1) (by decide) hf
    exact ⟨c₁, by simp only [driver, step, eeRead8, hr]; rfl, hh⟩
  | read16 addr =>
    cases hs
    obtain ⟨c₁, hr, hh⟩ := reads (n := 2) (by decide) hf
    exact ⟨c₁, by simp only [driver, step, eeRead16, hr, read_two]; rfl, hh⟩
  | read32 addr =>
    cases hs
    obtain ⟨c₁, hr, hh⟩ := reads (n := 4) (by decide) hf
    exact ⟨c₁, by simp only [driver, step, eeRead32, hr, read_four]; rfl, hh⟩
  | write addr d =>
    cases hs
    obtain ⟨c₁, hw, hh⟩ := writes hf.1 hf.2
    exact ⟨c₁, by simp only [driver, step, hw, Option.map_some], hh⟩
  | write8 addr x =>
    cases hs
    obtain ⟨c₁, hw, hh⟩ := writes (d := [x]) hf (show 1 < 2 ^ 16 by decide)
    exact ⟨c₁, by simp only [driver, step, eeWrite8, hw, Option.map_some], hh⟩
  | write16 addr x =>
    cases hs
    obtain ⟨c₁, hw, hh⟩ := writes (d := bytes16 x) hf (show 2 < 2 ^ 16 by decide)
    exact ⟨c₁, by simp only [driver, step, eeWrite16, hw, Option.map_some], hh⟩
  | write32 addr x =>
    cases hs
    obtain ⟨c₁, hw, hh⟩ := writes (d := bytes32 x) hf (show 4 < 2 ^ 16 by decide)
    exact ⟨c₁, by simp only [driver, step, eeWrite32, hw, Option.map_some], hh⟩

theorem memory_step {e : Event} : ∃ m₁ o, memory.step m e = some (m₁, o) := by
  obtain ⟨call, cycle⟩ := e
  cases call <;> exact ⟨_, _, rfl⟩

-- In every run of calls the driver comes to its end, however often the EEPROM is busy with a page, and it
-- returns what a memory returns that is written page by page.
theorem driver_law {es : List Event} (hc : c.cycle < turns)
    (h : ∀ e ∈ es, e.call.Fits ∧ e.cycle < turns) :
    ∃ m₁ c₁ t, memory.run c.mem es = some (m₁, t) ∧ (driver turns).run c es = some (c₁, t) ∧ c₁.mem = m₁ := by
  obtain ⟨m₁, t, hm⟩ : ∃ m₁ t, memory.run c.mem es = some (m₁, t) :=
    Machine.run_exists fun m e => memory_step
  have g : memory.Guarded (fun _ e => e.call.Fits ∧ e.cycle < turns) c.mem es := Machine.Guarded.of_forall h
  obtain ⟨c₁, hr, hh⟩ := Machine.run_simulation (R := Holds turns) (C := driver turns) step_refines ⟨rfl, hc⟩ g hm
  exact ⟨m₁, c₁, t, hm, hr, hh.mem⟩

instance {call : Call} : Decidable call.Fits :=
  match call with
  | .read .. | .write .. => inferInstanceAs <| Decidable (_ ∧ _)
  | .read8 _ | .read16 _ | .read32 _ => inferInstanceAs <| Decidable (_ ≤ _)
  | .write8 .. | .write16 .. | .write32 .. => inferInstanceAs <| Decidable (_ < _)

-- A word whose write goes on at the start of its page, while the page before it is still being written
def wrapping : List Event :=
  [⟨.write8 0x3F 1, 3⟩, ⟨.write32 0x7E 0x01020304, 5⟩, ⟨.read32 0x7E, 0⟩, ⟨.read 0x3E 4, 0⟩]

theorem driver_law_wrapping : (∀ e ∈ wrapping, e.call.Fits ∧ e.cycle < 6) ∧
    ∃ m₁ c₁ t, memory.run (fun _ => 0xFF) wrapping = some (m₁, t) ∧
      (driver 6).run ⟨fun _ => 0xFF, 0, .idle, 2⟩ wrapping = some (c₁, t) ∧ c₁.mem = m₁ := by
  have h : ∀ e ∈ wrapping, e.call.Fits ∧ e.cycle < 6 := by decide +kernel
  exact ⟨h, driver_law (c := ⟨fun _ => 0xFF, 0, .idle, 2⟩) (by decide) h⟩

end Bus
