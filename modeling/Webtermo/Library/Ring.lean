import Webtermo.Library.Paged

-- A ring of bytes. The places of the ring are numbered on and on, and a memory holds the place `o` at
-- its address `o % size`.
namespace Ring

variable {m : Memory} {size o a n : Nat} {d : Bytes}

def read (m : Memory) (size o n : Nat) : Bytes :=
  (List.range n).map fun i => m ((o + i) % size)

def write (m : Memory) (size o : Nat) : Bytes → Memory
  | []     => m
  | b :: d => write (Function.update m (o % size) b) size (o + 1) d

@[simp] theorem read_length : (read m size o n).length = n := by
  simp [read]

theorem read_mod : read m size (o % size) n = read m size o n := by
  simp [read, Nat.add_mod]

theorem write_mod : write m size (o % size) d = write m size o d := by
  induction d generalizing m o with
  | nil => rfl
  | cons b d ih =>
    rw [write, write, Nat.mod_mod, ← ih (o := o % size + 1), ← ih (o := o + 1), Nat.mod_add_mod]

theorem read_add : read m size o (n + k) = read m size o n ++ read m size (o + n) k := by
  simp [read, List.range_add, Function.comp_def, Nat.add_assoc]

-- Places less than a round apart have different addresses.
theorem mod_ne {x y : Nat} (h : x < y) (hs : y < x + size) : x % size ≠ y % size := by
  intro he
  have hd : size ∣ y - x := (Nat.modEq_iff_dvd' h.le).mp he
  have := Nat.le_of_dvd (by omega) hd
  omega

theorem write_other {x : Nat} (h : ∀ i < d.length, x % size ≠ (o + i) % size) :
    write m size o d (x % size) = m (x % size) := by
  induction d generalizing m o with
  | nil => rfl
  | cons b d ih =>
    rw [write, ih fun i hi => ?_]
    · exact Function.update_of_ne (h 0 (by simp)) ..
    · have := h (i + 1) (by simpa using hi)
      rwa [Nat.add_comm i, ← Nat.add_assoc] at this

theorem write_get (h : d.length ≤ size) (hi : i < d.length) :
    write m size o d ((o + i) % size) = d[i] := by
  induction d generalizing m o i with
  | nil => simp at hi
  | cons b d ih =>
    simp only [List.length_cons] at h hi
    cases i with
    | zero =>
      rw [write, Nat.add_zero, write_other fun j hj => mod_ne (by omega) (by omega)]
      simp
    | succ i =>
      have := ih (m := Function.update m (o % size) b) (o := o + 1) (by omega) (i := i) (by omega)
      rw [write, List.getElem_cons_succ, ← this]
      congr 2
      omega

theorem read_write (h : d.length ≤ size) : read (write m size o d) size o d.length = d :=
  List.ext_getElem (by simp) fun i _ hi => by simp [read, write_get h hi]

-- A write leaves alone what lies before it within a round.
theorem read_write_before (h : a + n ≤ o) (hs : o + d.length ≤ a + size) :
    read (write m size o d) size a n = read m size a n :=
  List.map_congr_left fun i hi => write_other fun j hj => by
    have hi := List.mem_range.mp hi
    exact mod_ne (by omega) (by omega)

end Ring
