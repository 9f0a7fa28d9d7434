import Webtermo.Library.Paged

-- NOR memory, where programming clears bits and only erasing a block sets them again
namespace Nor

variable {m : Memory} {a x : Nat} {d : Bytes}

def program (m : Memory) (a : Nat) (d : Bytes) : Memory :=
  fun x => m x &&& if a ≤ x then d.getD (x - a) 0xFF else 0xFF

def erase (m : Memory) (size block : Nat) : Memory :=
  fun x => if x / size = block then 0xFF else m x

theorem and_ff (b : UInt8) : b &&& 0xFF = b := by
  exact UInt8.toBitVec_inj.mp <| BitVec.and_allOnes

-- A byte that is not in the range keeps its value.
theorem program_frame (h : x < a ∨ a + d.length ≤ x) : program m a d x = m x := by
  simp only [program]
  split
  case isFalse => exact and_ff _
  case isTrue ha =>
    rw [List.getD_eq_default _ _ (by omega)]
    exact and_ff _

-- A chip that gathers the bytes of a page, and programs the whole page with 1s for the other bytes
def programPage (m : Memory) (page a : Nat) (d : Bytes) : Memory :=
  fun x => m x &&& Memory.writePage (fun _ => 0xFF) page a d x

-- It programs the range if this does not leave its page.
theorem programPage_eq (h : Memory.InPage page a d.length) :
    programPage m page a d = program m a d := by
  funext x
  simp only [programPage, program]
  congr 1
  split
  case isFalse ha => exact Memory.writePage_frame_of_inPage h (by omega)
  case isTrue ha =>
    obtain hx | hx : x - a < d.length ∨ d.length ≤ x - a := by omega
    · have := Memory.writePage_get (m := fun _ => 0xFF) h hx
      rw [Nat.add_sub_cancel' ha] at this
      rw [this, List.getD_eq_getElem _ _ hx]
    · rw [List.getD_eq_default _ _ hx]
      exact Memory.writePage_frame_of_inPage h (by omega)

end Nor
