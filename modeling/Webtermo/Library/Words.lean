import Mathlib

-- A memory of words by their addresses
abbrev Words (α : Type*) := Nat → α

namespace Words

variable {m : Words α}

def write (m : Words α) (addr : Nat) (x : α) : Words α :=
  Function.update m addr x

def writes (m : Words α) (ws : List (Nat × α)) : Words α :=
  ws.foldl (fun m w => m.write w.1 w.2) m

-- A loop that moves each of the first `n` words of a row to the place of the word before it
def shift (m : Words α) (row : Nat → Nat) (n : Nat) : Words α :=
  (List.range n).foldl (fun m i => m.write (row i) (m (row (i + 1)))) m

-- Addresses that are different when they are sorted are different.
theorem nodup_of_sorted {l : List Nat} (h : (l.insertionSort (· ≤ ·)).IsChain (· < ·)) : l.Nodup :=
  List.perm_insertionSort (· ≤ ·) l |>.nodup_iff.mp <|
    (List.isChain_iff_pairwise.mp h).imp Nat.ne_of_lt

@[simp]
theorem write_self : m.write a x a = x :=
  Function.update_self ..

theorem write_of_ne (h : a ≠ b) : m.write b x a = m a :=
  Function.update_of_ne h ..

theorem writes_append : m.writes (ws ++ vs) = (m.writes ws).writes vs :=
  List.foldl_append

theorem writes_frame (h : ∀ w ∈ ws, w.1 ≠ a) : m.writes ws a = m a := by
  induction ws generalizing m with
  | nil => rfl
  | cons w ws ih =>
    have ⟨hw, hs⟩ := List.forall_mem_cons.mp h
    exact (ih hs).trans <| write_of_ne hw.symm

theorem writes_congr {m₁ : Words α} (h : m₁ a = m a) : m₁.writes ws a = m.writes ws a := by
  induction ws generalizing m m₁ with
  | nil => exact h
  | cons w ws ih =>
    refine ih ?_
    change m₁.write w.1 w.2 a = m.write w.1 w.2 a
    by_cases ha : a = w.1
    case pos => rw [ha, write_self, write_self]
    case neg => rw [write_of_ne ha, write_of_ne ha, h]

-- An address that is only ever given one value has it in the end.
theorem writes_const (h : ∀ w ∈ ws, w.1 = a → w.2 = x) (hm : ∃ w ∈ ws, w.1 = a) :
    m.writes ws a = x := by
  induction ws generalizing m with
  | nil =>
    have ⟨_, hw, _⟩ := hm
    nomatch hw
  | cons w ws ih =>
    have ⟨hw, hs⟩ := List.forall_mem_cons.mp h
    by_cases ho : ∃ w ∈ ws, w.1 = a
    case pos => exact ih hs ho
    case neg =>
      have ⟨v, hv, ha⟩ := hm
      cases hv with
      | head =>
        have hf : ∀ u ∈ ws, u.1 ≠ a := fun u hu he => ho ⟨u, hu, he⟩
        rw [← hw ha]
        exact (writes_frame hf).trans <| ha ▸ write_self
      | tail _ hv => exact absurd ⟨v, hv, ha⟩ ho

theorem shift_succ :
    m.shift row (n + 1) = (m.shift row n).write (row n) (m.shift row n (row (n + 1))) := by
  simp [shift, List.range_succ]

theorem shift_frame (h : ∀ i < n, a ≠ row i) : m.shift row n a = m a := by
  induction n with
  | zero => rfl
  | succ n ih =>
    rw [shift_succ, write_of_ne (h n (Nat.lt_succ_self n))]
    exact ih fun i hi => h i (Nat.lt_succ_of_lt hi)

-- The loop goes upwards, so each word is moved before it is overwritten.
theorem shift_row (hr : Function.Injective row) (hi : i < n) :
    m.shift row n (row i) = m (row (i + 1)) := by
  induction n with
  | zero => nomatch hi
  | succ n ih =>
    rw [shift_succ]
    by_cases he : i = n
    case pos =>
      rw [he, write_self]
      exact shift_frame fun j hj hn => by have := hr hn; omega
    case neg => rw [write_of_ne fun h => he (hr h), ih (by omega)]

def read (m : Words α) : Nat → Nat → List α
  | _,    0     => []
  | addr, n + 1 => m addr :: m.read (addr + 1) n

-- The memory with a row of words put at an address
def place (m : Words α) (addr : Nat) (xs : List α) : Words α :=
  fun a => if addr ≤ a then xs[a - addr]?.getD (m a) else m a

variable {xs : List α}

theorem place_nil : m.place addr [] = m := by
  funext a
  simp [place]

theorem place_frame (h : a < addr ∨ addr + xs.length ≤ a) : m.place addr xs a = m a := by
  unfold place
  split
  case isTrue ha =>
    have : xs.length ≤ a - addr := by omega
    rw [List.getElem?_eq_none this, Option.getD_none]
  case isFalse => rfl

theorem place_last : m.place addr (xs ++ [x]) (addr + xs.length) = x := by
  simp [place]

theorem place_append_frame (h : a ≠ addr + xs.length) : m.place addr (xs ++ [x]) a = m.place addr xs a := by
  unfold place
  split
  case isTrue ha =>
    by_cases hl : a - addr < xs.length
    case pos => rw [List.getElem?_append_left hl]
    case neg =>
      rw [List.getElem?_eq_none (by simp; omega), List.getElem?_eq_none (by omega)]
  case isFalse => rfl

theorem place_concat : (m.place addr xs).write (addr + xs.length) x = m.place addr (xs ++ [x]) := by
  funext a
  by_cases ha : a = addr + xs.length
  case pos => rw [ha, write_self, place_last]
  case neg => rw [write_of_ne ha, place_append_frame ha]

theorem place_write_last :
    (m.place addr (xs ++ [y])).write (addr + xs.length) x = m.place addr (xs ++ [x]) := by
  funext a
  by_cases ha : a = addr + xs.length
  case pos => rw [ha, write_self, place_last]
  case neg => rw [write_of_ne ha, place_append_frame ha, place_append_frame ha]

theorem read_place : (m.place addr xs).read addr xs.length = xs := by
  suffices h : ∀ ys, (m.place addr (ys ++ xs)).read (addr + ys.length) xs.length = xs from h []
  induction xs with
  | nil => exact fun _ => rfl
  | cons x xs ih =>
    intro ys
    have hx : m.place addr (ys ++ x :: xs) (addr + ys.length) = x := by simp [place]
    have := ih (ys ++ [x])
    simp only [List.append_assoc, List.singleton_append, List.length_append, List.length_singleton,
      ← Nat.add_assoc] at this
    rw [List.length_cons, read, hx, this]

end Words
