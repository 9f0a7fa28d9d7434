import Mathlib

-- The first occurrence of a list in another one, from a given position on
namespace Find

variable {key l r : List α} {start p q : Nat}

structure First (key l : List α) (start p : Nat) : Prop where
  le     : start ≤ p
  occurs : key <+: l.drop p
  least  : ∀ q, start ≤ q → q < p → ¬key <+: l.drop q

theorem occurs_le (hk : key ≠ []) (h : key <+: l.drop p) : p + key.length ≤ l.length := by
  have hl := h.length_le
  have := List.length_pos_iff.mpr hk
  rw [List.length_drop] at hl
  omega

theorem occurs_append (hl : p + key.length ≤ l.length) :
    key <+: (l ++ r).drop p ↔ key <+: l.drop p := by
  rw [List.drop_append_of_le_length (by omega)]
  constructor
  case mp => exact fun h => List.prefix_of_prefix_length_le h (List.prefix_append ..) (by simp; omega)
  case mpr => exact fun h => h.trans <| List.prefix_append ..

theorem First.append (hk : key ≠ []) (f : First key l start p) : First key (l ++ r) start p where
  le     := f.le
  occurs := occurs_append (occurs_le hk f.occurs) |>.mpr f.occurs
  least  := by
    intro q hs hq
    have := occurs_le hk f.occurs
    exact mt (occurs_append (by omega)).mp <| f.least q hs hq

theorem First.of_append (f : First key (l ++ r) start p) (hl : p + key.length ≤ l.length) :
    First key l start p where
  le     := f.le
  occurs := occurs_append hl |>.mp f.occurs
  least  := by
    intro q hs hq
    exact mt (occurs_append (by omega)).mpr <| f.least q hs hq

variable [DecidableEq α]

def find (key l : List α) (start : Nat) : Option Nat :=
  (List.range' start (l.length + 1 - (key.length + start))).find? fun i => key.isPrefixOf (l.drop i)

theorem find_eq_some_iff (hk : key ≠ []) : find key l start = some p ↔ First key l start p := by
  simp only [find, List.find?_range'_eq_some, List.isPrefixOf_iff_prefix, Bool.not_eq_true']
  constructor
  case mp =>
    rintro ⟨ho, hm, hl⟩
    have hm := List.mem_range'_1.mp hm
    refine ⟨hm.1, ho, fun q hs hq hp => ?_⟩
    have := hl q hs hq
    rw [← Bool.not_eq_true, List.isPrefixOf_iff_prefix] at this
    exact this hp
  case mpr =>
    intro f
    have := occurs_le hk f.occurs
    have := f.le
    refine ⟨f.occurs, List.mem_range'_1.mpr (by omega), fun q hs hq => ?_⟩
    rw [← Bool.not_eq_true, List.isPrefixOf_iff_prefix]
    exact f.least q hs hq

theorem find_eq_none_iff (hk : key ≠ []) :
    find key l start = none ↔ ∀ q, start ≤ q → ¬key <+: l.drop q := by
  simp only [find, List.find?_eq_none, List.isPrefixOf_iff_prefix]
  constructor
  case mp =>
    intro h q hs hp
    have := occurs_le hk hp
    exact h q (List.mem_range'_1.mpr <| by omega) hp
  case mpr => exact fun h q hq => h q (List.mem_range'_1.mp hq).1

-- What is found in a first part of a text is what is found in all of it, if it lies in that part.
theorem find_left (hk : key ≠ []) :
    find key l start = (find key (l ++ r) start).filter (· + key.length ≤ l.length) := by
  cases h : find key l start with
  | some p =>
    have f := find_eq_some_iff hk |>.mp h
    have := occurs_le hk f.occurs
    have hf : find key (l ++ r) start = some p := find_eq_some_iff hk |>.mpr <| f.append hk
    rw [hf, Option.filter_some_pos <| by simpa using this]
  | none =>
    have h := find_eq_none_iff hk |>.mp h
    cases hf : find key (l ++ r) start with
    | none => rfl
    | some p =>
      have f := find_eq_some_iff hk |>.mp hf
      have : ¬p + key.length ≤ l.length := fun hl => h p f.le (f.of_append hl).occurs
      exact (Option.filter_eq_none_iff.mpr <| by simpa using this).symm

end Find
