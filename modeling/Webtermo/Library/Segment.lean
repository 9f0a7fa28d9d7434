import Mathlib

-- Parts of a list that are bounded by separators

variable [DecidableEq α] {c : α} {a b l s : List α}

theorem ne_separator (h : c ∉ a) : ∀ x ∈ a, decide (x ≠ c) = true := by
  simpa using fun x hx => ne_of_mem_of_not_mem hx h

theorem takeWhile_separator (h : c ∉ a) : (a ++ c :: b).takeWhile (· ≠ c) = a := by
  rw [List.takeWhile_append_of_pos <| ne_separator h]
  simp

theorem dropWhile_separator (h : c ∉ a) : (a ++ c :: b).dropWhile (· ≠ c) = c :: b := by
  rw [List.dropWhile_append_of_pos <| ne_separator h]
  simp

theorem dropWhile_of_not_mem (h : c ∉ l) : l.dropWhile (· ≠ c) = [] := by
  simpa [List.dropWhile_eq_nil_iff] using fun x hx => ne_of_mem_of_not_mem hx h

-- The part between the first two separators
def between (c : α) (l : List α) : Option (List α) :=
  let r := (l.dropWhile (· ≠ c)).tail
  if c ∈ r then some (r.takeWhile (· ≠ c)) else none

theorem between_of_not_mem (h : c ∉ l) : between c l = none := by
  rw [between, dropWhile_of_not_mem h]
  simp

theorem between_eq_some_iff :
    between c l = some s ↔ ∃ a b, l = a ++ c :: (s ++ c :: b) ∧ c ∉ a ∧ c ∉ s := by
  constructor
  case mp =>
    intro h
    by_cases hl : c ∈ l
    case pos =>
      have ⟨a, r, hl, ha⟩ := List.eq_append_cons_of_mem hl
      simp only [between, hl, dropWhile_separator ha, List.tail_cons] at h
      split at h
      case isFalse => cases h
      case isTrue hr =>
        have ⟨s, b, hr, hs⟩ := List.eq_append_cons_of_mem hr
        rw [hr, takeWhile_separator hs, Option.some.injEq] at h
        exact ⟨a, b, by rw [hl, hr, h], ha, h ▸ hs⟩
    case neg =>
      rw [between_of_not_mem hl] at h
      cases h
  case mpr =>
    intro ⟨a, b, hl, ha, hs⟩
    simp only [between, hl, dropWhile_separator ha, List.tail_cons, takeWhile_separator hs]
    simp
