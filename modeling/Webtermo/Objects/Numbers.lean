import Webtermo.Library.Decimal
import Webtermo.Objects.Parsers

open Decimal

-- What the parsers make of runs of digits
namespace Numbers

variable {t l ct : Bytes} {c : UInt8}

theorem isDigit_iff : isDigit c ↔ Digit c := by
  simp [isDigit, Digit]

-- The digits of a text end at the first other character.
theorem takeWhile_stop (h : Digits ct) (hc : ¬Digit c) : (ct ++ c :: l).takeWhile isDigit = ct := by
  rw [List.takeWhile_append_of_pos fun x hx => isDigit_iff.mpr (h x hx), List.takeWhile_cons_of_neg]
  · exact List.append_nil ct
  · rwa [isDigit_iff]

theorem takeWhile_all (h : Digits ct) : ct.takeWhile isDigit = ct :=
  List.takeWhile_eq_self_iff.mpr fun x hx => isDigit_iff.mpr (h x hx)

-- A text is a run of digits and something that does not go on with one.
theorem exists_run (t : Bytes) : ∃ ct u, t = ct ++ u ∧ Digits ct ∧ ∀ c ∈ u.head?, ¬Digit c := by
  refine ⟨t.takeWhile isDigit, t.dropWhile isDigit, ?_, ?_, ?_⟩
  · exact List.takeWhile_append_dropWhile.symm
  · exact fun c hc => isDigit_iff.mp <| List.mem_takeWhile_imp hc
  · intro c hc hd
    have := List.head?_dropWhile_not isDigit t
    rw [hc] at this
    simp [isDigit_iff.mpr hd] at this

theorem atoiDigits_of_lt (h : value t < 2 ^ 31) : atoiDigits t = value t := by
  rw [atoiDigits, ← value_eq_foldl]
  omega

theorem atoiDigits_eq (h : Digits t) (hl : t.length ≤ 5) : atoiDigits t = value t := by
  have := value_lt h
  have : 10 ^ t.length ≤ 10 ^ 5 := Nat.pow_le_pow_right (by decide) hl
  exact atoiDigits_of_lt <| by omega

-- A text consists of digits exactly if no other character ends them.
theorem digits_iff : Digits t ↔ t.length ≤ (t.takeWhile isDigit).length := by
  constructor
  case mp => exact fun h => by rw [takeWhile_all h]
  case mpr =>
    intro h c hc
    rw [← (List.takeWhile_prefix _).eq_of_length_le h] at hc
    exact isDigit_iff.mp <| List.mem_takeWhile_imp hc

-- `atoi` of digits in front of another character
theorem atoi_digits (h : Digits t) (hn : t ≠ []) (hc : ¬Digit c) :
    atoi (t ++ c :: l) = atoiDigits t := by
  obtain ⟨x, u, rfl⟩ := List.exists_cons_of_ne_nil hn
  obtain ⟨hx, -⟩ := List.forall_mem_cons.mp h
  have hs : ∀ x : UInt8, Digit x → isSpace x = false ∧ x ≠ 45 ∧ x ≠ 43 :=
    forall_byte <| by decide +kernel
  obtain ⟨hs, h₁, h₂⟩ := hs x hx
  rw [atoi, List.cons_append, List.dropWhile_cons_of_neg <| by simp [hs]]
  split
  case h_1 _ _ he => exact absurd (List.cons.inj he).1 h₁
  case h_2 _ _ he => exact absurd (List.cons.inj he).1 h₂
  case h_3 => rw [← List.cons_append, takeWhile_stop h hc]

end Numbers
