import Webtermo.Library.Buffer

-- Decimal numbers as texts
namespace Decimal

def Digit (c : UInt8) : Prop :=
  48 ≤ c ∧ c ≤ 57

def Digits (t : Bytes) : Prop :=
  ∀ c ∈ t, Digit c

instance : DecidablePred Digit :=
  fun c => inferInstanceAs <| Decidable (48 ≤ c ∧ c ≤ 57)

instance : DecidablePred Digits :=
  fun t => inferInstanceAs <| Decidable (∀ c ∈ t, Digit c)

-- The number that a text of digits stands for
def value (t : Bytes) : Nat :=
  Nat.ofDigits 10 <| t.reverse.map fun c => c.toNat - 48

-- The text of a byte, as `%d` prints it
def print (b : UInt8) : Bytes :=
  ascii (toString b.toNat)

variable {t s l : Bytes} {c : UInt8} {p : UInt8 → Bool}

theorem Digit.lt (h : Digit c) : c.toNat - 48 < 10 := by
  simp only [Digit, UInt8.le_iff_toNat_le, UInt8.reduceToNat] at h
  omega

theorem Digits.append : Digits (s ++ t) ↔ Digits s ∧ Digits t :=
  List.forall_mem_append

theorem value_concat : value (t ++ [c]) = 10 * value t + (c.toNat - 48) := by
  simp only [value, List.reverse_append, List.reverse_singleton, List.singleton_append,
    List.map_cons, Nat.ofDigits_cons]
  omega

theorem value_append : value (s ++ t) = value s * 10 ^ t.length + value t := by
  simp only [value, List.reverse_append, List.map_append, Nat.ofDigits_append, List.length_map,
    List.length_reverse]
  rw [Nat.add_comm, Nat.mul_comm]

theorem value_eq_foldl : value t = t.foldl (fun n c => 10 * n + (c.toNat - 48)) 0 := by
  induction t using List.reverseRecOn with
  | nil => rfl
  | append_singleton t c ih =>
    rw [value_concat, List.foldl_append, ih]
    rfl

theorem value_lt (h : Digits t) : value t < 10 ^ t.length := by
  have hb : ∀ n ∈ t.reverse.map fun c => c.toNat - 48, n < 10 := by
    intro n hn
    obtain ⟨c, hc, rfl⟩ := List.mem_map.mp hn
    exact (h c <| List.mem_reverse.mp hc).lt
  have := Nat.ofDigits_lt_base_pow_length (by decide) hb
  rwa [List.length_map, List.length_reverse] at this

-- The text of a number in general, of which `print` is a case

theorem toNat_of_mem {d : Char} (h : d ∈ Nat.toDigits 10 n) : 48 ≤ d.toNat ∧ d.toNat ≤ 57 := by
  have hd := Nat.isDigit_of_mem_toDigits (by decide) (by decide) h
  simp only [Char.isDigit, Bool.and_eq_true, decide_eq_true_eq] at hd
  exact ⟨hd.1, hd.2⟩

theorem ascii_toString : ascii (toString n) = (Nat.toDigits 10 n).map fun d => d.toNat.toUInt8 := by
  have encode (d : Char) (h : d ∈ Nat.toDigits 10 n) :
      String.utf8EncodeChar d = [d.toNat.toUInt8] := by
    refine String.utf8EncodeChar_eq_singleton ?_
    simp only [Char.utf8Size, ite_eq_left_iff]
    exact fun hn => absurd (Nat.le_trans (toNat_of_mem h).2 (by decide)) hn
  rw [ascii, Nat.toString_eq_ofList_toDigits, String.toByteArray_ofList, List.utf8Encode,
    List.flatMap_congr encode, List.map_eq_flatMap, List.data_toByteArray]

theorem print_eq : print c = (Nat.toDigits 10 c.toNat).map fun d => d.toNat.toUInt8 :=
  ascii_toString

theorem digits_toString (n : Nat) : Digits (ascii (toString n)) := by
  intro c hc
  rw [ascii_toString] at hc
  obtain ⟨d, hd, rfl⟩ := List.mem_map.mp hc
  obtain ⟨h₁, h₂⟩ := toNat_of_mem hd
  simp [Digit, UInt8.le_iff_toNat_le]
  omega

theorem digits_print (b : UInt8) : Digits (print b) :=
  digits_toString _

theorem print_length (b : UInt8) : 1 ≤ (print b).length ∧ (print b).length ≤ 3 := by
  rw [print_eq, List.length_map]
  refine ⟨Nat.length_toDigits_pos, Nat.length_toDigits_le_iff (by decide) (by decide) |>.mpr ?_⟩
  exact Nat.lt_trans b.toNat_lt (by decide)

theorem foldl_toDigits {l : List Char} (h : ∀ d ∈ l, 48 ≤ d.toNat ∧ d.toNat ≤ 57) (k : Nat) :
    (l.map fun d => d.toNat.toUInt8).foldl (fun n c => 10 * n + (c.toNat - 48)) k =
      Nat.ofDigitChars 10 l k := by
  induction l generalizing k with
  | nil => rfl
  | cons d l ih =>
    obtain ⟨hd, hl⟩ := List.forall_mem_cons.mp h
    have : d.toNat.toUInt8.toNat = d.toNat := by
      simp
      omega
    rw [List.map_cons, List.foldl_cons, ih hl, this]
    rfl

theorem value_print (b : UInt8) : value (print b) = b.toNat := by
  rw [value_eq_foldl, print_eq, foldl_toDigits fun _ => toNat_of_mem, Nat.ofDigitChars_ten_toDigits]

end Decimal
