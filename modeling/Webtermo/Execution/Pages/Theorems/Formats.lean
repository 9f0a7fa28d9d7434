import Webtermo.Execution.Pages.Table
import Webtermo.Library.Decimal

namespace Pages

open Xml (Clean)

variable {env : Env} {ans : Answers} {v : Value}

-- No array of the generators is as short as 49 bytes.
def maxText : Nat := 48

theorem Arr.cap_gt (a : Arr) : maxText < a.cap := by
  cases a <;> decide

-- A short text without markup and without a NUL
structure Plain (n : Nat) (t : Bytes) : Prop where
  clean : Clean t
  nul   : 0 ∉ t
  short : t.length ≤ n

instance : Decidable (Plain n t) :=
  decidable_of_iff (Clean t ∧ 0 ∉ t ∧ t.length ≤ n)
    ⟨fun h => ⟨h.1, h.2.1, h.2.2⟩, fun h => ⟨h.1, h.2, h.3⟩⟩

theorem Plain.mono (h : Plain m t) (hn : m ≤ n) : Plain n t :=
  ⟨h.clean, h.nul, Nat.le_trans h.short hn⟩

theorem Plain.append (h₁ : Plain m s) (h₂ : Plain n t) : Plain (m + n) (s ++ t) where
  clean := by simp [Clean, h₁.clean.1, h₁.clean.2, h₂.clean.1, h₂.clean.2]
  nul   := by simp [h₁.nul, h₂.nul]
  short := by simpa using Nat.add_le_add h₁.short h₂.short

theorem Plain.nil : Plain n [] :=
  ⟨by decide, by decide, Nat.zero_le n⟩

theorem Plain.cons (hc : Plain 1 [c]) (h : Plain n t) : Plain (n + 1) (c :: t) :=
  Nat.add_comm 1 n ▸ hc.append h

theorem Plain.sublist (h : Plain n t) (hs : s.Sublist t) : Plain n s :=
  ⟨⟨fun hm => h.clean.1 <| hs.subset hm, fun hm => h.clean.2 <| hs.subset hm⟩,
    fun hm => h.nul <| hs.subset hm, Nat.le_trans hs.length_le h.short⟩

theorem Plain.flatMap {l : List α} {f : α → Bytes} (h : ∀ x ∈ l, Plain n (f x)) :
    Plain (l.length * n) (l.flatMap f) := by
  induction l with
  | nil => exact .nil
  | cons x l ih =>
    have ⟨hx, hl⟩ := List.forall_mem_cons.mp h
    rw [List.length_cons, Nat.add_mul, Nat.one_mul, Nat.add_comm]
    exact hx.append <| ih hl

theorem dec_digit (h : b ∈ dec n) : Decimal.Digit b := by
  rw [dec, ← Decimal.ascii_toString] at h
  exact Decimal.digits_toString n b h

theorem dec_plain (h : n < 10 ^ k) (hk : 0 < k) : Plain k (dec n) where
  clean := ⟨fun hm => absurd (dec_digit hm) (by decide), fun hm => absurd (dec_digit hm) (by decide)⟩
  nul   := fun hm => absurd (dec_digit hm) (by decide)
  short := by simpa [dec] using (Nat.length_toDigits_le_iff (by decide) hk).mpr h

theorem decInt_plain (h : n.natAbs < 10 ^ k) (hk : 0 < k) : Plain (k + 1) (decInt n) := by
  unfold decInt
  split
  case isTrue => exact .cons (by decide) <| dec_plain h hk
  case isFalse => exact (dec_plain h hk).mono <| Nat.le_succ k

theorem Int8.natAbs_lt (x : Int8) : x.toInt.natAbs < 10 ^ 3 := by
  have := x.toInt_lt
  have := x.le_toInt
  omega

theorem tempText_plain : Plain 5 (tempText x) := by
  unfold tempText
  split
  case isTrue => exact .cons (by decide) <| decInt_plain (Int8.natAbs_lt _) (by decide)
  case isFalse => exact (decInt_plain (Int8.natAbs_lt _) (by decide)).mono (by decide)

theorem digit_plain : Plain 1 [MyFtoa.digit n] := by
  have : ∀ m : Fin 10, Plain 1 ['0'.toNat.toUInt8 + m.val.toUInt8] := by decide
  exact this ⟨n % 10, Nat.mod_lt _ (by decide)⟩

theorem intPart_plain (h : n < 10 ^ k) : Plain k (MyFtoa.intPart fuel n) := by
  induction fuel generalizing n k with
  | zero => exact .nil
  | succ fuel ih =>
    unfold MyFtoa.intPart
    split
    case isTrue => exact .nil
    case isFalse hn =>
      cases k with
      | zero => omega
      | succ k => exact (ih <| by omega).append digit_plain

theorem decimals_plain : Plain precision (MyFtoa.decimals precision f) := by
  induction precision generalizing f with
  | zero => exact .nil
  | succ n ih =>
    have h := digit_plain (n := (f * 10).floor.toNat) |>.append <| ih (f := f * 10 - (f * 10).floor)
    exact h.mono <| by omega

theorem ftoa_plain (h : ftoa f precision = some t) : Plain (12 + precision) t := by
  simp only [ftoa, Option.ite_none_right_eq_some, Option.some.injEq] at h
  have ⟨hf, ht⟩ := h
  have hfloor := Rat.floor_lt_iff (x := 2 ^ 31) |>.mpr <| by exact_mod_cast hf
  generalize he : ((if f < 0 then -f else f) + if precision = 0 then 0 else
    MyFtoa.rounders precision) = g at hfloor
  simp only [myFtoa, he] at ht
  have sign : Plain 1 (if f < 0 then ascii "-" else []) := by
    split
    case isTrue => decide
    case isFalse => exact .nil
  have int : Plain 10 (if g.floor.toNat = 0 then ascii "0" else
      MyFtoa.intPart g.floor.toNat g.floor.toNat) := by
    split
    case isTrue => decide
    case isFalse => exact intPart_plain <| by omega
  have point {x : ℚ} : Plain (1 + precision) (if precision = 0 then [] else
      ascii "." ++ MyFtoa.decimals precision x) := by
    split
    case isTrue => exact .nil
    case isFalse => exact Plain.append (by decide) decimals_plain
  exact ht ▸ (sign.append int |>.append point).mono (by omega)

theorem hexDigit_plain (h : n < 16) : Plain 1 [hexDigit n] := by
  have : ∀ m : Fin 16, Plain 1 [hexDigit m.val.toUInt8] := by decide
  simpa using this ⟨n.toNat, h⟩

theorem hextoascii_plain : Plain 2 (hextoascii c) := by
  have h₁ : c >>> 4 < 16 := by
    have := c.toNat_lt
    rw [UInt8.lt_iff_toNat_lt, UInt8.toNat_shiftRight, Nat.shiftRight_eq_div_pow]
    exact Nat.div_lt_of_lt_mul this
  have h₂ : c &&& 15 < 16 := by
    rw [UInt8.lt_iff_toNat_lt, UInt8.toNat_and]
    exact Nat.lt_of_le_of_lt Nat.and_le_right (by decide)
  exact (hexDigit_plain h₁).append <| hexDigit_plain h₂

theorem hex_plain : Plain 2 (hex c) := by
  unfold hex
  split
  case isTrue h => exact (hexDigit_plain h).mono (by decide)
  case isFalse => exact hextoascii_plain

namespace Value

-- The constants of a value are without markup, and there is room for it in the arrays.
def Static : Value → Prop
  | oneOf texts _    => ∀ t ∈ texts, Plain maxText t
  | fields l         => (∀ f ∈ l, Plain f.2.length f.2) ∧ (l.map fun f => 5 + f.2.length).sum ≤ maxText
  | ftoa _ precision => precision ≤ 2
  | _                => True

instance : (v : Value) → Decidable v.Static
  | oneOf ..                         => inferInstanceAs <| Decidable (∀ _ ∈ _, _)
  | fields _                         => inferInstanceAs <| Decidable (_ ∧ _)
  | ftoa ..                          => inferInstanceAs <| Decidable (_ ≤ _)
  | number _ | temp _ | code _ | mac => isTrue trivial

theorem fields_plain {l : List ((Env → Answers → UInt16) × Bytes)}
    (h : ∀ f ∈ l, Plain f.2.length f.2) : Plain (l.map fun f => 5 + f.2.length).sum
      (l.flatMap fun f => dec (f.1 env ans).toNat ++ f.2) := by
  induction l with
  | nil => exact .nil
  | cons f l ih =>
    have ⟨hf, hl⟩ := List.forall_mem_cons.mp h
    have hd : Plain 5 (dec (f.1 env ans).toNat) :=
      dec_plain (Nat.lt_trans (UInt16.toNat_lt _) (by decide)) (by decide)
    exact (hd.append hf).append <| ih hl

theorem print_plain (hs : v.Static) (h : v.print env ans = some t) : Plain maxText t := by
  cases v with
  | oneOf texts i =>
    cases h
    cases ht : texts[i env ans]? with
    | none => simpa [List.getD, ht] using Plain.nil
    | some t => simpa [List.getD, ht] using hs t <| List.mem_of_getElem? ht
  | number n =>
    cases h
    have := (n env ans).toInt32.toInt_lt
    have := (n env ans).toInt32.le_toInt
    exact (decInt_plain (k := 10) (by omega) (by decide)).mono (by decide)
  | fields l =>
    cases h
    exact (fields_plain hs.1).mono hs.2
  | temp t =>
    cases h
    exact tempText_plain.mono (by decide)
  | ftoa f precision =>
    simp only [print, Option.bind_eq_bind, Option.bind_eq_some_iff] at h
    have ⟨_, _, h⟩ := h
    exact (ftoa_plain h).mono <| by simp only [Static] at hs; simp only [maxText]; omega
  | code c =>
    cases h
    refine (Plain.flatMap fun _ _ => hextoascii_plain).mono ?_
    simp [(c env ans).length_eq, maxText]
  | mac =>
    cases h
    have colon : Plain 1 [58] := by decide
    refine (Plain.flatMap (n := 3) fun v _ => ?_).sublist (List.dropLast_sublist _) |>.mono ?_
    · exact hex_plain.append colon
    · simp [env.macAddr.length_eq, maxText]

end Value

end Pages
