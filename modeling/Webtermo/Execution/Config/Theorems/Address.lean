import Webtermo.Execution.Config.Address
import Webtermo.Objects.Numbers

open Config Decimal Numbers

namespace Address

-- Runs of digits, each with a dot behind it
def dots (ds : List Bytes) : Bytes :=
  ds.flatMap (· ++ [46])

def octet (t : Bytes) : UInt8 :=
  (value t).toUInt8

structure Octet (t : Bytes) : Prop where
  digits : Digits t
  some   : 1 ≤ t.length
  short  : t.length ≤ 3
  value  : value t ≤ 255

-- Four octets with dots between them
def Quad (t octets : Bytes) : Prop :=
  ∃ ds d, ds.length = 3 ∧ (∀ x ∈ ds ++ [d], Octet x) ∧ t = dots ds ++ d ∧
    octets = (ds ++ [d]).map octet

variable {ds ds₁ : List Bytes} {d d₁ e t l r ct os : Bytes} {c : UInt8} {buf buf₁ : Buffer cap} {tb : Tb}

@[simp]
theorem dots_nil : dots [] = [] :=
  rfl

@[simp]
theorem dots_cons : dots (d :: ds) = d ++ 46 :: dots ds := by
  simp [dots]

-- A text that begins with runs of digits `ds` that dots follow, and a run `d`
structure Runs (t : Bytes) (ds : List Bytes) (d e : Bytes) : Prop where
  digits : ∀ x ∈ ds ++ [d], Digits x
  eq     : t = dots ds ++ (d ++ e)

namespace Runs

theorem nil_iff : Runs t [] d e ↔ Digits d ∧ t = d ++ e := by
  constructor
  case mp => exact fun h => ⟨h.digits d <| by simp, h.eq⟩
  case mpr => exact fun ⟨hd, he⟩ => ⟨by simpa using hd, he⟩

theorem cons_dot (h : Digits ct) : Runs (ct ++ 46 :: t) (d₁ :: ds) d e ↔ d₁ = ct ∧ Runs t ds d e := by
  constructor
  case mp =>
    intro hr
    obtain ⟨hd, hs⟩ := List.forall_mem_cons.mp hr.digits
    have he := hr.eq
    rw [dots_cons, List.append_assoc, List.cons_append] at he
    have hw := congrArg (List.takeWhile isDigit) he
    rw [takeWhile_stop h (by decide), takeWhile_stop hd (by decide)] at hw
    subst hw
    exact ⟨rfl, hs, by simpa using he⟩
  case mpr =>
    rintro ⟨rfl, hr⟩
    exact ⟨List.forall_mem_cons.mpr ⟨h, hr.digits⟩, by simp [hr.eq]⟩

theorem not_cons (h : Digits ct) (hu : ∀ c ∈ l.head?, ¬Digit c ∧ c ≠ 46) :
    ¬Runs (ct ++ l) (d₁ :: ds) d e := by
  intro hr
  obtain ⟨hd, _⟩ := List.forall_mem_cons.mp hr.digits
  have he := hr.eq
  rw [dots_cons, List.append_assoc, List.cons_append] at he
  have hw := congrArg (List.takeWhile isDigit) he
  rw [takeWhile_stop hd (by decide)] at hw
  cases l with
  | nil =>
    rw [List.append_nil, takeWhile_all h] at hw
    subst hw
    simp at he
  | cons c l =>
    obtain ⟨hc, hn⟩ := hu c rfl
    rw [takeWhile_stop h hc] at hw
    subst hw
    exact hn (List.cons.inj <| List.append_cancel_left he).1

-- A run that a text begins with is not longer than the longest one.
theorem length_le (h : Digits d) (hu : ∀ c ∈ l.head?, ¬Digit c) (he : ct ++ l = d ++ e) :
    d.length ≤ ct.length := by
  obtain ⟨a, rfl, rfl⟩ | ⟨a, rfl, -⟩ := List.append_eq_append_iff.mp he
  · cases a with
    | nil => simp
    | cons c a => exact absurd (h c <| by simp) (hu c rfl)
  · simp

end Runs

theorem loop_stop (h : Digits ct) (hc : ¬Digit c) (hn : c ≠ 46) :
    ipToFile.loop (k + 1) n (ct ++ c :: l) = if 5 < ct.length then none else some ([], false) := by
  rw [ipToFile.loop, takeWhile_stop h hc, List.drop_left]
  split
  · rfl
  · split <;> simp_all

theorem loop_dot (h : Digits ct) : ipToFile.loop (k + 1) n (ct ++ 46 :: l) =
    if 4 < ct.length then none
    else (ipToFile.loop k (n - ct.length - 1) l).map fun (octets, ok) => (octet ct :: octets, ok) := by
  simp only [ipToFile.loop, takeWhile_stop h (show ¬Digit 46 by decide), List.drop_left]
  split
  case isTrue => rw [if_pos (by omega)]
  case isFalse =>
    split
    case isTrue => rw [if_pos (by omega)]
    case isFalse =>
      rw [if_neg (by omega), atoiDigits_eq h (by omega)]
      rfl

theorem loop_last (h : Digits ct) (hu : ∀ c ∈ t.head?, ¬Digit c) :
    ipToFile.loop 0 (ct ++ t).length (ct ++ t ++ 0 :: r) =
      if 5 < ct.length then none
      else if t ≠ [] then some ([], false)
      else if ct.length = 5 then none
      else some ([octet ct], true) := by
  have hw : (ct ++ t).takeWhile isDigit = ct := by
    cases t with
    | nil => rw [List.append_nil, takeWhile_all h]
    | cons c t => exact takeWhile_stop h <| hu c rfl
  simp only [ipToFile.loop, List.take_left, hw]
  split
  case isTrue => rfl
  case isFalse hl =>
    cases t with
    | nil => simp [atoiDigits_eq h (Nat.le_of_not_lt hl), octet]
    | cons c t => simp

-- A run that `IPtoFile` comes to does not fit into `ct`, or leaves no room for its NUL.
def Long (k : Nat) (t : Bytes) : Prop :=
  ∃ ds d e, Runs t ds d e ∧ ds.length ≤ k ∧
    ((∃ x ∈ ds, 4 < x.length) ∨ 5 < d.length ∨ ds.length = k ∧ e = [] ∧ d.length = 5)

-- The text consists of runs that fit.
def Accepted (k : Nat) (t os : Bytes) : Prop :=
  ∃ ds d, Runs t ds d [] ∧ ds.length = k ∧ (∀ x ∈ ds ++ [d], x.length ≤ 4) ∧
    os = (ds ++ [d]).map octet

theorem long_zero_iff (h : Digits ct) (hu : ∀ c ∈ t.head?, ¬Digit c) :
    Long 0 (ct ++ t) ↔ 5 < ct.length ∨ t = [] ∧ ct.length = 5 := by
  constructor
  case mp =>
    rintro ⟨ds, d, e, hr, hl, hx⟩
    obtain rfl := List.length_eq_zero_iff.mp <| Nat.le_zero.mp hl
    obtain ⟨hd, he⟩ := Runs.nil_iff.mp hr
    have hle := Runs.length_le hd hu he
    obtain ⟨x, hx, _⟩ | h₅ | ⟨-, rfl, h₅⟩ := hx
    · exact absurd hx List.not_mem_nil
    · exact .inl <| Nat.lt_of_lt_of_le h₅ hle
    · have hs := congrArg List.length he
      simp only [List.length_append, List.length_nil] at hs
      exact .inr ⟨List.length_eq_zero_iff.mp <| by omega, by omega⟩
  case mpr =>
    have hr : Runs (ct ++ t) [] ct t := Runs.nil_iff.mpr ⟨h, rfl⟩
    rintro (h₅ | ⟨ht, h₅⟩)
    · exact ⟨[], ct, t, hr, Nat.le_refl 0, .inr <| .inl h₅⟩
    · exact ⟨[], ct, t, hr, Nat.le_refl 0, .inr <| .inr ⟨rfl, ht, h₅⟩⟩

theorem long_stop_iff (h : Digits ct) (hu : ∀ c ∈ t.head?, ¬Digit c ∧ c ≠ 46) :
    Long (k + 1) (ct ++ t) ↔ 5 < ct.length := by
  constructor
  case mp =>
    rintro ⟨ds, d, e, hr, -, hx⟩
    cases ds with
    | cons x ds => exact absurd hr <| Runs.not_cons h hu
    | nil =>
      obtain ⟨hd, he⟩ := Runs.nil_iff.mp hr
      obtain ⟨x, hx, _⟩ | h₅ | ⟨hk, _⟩ := hx
      · exact absurd hx List.not_mem_nil
      · exact Nat.lt_of_lt_of_le h₅ <| Runs.length_le hd (fun c hc => (hu c hc).1) he
      · exact absurd hk <| by simp
  case mpr =>
    intro h₅
    exact ⟨[], ct, t, Runs.nil_iff.mpr ⟨h, rfl⟩, Nat.zero_le _, .inr <| .inl h₅⟩

theorem long_dot_iff (h : Digits ct) : Long (k + 1) (ct ++ 46 :: t) ↔ 4 < ct.length ∨ Long k t := by
  constructor
  case mp =>
    rintro ⟨ds, d, e, hr, hl, hx⟩
    cases ds with
    | nil =>
      obtain ⟨hd, he⟩ := Runs.nil_iff.mp hr
      have hle := Runs.length_le hd (by simp [Digit]) he
      obtain ⟨x, hx, _⟩ | h₅ | ⟨hk, _⟩ := hx
      · exact absurd hx List.not_mem_nil
      · exact .inl <| by omega
      · exact absurd hk <| by simp
    | cons x ds =>
      obtain ⟨rfl, hs⟩ := Runs.cons_dot h |>.mp hr
      simp only [List.length_cons, Nat.add_right_cancel_iff, Nat.add_le_add_iff_right] at hl hx
      obtain ⟨y, hy, h₄⟩ | hx := hx
      · obtain rfl | hy := List.mem_cons.mp hy
        · exact .inl h₄
        · exact .inr ⟨ds, d, e, hs, hl, .inl ⟨y, hy, h₄⟩⟩
      · exact .inr ⟨ds, d, e, hs, hl, .inr hx⟩
  case mpr =>
    rintro (h₄ | ⟨ds, d, e, hr, hl, hx⟩)
    · have hr : Runs t [] [] t := Runs.nil_iff.mpr ⟨fun _ hc => absurd hc List.not_mem_nil, rfl⟩
      refine ⟨[ct], [], t, Runs.cons_dot h |>.mpr ⟨rfl, hr⟩, ?_, .inl ⟨ct, List.mem_cons_self, h₄⟩⟩
      exact Nat.succ_le_succ <| Nat.zero_le k
    · refine ⟨ct :: ds, d, e, Runs.cons_dot h |>.mpr ⟨rfl, hr⟩, Nat.succ_le_succ hl, ?_⟩
      obtain ⟨y, hy, h₄⟩ | hx := hx
      · exact .inl ⟨y, List.mem_cons_of_mem _ hy, h₄⟩
      · exact .inr <| by simpa using hx

theorem accepted_zero_iff (h : Digits ct) (hu : ∀ c ∈ t.head?, ¬Digit c) :
    Accepted 0 (ct ++ t) os ↔ t = [] ∧ ct.length ≤ 4 ∧ os = [octet ct] := by
  constructor
  case mp =>
    rintro ⟨ds, d, hr, hl, hs, rfl⟩
    obtain rfl := List.length_eq_zero_iff.mp hl
    obtain ⟨hd, he⟩ := Runs.nil_iff.mp hr
    have hle := Runs.length_le hd hu he
    have hn := congrArg List.length he
    simp only [List.length_append, List.length_nil] at hn
    obtain rfl : t = [] := List.length_eq_zero_iff.mp <| by omega
    obtain rfl : ct = d := by simpa using he
    exact ⟨rfl, hs ct <| by simp, rfl⟩
  case mpr =>
    rintro ⟨rfl, hl, rfl⟩
    exact ⟨[], ct, Runs.nil_iff.mpr ⟨h, rfl⟩, rfl, by simpa using hl, rfl⟩

theorem accepted_dot_iff (h : Digits ct) : Accepted (k + 1) (ct ++ 46 :: t) os ↔
    ct.length ≤ 4 ∧ ∃ os₁, Accepted k t os₁ ∧ os = octet ct :: os₁ := by
  constructor
  case mp =>
    rintro ⟨ds, d, hr, hl, hs, rfl⟩
    obtain ⟨x, ds, rfl⟩ := List.exists_cons_of_length_eq_add_one hl
    obtain ⟨rfl, hr₁⟩ := Runs.cons_dot h |>.mp hr
    obtain ⟨hx, hs⟩ := List.forall_mem_cons.mp hs
    exact ⟨hx, _, ⟨ds, d, hr₁, Nat.succ_inj.mp hl, hs, rfl⟩, rfl⟩
  case mpr =>
    rintro ⟨hx, _, ⟨ds, d, hr, hl, hs, rfl⟩, rfl⟩
    exact ⟨ct :: ds, d, Runs.cons_dot h |>.mpr ⟨rfl, hr⟩, congrArg (· + 1) hl,
      List.forall_mem_cons.mpr ⟨hx, hs⟩, rfl⟩

theorem not_accepted_stop (h : Digits ct) (hu : ∀ c ∈ t.head?, ¬Digit c ∧ c ≠ 46) :
    ¬Accepted (k + 1) (ct ++ t) os := by
  rintro ⟨ds, d, hr, hl, -⟩
  obtain ⟨x, ds, rfl⟩ := List.exists_cons_of_length_eq_add_one hl
  exact Runs.not_cons h hu hr

-- A run ends at a dot, or at a character that ends the scan.
theorem run_cases (t : Bytes) : ∃ ct u, t = ct ++ u ∧ Digits ct ∧ ((∃ v, u = 46 :: v) ∨
    (∀ c ∈ u.head?, ¬Digit c ∧ c ≠ 46) ∧
      ∀ r, ∃ c l, u ++ 0 :: r = c :: l ∧ ¬Digit c ∧ c ≠ 46) := by
  obtain ⟨ct, u, rfl, h, hu⟩ := exists_run t
  refine ⟨ct, u, rfl, h, ?_⟩
  cases u with
  | nil => exact .inr ⟨fun _ hc => (nomatch hc), fun r => ⟨0, r, rfl, by decide, by decide⟩⟩
  | cons c u =>
    by_cases hc : c = 46
    case pos => exact .inl ⟨u, by rw [hc]⟩
    case neg =>
      have hd := hu c rfl
      refine .inr ⟨fun x hx => ?_, fun r => ⟨c, u ++ 0 :: r, rfl, hd, hc⟩⟩
      cases hx
      exact ⟨hd, hc⟩

theorem loop_none_iff : ipToFile.loop k t.length (t ++ 0 :: r) = none ↔ Long k t := by
  induction k generalizing t with
  | zero =>
    obtain ⟨ct, u, rfl, h, hu⟩ := exists_run t
    rw [loop_last h hu, long_zero_iff h hu]
    split
    · simp [*]
    · split <;> simp_all
  | succ k ih =>
    obtain ⟨ct, u, rfl, h, ⟨v, rfl⟩ | ⟨hu, hs⟩⟩ := run_cases t
    · have hl : (ct ++ 46 :: v).length - ct.length - 1 = v.length := by simp
      rw [long_dot_iff h, List.append_assoc, List.cons_append, loop_dot h, hl, ← ih]
      split <;> simp [*]
    · obtain ⟨c, l, he, hc, hn⟩ := hs r
      rw [long_stop_iff h hu, List.append_assoc, he, loop_stop h hc hn]
      simp

theorem loop_true_iff :
    ipToFile.loop k t.length (t ++ 0 :: r) = some (os, true) ↔ Accepted k t os := by
  induction k generalizing t os with
  | zero =>
    obtain ⟨ct, u, rfl, h, hu⟩ := exists_run t
    rw [loop_last h hu, accepted_zero_iff h hu]
    split
    case isTrue => simp; omega
    case isFalse hl =>
      split
      case isTrue hn => simp [hn]
      case isFalse hn =>
        obtain rfl := not_not.mp hn
        split
        case isTrue h₅ => simp [h₅]
        case isFalse h₅ =>
          have h₄ : ct.length ≤ 4 := by omega
          simp [h₄, eq_comm]
  | succ k ih =>
    obtain ⟨ct, u, rfl, h, ⟨v, rfl⟩ | ⟨hu, hs⟩⟩ := run_cases t
    · have hl : (ct ++ 46 :: v).length - ct.length - 1 = v.length := by simp
      rw [accepted_dot_iff h, List.append_assoc, List.cons_append, loop_dot h, hl]
      split
      case isTrue h₄ => exact iff_of_false (fun hf => (nomatch hf)) fun hf => Nat.not_le_of_lt h₄ hf.1
      case isFalse h₄ =>
        simp only [Nat.le_of_not_lt h₄, true_and, Option.map_eq_some_iff, Prod.exists, Prod.mk.injEq,
          ← ih]
        constructor
        · rintro ⟨os₁, _, ho, rfl, rfl⟩
          exact ⟨os₁, ho, rfl⟩
        · rintro ⟨os₁, ho, rfl⟩
          exact ⟨os₁, true, ho, rfl, rfl⟩
    · obtain ⟨c, l, he, hc, hn⟩ := hs r
      rw [List.append_assoc, he, loop_stop h hc hn]
      refine iff_of_false ?_ (not_accepted_stop h hu)
      split <;> simp

-- Nothing behind the NUL is looked at.
theorem loop_congr :
    ipToFile.loop k t.length (t ++ 0 :: r) = ipToFile.loop k t.length (t ++ 0 :: r₁) := by
  induction k generalizing t with
  | zero =>
    obtain ⟨ct, u, rfl, h, hu⟩ := exists_run t
    rw [loop_last h hu, loop_last h hu]
  | succ k ih =>
    obtain ⟨ct, u, rfl, h, ⟨v, rfl⟩ | ⟨hu, hs⟩⟩ := run_cases t
    · have hl : (ct ++ 46 :: v).length - ct.length - 1 = v.length := by simp
      simp only [List.append_assoc, List.cons_append, loop_dot h, hl, ih]
    · obtain ⟨c, l, he, hc, hn⟩ := hs r
      obtain ⟨c₁, l₁, he₁, hc₁, hn₁⟩ := hs r₁
      simp only [List.append_assoc, he, he₁, loop_stop h hc hn, loop_stop h hc₁ hn₁]

theorem loop_length (h : ipToFile.loop k t.length (t ++ 0 :: r) = some (os, ok)) :
    os.length ≤ k + 1 := by
  induction k generalizing t os with
  | zero =>
    obtain ⟨ct, u, rfl, hd, hu⟩ := exists_run t
    rw [loop_last hd hu] at h
    split at h
    · exact nomatch h
    · split at h
      · cases h
        exact Nat.zero_le _
      · split at h <;> cases h
        exact Nat.le_refl 1
  | succ k ih =>
    obtain ⟨ct, u, rfl, hd, ⟨v, rfl⟩ | ⟨hu, hs⟩⟩ := run_cases t
    · have hl : (ct ++ 46 :: v).length - ct.length - 1 = v.length := by simp
      rw [List.append_assoc, List.cons_append, loop_dot hd, hl] at h
      split at h
      · exact nomatch h
      · obtain ⟨⟨os₁, _⟩, ho, h⟩ := Option.map_eq_some_iff.mp h
        cases h
        exact Nat.succ_le_succ <| ih ho
    · obtain ⟨c, l, he, hc, hn⟩ := hs r
      rw [List.append_assoc, he, loop_stop hd hc hn] at h
      split at h <;> cases h
      exact Nat.zero_le _

-- What `IPtoFile` is to do with a text: it accepts the addresses and nothing else, without leaving `ct`.
def Parses (tb : Tb) (t : Bytes) : Prop :=
  ∃ os ok, ipToFile t.length tb = some (os, ok) ∧ (ok = true ↔ ∃ os, Quad t os) ∧ (ok = true → Quad t os)

-- What a save handler is to do with it
def Stores (atof : Bytes → UInt32) (s : State) (t tag : Bytes) (addr : Nat) : Prop :=
  ∃ s₁ o, (Cmd.ip tag addr).parse atof t.length s = some (s₁, o) ∧
    (∀ os, Quad t os → o = [⟨addr, os⟩] ∧ s₁.eeprom = s.eeprom.writePage 64 addr os) ∧
    ((¬∃ os, Quad t os) → o = [] ∧ s₁.eeprom = s.eeprom)

-- No run of digits that `IPtoFile` comes to is too long, and four runs with dots between them are octets.
def Proper (t : Bytes) : Prop :=
  ∀ ds d e, Runs t ds d e → ds.length ≤ 3 → (∀ x ∈ ds, x.length ≤ 4) ∧ d.length ≤ 5 ∧
    (ds.length = 3 → e = [] → ∀ x ∈ ds ++ [d], Octet x)

-- Four runs with dots between them are determined by the text.
theorem Runs.unique (h : Runs t ds d []) (h₁ : Runs t ds₁ d₁ []) (hl : ds.length = ds₁.length) :
    ds = ds₁ ∧ d = d₁ := by
  induction ds generalizing t ds₁ with
  | nil =>
    obtain rfl := List.length_eq_zero_iff.mp hl.symm
    have he := h.eq.symm.trans h₁.eq
    exact ⟨rfl, by simpa using he⟩
  | cons x ds ih =>
    obtain ⟨y, ds₁, rfl⟩ := List.exists_cons_of_length_eq_add_one hl.symm
    obtain ⟨hx, _⟩ := List.forall_mem_cons.mp h.digits
    obtain rfl : t = x ++ 46 :: (dots ds ++ (d ++ [])) := by simpa using h.eq
    obtain ⟨-, hr⟩ := Runs.cons_dot hx |>.mp h
    obtain ⟨rfl, hr₁⟩ := Runs.cons_dot hx |>.mp h₁
    obtain ⟨rfl, rfl⟩ := ih hr hr₁ <| Nat.succ.inj hl
    exact ⟨rfl, rfl⟩

theorem quad_iff : Quad t os ↔ ∃ ds d, Runs t ds d [] ∧ ds.length = 3 ∧ (∀ x ∈ ds ++ [d], Octet x) ∧
    os = (ds ++ [d]).map octet := by
  constructor
  case mp =>
    rintro ⟨ds, d, hl, ho, rfl, rfl⟩
    exact ⟨ds, d, ⟨fun x hx => (ho x hx).digits, by simp⟩, hl, ho, rfl⟩
  case mpr =>
    rintro ⟨ds, d, hr, hl, ho, rfl⟩
    exact ⟨ds, d, hl, ho, by simpa using hr.eq, rfl⟩

theorem Quad.accepted (h : Quad t os) : Accepted 3 t os := by
  obtain ⟨ds, d, hr, hl, ho, rfl⟩ := quad_iff.mp h
  exact ⟨ds, d, hr, hl, fun x hx => Nat.le_succ_of_le (ho x hx).short, rfl⟩

theorem Proper.not_long (h : Proper t) : ¬Long 3 t := by
  rintro ⟨ds, d, e, hr, hl, hx⟩
  obtain ⟨h₁, h₂, h₃⟩ := h ds d e hr hl
  obtain ⟨x, hx, h₄⟩ | h₅ | ⟨hl, he, h₅⟩ := hx
  · exact absurd (h₁ x hx) <| Nat.not_le_of_lt h₄
  · exact absurd h₂ <| Nat.not_le_of_lt h₅
  · have := (h₃ hl he d <| by simp).short
    omega

theorem Proper.quad (h : Proper t) (ha : Accepted 3 t os) : Quad t os := by
  obtain ⟨ds, d, hr, hl, -, rfl⟩ := ha
  exact quad_iff.mpr ⟨ds, d, hr, hl, (h ds d [] hr <| Nat.le_of_eq hl).2.2 hl rfl, rfl⟩

theorem proper_of_parses (hn : ¬Long 3 t) (hq : ∀ os, Accepted 3 t os → ∃ os, Quad t os) :
    Proper t := by
  intro ds d e hr hl
  have h₄ : ∀ x ∈ ds, x.length ≤ 4 := fun x hx =>
    Nat.le_of_not_lt fun h => hn ⟨ds, d, e, hr, hl, .inl ⟨x, hx, h⟩⟩
  have h₅ : d.length ≤ 5 := Nat.le_of_not_lt fun h => hn ⟨ds, d, e, hr, hl, .inr <| .inl h⟩
  refine ⟨h₄, h₅, ?_⟩
  rintro hl rfl
  have hd : d.length ≤ 4 := by
    have : d.length ≠ 5 := fun h => hn ⟨ds, d, [], hr, Nat.le_of_eq hl, .inr <| .inr ⟨hl, rfl, h⟩⟩
    omega
  have ha : ∀ x ∈ ds ++ [d], x.length ≤ 4 := by
    rw [List.forall_mem_append]
    exact ⟨h₄, by simpa using hd⟩
  obtain ⟨os, ho⟩ := hq _ ⟨ds, d, hr, hl, ha, rfl⟩
  obtain ⟨ds₁, d₁, hr₁, hl₁, ho, -⟩ := quad_iff.mp ho
  obtain ⟨rfl, rfl⟩ := hr.unique hr₁ <| hl.trans hl₁.symm
  exact ho

theorem ipToFile_eq (h : t ++ [0] <+: tb.bytes) :
    ∃ r, ipToFile t.length tb = ipToFile.loop 3 t.length (t ++ 0 :: r) := by
  obtain ⟨r, hr⟩ := h
  exact ⟨r, by rw [ipToFile, ← hr, List.append_assoc]; rfl⟩

theorem parses_iff (h : t ++ [0] <+: tb.bytes) : Parses tb t ↔ Proper t := by
  obtain ⟨r, hr⟩ := ipToFile_eq h
  rw [Parses, hr]
  constructor
  case mp =>
    rintro ⟨os, ok, ho, hq, -⟩
    refine proper_of_parses (fun hl => ?_) fun os₁ ha => ?_
    · rw [loop_none_iff.mpr hl] at ho
      exact nomatch ho
    · rw [loop_true_iff.mpr ha] at ho
      cases ho
      exact hq.mp rfl
  case mpr =>
    intro hp
    have hn : ipToFile.loop 3 t.length (t ++ 0 :: r) ≠ none := fun hn => hp.not_long <| loop_none_iff.mp hn
    obtain ⟨⟨os, ok⟩, ho⟩ := Option.ne_none_iff_exists'.mp hn
    refine ⟨os, ok, ho, ⟨?_, ?_⟩, ?_⟩
    · rintro rfl
      exact ⟨os, hp.quad <| loop_true_iff.mp ho⟩
    · rintro ⟨os₁, hq⟩
      have := loop_true_iff.mpr hq.accepted |>.symm.trans ho
      cases this
      rfl
    · rintro rfl
      exact hp.quad <| loop_true_iff.mp ho

theorem Quad.unique (h : Quad t os) (h₁ : Quad t os₁) : os = os₁ := by
  have := (loop_true_iff (r := [])).mpr h.accepted |>.symm.trans <| loop_true_iff.mpr h₁.accepted
  cases this
  rfl

theorem Quad.length (h : Quad t os) : os.length = 4 := by
  obtain ⟨ds, d, hl, -, -, rfl⟩ := h
  simp [hl]

theorem Parses.stores {s : State} (h : Parses s.tb t) (ht : t ++ [0] <+: s.tb.bytes) :
    Stores atof s t tag addr := by
  obtain ⟨os, ok, ho, hq, hv⟩ := h
  obtain ⟨r, hr⟩ := ipToFile_eq ht
  have hl : os.length ≤ 4 := loop_length (hr ▸ ho)
  obtain ⟨pb, hp⟩ : ∃ pb, s.pb.write 0 os = some pb := Buffer.write_eq_some <| by omega
  cases ok with
  | true =>
    have hd : pb.bytes.take 4 = os := by
      have := Buffer.take_write_append hp
      rw [Nat.zero_add, (hv rfl).length] at this
      simpa using this
    refine ⟨_, _, by simp only [Cmd.parse, ho, hp, hd, Option.bind_eq_bind, Option.bind_some, if_true]; rfl, ?_, ?_⟩
    · intro os₁ h₁
      obtain rfl := (hv rfl).unique h₁
      exact ⟨rfl, rfl⟩
    · exact fun hn => absurd ⟨os, hv rfl⟩ hn
  | false =>
    refine ⟨{ s with pb }, [], by simp [Cmd.parse, ho, hp], ?_, fun _ => ⟨rfl, rfl⟩⟩
    exact fun os₁ h₁ => absurd (hq.mpr ⟨os₁, h₁⟩) <| by decide

-- `IPtoFile` accepts the addresses and nothing else, and the handlers store only them, exactly if the
-- runs are proper. Nothing behind the text is looked at.
theorem grammar_law {s : State} (h : t ++ [0] <+: s.tb.bytes) :
    (Parses s.tb t ∧ (∀ tag addr, Stores atof s t tag addr) ↔ Proper t) ∧
    ∀ tb : Tb, t ++ [0] <+: tb.bytes → ipToFile t.length tb = ipToFile t.length s.tb := by
  constructor
  · rw [← parses_iff h]
    exact and_iff_left_of_imp fun hp tag addr => hp.stores h
  · intro tb ht
    obtain ⟨r, hr⟩ := ipToFile_eq h
    obtain ⟨r₁, hr₁⟩ := ipToFile_eq ht
    rw [hr, hr₁, loop_congr]

-- `tb` with a text
def posted (t : String) : Tb :=
  ((default : Tb).strcpy (ascii t)).getD default

theorem grammar_law_lan :
    let s := { State.reset (fun _ => 0) with tb := posted "192.168.1.200" }
    (Parses s.tb (ascii "192.168.1.200") ∧
      (∀ tag addr, Stores (fun _ => 0) s (ascii "192.168.1.200") tag addr) ↔
        Proper (ascii "192.168.1.200")) ∧
    ∀ tb : Tb, ascii "192.168.1.200" ++ [0] <+: tb.bytes →
      ipToFile (ascii "192.168.1.200").length tb = ipToFile (ascii "192.168.1.200").length s.tb :=
  grammar_law (by decide)

theorem Quad.le_length (h : Quad t os) : 7 ≤ t.length := by
  obtain ⟨ds, d, hl, ho, rfl, -⟩ := h
  obtain ⟨a, b, c, rfl⟩ := List.length_eq_three.mp hl
  have ha := (ho a <| by simp).some
  have hb := (ho b <| by simp).some
  have hc := (ho c <| by simp).some
  have hd := (ho d <| by simp).some
  simp only [dots_cons, dots_nil, List.length_append, List.length_cons, List.length_nil]
  omega

-- Three dots are accepted as an address.
theorem grammar_dots : ¬∀ (tb : Tb) t, t ++ [0] <+: tb.bytes → Parses tb t := by
  intro h
  obtain ⟨os, ok, ho, hq, -⟩ := h (posted "...") (ascii "...") (by decide)
  have he : ipToFile (ascii "...").length (posted "...") = some ([0, 0, 0, 0], true) := by decide
  cases he.symm.trans ho
  obtain ⟨_, hq⟩ := hq.mp rfl
  exact absurd hq.le_length <| by decide

-- The numbers are printed one after the other, each with a dot behind it.
theorem longToIp_loop (buf : Buffer cap) (pos : Nat) (tlen : UInt8) (pr : Bytes)
    (h : pos + (dots (pr.map print)).length ≤ cap) :
    ∃ buf₁, longToIp.loop buf pos tlen pr = some (buf₁, pos + (dots (pr.map print)).length,
      tlen + (dots (pr.map print)).length.toUInt8) ∧
    buf₁.bytes.take (pos + (dots (pr.map print)).length) = buf.bytes.take pos ++ dots (pr.map print) := by
  induction pr generalizing buf pos tlen with
  | nil => exact ⟨buf, by simp [longToIp.loop], by simp⟩
  | cons b pr ih =>
    rw [List.map_cons, dots_cons, List.length_append, List.length_cons] at h ⊢
    obtain ⟨b₁, h₁⟩ : ∃ b₁, buf.write pos (print b ++ [0]) = some b₁ :=
      Buffer.write_eq_some <| by simp; omega
    obtain ⟨b₂, h₂⟩ : ∃ b₂, b₁.write (pos + (print b).length) [46] = some b₂ :=
      Buffer.write_eq_some <| by simp; omega
    obtain ⟨b₃, h₃, ht⟩ :=
      ih b₂ (pos + (print b).length + 1) (tlen + (print b).length.toUInt8 + 1) (by omega)
    have hp : pos + ((print b).length + ((dots (pr.map print)).length + 1)) =
        pos + (print b).length + 1 + (dots (pr.map print)).length := by omega
    refine ⟨b₃, ?_, ?_⟩
    · have hu : tlen + ((print b).length + ((dots (pr.map print)).length + 1)).toUInt8 =
          tlen + (print b).length.toUInt8 + 1 + (dots (pr.map print)).length.toUInt8 := by
        simp [Nat.toUInt8, UInt8.ofNat_add]
        ac_rfl
      rw [hp, hu, ← h₃]
      simp [longToIp.loop, h₁, h₂]
    · have hd : b₂.bytes.take (pos + (print b).length + 1) = _ := Buffer.take_write_append h₂
      rw [hp, ht, hd, Buffer.take_write_prefix h₁]
      simp

theorem octet_print : ∀ b, Octet (print b) :=
  fun b => ⟨digits_print b, (print_length b).1, (print_length b).2, by
    rw [value_print]
    exact Nat.le_of_lt_succ b.toNat_lt⟩

-- The text of an address
def quad (a : UInt32) : Bytes :=
  dots ((bytes32 a).take 3 |>.map print) ++ print a.toUInt8

theorem octet_print_eq (b : UInt8) : octet (print b) = b := by
  simp only [octet, value_print]
  exact UInt8.ofNat_toNat

theorem quad_quad : Quad (quad a) (bytes32 a) := by
  refine ⟨(bytes32 a).take 3 |>.map print, print a.toUInt8, rfl, ?_, rfl, ?_⟩
  · have he : ((bytes32 a).take 3).map print ++ [print a.toUInt8] = (bytes32 a).map print := rfl
    rw [he]
    intro x hx
    obtain ⟨b, -, rfl⟩ := List.mem_map.mp hx
    exact octet_print b
  · simp only [bytes32, List.take, List.map, List.cons_append, List.nil_append, octet_print_eq]

theorem nul_not_mem_dots (h : ∀ x ∈ ds, Digits x) : 0 ∉ dots ds := by
  intro hm
  obtain ⟨x, hx, hm⟩ := List.mem_flatMap.mp hm
  obtain hm | hm := List.mem_append.mp hm
  · exact absurd (h x hx 0 hm) <| by decide
  · exact absurd hm <| by decide

theorem nul_not_mem_quad : 0 ∉ quad a := by
  rw [quad, List.mem_append, not_or]
  constructor
  · refine nul_not_mem_dots fun x hx => ?_
    obtain ⟨b, -, rfl⟩ := List.mem_map.mp hx
    exact digits_print b
  · exact fun h => absurd (digits_print _ 0 h) <| by decide

theorem quad_length : (quad a).length ≤ 15 := by
  simp only [quad, bytes32, List.take, List.map, dots_cons, dots_nil, List.length_append,
    List.length_cons, List.length_nil]
  have h₁ := (print_length (a >>> 24).toUInt8).2
  have h₂ := (print_length (a >>> 16).toUInt8).2
  have h₃ := (print_length (a >>> 8).toUInt8).2
  have h₄ := (print_length a.toUInt8).2
  omega

theorem longToIp_eq (hc : 16 ≤ cap) : ∃ len buf₁, longToIp buf a = some (len, buf₁) ∧
    buf₁.text 0 = some (quad a) ∧ len.toNat = (quad a).length := by
  have hq : dots ((littleEndian a).reverse.map print) = quad a ++ [46] := by
    simp [littleEndian, quad, bytes32]
  have hl := @quad_length a
  have hf : 0 + (dots ((littleEndian a).reverse.map print)).length ≤ cap := by
    rw [hq, List.length_append, List.length_singleton]
    omega
  obtain ⟨b₁, h₁, ht⟩ := longToIp_loop buf 0 0 _ hf
  rw [hq, List.length_append, List.length_singleton, Nat.zero_add] at h₁ ht
  obtain ⟨b₂, h₂⟩ : ∃ b₂, b₁.write (quad a).length [0] = some b₂ :=
    Buffer.write_eq_some <| by simp; omega
  refine ⟨0 + ((quad a).length + 1).toUInt8 - 1, b₂, ?_, ?_, ?_⟩
  · simp only [longToIp, h₁, Option.bind_eq_bind, Option.bind_some, Nat.add_sub_cancel, h₂]
  · have hb : b₂.bytes.take ((quad a).length + 1) = quad a ++ [0] := by
      have h₀ : b₁.bytes.take (quad a).length = quad a := by
        have := congrArg (List.take (quad a).length) ht
        simpa [List.take_take] using this
      rw [← h₀, h₀]
      exact (Buffer.take_write_append h₂).trans <| by rw [h₀]
    refine cstr_eq_some_iff.mpr ⟨b₂.bytes.drop ((quad a).length + 1), ?_, nul_not_mem_quad⟩
    calc b₂.bytes.drop 0
      _ = b₂.bytes.take ((quad a).length + 1) ++ b₂.bytes.drop ((quad a).length + 1) :=
        (List.take_append_drop ..).symm
      _ = _ := by rw [hb, List.append_assoc]; rfl
  · have : ∀ n, n ≤ 15 → (0 + (n + 1).toUInt8 - 1).toNat = n := by decide +kernel
    exact this _ hl

theorem eeRead32_eq {m : Memory} (h : m.read addr 4 = bytes32 a) : eeRead32 m addr = a := by
  obtain ⟨h₀, h₁, h₂, h₃⟩ : m addr = _ ∧ m (addr + 1) = _ ∧ m (addr + 2) = _ ∧ m (addr + 3) = _ := by
    simpa [bytes32, Memory.read, List.range_succ] using h
  simp only [eeRead32, h₀, h₁, h₂, h₃]
  exact bytes32_eq

-- An address that has been stored is printed as a text that is read back as its four bytes.
theorem read_back_law (hp : Memory.InPage 64 addr 4) (hc : 16 ≤ cap) (s : State) (a : UInt32)
    (buf : Buffer cap) : ∃ len text buf₁,
      longToIp buf (eeRead32 (s.eeWrite addr (bytes32 a)).1.eeprom addr) = some (len, buf₁) ∧
      buf₁.text 0 = some text ∧ len.toNat = text.length ∧
      ∀ tb : Tb, text ++ [0] <+: tb.bytes → ipToFile text.length tb = some (bytes32 a, true) := by
  have ha : eeRead32 (s.eeWrite addr (bytes32 a)).1.eeprom addr = a :=
    eeRead32_eq <| Memory.read_writePage hp
  obtain ⟨len, buf₁, hl, ht, hn⟩ := @longToIp_eq cap buf a hc
  refine ⟨len, quad a, buf₁, by rw [ha, hl], ht, hn, fun tb h => ?_⟩
  obtain ⟨r, hr⟩ := ipToFile_eq h
  rw [hr, loop_true_iff]
  exact quad_quad.accepted

theorem read_back_law_lan : ∃ len text buf₁,
    longToIp (Buffer.zero 80) (eeRead32 ((State.reset fun _ => 0).eeWrite Define.eeIp
      (bytes32 0xC0A801C8)).1.eeprom Define.eeIp) = some (len, buf₁) ∧
    buf₁.text 0 = some text ∧ len.toNat = text.length ∧
    ∀ tb : Tb, text ++ [0] <+: tb.bytes →
      ipToFile text.length tb = some (bytes32 0xC0A801C8, true) :=
  read_back_law (by decide) (by decide) _ _ _

end Address
