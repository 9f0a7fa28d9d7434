import Webtermo.Objects.System

-- `bufsearch` turn by turn, with the widths of its integers. A read outside of the two memories that it is
-- given is a fault.
namespace Bufsearch

structure Scan where
  i          : UInt16
  position   : Int16
  matchesnow : UInt8
  -- counted from `startadr` and from `str`
  target     : Int
  key        : Nat
  deriving DecidableEq

inductive Outcome
  | next (s : Scan)
  | done (position : Int16)
  | fault
  deriving DecidableEq

-- How many matches are needed
def count (matchesneeded : UInt8) : Bytes → Except Outcome UInt8
  | []     => .error .fault
  | c :: s =>
    if c = 0 then .ok matchesneeded
    else if 30 < matchesneeded + 1 then .error (.done (-1))
    else count (matchesneeded + 1) s

def read (l : Bytes) (n : Int) : Option UInt8 :=
  if n < 0 then none else l[n.toNat]?

-- A turn of the search, together with the `i++` behind it
def turn (startadr : Bytes) (len : UInt16) (str : Bytes) (matchesneeded : UInt8) (s : Scan) : Outcome :=
  if ¬s.i < len then .done (-1) else
    match read startadr s.target, str[s.key]? with
    | some a, some b =>
      if a = b then
        let matchesnow := s.matchesnow + 1
        let position := if matchesnow = 1 then s.i.toInt16 else s.position
        if matchesneeded = matchesnow then .done position
        else .next ⟨s.i + 1, position, matchesnow, s.target + 1, s.key + 1⟩
      else if s.matchesnow ≠ 0 then
        .next ⟨s.position.toUInt16 + 1, s.position, 0, s.position.toInt + 1, 0⟩
      else
        .next { s with i := s.i + 1, target := s.target + 1 }
    | _, _ => .fault

def loop (turn : Scan → Outcome) : (turns : Nat) → Scan → Outcome
  | 0,         s => .next s
  | turns + 1, s => match turn s with
    | .next s => loop turn turns s
    | o       => o

def run (turns : Nat) (startadr : Bytes) (len : UInt16) (str : Bytes) : Outcome :=
  match count 0 str with
  | .error o          => o
  | .ok matchesneeded => loop (turn startadr len str matchesneeded) turns ⟨0, -1, 0, 0, 0⟩

-- The least position at which the whole key occurs
structure First (str l : Bytes) (p : Nat) : Prop where
  occurs : str <+: l.drop p
  least  : ∀ q < p, ¬str <+: l.drop q

def Answer (str l : Bytes) (position : Int) : Prop :=
  (∃ p : Nat, First str l p ∧ position = p) ∨ position = -1 ∧ ∀ p, ¬str <+: l.drop p

-- The search has rejected all positions before `c`, and `k` characters of the key match there.
structure At (str l : Bytes) (c k : Nat) (s : Scan) : Prop where
  i          : s.i = .ofNat (c + k)
  position   : k ≠ 0 → s.position = (UInt16.ofNat c).toInt16
  matchesnow : s.matchesnow = .ofNat k
  target     : s.target = c + k
  key        : s.key = k
  length     : c + k ≤ l.length
  short      : k < str.length
  matched    : ∀ j < k, l[c + j]? = str[j]?
  rejected   : ∀ b < c, ¬str <+: l.drop b

theorem At.start (h : str ≠ []) : At str l 0 0 ⟨0, -1, 0, 0, 0⟩ where
  i          := rfl
  position   := fun h => (h rfl).elim
  matchesnow := rfl
  target     := rfl
  key        := rfl
  length     := Nat.zero_le _
  short      := List.length_pos_iff.mpr h
  matched    := by simp
  rejected   := by simp

theorem count_eq (h : 0 ∉ str) (hl : n + str.length ≤ 30) :
    count (.ofNat n) (str ++ 0 :: r) = .ok (.ofNat (n + str.length)) := by
  induction str generalizing n with
  | nil => simp [count]
  | cons c str ih =>
    obtain ⟨hc, h⟩ := not_or.mp <| mt List.mem_cons.mpr h
    rw [List.length_cons] at hl
    have hn : UInt8.ofNat n + 1 = .ofNat (n + 1) := by simp
    have h₃ : ¬30 < UInt8.ofNat (n + 1) := by
      rw [UInt8.lt_iff_toNat_lt]
      simp
      omega
    simp only [List.cons_append, count, Ne.symm hc, if_false, hn, h₃]
    rw [ih h (by omega), List.length_cons]
    congr 2
    omega

theorem ofNat_inj {m n : Nat} (hm : m < 2 ^ 8) (hn : n < 2 ^ 8) :
    UInt8.ofNat m = .ofNat n ↔ m = n := by
  rw [← UInt8.toNat_inj, UInt8.toNat_ofNat', UInt8.toNat_ofNat', Nat.mod_eq_of_lt hm,
    Nat.mod_eq_of_lt hn]

theorem toInt_toInt16 {c : Nat} (h : c < 2 ^ 15) : (UInt16.ofNat c).toInt16.toInt = c := by
  have hb : (UInt16.ofNat c).toInt16.toInt = (BitVec.ofNat 16 c).toInt := rfl
  rw [hb, BitVec.toInt_eq_toNat_of_lt] <;> simp <;> omega

variable {str l r : Bytes} {s : Scan}

-- What the end of the buffer cuts off is no occurrence, and neither is anything behind it.
theorem At.turn_end (h : At str l c k s) (he : c + k = l.length) :
    turn l (.ofNat l.length) (str ++ 0 :: r) (.ofNat str.length) s = .done (-1) ∧ Answer str l (-1) := by
  constructor
  · simp [turn, h.i, he]
  · refine .inr ⟨rfl, fun p hp => ?_⟩
    by_cases hc : p < c
    case pos => exact h.rejected p hc hp
    case neg =>
      have := hp.length_le
      have := h.short
      rw [List.length_drop] at *
      omega

theorem At.turn_some (h : At str l c k s) (hl : l.length < 2 ^ 15) (hs : str.length ≤ 30)
    (ha : l[c + k]? = some a) (hb : str[k]? = some b) :
    turn l (.ofNat l.length) (str ++ 0 :: r) (.ofNat str.length) s =
      if a = b then
        if str.length = k + 1 then .done (UInt16.ofNat c).toInt16
        else .next ⟨.ofNat (c + k + 1), (UInt16.ofNat c).toInt16, .ofNat (k + 1), c + k + 1, k + 1⟩
      else
        .next ⟨.ofNat (c + 1), s.position, 0, c + 1, 0⟩ := by
  have hk := h.short
  have hck : c + k < l.length := (List.getElem?_eq_some_iff.mp ha).1
  have hi : s.i < UInt16.ofNat l.length := by
    rw [h.i, UInt16.lt_iff_toNat_lt, UInt16.toNat_ofNat', UInt16.toNat_ofNat']
    omega
  have hr : read l s.target = some a := by
    rw [h.target, read, if_neg (by omega)]
    exact ha
  have hb : (str ++ 0 :: r)[s.key]? = some b := by
    rw [h.key, List.getElem?_append_left hk, hb]
  have hn : s.matchesnow + 1 = .ofNat (k + 1) := by simp [h.matchesnow]
  have h₁ : UInt8.ofNat (k + 1) = 1 ↔ k + 1 = 1 := ofNat_inj (n := 1) (by omega) (by omega)
  have hm : UInt8.ofNat str.length = .ofNat (k + 1) ↔ str.length = k + 1 :=
    ofNat_inj (by omega) (by omega)
  have h₀ : s.matchesnow = 0 ↔ k = 0 := h.matchesnow ▸ ofNat_inj (n := 0) (by omega) (by omega)
  have hi₁ : s.i + 1 = .ofNat (c + k + 1) := by simp [h.i]
  have ht₁ : s.target + 1 = c + k + 1 := by rw [h.target]
  simp only [turn, hi, not_true, if_false, hr, hb, hn, h₁, hm, ne_eq, h₀, hi₁, ht₁]
  by_cases hk₀ : k = 0
  case pos => simp [hk₀, h.i, h.matchesnow, h.key]
  case neg =>
    have hp : (UInt16.ofNat c).toInt16.toUInt16 + 1 = .ofNat (c + 1) := by simp
    have hp₁ : (UInt16.ofNat c).toInt16.toInt = c := toInt_toInt16 (by omega)
    have hk₁ : ¬k + 1 = 1 := fun h => hk₀ (Nat.succ.inj h)
    simp only [h.position hk₀, hp, hp₁, hk₀, hk₁, not_false_eq_true, if_true, if_false, h.key]

theorem occurs_iff : str <+: l.drop c ↔ ∀ j < str.length, l[c + j]? = str[j]? := by
  simp only [List.prefix_iff_getElem?, List.getElem?_drop]
  exact forall₂_congr fun j hj => by rw [List.getElem?_eq_getElem hj]

-- The next character of the key matches, and there are more.
theorem At.succ (h : At str l c k s) (hab : l[c + k]? = str[k]?) (hk : k + 1 < str.length) :
    At str l c (k + 1) ⟨.ofNat (c + k + 1), (UInt16.ofNat c).toInt16, .ofNat (k + 1), c + k + 1, k + 1⟩ where
  i          := rfl
  position   := fun _ => rfl
  matchesnow := rfl
  target     := by simp [Int.add_assoc]
  key        := rfl
  length     := by
    rw [List.getElem?_eq_getElem h.short] at hab
    exact (List.getElem?_eq_some_iff.mp hab).1
  short      := hk
  matched j hj := by
    obtain hj | hj := Nat.lt_succ_iff_lt_or_eq.mp hj
    case inl => exact h.matched j hj
    case inr => exact hj ▸ hab
  rejected   := h.rejected

-- It is the last one.
theorem At.first (h : At str l c k s) (hab : l[c + k]? = str[k]?) (hk : str.length = k + 1) :
    First str l c where
  occurs := occurs_iff.mpr fun j hj => by
    obtain hj | hj := Nat.lt_succ_iff_lt_or_eq.mp (hk ▸ hj)
    case inl => exact h.matched j hj
    case inr => exact hj ▸ hab
  least  := h.rejected

-- It does not match, and the search goes on behind the first character that did.
theorem At.next (h : At str l c k s) (hab : l[c + k]? ≠ str[k]?) (hc : c < l.length) :
    At str l (c + 1) 0 ⟨.ofNat (c + 1), p, 0, c + 1, 0⟩ where
  i          := rfl
  position   := fun h => (h rfl).elim
  matchesnow := rfl
  target     := by simp
  key        := rfl
  length     := hc
  short      := Nat.zero_lt_of_lt h.short
  matched    := by simp
  rejected b hb := by
    obtain hb | hb := Nat.lt_succ_iff_lt_or_eq.mp hb
    case inl => exact h.rejected b hb
    case inr => exact fun hp => hab <| occurs_iff.mp (hb ▸ hp) k h.short

-- The search ends: with each turn it comes closer to the last position, or to the end of the key there.
theorem At.loop_done {s : Scan} (h : At str l c k s) (hl : l.length < 2 ^ 15) (hs : str.length ≤ 30) :
    ∃ turns position,
      loop (turn l (.ofNat l.length) (str ++ 0 :: r) (.ofNat str.length)) turns s = .done position ∧
      Answer str l position.toInt := by
  by_cases he : c + k = l.length
  case pos => exact ⟨1, -1, by simp [loop, h.turn_end he], (h.turn_end (r := r) he).2⟩
  case neg =>
    have hc : c + k < l.length := Nat.lt_of_le_of_ne h.length he
    obtain ⟨a, ha⟩ : ∃ a, l[c + k]? = some a := ⟨_, List.getElem?_eq_getElem hc⟩
    obtain ⟨b, hb⟩ : ∃ b, str[k]? = some b := ⟨_, List.getElem?_eq_getElem h.short⟩
    have ht := h.turn_some (r := r) hl hs ha hb
    by_cases hab : a = b
    case neg =>
      rw [if_neg hab] at ht
      have hn : l[c + k]? ≠ str[k]? := by simpa [ha, hb] using hab
      obtain ⟨n, p, hp, hr⟩ := h.next (p := s.position) hn (by omega) |>.loop_done hl hs
      exact ⟨n + 1, p, by rw [loop, ht]; exact hp, hr⟩
    case pos =>
      have hm : l[c + k]? = str[k]? := by rw [ha, hb, hab]
      rw [if_pos hab] at ht
      by_cases hk : str.length = k + 1
      case pos =>
        rw [if_pos hk] at ht
        exact ⟨1, _, by rw [loop, ht], .inl ⟨c, h.first hm hk, toInt_toInt16 (by omega)⟩⟩
      case neg =>
        rw [if_neg hk] at ht
        have := h.short
        obtain ⟨n, p, hp, hr⟩ := h.succ hm (by omega) |>.loop_done hl hs
        exact ⟨n + 1, p, by rw [loop, ht]; exact hp, hr⟩
termination_by (l.length - c, str.length - k)

theorem run_done (hl : l.length < 2 ^ 15) (hs : str.length ≤ 30) (hn : str ≠ []) (h₀ : 0 ∉ str) :
    ∃ turns position, run turns l (.ofNat l.length) (str ++ 0 :: r) = .done position ∧
      Answer str l position.toInt := by
  obtain ⟨turns, position, hd, ha⟩ := At.start hn |>.loop_done (l := l) (r := r) hl hs
  have hc : count 0 (str ++ 0 :: r) = .ok (.ofNat str.length) := by
    simpa using count_eq (n := 0) h₀ (by omega)
  exact ⟨turns, position, by rw [run, hc]; exact hd, ha⟩

theorem infix_iff : str <:+: l ↔ ∃ p, str <+: l.drop p := by
  constructor
  case mp =>
    intro ⟨a, b, h⟩
    exact ⟨a.length, b, by simp [← h, List.append_assoc]⟩
  case mpr => exact fun ⟨p, h⟩ => h.isInfix.trans (List.drop_suffix p l).isInfix

theorem First.unique (h : First str l p) (h₁ : First str l q) : p = q := by
  obtain hlt | he | hlt := Nat.lt_trichotomy p q
  case inl => exact absurd h.occurs <| h₁.least p hlt
  case inr.inl => exact he
  case inr.inr => exact absurd h₁.occurs <| h.least q hlt

theorem Answer.eq (h : Answer str l v) (h₁ : Answer str l w) : v = w := by
  obtain ⟨p, hp, rfl⟩ | ⟨rfl, hn⟩ := h <;> obtain ⟨q, hq, rfl⟩ | ⟨rfl, hm⟩ := h₁
  case inl.inl => rw [hp.unique hq]
  case inl.inr => exact absurd hp.occurs (hm p)
  case inr.inl => exact absurd hq.occurs (hn q)
  case inr.inr => rfl

theorem answer_loop (hn : str ≠ []) (hr : ∀ b < c, ¬str <+: l.drop b) (hc : l.drop c = bs) :
    Answer str l (bufsearch.loop str c bs) := by
  induction bs generalizing c with
  | nil =>
    refine .inr ⟨rfl, fun p hp => ?_⟩
    by_cases hpc : p < c
    case pos => exact hr p hpc hp
    case neg =>
      have := List.drop_eq_nil_iff.mp hc
      rw [List.drop_of_length_le (by omega)] at hp
      exact hn <| List.prefix_nil.mp hp
  | cons b bs ih =>
    rw [bufsearch.loop]
    split
    case isTrue h =>
      exact .inl ⟨c, ⟨hc ▸ List.isPrefixOf_iff_prefix.mp h, hr⟩, rfl⟩
    case isFalse h =>
      refine ih (c := c + 1) (fun q hq => ?_) (by rw [← List.drop_drop, hc]; rfl)
      obtain hq | hq := Nat.lt_succ_iff_lt_or_eq.mp hq
      case inl => exact hr q hq
      case inr => exact fun hp => h <| List.isPrefixOf_iff_prefix.mpr (hc ▸ hq ▸ hp)

-- What the other modules take for the search is what it computes.
theorem run_refines (hl : l.length < 2 ^ 15) (hs : str.length ≤ 30) (hn : str ≠ []) (h₀ : 0 ∉ str) :
    ∃ turns position, run turns l (.ofNat l.length) (str ++ 0 :: r) = .done position ∧
      position.toInt = bufsearch l l.length str := by
  obtain ⟨turns, position, hd, ha⟩ := run_done (r := r) hl hs hn h₀
  refine ⟨turns, position, hd, ha.eq ?_⟩
  have hs : ¬30 < str.length := by omega
  rw [bufsearch, if_neg hs, List.take_length]
  exact answer_loop (c := 0) hn (by simp) rfl

-- The search of a buffer ends with the least position at which the key occurs, or with -1 exactly if it does
-- not occur. It has read nothing but the buffer and the key.
theorem bufsearch_law (l str r : Bytes) (hl : l.length ≤ 32767) (hn : 1 ≤ str.length)
    (hs : str.length ≤ 30) (h₀ : 0 ∉ str) :
    ∃ turns position, run turns l (.ofNat l.length) (str ++ 0 :: r) = .done position ∧
      (position = -1 ↔ ¬str <:+: l) ∧ ∀ p, First str l p → position.toInt = p := by
  have hn : str ≠ [] := List.length_pos_iff.mp hn
  obtain ⟨turns, position, hd, ha⟩ := run_done (r := r) (Nat.lt_succ_of_le hl) hs hn h₀
  refine ⟨turns, position, hd, ?_, fun p hp => ha.eq <| .inl ⟨p, hp, rfl⟩⟩
  rw [infix_iff, ← Int16.toInt_inj]
  obtain ⟨p, hp, he⟩ | ⟨he, hm⟩ := ha
  case inl =>
    have : position.toInt ≠ (-1 : Int16).toInt := by
      rw [he]
      exact fun h => by have : (p : Int) = -1 := h; omega
    exact iff_of_false this (not_not.mpr ⟨p, hp.occurs⟩)
  case inr => exact iff_of_true he (fun ⟨p, hp⟩ => hm p hp)

-- The first `a` matches half of the key, which begins again inside of itself.
theorem bufsearch_law_aab : ∃ turns position,
    run turns [97, 97, 97, 98] 4 ([97, 97, 98] ++ 0 :: []) = .done position ∧
      (position = -1 ↔ ¬([97, 97, 98] : Bytes) <:+: [97, 97, 97, 98]) ∧
      ∀ p, First [97, 97, 98] [97, 97, 97, 98] p → position.toInt = p :=
  bufsearch_law [97, 97, 97, 98] [97, 97, 98] [] (by decide) (by decide) (by decide) (by decide)

end Bufsearch
