import Webtermo.Library.Base64

-- The helpers of `system.c`

-- A mismatch restarts the search behind the first character that has matched.
def bufsearch.loop (str : Bytes) (position : Int) : Bytes → Int
  | []      => -1
  | b :: bs => if str.isPrefixOf (b :: bs) then position else loop str (position + 1) bs

def bufsearch (startadr : Bytes) (len : Nat) (str : Bytes) : Int :=
  if 30 < str.length then -1 else bufsearch.loop str 0 (startadr.take len)

-- The bytes that are complete so far, and the one that is being put together unless `vByteNumber`
-- is 0. A full destination ends the loop.
def base64Decode.loop (wDestLen : Nat) : Bytes → (vByteNumber : Nat) → Bytes → UInt8 → Bytes
  | [],     0, out, _   => out
  | [],     _, out, cur => out ++ [cur]
  | i :: s, 0, out, _   => if wDestLen ≤ out.length then out else loop wDestLen s 1 out (i <<< 2)
  | i :: s, 1, out, cur =>
    let out := out ++ [cur ||| i >>> 4]
    if wDestLen ≤ out.length then out else loop wDestLen s 2 out (i <<< 4)
  | i :: s, 2, out, cur =>
    let out := out ++ [cur ||| i >>> 2]
    if wDestLen ≤ out.length then out else loop wDestLen s 3 out (i <<< 6)
  | i :: s, _, out, cur => loop wDestLen s 0 (out ++ [cur ||| i]) 0

-- The bytes that are written to the destination
def base64Decode (cSourceData : Bytes) (wDestLen : Nat) : Bytes :=
  base64Decode.loop wDestLen (Base64.sextets cSourceData) 0 [] 0

-- The destination gets as much as it has room for, the incomplete byte included.
theorem base64Decode.loop_eq (h : o.length ≤ n) :
    loop n s 0 o x = (o ++ (Base64.decode s ++ Base64.leftover s)).take n := by
  have full {o t : Bytes} (h : o.length ≤ n) (hn : n ≤ o.length) : o = (o ++ t).take n := by
    rw [← Nat.le_antisymm h hn, List.take_left]
  have all {o : Bytes} (h : o.length ≤ n) : o = o.take n :=
    (List.take_of_length_le h).symm
  have next {o : Bytes} {y : UInt8} (h : ¬n ≤ o.length) : (o ++ [y]).length ≤ n := by
    rw [List.length_append, List.length_singleton]
    omega
  induction s using Base64.decode.induct generalizing o x with
  | case1 a b c d s ih =>
    simp only [Base64.decode, Base64.leftover, loop]
    split
    case isTrue h₀ => exact full h h₀
    case isFalse h₀ =>
      split
      case isTrue h₁ => simpa using full (next h₀) h₁
      case isFalse h₁ =>
        split
        case isTrue h₂ => simpa using full (next h₁) h₂
        case isFalse h₂ => simpa using ih <| next h₂
  | case2 a b c =>
    simp only [Base64.decode, Base64.leftover, loop]
    split
    case isTrue h₀ => exact full h h₀
    case isFalse h₀ =>
      split
      case isTrue h₁ => simpa using full (next h₀) h₁
      case isFalse h₁ =>
        split
        case isTrue h₂ => simpa using full (next h₁) h₂
        case isFalse h₂ => simpa using all <| next (y := c <<< 6) h₂
  | case3 a b =>
    simp only [Base64.decode, Base64.leftover, loop]
    split
    case isTrue h₀ => exact full h h₀
    case isFalse h₀ =>
      split
      case isTrue h₁ => simpa using full (next h₀) h₁
      case isFalse h₁ => simpa using all <| next (y := b <<< 4) h₁
  | case4 s h₄ h₃ h₂ =>
    obtain _ | ⟨a, _ | ⟨b, _ | ⟨c, _ | ⟨d, s⟩⟩⟩⟩ := s
    · simpa [loop, Base64.decode, Base64.leftover] using all h
    ·
      simp only [Base64.decode, Base64.leftover, loop]
      split
      case isTrue h₀ => exact full h h₀
      case isFalse h₀ => simpa using all <| next (y := a <<< 2) h₀
    · exact absurd rfl (h₂ a b)
    · exact absurd rfl (h₃ a b c)
    · exact absurd rfl (h₄ a b c d s)

theorem base64Decode_eq_take :
    base64Decode s n = (Base64.decode (Base64.sextets s) ++ Base64.leftover (Base64.sextets s)).take n :=
  base64Decode.loop_eq <| Nat.zero_le n

theorem base64Decode_eq
    (h : (Base64.decode (Base64.sextets s)).length + (Base64.leftover (Base64.sextets s)).length ≤ n) :
    base64Decode s n = Base64.decode (Base64.sextets s) ++ Base64.leftover (Base64.sextets s) := by
  rw [base64Decode_eq_take, List.take_of_length_le (by simpa using h)]

-- A key is not found exactly if it does not occur.
theorem bufsearch_eq_neg_one_iff (hl : str.length ≤ 30) (hn : str ≠ []) :
    bufsearch l l.length str = -1 ↔ ¬str <:+: l := by
  have loop {n : Nat} : bufsearch.loop str n l = -1 ↔ ¬str <:+: l := by
    induction l generalizing n with
    | nil => simp [bufsearch.loop, hn]
    | cons c l ih =>
      by_cases hp : str <+: c :: l
      case pos =>
        have hi : (n : Int) ≠ -1 := by omega
        simp [bufsearch.loop, hp, hp.isInfix, hi]
      case neg =>
        simp only [bufsearch.loop, List.isPrefixOf_iff_prefix, hp, if_false, List.infix_cons_iff]
        simpa using ih (n := n + 1)
  have hl : ¬30 < str.length := by omega
  simpa [bufsearch, hl] using loop (n := 0)

-- No occurrence of the key starts in the text, whatever follows.
def Clash (str l : Bytes) : Prop :=
  ∀ t ∈ l.tails, t ≠ [] → ¬t <+: str ∧ ¬str <+: t

instance : Decidable (Clash str l) :=
  inferInstanceAs <| Decidable (∀ t ∈ _, _)

theorem clash_cons_iff : Clash str (c :: l) ↔ (¬c :: l <+: str ∧ ¬str <+: c :: l) ∧ Clash str l := by
  simp [Clash]

-- A key starts only where its first character stands.
theorem clash_of_not_mem (h : c ∉ l) : Clash (c :: str) l := by
  induction l with
  | nil => simp [Clash]
  | cons d l ih =>
    have ⟨hd, hl⟩ : c ≠ d ∧ c ∉ l := by simpa using h
    refine clash_cons_iff.mpr ⟨⟨fun hp => ?_, fun hp => ?_⟩, ih hl⟩
    · exact hd (List.cons_prefix_cons.mp hp).1.symm
    · exact hd (List.cons_prefix_cons.mp hp).1

theorem Clash.append (ha : Clash str a) (hb : Clash str b) : Clash str (a ++ b) := by
  induction a with
  | nil => exact hb
  | cons c a ih =>
    have ⟨⟨h₁, h₂⟩, ha⟩ := clash_cons_iff.mp ha
    refine clash_cons_iff.mpr ⟨⟨fun hp => ?_, fun hp => ?_⟩, ih ha⟩
    · exact h₁ <| (List.prefix_append (c :: a) b).trans hp
    · obtain h | h := List.prefix_or_prefix_of_prefix (List.prefix_append (c :: a) b) hp
      · exact h₁ h
      · exact h₂ h

-- The search finds a key behind such a text.
theorem bufsearch_of_clash (h : Clash str a) (hl : str.length ≤ 30) (hn : str ≠ [])
    (ha : a.length + str.length ≤ len) : bufsearch (a ++ (str ++ r)) len str = a.length := by
  have loop {a l : Bytes} {n : Int} (h : Clash str a) :
      bufsearch.loop str n (a ++ (str ++ l)) = n + a.length := by
    induction a generalizing n with
    | nil =>
      have ⟨c, cs, hc⟩ := List.exists_cons_of_ne_nil hn
      have hp : str.isPrefixOf (str ++ l) = true :=
        List.isPrefixOf_iff_prefix.mpr <| List.prefix_append str l
      simp only [hc, List.cons_append] at hp
      simp [hc, bufsearch.loop, hp]
    | cons c a ih =>
      have ⟨⟨h₁, h₂⟩, ha⟩ := clash_cons_iff.mp h
      have hp : ¬str <+: c :: (a ++ (str ++ l)) := by
        intro hp
        obtain h | h := List.prefix_or_prefix_of_prefix (List.prefix_append (c :: a) (str ++ l)) hp
        · exact h₁ h
        · exact h₂ h
      simp only [List.cons_append, bufsearch.loop, List.isPrefixOf_iff_prefix, hp, if_false, ih ha,
        List.length_cons]
      omega
  have ht : (a ++ (str ++ r)).take len = a ++ (str ++ r.take (len - a.length - str.length)) := by
    rw [List.take_append, List.take_append, List.take_of_length_le (by omega),
      List.take_of_length_le (by omega)]
  have hl : ¬30 < str.length := by omega
  simpa [bufsearch, hl, ht] using loop (l := r.take (len - a.length - str.length)) (n := 0) h

-- The search for a single character

theorem bufsearch_of_not_mem (h : c ∉ l.take len) : bufsearch l len [c] = -1 := by
  have loop {bs : Bytes} {n : Int} (h : c ∉ bs) : bufsearch.loop [c] n bs = -1 := by
    induction bs generalizing n with
    | nil => rfl
    | cons b bs ih =>
      have ⟨hb, hs⟩ : c ≠ b ∧ c ∉ bs := by simpa using h
      simp [bufsearch.loop, hb, ih hs]
  simpa [bufsearch] using loop h

theorem bufsearch_separator (h : c ∉ a) (hl : a.length < len) :
    bufsearch (a ++ c :: b) len [c] = a.length := by
  have loop {a l : Bytes} {n : Int} (h : c ∉ a) :
      bufsearch.loop [c] n (a ++ c :: l) = n + a.length := by
    induction a generalizing n with
    | nil => simp [bufsearch.loop]
    | cons d a ih =>
      have ⟨hd, ha⟩ : c ≠ d ∧ c ∉ a := by simpa using h
      simp only [List.cons_append, bufsearch.loop, ih ha, List.length_cons]
      simp [hd]
      omega
  have ⟨k, hk⟩ : ∃ k, len = a.length + (k + 1) := ⟨len - a.length - 1, by omega⟩
  have ht : (a ++ c :: b).take len = a ++ c :: b.take k := by
    rw [hk, List.take_length_add_append, List.take_succ_cons]
  simpa [bufsearch, ht] using loop (l := b.take k) (n := 0) h
