import Webtermo.Objects.Parsers

-- `XMLParser` with the widths of its integers, for a buffer of which nothing else may be read and a
-- destination of which nothing else may be written
namespace XmlParser

def int16 (n : Nat) : Int :=
  if n < 2 ^ 15 then n else n - 2 ^ 16

-- `bufsearch` from one position of the buffer on, of which the rest is left. After a mismatch it goes on
-- behind the position that it has kept, which is negative from 2^15 on and leads in front of the buffer.
-- A buffer that ends in the middle of the key ends the loop.
def search (str : Bytes) (position : Nat) : Bytes → Option Int
  | []      => some (-1)
  | b :: bs =>
    if str.isPrefixOf (b :: bs) then some (int16 position)
    else if (b :: bs).isPrefixOf str then some (-1)
    else if str.head? = some b ∧ 2 ^ 15 ≤ position then none
    else search str (position + 1) bs

def bufsearch16 (startadr str : Bytes) : Option Int :=
  if 30 < str.length then some (-1) else search str 0 startadr

def parse (tag itagBuf : Bytes) (rBuf : Buffer cap) : Option (Int8 × Buffer cap) := do
  let rval ← bufsearch16 itagBuf tag
  if rval = -1 then
    some (-1, rBuf)
  else if rval + tag.length < 0 then
    none
  else
    let behind := itagBuf.drop (rval + tag.length).toNat
    if 60 ∈ behind then
      let text := behind.takeWhile (· ≠ 60)
      let rBuf ← rBuf.strcpy text
      some (Int8.ofNat text.length, rBuf)
    else
      none

-- The text between the first occurrence of the tag and the next `<`
structure Text (tag buf v : Bytes) : Prop where
  first : ∃ a r, buf = a ++ (tag ++ (v ++ 60 :: r)) ∧
    ∀ a₁ r₁, buf = a₁ ++ (tag ++ r₁) → a.length ≤ a₁.length
  text  : 60 ∉ v

structure Parsed (tag buf : Bytes) (rBuf : Buffer cap) (ret : Int8) (rBuf₁ : Buffer cap) : Prop where
  absent : ret = -1 ↔ ¬∃ v, Text tag buf v
  text   : ∀ v, Text tag buf v → ret.toInt = v.length ∧ rBuf.strcpy v = some rBuf₁

-- The search comes to a position without having found the key or the end of the buffer before, and has
-- not gone astray.
def Reached (tag a b : Bytes) : Prop :=
  ∀ a₁ a₂, a = a₁ ++ a₂ → a₂ ≠ [] → ¬tag <+: a₂ ++ b ∧ ¬a₂ ++ b <+: tag ∧
    ¬(2 ^ 15 ≤ a₁.length ∧ tag.head? = a₂.head?)

-- From 2^15 on, the search comes to a byte that the tag starts with. It is harmless only where the
-- buffer ends in the middle of the tag.
def Strays (tag buf : Bytes) : Prop :=
  ∃ a b, buf = a ++ b ∧ Reached tag a b ∧ 2 ^ 15 ≤ a.length ∧ tag.head? = b.head? ∧
    (tag <+: b ∨ ¬b <+: tag)

inductive Found (tag buf : Bytes) : Option Int → Prop
  | found {a b : Bytes} (split : buf = a ++ b) (reached : Reached tag a b) (here : tag <+: b) :
    Found tag buf (some (int16 a.length))
  | missing (h : ¬tag <:+: buf) (straight : ¬Strays tag buf) : Found tag buf (some (-1))
  | astray (h : Strays tag buf) : Found tag buf none

variable {tag buf a b v : Bytes} {rBuf rBuf₁ : Buffer cap}

theorem reached_nil : Reached tag [] b := by
  intro a₁ a₂ h hn
  exact absurd (List.append_eq_nil_iff.mp h.symm).2 hn

theorem Reached.concat (r : Reached tag a (c :: b)) (h₁ : ¬tag <+: c :: b) (h₂ : ¬c :: b <+: tag)
    (h₃ : ¬(2 ^ 15 ≤ a.length ∧ tag.head? = some c)) : Reached tag (a ++ [c]) b := by
  intro a₁ a₂ h hn
  cases a₂ using List.reverseRecOn with
  | nil => exact absurd rfl hn
  | append_singleton a₂ d =>
    rw [← List.append_assoc] at h
    have ⟨ha, hd⟩ := List.append_inj' h rfl
    cases hd
    rw [List.append_assoc, List.singleton_append]
    cases a₂ with
    | nil =>
      rw [List.append_nil] at ha
      exact ha ▸ ⟨h₁, h₂, h₃⟩
    | cons e a₂ => exact r a₁ (e :: a₂) ha <| List.cons_ne_nil e a₂

-- Two positions that the search comes to are the same, or one is in front of the other.
theorem positions (h : a ++ b = a₁ ++ b₁) :
    (∃ a₂, a₂ ≠ [] ∧ a = a₁ ++ a₂ ∧ b₁ = a₂ ++ b) ∨ (a = a₁ ∧ b = b₁) ∨
    ∃ a₂, a₂ ≠ [] ∧ a₁ = a ++ a₂ ∧ b = a₂ ++ b₁ := by
  obtain ⟨a₂, ha, hb⟩ | ⟨a₂, ha, hb⟩ := List.append_eq_append_iff.mp h
  case inl =>
    cases a₂ with
    | nil => exact .inr <| .inl ⟨by simpa using ha.symm, hb⟩
    | cons c a₂ => exact .inr <| .inr ⟨c :: a₂, by simp, ha, hb⟩
  case inr =>
    cases a₂ with
    | nil => exact .inr <| .inl ⟨by simpa using ha, hb.symm⟩
    | cons c a₂ => exact .inl ⟨c :: a₂, by simp, ha, hb⟩

-- Where the buffer ends in the middle of the tag, the search has not gone astray.
theorem Reached.straight (r : Reached tag a b) (hb : b <+: tag) (hn : ¬tag <+: b) :
    ¬Strays tag (a ++ b) := by
  intro ⟨a₁, b₁, hs, r₁, hl, hd, ho⟩
  obtain ⟨a₂, hn₂, rfl, rfl⟩ | ⟨rfl, rfl⟩ | ⟨a₂, hn₂, rfl, rfl⟩ := positions hs
  case inl =>
    have ⟨_, _, h⟩ := r a₁ a₂ rfl hn₂
    refine h ⟨hl, ?_⟩
    rwa [List.head?_append_of_ne_nil _ hn₂] at hd
  case inr.inl => exact ho.elim hn (absurd hb)
  case inr.inr => exact (r₁ a a₂ rfl hn₂).2.1 hb

theorem Reached.not_infix (r : Reached tag a b) (hb : b <+: tag) (hn : ¬tag <+: b) :
    ¬tag <:+: a ++ b := by
  intro ⟨a₁, b₁, hs⟩
  rw [List.append_assoc] at hs
  obtain ⟨a₂, hn₂, ha, ht⟩ | ⟨_, ht⟩ | ⟨a₂, hn₂, ha, ht⟩ := positions hs.symm
  case inl => exact (r a₁ a₂ ha hn₂).1 ⟨b₁, ht⟩
  case inr.inl => exact hn ⟨b₁, ht.symm⟩
  case inr.inr =>
    have h₁ := List.length_pos_iff.mpr hn₂
    have h₂ := congrArg List.length ht
    have h₃ := hb.length_le
    simp only [List.length_append] at h₂
    omega

theorem search_found (ht : tag ≠ []) (r : Reached tag a b) :
    Found tag (a ++ b) (search tag a.length b) := by
  induction b generalizing a with
  | nil =>
    have hn : ¬tag <+: [] := fun h => ht <| List.prefix_nil.mp h
    exact .missing (r.not_infix List.nil_prefix hn) (r.straight List.nil_prefix hn)
  | cons c b ih =>
    simp only [search, List.isPrefixOf_iff_prefix]
    split
    case isTrue h => exact .found rfl r h
    case isFalse hn =>
      split
      case isTrue hb => exact .missing (r.not_infix hb hn) (r.straight hb hn)
      case isFalse hb =>
        split
        case isTrue hs => exact .astray ⟨a, c :: b, rfl, r, hs.2, hs.1, .inr hb⟩
        case isFalse hs =>
          have := ih <| r.concat hn hb fun h => hs h.symm
          simpa only [List.append_assoc, List.singleton_append, List.length_append,
            List.length_singleton] using this

theorem bufsearch16_found (hl : tag.length ≤ 30) (ht : tag ≠ []) : Found tag buf (bufsearch16 buf tag) := by
  rw [bufsearch16, if_neg (by omega)]
  exact search_found ht reached_nil

-- What is searched for stands at the first position where it occurs.
theorem Reached.first (r : Reached tag a b) (h : a ++ b = a₁ ++ (tag ++ r₁)) : a.length ≤ a₁.length := by
  obtain ⟨a₂, hn, ha, ht⟩ | ⟨ha, _⟩ | ⟨a₂, _, ha, _⟩ := positions h
  case inl => exact absurd ⟨r₁, ht⟩ (r a₁ a₂ ha hn).1
  case inr.inl => exact Nat.le_of_eq <| congrArg List.length ha
  case inr.inr => simp [ha]

-- A search that finds the tag in time has not gone astray.
theorem Reached.not_strays (h : tag <+: b) (hl : a.length < 2 ^ 15) : ¬Strays tag (a ++ b) := by
  intro ⟨a₁, b₁, hs, r₁, hl₁, _⟩
  obtain ⟨a₂, hn, ha, ht⟩ | ⟨ha, _⟩ | ⟨a₂, hn, ha, ht⟩ := positions hs
  case inl =>
    have := congrArg List.length ha
    simp only [List.length_append] at this
    omega
  case inr.inl =>
    have := congrArg List.length ha
    omega
  case inr.inr => exact (r₁ a a₂ ha hn).1 <| ht ▸ h

-- The text is the only one.
theorem Text.unique (h : Text tag (a ++ (tag ++ t)) v)
    (hf : ∀ a₁ r₁, a ++ (tag ++ t) = a₁ ++ (tag ++ r₁) → a.length ≤ a₁.length) :
    ∃ r, t = v ++ 60 :: r := by
  have ⟨a₁, r, hs, hf₁⟩ := h.first
  have hl : a.length = a₁.length := Nat.le_antisymm (hf _ _ hs) (hf₁ _ _ rfl)
  have ⟨_, ht⟩ := List.append_inj hs hl
  exact ⟨r, List.append_cancel_left ht⟩

theorem toInt_ofNat_iff {n : Nat} : (Int8.ofNat n).toInt = n ↔ n ≤ 127 := by
  constructor
  case mp =>
    intro h
    have := (Int8.ofNat n).toInt_lt
    omega
  case mpr => exact fun h => Int8.toInt_ofNat_of_lt <| by omega

theorem takeWhile_split {v : Bytes} (h : 60 ∉ v) : (v ++ 60 :: r).takeWhile (· ≠ 60) = v := by
  rw [List.takeWhile_append_of_pos]
  · simp
  · simpa using fun x hx => ne_of_mem_of_not_mem hx h

-- The tag is found in time.
theorem parse_low (ha : a.length < 2 ^ 15)
    (hs : bufsearch16 (a ++ (tag ++ t)) tag = some (int16 a.length)) :
    parse tag (a ++ (tag ++ t)) rBuf =
      if 60 ∈ t then
        (rBuf.strcpy (t.takeWhile (· ≠ 60))).map fun rBuf =>
          (Int8.ofNat (t.takeWhile (· ≠ 60)).length, rBuf)
      else none := by
  have hi : int16 a.length = a.length := if_pos ha
  have h₁ : (a.length : Int) ≠ -1 := by omega
  have h₂ : ¬(a.length + tag.length : Int) < 0 := by omega
  have hd : (a ++ (tag ++ t)).drop ((a.length : Int) + tag.length).toNat = t := by
    have : ((a.length : Int) + tag.length).toNat = a.length + tag.length := by omega
    rw [this, List.drop_length_add_append, List.drop_left]
  simp only [parse, hs, hi, Option.bind_eq_bind, Option.bind_some, h₁, h₂, if_false, hd]
  split
  case isTrue => cases rBuf.strcpy (t.takeWhile (· ≠ 60)) <;> rfl
  case isFalse => rfl

-- The tag is found at a position that is taken for a negative one.
theorem parse_high (ha : ¬a.length < 2 ^ 15) (hl : a.length + tag.length < 2 ^ 16) (ht : tag ≠ [])
    (hs : bufsearch16 buf tag = some (int16 a.length)) : parse tag buf rBuf = none := by
  have hi : int16 a.length = a.length - 2 ^ 16 := if_neg ha
  have := List.length_pos_iff.mpr ht
  have h₁ : (a.length - 2 ^ 16 : Int) ≠ -1 := by omega
  have h₂ : (a.length - 2 ^ 16 + tag.length : Int) < 0 := by omega
  simp only [parse, hs, hi, Option.bind_eq_bind, Option.bind_some, h₁, h₂, if_false, if_true]

theorem Text.infix (h : Text tag buf v) : tag <:+: buf := by
  have ⟨a, r, hs, _⟩ := h.first
  exact ⟨a, v ++ 60 :: r, by rw [hs, List.append_assoc]⟩

-- The text that is found is copied as a whole exactly if there is room for it and its length is no
-- negative number of eight bits.
theorem parsed_iff (h : Text tag buf v) (hu : ∀ w, Text tag buf w → w = v) :
    (∃ ret rBuf₁, (rBuf.strcpy v).map (fun rBuf => (Int8.ofNat v.length, rBuf)) = some (ret, rBuf₁) ∧
      Parsed tag buf rBuf ret rBuf₁) ↔ v.length < cap ∧ v.length ≤ 127 := by
  constructor
  case mp =>
    intro ⟨ret, rBuf₁, he, hp⟩
    have ⟨_, hc, he⟩ := Option.map_eq_some_iff.mp he
    cases he
    have ⟨hr, _⟩ := hp.text v h
    exact ⟨Buffer.strcpy_isSome_iff.mp <| Option.isSome_of_eq_some hc, toInt_ofNat_iff.mp hr⟩
  case mpr =>
    intro ⟨hc, hn⟩
    have ⟨rBuf₁, he⟩ := rBuf.strcpy_eq_some hc
    have hr : (Int8.ofNat v.length).toInt = v.length := toInt_ofNat_iff.mpr hn
    refine ⟨Int8.ofNat v.length, rBuf₁, by rw [he]; rfl, ?absent, ?text⟩
    case absent =>
      refine iff_of_false (fun hm => ?_) fun hv => hv ⟨v, h⟩
      have hm : (Int8.ofNat v.length).toInt = -1 := congrArg Int8.toInt hm
      omega
    case text =>
      intro w hw
      rw [hu w hw]
      exact ⟨hr, he⟩

-- `XMLParser` does what it should exactly if the search does not go astray, and behind a tag that it
-- finds there is a text, which the destination and the return value have room for.
theorem parse_law (hb : buf.length < 2 ^ 16) (ht : tag ≠ []) (hl : tag.length ≤ 30) :
    (∃ ret rBuf₁, parse tag buf rBuf = some (ret, rBuf₁) ∧ Parsed tag buf rBuf ret rBuf₁) ↔
      ¬Strays tag buf ∧
      (tag <:+: buf → ∃ v, Text tag buf v ∧ v.length < cap ∧ v.length ≤ 127) := by
  have f : Found tag buf (bufsearch16 buf tag) := bufsearch16_found hl ht
  generalize hs : bufsearch16 buf tag = r at f
  cases f with
  | missing hi hr =>
    have hp : parse tag buf rBuf = some (-1, rBuf) := by simp [parse, hs]
    have hn : ¬∃ v, Text tag buf v := fun ⟨_, h⟩ => hi h.infix
    refine iff_of_true ⟨-1, rBuf, hp, ?_, fun v h => absurd ⟨v, h⟩ hn⟩ ⟨hr, fun h => absurd h hi⟩
    exact iff_of_true rfl hn
  | astray hr =>
    have hp : parse tag buf rBuf = none := by simp [parse, hs]
    simp [hp, hr]
  | found split r here =>
    rename_i a b
    have ⟨t, here⟩ := here
    subst here split
    by_cases ha : a.length < 2 ^ 15
    case neg =>
      have hp : parse tag (a ++ (tag ++ t)) rBuf = none := by
        refine parse_high ha ?_ ht hs
        simp only [List.length_append] at hb
        omega
      have hh : tag.head? = (tag ++ t).head? := (List.head?_append_of_ne_nil _ ht).symm
      have hr : Strays tag (a ++ (tag ++ t)) :=
        ⟨a, tag ++ t, rfl, r, Nat.le_of_not_lt ha, hh, .inl ⟨t, rfl⟩⟩
      simp [hp, hr]
    case pos =>
      have hr : ¬Strays tag (a ++ (tag ++ t)) := Reached.not_strays ⟨t, rfl⟩ ha
      have hi : tag <:+: a ++ (tag ++ t) := ⟨a, t, List.append_assoc ..⟩
      have hf : ∀ a₁ r₁, a ++ (tag ++ t) = a₁ ++ (tag ++ r₁) → a.length ≤ a₁.length :=
        fun _ _ h => r.first h
      rw [parse_low ha hs, and_iff_right hr]
      by_cases hm : 60 ∈ t
      case neg =>
        rw [if_neg hm]
        refine iff_of_false (fun ⟨_, _, he, _⟩ => nomatch he) fun h => ?_
        have ⟨v, hv, _⟩ := h hi
        have ⟨_, hv⟩ := hv.unique hf
        exact hm <| hv ▸ List.mem_append_cons_self
      case pos =>
        have ⟨v, r₁, hv, hn⟩ := List.eq_append_cons_of_mem hm
        have hx : Text tag (a ++ (tag ++ t)) v := ⟨⟨a, r₁, by rw [hv], hf⟩, hn⟩
        have hu : ∀ w, Text tag (a ++ (tag ++ t)) w → w = v := by
          intro w hw
          have ⟨r₂, hw₁⟩ := hw.unique hf
          rw [← takeWhile_split (r := r₂) hw.text, ← hw₁, hv, takeWhile_split hn]
        have hw : t.takeWhile (· ≠ 60) = v := by rw [hv, takeWhile_split hn]
        rw [if_pos hm, hw, parsed_iff hx hu]
        constructor
        case mp => exact fun h _ => ⟨v, hx, h⟩
        case mpr =>
          intro h
          have ⟨w, hw, h⟩ := h hi
          exact hu w hw ▸ h

theorem parse_law_file_name :
    (ascii "<FNAME>log</FNAME>").length < 2 ^ 16 ∧ ascii "<FNAME>" ≠ [] ∧
    (ascii "<FNAME>").length ≤ 30 ∧
    ((∃ ret rBuf₁, parse (ascii "<FNAME>") (ascii "<FNAME>log</FNAME>") (Buffer.zero 32) =
        some (ret, rBuf₁) ∧
        Parsed (ascii "<FNAME>") (ascii "<FNAME>log</FNAME>") (Buffer.zero 32) ret rBuf₁) ↔
      ¬Strays (ascii "<FNAME>") (ascii "<FNAME>log</FNAME>") ∧
      (ascii "<FNAME>" <:+: ascii "<FNAME>log</FNAME>" →
        ∃ v, Text (ascii "<FNAME>") (ascii "<FNAME>log</FNAME>") v ∧ v.length < 32 ∧ v.length ≤ 127)) :=
  have h₁ : (ascii "<FNAME>log</FNAME>").length < 2 ^ 16 := by decide +kernel
  have h₂ : ascii "<FNAME>" ≠ [] := by decide +kernel
  have h₃ : (ascii "<FNAME>").length ≤ 30 := by decide +kernel
  ⟨h₁, h₂, h₃, parse_law h₁ h₂ h₃⟩

-- The tag is not closed, and the copying goes on behind the buffer.
theorem parse_not_closed :
    parse (ascii "<FNAME>") (ascii "<FNAME>log") (Buffer.zero 32) = none ∧
    ¬∃ ret rBuf₁, parse (ascii "<FNAME>") (ascii "<FNAME>log") (Buffer.zero 32) = some (ret, rBuf₁) ∧
      Parsed (ascii "<FNAME>") (ascii "<FNAME>log") (Buffer.zero 32) ret rBuf₁ := by
  have h : parse (ascii "<FNAME>") (ascii "<FNAME>log") (Buffer.zero 32) = none := by decide +kernel
  exact ⟨h, fun ⟨_, _, he, _⟩ => nomatch h.symm.trans he⟩

-- Where this parser has an outcome, so has the one that the commands of the device are read with.

theorem bufsearch_of_first (hl : tag.length ≤ 30) (ht : tag ≠ [])
    (h : ∀ a₁ a₂, a = a₁ ++ a₂ → a₂ ≠ [] → ¬tag <+: a₂ ++ (tag ++ t)) :
    bufsearch (a ++ (tag ++ t)) (a ++ (tag ++ t)).length tag = a.length := by
  have loop {a : Bytes} {n : Int}
      (h : ∀ a₁ a₂, a = a₁ ++ a₂ → a₂ ≠ [] → ¬tag <+: a₂ ++ (tag ++ t)) :
      bufsearch.loop tag n (a ++ (tag ++ t)) = n + a.length := by
    induction a generalizing n with
    | nil =>
      have ⟨c, cs, hc⟩ := List.exists_cons_of_ne_nil ht
      have hp : tag.isPrefixOf (tag ++ t) := List.isPrefixOf_iff_prefix.mpr ⟨t, rfl⟩
      simp only [hc, List.cons_append] at hp
      simp [hc, bufsearch.loop, hp]
    | cons c a ih =>
      have hp : ¬tag <+: c :: (a ++ (tag ++ t)) := h [] (c :: a) rfl <| List.cons_ne_nil c a
      have ih := ih (n := n + 1) fun a₁ a₂ ha hn => h (c :: a₁) a₂ (ha ▸ rfl) hn
      simp only [List.cons_append, bufsearch.loop, List.isPrefixOf_iff_prefix, hp, if_false, ih,
        List.length_cons]
      omega
  rw [bufsearch, if_neg (by omega), List.take_length, loop h, Int.zero_add]

theorem parse_refines {body : Body} {tb tb₁ : Tb} (hb : body.bytes.length < 2 ^ 16) (ht : tag ≠ [])
    (hl : tag.length ≤ 30) (h : parse tag body.bytes tb = some (ret, tb₁)) :
    xmlParser tag body tb = some (ret.toUInt8.toNat, tb₁) := by
  have f : Found tag body.bytes (bufsearch16 body.bytes tag) := bufsearch16_found hl ht
  generalize hs : bufsearch16 body.bytes tag = r at f
  cases f with
  | missing hi =>
    have hp : parse tag body.bytes tb = some (-1, tb) := by simp [parse, hs]
    cases hp.symm.trans h
    rw [xmlParser, if_pos <| (bufsearch_eq_neg_one_iff hl ht).mpr hi]
    rfl
  | astray =>
    have hp : parse tag body.bytes tb = none := by simp [parse, hs]
    cases hp.symm.trans h
  | found split r here =>
    rename_i a b
    obtain ⟨t, here⟩ := here
    subst here
    rw [split] at h hs
    by_cases ha : a.length < 2 ^ 15
    case neg =>
      have hp : parse tag (a ++ (tag ++ t)) tb = none := by
        refine parse_high ha ?_ ht hs
        simp only [split, List.length_append] at hb
        omega
      cases hp.symm.trans h
    case pos =>
      rw [parse_low ha hs] at h
      split at h
      case isFalse => cases h
      case isTrue hm =>
        obtain ⟨tb₂, hc, he⟩ := Option.map_eq_some_iff.mp h
        cases he
        have hf : bufsearch body.bytes body.bytes.length tag = a.length := by
          rw [split]
          exact bufsearch_of_first hl ht fun a₁ a₂ ha hn => (r a₁ a₂ ha hn).1
        obtain ⟨v, r₁, hv, hn⟩ := List.eq_append_cons_of_mem hm
        rw [hv, takeWhile_split hn] at hc ⊢
        have hn₁ : v.length < 130 := Buffer.strcpy_isSome_iff.mp <| Option.isSome_of_eq_some hc
        have hk : (Int8.ofNat v.length).toUInt8.toNat = v.length := by
          rw [Int8.toUInt8_ofNat', UInt8.toNat_ofNat', Nat.mod_eq_of_lt (by omega)]
        rw [xmlParser_of_bufsearch (hv ▸ split) hf hn, hc, hk]
        rfl

-- `XMLParser` finds the text of a tag.
theorem xmlParser_of_text {body : Body} (hl : tag.length ≤ 30) (ht : tag ≠ [])
    (h : Text tag body.bytes t) :
    xmlParser tag body tb = (tb.strcpy t).map fun tb => (t.length, tb) := by
  obtain ⟨a, r, hb, hf⟩ := h.first
  refine xmlParser_of_bufsearch hb ?_ h.text
  rw [hb]
  refine bufsearch_of_first hl ht fun a₁ a₂ ha hn ⟨r₁, hp⟩ => ?_
  have hl := hf a₁ r₁ <| by rw [hb, ha, List.append_assoc, ← hp]
  have := List.length_pos_iff.mpr hn
  rw [ha, List.length_append] at hl
  omega

end XmlParser
