import Mathlib

-- The indices of sensors, inputs and recipients have numerals.
instance neZero_three : NeZero 3 := ⟨by decide⟩
instance neZero_five : NeZero 5 := ⟨by decide⟩
instance neZero_eight : NeZero 8 := ⟨by decide⟩
instance neZero_nine : NeZero (8 + 1) := ⟨by decide⟩

abbrev Bytes := List UInt8

instance lawfulBEq_bytes : LawfulBEq Bytes := inferInstance

-- The bytes are few enough to be tried one after the other.
theorem forall_byte {P : UInt8 → Prop} (h : ∀ n : Fin 256, P n.val.toUInt8) : ∀ x, P x := by
  intro x
  have hx : x.toNat.toUInt8 = x := by simp
  exact hx ▸ h ⟨x.toNat, x.toNat_lt⟩

-- The bytes of a text
def ascii (s : String) : Bytes :=
  s.toByteArray.data.toList

-- The text that starts at the head of the given memory, without its terminating NUL.
-- Memory without a NUL holds no text.
def cstr : Bytes → Option Bytes
  | []      => none
  | b :: bs => if b = 0 then some [] else (cstr bs).map (b :: ·)

theorem cstr_append_nul (h : 0 ∉ s) : cstr (s ++ 0 :: r) = some s := by
  induction s with
  | nil => rfl
  | cons b s ih =>
    have ⟨hb, hs⟩ : 0 ≠ b ∧ 0 ∉ s := by simpa using h
    simp [cstr, Ne.symm hb, ih hs]

-- The text in front of any NUL
theorem cstr_nul : cstr (l ++ 0 :: r) = some (l.takeWhile (· ≠ 0)) := by
  induction l with
  | nil => rfl
  | cons c l ih =>
    by_cases hc : c = 0 <;> simp [cstr, hc, ih]

theorem cstr_eq_some_iff : (cstr l = some s) ↔ ∃ r, l = s ++ 0 :: r ∧ 0 ∉ s := by
  constructor
  case mpr =>
    intro ⟨r, hl, hs⟩
    exact hl ▸ cstr_append_nul hs
  case mp =>
    induction l generalizing s with
    | nil => simp [cstr]
    | cons b l ih =>
      by_cases hb : b = 0
      case pos =>
        intro h
        simp only [cstr, hb, if_true, Option.some.injEq] at h
        exact ⟨l, by simp [hb, ← h]⟩
      case neg =>
        intro h
        simp only [cstr, hb, if_false, Option.map_eq_some_iff] at h
        have ⟨s', hs', h⟩ := h
        have ⟨r, hl, hn⟩ := ih hs'
        exact ⟨r, by simp [← h, hl], by simp [← h, hn, Ne.symm hb]⟩

theorem cstr_nul_not_mem (h : cstr l = some s) : 0 ∉ s :=
  have ⟨_, _, h⟩ := cstr_eq_some_iff.mp h
  h

theorem cstr_append (h : cstr l = some s) : cstr (l ++ r) = some s := by
  have ⟨t, hl, hs⟩ := cstr_eq_some_iff.mp h
  exact cstr_eq_some_iff.mpr ⟨t ++ r, by simp [hl], hs⟩

theorem cstr_of_append (h : cstr (a ++ b) = some s) (hl : s.length < a.length) :
    cstr a = some s := by
  have ⟨r, hr, hs⟩ := cstr_eq_some_iff.mp h
  have hp : s ++ [0] <+: a ++ b := ⟨r, by simp [hr]⟩
  have ⟨q, hq⟩ := List.prefix_of_prefix_length_le hp (List.prefix_append a b) (by simp; omega)
  exact cstr_eq_some_iff.mpr ⟨q, by simp [← hq], hs⟩

theorem cstr_of_nul_mem (h : 0 ∈ l) : ∃ s, cstr l = some s := by
  induction l with
  | nil => simp at h
  | cons b l ih =>
    by_cases hb : b = 0
    case pos => exact ⟨[], by simp [cstr, hb]⟩
    case neg =>
      have ⟨s, hs⟩ := ih <| by simpa [Ne.symm hb] using h
      exact ⟨b :: s, by simp [cstr, hb, hs]⟩

-- An array of `cap` bytes.
structure Buffer (cap : Nat) where
  bytes     : Bytes
  length_eq : bytes.length = cap
  deriving DecidableEq

namespace Buffer

def zero (cap : Nat) : Buffer cap where
  bytes     := List.replicate cap 0
  length_eq := List.length_replicate

instance : Inhabited (Buffer cap) := ⟨zero cap⟩

-- Bytes outside of the array have no value.
def read (b : Buffer cap) (pos n : Nat) : Option Bytes :=
  if pos + n ≤ cap then some ((b.bytes.drop pos).take n) else none

-- A write that does not fit into the array has no defined outcome.
def write (b : Buffer cap) (pos : Nat) (d : Bytes) : Option (Buffer cap) :=
  if h : pos + d.length ≤ cap then
    some {
      bytes     := b.bytes.take pos ++ d ++ b.bytes.drop (pos + d.length)
      length_eq := by have := b.length_eq; simp; omega
    }
  else
    none

def get (b : Buffer cap) (i : Nat) : UInt8 :=
  b.bytes.getD i 0

def text (b : Buffer cap) (pos : Nat) : Option Bytes :=
  cstr (b.bytes.drop pos)

def strcpy (b : Buffer cap) (s : Bytes) : Option (Buffer cap) :=
  b.write 0 (s ++ [0])

def strcat (b : Buffer cap) (s : Bytes) : Option (Buffer cap) := do
  let t ← b.text 0
  b.write t.length (s ++ [0])

variable {b b₁ b₂ : Buffer cap}

theorem write_isSome_iff : (b.write p d).isSome ↔ p + d.length ≤ cap := by
  unfold write; split <;> simp_all

theorem write_fits (h : b.write pos d = some b₁) : pos + d.length ≤ cap :=
  write_isSome_iff (b := b) |>.mp <| by simp [h]

theorem write_bytes (h : b.write pos d = some b₁) :
    b₁.bytes = b.bytes.take pos ++ d ++ b.bytes.drop (pos + d.length) := by
  simp only [write] at h
  split at h <;> simp at h
  simp [← h]

theorem write_eq_some (h : pos + d.length ≤ cap) : ∃ b₁, b.write pos d = some b₁ := by
  simp [write, h]

theorem write_eq_none (h : cap < pos + d.length) : b.write pos d = none := by
  rw [write, dif_neg <| Nat.not_le_of_lt h]

theorem eq_of_bytes {b₁ b₂ : Buffer cap} (h : b₁.bytes = b₂.bytes) : b₁ = b₂ := by
  cases b₁
  cases b₂
  cases h
  rfl

theorem take_write (h : b.write pos d = some b₁) (hn : n ≤ pos) :
    b₁.bytes.take n = b.bytes.take n := by
  have := write_fits h
  have := b.length_eq
  simp only [write_bytes h, List.append_assoc]
  rw [List.take_append_of_le_length (by simp; omega), List.take_take, Nat.min_eq_left hn]

theorem take_write_append (h : b.write pos d = some b₁) :
    b₁.bytes.take (pos + d.length) = b.bytes.take pos ++ d := by
  have := write_fits h
  have := b.length_eq
  rw [write_bytes h, List.take_left']
  simp; omega

theorem take_write_prefix (h : b.write pos (d ++ l) = some b₁) :
    b₁.bytes.take (pos + d.length) = b.bytes.take pos ++ d := by
  have := write_fits h
  have ht := congrArg (List.take (pos + d.length)) <| take_write_append h
  have hp : (b.bytes.take pos).length = pos := by simp [b.length_eq]; omega
  rwa [List.take_take, Nat.min_eq_left (by simp), ← List.append_assoc,
    List.take_left' (by rw [List.length_append, hp])] at ht

theorem drop_write (h : b.write pos d = some b₁) (hn : pos + d.length ≤ n) :
    b₁.bytes.drop n = b.bytes.drop n := by
  have := write_fits h
  have := b.length_eq
  rw [write_bytes h, List.drop_append, List.drop_drop, List.drop_eq_nil_of_le (by simp; omega)]
  simp
  congr; omega

-- A write leaves an array as it is exactly if the bytes are there already.
theorem write_eq_self (h : b.write pos d = some b₁) :
    b₁ = b ↔ (b.bytes.drop pos).take d.length = d := by
  constructor
  case mp =>
    rintro rfl
    have ht := take_write_append h
    rw [List.take_add] at ht
    exact List.append_cancel_left ht
  case mpr =>
    intro hd
    have he : b₁.bytes = b.bytes := calc b₁.bytes
      _ = b.bytes.take pos ++ d ++ b.bytes.drop (pos + d.length) := write_bytes h
      _ = b.bytes.take pos ++ (b.bytes.drop pos).take d.length ++ b.bytes.drop (pos + d.length) := by
        rw [hd]
      _ = b.bytes := by rw [← List.take_add, List.take_append_drop]
    exact eq_of_bytes he

-- A write is the same as one of its bytes after the other.
theorem write_append : b.write pos (d ++ e) = (b.write pos d).bind (·.write (pos + d.length) e) := by
  by_cases h : pos + (d ++ e).length ≤ cap
  case pos =>
    rw [List.length_append, ← Nat.add_assoc] at h
    obtain ⟨b₁, h₁⟩ := write_eq_some (b := b) (d := d) <| Nat.le_trans (Nat.le_add_right _ _) h
    obtain ⟨b₂, h₂⟩ := write_eq_some (b := b₁) h
    obtain ⟨b₃, h₃⟩ := write_eq_some (b := b) (d := d ++ e) <| by simpa [Nat.add_assoc] using h
    rw [h₁, Option.bind_some, h₂, h₃, Option.some.injEq]
    apply eq_of_bytes
    rw [write_bytes h₂, write_bytes h₃, take_write_append h₁, drop_write h₁ <| Nat.le_add_right _ _,
      List.length_append, Nat.add_assoc]
    simp
  case neg =>
    rw [write_eq_none <| Nat.lt_of_not_le h]
    cases h₁ : b.write pos d with
    | none => rfl
    | some b₁ =>
      rw [List.length_append, ← Nat.add_assoc] at h
      exact (write_eq_none <| Nat.lt_of_not_le h).symm

theorem get_write (h : b.write pos d = some b₁) (hi : i < d.length) : b₁.get (pos + i) = d[i] := by
  have := write_fits h
  have := b.length_eq
  have hp : (b.bytes.take pos).length = pos := by simp; omega
  have hn : ¬pos + i < pos := by omega
  simp [get, write_bytes h, List.getElem?_append, hp, hi, hn]

theorem strcpy_isSome_iff : (b.strcpy s).isSome ↔ s.length < cap := by
  simp only [strcpy, write_isSome_iff, List.length_append, List.length_singleton]
  omega

theorem strcpy_eq_some (h : s.length < cap) : ∃ b₁, b.strcpy s = some b₁ :=
  write_eq_some (by simp; omega)

theorem strcpy_prefix (h : b.strcpy s = some b₁) : s ++ [0] <+: b₁.bytes := by
  rw [write_bytes h, List.take_zero, List.nil_append]
  exact List.prefix_append _ _

theorem strcpy_eq_self (h : s ++ [0] <+: b.bytes) : b.strcpy s = some b := by
  obtain ⟨r, hr⟩ := h
  have hl := congrArg List.length hr
  rw [b.length_eq] at hl
  obtain ⟨b₁, hb⟩ : ∃ b₁, b.strcpy s = some b₁ := strcpy_eq_some <| by
    simp only [List.length_append, List.length_singleton] at hl
    omega
  rw [hb, write_eq_self hb |>.mpr]
  rw [List.drop_zero, ← hr, List.take_left]

theorem strcpy_text (hs : 0 ∉ s) (h : b.strcpy s = some b₁) : b₁.text 0 = some s := by
  simp [text, write_bytes h, cstr_append_nul hs]

theorem strcpy_has_text (h : b.strcpy s = some b₁) : ∃ t, b₁.text 0 = some t :=
  cstr_of_nul_mem <| by simp [write_bytes h]

theorem strcat_eq_some (hb : b.text 0 = some t) (h : t.length + s.length < cap) :
    ∃ b₁, b.strcat s = some b₁ := by
  simp only [strcat, hb]
  exact write_eq_some (by simp; omega)

theorem strcat_text (hs : 0 ∉ s) (hb : b.text 0 = some t) (h : b.strcat s = some b₁) :
    b₁.text 0 = some (t ++ s) := by
  simp only [strcat, hb] at h
  have ⟨r, hl, ht⟩ := cstr_eq_some_iff.mp hb
  have hl : b.bytes.take t.length = t := by simp [show b.bytes = t ++ 0 :: r by simpa using hl]
  have : 0 ∉ t ++ s := by simp [ht, hs]
  simpa [text, write_bytes h, hl] using cstr_append_nul this

theorem strcpy_spec (hs : 0 ∉ s) (h : s.length < cap) :
    ∃ b₁, b.strcpy s = some b₁ ∧ b₁.text 0 = some s :=
  have ⟨b₁, hb⟩ := strcpy_eq_some h
  ⟨b₁, hb, strcpy_text hs hb⟩

theorem strcat_spec (hb : b.text 0 = some t) (hs : 0 ∉ s) (h : t.length + s.length < cap) :
    ∃ b₁, b.strcat s = some b₁ ∧ b₁.text 0 = some (t ++ s) :=
  have ⟨b₁, h₁⟩ := strcat_eq_some hb h
  ⟨b₁, h₁, strcat_text hs hb h₁⟩

theorem text_length (h : b.text 0 = some s) : s.length < cap := by
  have ⟨r, hr, _⟩ := cstr_eq_some_iff.mp h
  have := congrArg List.length hr
  have := b.length_eq
  simp at *
  omega

theorem text_nul_not_mem (h : b.text pos = some s) : 0 ∉ s :=
  cstr_nul_not_mem h

end Buffer
