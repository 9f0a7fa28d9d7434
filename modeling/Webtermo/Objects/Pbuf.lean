import Webtermo.Library.Buffer
import Webtermo.Library.Find

-- The functions of `pbuf.c` on chains of pbufs
namespace Lwip

-- A pbuf of the pool, and the bytes between `payload` and `payload + len`
structure Pbuf where
  id      : Nat
  payload : Bytes
  deriving DecidableEq

-- The pbufs from `p` on. There are none behind a null pointer.
abbrev Chain := List Pbuf

namespace Chain

def bytes (c : Chain) : Bytes :=
  c.flatMap (·.payload)

def ids (c : Chain) : List Nat :=
  c.map (·.id)

-- `tot_len` is a word of 16 bits, to which `pbuf_cat` adds.
def totLen (c : Chain) : Nat :=
  c.bytes.length % 2 ^ 16

-- `pbuf_skip_const`: the pbuf with the byte at the offset, and the offset in it
def skip : Chain → (offset : Nat) → Chain × Nat
  | [],     offset => ([], offset)
  | q :: c, offset =>
    if q.payload.length ≤ offset then skip c (offset - q.payload.length) else (q :: c, offset)

-- `pbuf_get_at`
def getAt (c : Chain) (offset : Nat) : UInt8 :=
  match c.skip offset with
  | ([], _)     => 0
  | (q :: _, i) => q.payload.getD i 0

-- `pbuf_memcmp`. What it looks at from the pbuf with the first byte on are the bytes from there.
def memcmp (c : Chain) (offset : Nat) (s₂ : Bytes) : Nat :=
  if c.totLen < offset + s₂.length then 0xFFFF
  else go (c.skip offset).1 (c.skip offset).2 0 s₂
where
  go (q : Chain) (start i : Nat) : Bytes → Nat
    | []     => 0
    | b :: s => if q.getAt (start + i) ≠ b then min (i + 1) 0xFFFF else go q start (i + 1) s

-- `pbuf_memfind`
def memfind (c : Chain) (mem : Bytes) (start : Nat) : Nat :=
  if mem.length + start ≤ c.totLen then go c mem (c.totLen - mem.length + 1 - start) start
  else 0xFFFF
where
  go (c : Chain) (mem : Bytes) : (turns i : Nat) → Nat
    | 0,         _ => 0xFFFF
    | turns + 1, i => if c.memcmp i mem = 0 then i else go c mem turns (i + 1)

-- `pbuf_copy_partial`: the bytes that are copied to `dataptr`
def copyPartial : Chain → (len offset : Nat) → Bytes
  | [],     _,   _      => []
  | p :: c, len, offset =>
    if len = 0 then []
    else if offset ≠ 0 ∧ p.payload.length ≤ offset then
      copyPartial c len (offset - p.payload.length)
    else
      let d := (p.payload.drop offset).take len
      d ++ copyPartial c (len - d.length) 0

-- `pbuf_free_header`: what is left of the chain
def freeHeader : Chain → (freeLeft : Nat) → Chain
  | [],     _        => []
  | p :: c, freeLeft =>
    if freeLeft = 0 then p :: c
    else if p.payload.length ≤ freeLeft then freeHeader c (freeLeft - p.payload.length)
    else { p with payload := p.payload.drop freeLeft } :: c

-- The pbufs that `pbuf_free_header` frees
def freedHeader : Chain → (freeLeft : Nat) → Chain
  | [],     _        => []
  | p :: c, freeLeft =>
    if freeLeft = 0 then []
    else if p.payload.length ≤ freeLeft then p :: freedHeader c (freeLeft - p.payload.length)
    else []

variable {c d : Chain} {s t : Bytes} {offset start len : Nat}

@[simp] theorem ids_nil : ids [] = [] := rfl

@[simp] theorem ids_append : ids (c ++ d) = c.ids ++ d.ids := List.map_append

@[simp] theorem bytes_nil : bytes [] = [] := rfl

@[simp] theorem bytes_cons : bytes (p :: c) = p.payload ++ bytes c := List.flatMap_cons

@[simp] theorem bytes_append : bytes (c ++ d) = c.bytes ++ d.bytes := List.flatMap_append

theorem totLen_eq (h : c.bytes.length < 2 ^ 16) : c.totLen = c.bytes.length :=
  Nat.mod_eq_of_lt h

-- The bytes from a position on are those from the pbuf on that it lies in.
theorem drop_skip (k : Nat) : (c.skip offset).1.bytes.drop ((c.skip offset).2 + k) =
    c.bytes.drop (offset + k) := by
  induction c generalizing offset with
  | nil => rfl
  | cons p c ih =>
    rw [skip]
    split
    case isTrue h =>
      have ho : offset + k = p.payload.length + (offset - p.payload.length + k) := by omega
      rw [ih, bytes_cons, ho, List.drop_length_add_append]
    case isFalse => rfl

theorem getAt_eq : c.getAt offset = c.bytes.getD offset 0 := by
  induction c generalizing offset with
  | nil => rfl
  | cons p c ih =>
    rw [getAt, skip]
    by_cases h : p.payload.length ≤ offset
    case pos =>
      rw [if_pos h, bytes_cons, List.getD_append_right _ _ _ _ h, ← ih]
      rfl
    case neg =>
      rw [if_neg h, bytes_cons, List.getD_append _ _ _ _ (Nat.lt_of_not_le h)]

theorem memcmp_go {q : Chain} {i : Nat} (h : start + i + s.length ≤ q.bytes.length) :
    memcmp.go q start i s = 0 ↔ s <+: q.bytes.drop (start + i) := by
  induction s generalizing i with
  | nil => simp [memcmp.go]
  | cons b s ih =>
    rw [List.length_cons] at h
    have hd : q.bytes.drop (start + i) = q.bytes[start + i] :: q.bytes.drop (start + (i + 1)) :=
      List.drop_eq_getElem_cons (by omega)
    rw [memcmp.go, getAt_eq, List.getD_eq_getElem _ _ (by omega), hd, List.cons_prefix_cons]
    by_cases he : q.bytes[start + i] = b
    case pos => simp [he, ih (i := i + 1) (by omega)]
    case neg =>
      rw [if_pos he]
      have : ¬b = q.bytes[start + i] := Ne.symm he
      simp only [this, false_and, iff_false]
      omega

theorem memcmp_eq_zero_iff (hc : c.bytes.length < 2 ^ 16) :
    c.memcmp offset s = 0 ↔ offset + s.length ≤ c.bytes.length ∧ s <+: c.bytes.drop offset := by
  rw [memcmp, totLen_eq hc]
  by_cases h : c.bytes.length < offset + s.length
  case pos => simp [h]
  case neg =>
    have hd : (c.skip offset).1.bytes.drop (c.skip offset).2 = c.bytes.drop offset := drop_skip 0
    rw [if_neg h]
    by_cases hs : s = []
    case pos =>
      subst hs
      simp only [memcmp.go, List.nil_prefix, and_true, true_iff]
      simpa using h
    case neg =>
      have hl := congrArg List.length hd
      simp only [List.length_drop] at hl
      have := List.length_pos_iff.mpr hs
      rw [memcmp_go (by omega), Nat.add_zero, hd]
      exact (and_iff_right <| Nat.le_of_not_lt h).symm

theorem memfind_go {turns i : Nat} (hc : c.bytes.length < 2 ^ 16)
    (ht : ∀ j, i ≤ j → j < i + turns → j + s.length ≤ c.bytes.length) :
    memfind.go c s turns i =
      ((List.range' i turns).find? fun j => s.isPrefixOf (c.bytes.drop j)).getD 0xFFFF := by
  induction turns generalizing i with
  | zero => rfl
  | succ n ih =>
    have hi := ht i (Nat.le_refl i) (by omega)
    have hm : c.memcmp i s = 0 ↔ s <+: c.bytes.drop i := by
      rw [memcmp_eq_zero_iff hc, and_iff_right hi]
    rw [memfind.go, List.range'_succ, List.find?_cons]
    by_cases hp : s <+: c.bytes.drop i
    case pos =>
      rw [if_pos <| hm.mpr hp, List.isPrefixOf_iff_prefix.mpr hp]
      rfl
    case neg =>
      have : s.isPrefixOf (c.bytes.drop i) = false := by
        rwa [← Bool.not_eq_true, List.isPrefixOf_iff_prefix]
      rw [if_neg <| mt hm.mp hp, ih fun j h₁ h₂ => ht j (by omega) (by omega), this]

-- What is found in a chain is the first occurrence in its bytes.
theorem memfind_eq (hc : c.bytes.length < 2 ^ 16) :
    c.memfind s start = (Find.find s c.bytes start).getD 0xFFFF := by
  rw [memfind, totLen_eq hc, Find.find]
  split
  case isTrue h =>
    rw [memfind_go hc fun j h₁ h₂ => by omega]
    congr 3
    omega
  case isFalse h =>
    rw [Nat.sub_eq_zero_of_le (by omega)]
    rfl

theorem copyPartial_eq : c.copyPartial len offset = (c.bytes.drop offset).take len := by
  induction c generalizing len offset with
  | nil => simp [copyPartial]
  | cons p c ih =>
    rw [copyPartial]
    split
    case isTrue h => simp [h]
    case isFalse =>
      split
      case isTrue h =>
        rw [ih, bytes_cons, List.drop_append, List.drop_eq_nil_of_le h.2, List.nil_append]
      case isFalse h =>
        have ho : offset ≤ p.payload.length := by omega
        simp only [ih, List.drop_zero, bytes_cons, List.drop_append_of_le_length ho, List.take_append,
          List.length_take, List.length_drop]
        congr 2
        omega

theorem freeHeader_bytes : (c.freeHeader len).bytes = c.bytes.drop len := by
  induction c generalizing len with
  | nil => simp [freeHeader]
  | cons p c ih =>
    rw [freeHeader]
    split
    case isTrue h => simp [h]
    case isFalse =>
      split
      case isTrue h => rw [ih, bytes_cons, List.drop_append, List.drop_eq_nil_of_le h, List.nil_append]
      case isFalse h => rw [bytes_cons, bytes_cons, List.drop_append_of_le_length (by omega)]

-- Every pbuf is freed with the header or left.
theorem freeHeader_ids : (c.freedHeader len).ids ++ (c.freeHeader len).ids = c.ids := by
  induction c generalizing len with
  | nil => rfl
  | cons p c ih =>
    rw [freedHeader, freeHeader]
    split
    case isTrue => rfl
    case isFalse =>
      split
      case isTrue => exact congrArg (p.id :: ·) ih
      case isFalse => rfl

end Chain

end Lwip
