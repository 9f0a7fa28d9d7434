import Webtermo.Library.Percent
import Webtermo.Objects.Parsers

open Percent

-- `StringToFile` on `tb` itself, from which the text is read while it is put together there
namespace StringToFile

-- A character that has been put into `tb`, and the place of the one that it stands for
structure Copy where
  src  : Nat
  char : UInt8
  deriving DecidableEq

structure Scan where
  tb     : Tb
  iBuf   : Nat
  copies : List Copy

namespace Scan

def start (tb : Tb) : Scan where
  tb     := tb
  iBuf   := 0
  copies := []

def cnt (s : Scan) : Nat :=
  s.copies.length

def text (s : Scan) : Bytes :=
  s.copies.map (·.char)

-- What may be read, up to `lim`
def rest (lim : Nat) (s : Scan) : Bytes :=
  (s.tb.bytes.take lim).drop s.iBuf

def read (lim : Nat) (s : Scan) (k : Nat) : Option UInt8 :=
  (s.rest lim)[k]?

-- `tb[cnt++] = c`, for `k` characters of the text
def put (s : Scan) (c : UInt8) (k : Nat) : Option Scan := do
  let tb ← s.tb.write s.cnt [c]
  some { tb, iBuf := s.iBuf + k, copies := s.copies ++ [⟨s.iBuf, c⟩] }

def skip (s : Scan) (k : Nat) : Scan :=
  { s with iBuf := s.iBuf + k }

-- A turn of the loop. The comparison with `%` has gone on to the next character already where the last
-- branch goes on once more.
def turn (lim : Nat) (s : Scan) : Option Scan := do
  let c ← s.read lim 0
  if inString c then s.put c 1
  else if c = 37 then do
    let a ← s.read lim 1
    let b ← s.read lim 2
    if httpsReadEncoded2 a b = 32 then s.put 32 3 else some (s.skip 3)
  else some (s.skip 2)

theorem turn_lt {s s₁ : Scan} (h : s.turn lim = some s₁) : s.iBuf < s₁.iBuf := by
  have hp {c k s₁} (h : s.put c k = some s₁) : s₁.iBuf = s.iBuf + k := by
    obtain ⟨_, _, h⟩ := Option.bind_eq_some_iff.mp h
    cases h
    rfl
  obtain ⟨c, -, h⟩ := Option.bind_eq_some_iff.mp h
  split at h
  case isTrue => exact hp h ▸ Nat.lt_add_one _
  case isFalse =>
    split at h
    case isTrue =>
      obtain ⟨a, -, h⟩ := Option.bind_eq_some_iff.mp h
      obtain ⟨b, -, h⟩ := Option.bind_eq_some_iff.mp h
      split at h
      case isTrue => exact hp h ▸ Nat.lt_add_of_pos_right (by decide)
      case isFalse =>
        cases h
        exact Nat.lt_add_of_pos_right (by decide)
    case isFalse =>
      cases h
      exact Nat.lt_add_of_pos_right (by decide)

end Scan

-- The loop, and whether it has come to the end of the text
def loop (lim inLen : Nat) (s : Scan) : Option (Scan × Bool) :=
  if s.iBuf < inLen then
    match _h : s.turn lim with
    | none    => none
    | some s₁ => if inLen < s₁.cnt then some (s₁, false) else loop lim inLen s₁
  else
    some (s, true)
termination_by inLen - s.iBuf
decreasing_by
  have := Scan.turn_lt _h
  omega

-- The return value, `tb` and `retBuf`
def run (inLen : Nat) (tb : Tb) (retBuf : Buffer cap) : Option (Nat × Tb × Buffer cap) := do
  let (s, atEnd) ← loop 130 inLen (.start tb)
  if atEnd then
    let tb ← s.tb.write s.cnt [0]
    let retBuf ← retBuf.strcpy (← tb.text 0)
    some (s.cnt, tb, retBuf)
  else
    some (0, s.tb, retBuf)

-- What the loop copies of a text that is not changed
def copies : (i n : Nat) → Bytes → Option (List Copy)
  | _, 0,     _      => some []
  | _, _ + 1, []     => none
  | i, n + 1, c :: l =>
    if inString c then (copies (i + 1) n l).map (⟨i, c⟩ :: ·)
    else if c = 37 then match l with
      | a :: b :: l =>
        (copies (i + 3) (n - 2) l).map fun s => if httpsReadEncoded2 a b = 32 then ⟨i, 32⟩ :: s else s
      | _           => none
    else match l with
      | _ :: l => copies (i + 2) (n - 1) l
      | []     => if n ≤ 1 then some [] else none

variable {tb tb₀ : Tb} {s s₁ : Scan} {l t : Bytes} {c : UInt8} {lim inLen : Nat}

theorem not_inString_percent : ¬inString 37 := by
  decide

-- A turn, character by character
theorem copies_cons : copies i (n + 1) (c :: l) =
    if inString c then (copies (i + 1) n l).map (⟨i, c⟩ :: ·)
    else if c = 37 then match l with
      | a :: b :: l =>
        (copies (i + 3) (n - 2) l).map fun s => if httpsReadEncoded2 a b = 32 then ⟨i, 32⟩ :: s else s
      | _           => none
    else match l with
      | _ :: l => copies (i + 2) (n - 1) l
      | []     => if n ≤ 1 then some [] else none := by
  match l with
  | [] | [_] | _ :: _ :: _ => rfl

theorem copies_copy (hc : inString c) :
    copies i (n + 1) (c :: l) = (copies (i + 1) n l).map (⟨i, c⟩ :: ·) := by
  rw [copies_cons, if_pos hc]

theorem copies_percent : copies i (n + 1) (37 :: a :: b :: l) =
    (copies (i + 3) (n - 2) l).map fun s =>
      if httpsReadEncoded2 a b = 32 then ⟨i, 32⟩ :: s else s := by
  rw [copies_cons, if_neg not_inString_percent, if_pos rfl]

theorem copies_percent_end (h : l.length ≤ 1) : copies i (n + 1) (37 :: l) = none := by
  rw [copies_cons, if_neg not_inString_percent, if_pos rfl]
  match l, h with
  | [], _ | [_], _ => rfl

theorem copies_pair (hc : ¬inString c) (hp : c ≠ 37) :
    copies i (n + 1) (c :: d :: l) = copies (i + 2) (n - 1) l := by
  rw [copies_cons, if_neg hc, if_neg hp]

theorem copies_last (hc : ¬inString c) (hp : c ≠ 37) :
    copies i (n + 1) [c] = if n ≤ 1 then some [] else none := by
  rw [copies_cons, if_neg hc, if_neg hp]

theorem Scan.turn_eq : s.turn lim = match s.rest lim with
    | []     => none
    | c :: l =>
      if inString c then s.put c 1
      else if c = 37 then match l with
        | a :: b :: _ => if httpsReadEncoded2 a b = 32 then s.put 32 3 else some (s.skip 3)
        | _           => none
      else some (s.skip 2) := by
  simp only [turn, read]
  match s.rest lim with
  | [] | [_] | [_, _] | _ :: _ :: _ :: _ => simp

theorem loop_end (h : inLen ≤ s.iBuf) : loop lim inLen s = some (s, true) := by
  rw [loop, if_neg <| Nat.not_lt_of_le h]

theorem loop_none (h : s.iBuf < inLen) (ht : s.turn lim = none) : loop lim inLen s = none := by
  rw [loop, if_pos h]
  split
  case h_1 => rfl
  case h_2 _ h => cases ht.symm.trans h

theorem loop_turn (h : s.iBuf < inLen) (ht : s.turn lim = some s₁) (hc : s₁.cnt ≤ inLen) :
    loop lim inLen s = loop lim inLen s₁ := by
  rw [loop, if_pos h]
  split
  case h_1 h => cases ht.symm.trans h
  case h_2 _ h =>
    cases ht.symm.trans h
    rw [if_neg <| Nat.not_lt_of_le hc]

-- The text is overwritten up to `cnt` by what has been copied, and has been read at least as far.
structure Holds (tb₀ : Tb) (s : Scan) : Prop where
  bytes : s.tb.bytes = s.text ++ tb₀.bytes.drop s.cnt
  le    : s.cnt ≤ s.iBuf

namespace Holds

theorem start : Holds tb (.start tb) :=
  ⟨rfl, Nat.le_refl _⟩

theorem rest (h : Holds tb₀ s) : s.rest lim = (tb₀.bytes.take lim).drop s.iBuf := by
  have ht : s.text.length = s.cnt := List.length_map _
  rw [Scan.rest, h.bytes, List.drop_take, List.drop_take, List.drop_append, ht,
    List.drop_eq_nil_of_le (by rw [ht]; exact h.le), List.drop_drop, List.nil_append,
    Nat.add_sub_cancel' h.le]

theorem skip (h : Holds tb₀ s) : Holds tb₀ (s.skip k) :=
  ⟨h.bytes, Nat.le_add_right_of_le h.le⟩

theorem put (h : Holds tb₀ s) (hi : s.iBuf < 130) (hk : 0 < k) :
    ∃ tb, s.put c k = some ⟨tb, s.iBuf + k, s.copies ++ [⟨s.iBuf, c⟩]⟩ ∧
      Holds tb₀ ⟨tb, s.iBuf + k, s.copies ++ [⟨s.iBuf, c⟩]⟩ := by
  obtain ⟨tb, hw⟩ : ∃ tb, s.tb.write s.cnt [c] = some tb :=
    Buffer.write_eq_some <| Nat.lt_of_le_of_lt h.le hi
  refine ⟨tb, by simp [Scan.put, hw], ?_, ?_⟩
  · have ht : s.text.length = s.cnt := List.length_map _
    have hd : (s.text ++ tb₀.bytes.drop s.cnt).drop (s.cnt + 1) = tb₀.bytes.drop (s.cnt + 1) := by
      rw [← ht, List.drop_length_add_append, List.drop_drop]
    rw [Buffer.write_bytes hw, h.bytes, ← ht, List.take_left, ht, List.length_singleton, hd]
    simp [Scan.text, Scan.cnt]
  · have := h.le
    simp only [Scan.cnt, List.length_append, List.length_singleton] at this ⊢
    omega

end Holds

-- What the loop comes to: what it copies is that of the text as it was.
def Ends (tb₀ : Tb) (done : List Copy) : Option (List Copy) → Option (Scan × Bool) → Prop
  | none,    r => r = none
  | some cs, r => ∃ s, r = some (s, true) ∧ Holds tb₀ s ∧ s.copies = done ++ cs

theorem Ends.cons (h : Ends tb₀ (done ++ [x]) cs r) : Ends tb₀ done (cs.map (x :: ·)) r := by
  cases cs with
  | none => exact h
  | some cs =>
    obtain ⟨s, hr, hs, hc⟩ := h
    exact ⟨s, hr, hs, by simpa using hc⟩

theorem loop_ends (h : Holds tb₀ s) : Ends tb₀ s.copies
    (copies s.iBuf (inLen - s.iBuf) ((tb₀.bytes.take lim).drop s.iBuf)) (loop lim inLen s) := by
  induction hk : inLen - s.iBuf using Nat.strongRecOn generalizing s with
  | ind k ih =>
  cases k with
  | zero =>
    rw [copies]
    exact ⟨s, loop_end <| Nat.le_of_sub_eq_zero hk, h, by simp⟩
  | succ n =>
    have hi : s.iBuf < inLen := by omega
    have hl : s.cnt + 1 ≤ inLen := Nat.lt_of_le_of_lt h.le hi
    have hr : s.rest lim = _ := h.rest
    have hd (k : Nat) : (tb₀.bytes.take lim).drop (s.iBuf + k) = (s.rest lim).drop k := by
      rw [hr, List.drop_drop]
    have ht : s.turn lim = _ := s.turn_eq
    rw [← hr]
    have hb (hn : s.rest lim ≠ []) : s.iBuf < 130 := by
      by_contra hb
      have hl := tb₀.length_eq
      exact hn <| hr.trans <| List.drop_eq_nil_of_le <| by simp only [List.length_take]; omega
    generalize s.rest lim = l at hd ht hb ⊢
    -- the text after `k` characters of it, one of which has been copied
    have put {c k} (hb : s.iBuf < 130) (hk : 0 < k) (ht : s.turn lim = s.put c k) :
        Ends tb₀ s.copies ((copies (s.iBuf + k) (n + 1 - k) (l.drop k)).map (⟨s.iBuf, c⟩ :: ·))
          (loop lim inLen s) := by
      obtain ⟨tb, hp, hh⟩ := h.put (c := c) hb hk
      have := ih (n + 1 - k) (by omega) hh (by show inLen - (s.iBuf + k) = _; omega)
      rw [hd] at this
      rw [loop_turn hi (ht.trans hp) (by simpa [Scan.cnt] using hl)]
      exact this.cons
    have skip {k} (hk : 0 < k) (ht : s.turn lim = some (s.skip k)) :
        Ends tb₀ s.copies (copies (s.iBuf + k) (n + 1 - k) (l.drop k)) (loop lim inLen s) := by
      have := ih (n + 1 - k) (by omega) h.skip (by show inLen - (s.iBuf + k) = _; omega)
      rw [loop_turn hi ht (Nat.le_of_succ_le hl)]
      exact hd k ▸ this
    match l with
    | []     => exact loop_none hi ht
    | c :: l =>
      have hb₁ := hb <| List.cons_ne_nil _ _
      by_cases hc : inString c
      case pos =>
        rw [copies_copy hc]
        exact put hb₁ Nat.one_pos <| by simp [ht, hc]
      case neg =>
        by_cases hp : c = 37
        case pos =>
          subst hp
          simp only [hc, if_true] at ht
          match l with
          | [] | [_] =>
            rw [copies_percent_end <| by simp]
            exact loop_none hi <| by simpa using ht
          | a :: b :: l =>
            rw [copies_percent]
            by_cases ha : httpsReadEncoded2 a b = 32
            case pos => simpa [ha] using put (c := 32) (k := 3) hb₁ (by decide) <| by simp [ht, ha]
            case neg => simpa [ha] using skip (k := 3) (by decide) <| by simp [ht, ha]
        case neg =>
          have := skip (k := 2) (by decide) <| by simp [ht, hc, hp]
          match l, n with
          | _ :: _, _ =>
            rw [copies_pair hc hp]
            exact this
          | [], 0 | [], 1 | [], _ + 2 =>
            rw [copies_last hc hp]
            simpa [copies] using this

theorem start_ends :
    Ends tb [] (copies 0 inLen (tb.bytes.take lim)) (loop lim inLen (.start tb)) :=
  loop_ends Holds.start

theorem loop_copy (hc : inString c) :
    stringToFile.loop (n + 1) (c :: l) = (stringToFile.loop n l).map (c :: ·) := by
  match l with
  | [] | [_] | _ :: _ :: _ => simp [stringToFile.loop, hc]

-- The characters without their places are those of the parser.
theorem loop_chars : stringToFile.loop n l = (copies i n l).map (·.map (·.char)) := by
  fun_induction copies i n l with
  | case1 => simp [stringToFile.loop]
  | case2 => simp [stringToFile.loop]
  | case3 i n c l hc ih =>
    rw [loop_copy hc, ih]
    cases copies (i + 1) n l <;> rfl
  | case4 i n a b l _ ih =>
    rw [stringToFile.loop, if_neg not_inString_percent, if_pos rfl, ih]
    cases copies (i + 3) (n - 2) l with
    | none => rfl
    | some cs => by_cases h : httpsReadEncoded2 a b = 32 <;> simp [h]
  | case5 i n l hl =>
    match l with
    | [] | [_]     => simp [stringToFile.loop, not_inString_percent]
    | _ :: _ :: _ => exact (hl _ _ _ rfl).elim
  | case6 i n c hc hp d l ih =>
    rw [← ih]
    match l with
    | [] | _ :: _ => simp [stringToFile.loop, hc, hp]
  | case7 i n c hc hp hn => simp [stringToFile.loop, hc, hp, hn]
  | case8 i n c hc hp hn => simp [stringToFile.loop, hc, hp, hn]

theorem copies_length (h : copies i n l = some cs) : cs.length ≤ n := by
  fun_induction copies i n l generalizing cs with
  | case1 =>
    cases h
    exact Nat.le_refl _
  | case2 | case5 | case8 => cases h
  | case3 i n c l hc ih =>
    obtain ⟨cs, ht, rfl⟩ := Option.map_eq_some_iff.mp h
    exact Nat.succ_le_succ <| ih ht
  | case4 i n a b l _ ih =>
    obtain ⟨cs, ht, rfl⟩ := Option.map_eq_some_iff.mp h
    have := ih ht
    split
    case isTrue =>
      rw [List.length_cons]
      omega
    case isFalse => omega
  | case6 i n c hc hp d l ih =>
    have := ih h
    omega
  | case7 =>
    cases h
    exact Nat.zero_le _

-- What is copied is allowed, and stands for characters from the first one on.
theorem copies_mem (h : copies i n l = some cs) (hx : x ∈ cs) : inString x.char ∧ i ≤ x.src := by
  fun_induction copies i n l generalizing cs with
  | case1 | case7 =>
    cases h
    cases hx
  | case2 | case5 | case8 => cases h
  | case3 i n c l hc ih =>
    obtain ⟨cs, ht, rfl⟩ := Option.map_eq_some_iff.mp h
    obtain rfl | hx := List.mem_cons.mp hx
    · exact ⟨hc, Nat.le_refl _⟩
    · exact ⟨(ih ht hx).1, Nat.le_of_succ_le (ih ht hx).2⟩
  | case4 i n a b l _ ih =>
    obtain ⟨cs, ht, rfl⟩ := Option.map_eq_some_iff.mp h
    have hl (hx : x ∈ cs) : inString x.char ∧ i ≤ x.src :=
      ⟨(ih ht hx).1, Nat.le_of_add_right_le (ih ht hx).2⟩
    split at hx
    case isTrue =>
      obtain rfl | hx := List.mem_cons.mp hx
      · exact ⟨(by decide : inString 32), Nat.le_refl _⟩
      · exact hl hx
    case isFalse => exact hl hx
  | case6 i n c hc hp d l ih => exact ⟨(ih h hx).1, Nat.le_of_add_right_le (ih h hx).2⟩

theorem nul_not_mem (h : copies i n l = some cs) : 0 ∉ cs.map (·.char) := by
  intro hm
  obtain ⟨x, hx, h₀⟩ := List.mem_map.mp hm
  have := (copies_mem h hx).1
  rw [h₀] at this
  exact absurd this <| by decide

-- The NUL behind the text that has been put together
theorem Holds.terminate (h : Holds tb₀ s) : s.tb.write s.cnt [0] = tb₀.strcpy s.text := by
  have ht : s.text.length = s.cnt := List.length_map _
  have hb : s.tb.bytes.take s.cnt = s.text ∧
      s.tb.bytes.drop (s.cnt + 1) = tb₀.bytes.drop (s.cnt + 1) := by
    rw [h.bytes, ← ht, List.drop_length_add_append, List.drop_drop]
    exact ⟨List.take_left, rfl⟩
  simp only [Buffer.strcpy, Buffer.write, List.length_append, List.length_singleton, ht, hb.1, hb.2,
    Nat.zero_add, List.take_zero, List.nil_append]

-- The text that is put together in place is the one that the parser makes of the text as it was.
theorem run_eq {retBuf : Buffer cap} : run inLen tb retBuf =
    (stringToFile inLen tb).bind fun (s, tb) => (retBuf.strcpy s).map fun r => (s.length, tb, r) := by
  have he : Ends tb [] _ (loop 130 inLen (.start tb)) := start_ends
  rw [List.take_of_length_le <| Nat.le_of_eq tb.length_eq] at he
  rw [run, stringToFile, loop_chars (i := 0)]
  cases hc : copies 0 inLen tb.bytes with
  | none =>
    rw [hc] at he
    rw [show loop 130 inLen (.start tb) = none from he]
    rfl
  | some cs =>
    rw [hc] at he
    obtain ⟨s, hl, hs, hcs⟩ := he
    have ht : s.text = cs.map (·.char) := by rw [Scan.text, hcs, List.nil_append]
    have hn : s.cnt = (cs.map (·.char)).length := ht ▸ (List.length_map _).symm
    simp only [hl, Option.bind_eq_bind, Option.bind_some, if_true, hs.terminate, ht, Option.map_some]
    cases hw : tb.strcpy (cs.map (·.char)) with
    | none => rfl
    | some tb₁ =>
      simp only [Option.bind_some, Buffer.strcpy_text (nul_not_mem hc) hw]
      rw [hn]
      cases retBuf.strcpy (cs.map (·.char)) <;> rfl

-- What is to be copied: the allowed characters, and a space for each `%20`. Other escapes are dropped.
def wanted : Nat → Bytes → List Copy
  | _, []     => []
  | i, c :: l =>
    if inString c then ⟨i, c⟩ :: wanted (i + 1) l
    else if c = 37 then match l with
      | a :: b :: l =>
        if isXDigit a ∧ isXDigit b then
          (if a = 50 ∧ b = 48 then [⟨i, 32⟩] else []) ++ wanted (i + 3) l
        else wanted (i + 1) (a :: b :: l)
      | l => wanted (i + 1) l
    else wanted (i + 1) l

-- The digits of an escape
def Pair : Bytes → Prop
  | a :: b :: _ => isXDigit a ∧ isXDigit b
  | _           => False

-- A character that is not allowed and starts no escape
def Dropped (c : UInt8) (l : Bytes) : Prop :=
  ¬inString c ∧ (c = 37 → ¬Pair l)

-- The texts of which the loop copies what it is to copy. As it takes the next character along with one
-- that is not allowed, and two with each `%`, these must be dropped as well unless they end an escape.
-- A `%` that is not followed by two characters is read beyond the end.
def Regular : Bytes → Prop
  | []     => True
  | c :: l =>
    if inString c then Regular l
    else if c = 37 then match l with
      | a :: b :: l => (isXDigit a ∧ isXDigit b ∨ Dropped a (b :: l) ∧ Dropped b l) ∧ Regular l
      | _           => False
    else match l with
      | d :: l => Dropped d l ∧ Regular l
      | []     => True

section

variable {a b : UInt8} {i : Nat} {x : Copy}

-- The digits of a space, and the characters that its last four bits are made of
theorem nibble_spec : ∀ c,
    (isXDigit c → inString c ∧ httpsReadEncoded2.nibble c < 16 ∧
      (httpsReadEncoded2.nibble c = 2 ↔ c = 50) ∧ (httpsReadEncoded2.nibble c = 0 ↔ c = 48)) ∧
    (httpsReadEncoded2.nibble c &&& 32 = httpsReadEncoded2.nibble c → inString c) :=
  forall_byte <| by decide +kernel

theorem inString_of_digit (h : isXDigit c) : inString c :=
  (nibble_spec c).1 h |>.1

theorem space_iff (ha : isXDigit a) (hb : isXDigit b) :
    httpsReadEncoded2 a b = 32 ↔ a = 50 ∧ b = 48 := by
  obtain ⟨-, ha, h₂, -⟩ := (nibble_spec a).1 ha
  obtain ⟨-, hb, -, h₀⟩ := (nibble_spec b).1 hb
  have hlt := UInt8.lt_iff_toNat_lt.mp hb
  rw [← h₂, ← h₀, httpsReadEncoded2, ← UInt8.toNat_inj, ← UInt8.toNat_inj, ← UInt8.toNat_inj,
    toNat_pair ha hb]
  simp only [UInt8.reduceToNat] at hlt ⊢
  omega

theorem inString_of_space (h : httpsReadEncoded2 a b = 32) : inString b := by
  refine (nibble_spec b).2 ?_
  rw [← h, httpsReadEncoded2]
  generalize httpsReadEncoded2.nibble a <<< 4 = x
  generalize httpsReadEncoded2.nibble b = y
  apply UInt8.eq_of_toBitVec_eq
  ext i
  simpa using .inr

-- A character and the text behind it
theorem wanted_cons : wanted i (c :: l) =
    if inString c then ⟨i, c⟩ :: wanted (i + 1) l
    else if c = 37 then match l with
      | a :: b :: l =>
        if isXDigit a ∧ isXDigit b then
          (if a = 50 ∧ b = 48 then [⟨i, 32⟩] else []) ++ wanted (i + 3) l
        else wanted (i + 1) (a :: b :: l)
      | l => wanted (i + 1) l
    else wanted (i + 1) l := by
  match l with
  | [] | [_] | _ :: _ :: _ => rfl

theorem regular_cons : Regular (c :: l) ↔
    if inString c then Regular l
    else if c = 37 then match l with
      | a :: b :: l => (isXDigit a ∧ isXDigit b ∨ Dropped a (b :: l) ∧ Dropped b l) ∧ Regular l
      | _           => False
    else match l with
      | d :: l => Dropped d l ∧ Regular l
      | []     => True := by
  match l with
  | [] | [_] | _ :: _ :: _ => exact Iff.rfl

theorem wanted_copy (hc : inString c) : wanted i (c :: l) = ⟨i, c⟩ :: wanted (i + 1) l := by
  rw [wanted_cons, if_pos hc]

theorem wanted_escape (ha : isXDigit a) (hb : isXDigit b) : wanted i (37 :: a :: b :: l) =
    (if a = 50 ∧ b = 48 then [⟨i, 32⟩] else []) ++ wanted (i + 3) l := by
  rw [wanted_cons, if_neg not_inString_percent, if_pos rfl]
  exact if_pos ⟨ha, hb⟩

theorem wanted_dropped (h : Dropped c l) : wanted i (c :: l) = wanted (i + 1) l := by
  obtain ⟨hc, hp⟩ := h
  rw [wanted_cons, if_neg hc]
  split
  case isTrue h =>
    obtain _ | ⟨a, _ | ⟨b, l⟩⟩ := l
    · rfl
    · rfl
    · exact if_neg <| hp h
  case isFalse => rfl

theorem not_dropped_cases (h : ¬Dropped c l) :
    inString c ∨ c = 37 ∧ ∃ a b r, l = a :: b :: r ∧ isXDigit a ∧ isXDigit b := by
  by_cases hc : inString c
  case pos => exact .inl hc
  case neg =>
    refine .inr ?_
    have : c = 37 ∧ Pair l := by simpa [Dropped, hc] using h
    match l, this with
    | a :: b :: r, ⟨hp, ha, hb⟩ => exact ⟨hp, a, b, r, rfl, ha, hb⟩

theorem wanted_src (h : x ∈ wanted i l) : i ≤ x.src := by
  fun_induction wanted i l with
  | case1 => cases h
  | case2 i c l _ ih =>
    obtain rfl | h := List.mem_cons.mp h
    · exact Nat.le_refl _
    · exact Nat.le_of_succ_le (ih h)
  | case3 i a b l _ _ ih =>
    obtain h | h := List.mem_append.mp h
    · split at h
      · rw [List.mem_singleton.mp h]
      · cases h
    · exact Nat.le_of_add_right_le (ih h)
  | case4 | case5 | case6 =>
    rename_i ih
    exact Nat.le_of_succ_le (ih h)

-- A character is dropped if nothing is copied for it, and something for one of the two behind it
-- where it would start an escape.
theorem dropped_of_src (h : ∀ x ∈ wanted k (c :: l), x.src ≠ k)
    (hp : ∀ a b r, l = a :: b :: r → isXDigit a → isXDigit b →
      ∃ x ∈ wanted k (c :: l), x.src = k + 1 ∨ x.src = k + 2) : Dropped c l := by
  by_contra hd
  obtain hc | ⟨rfl, a, b, r, rfl, ha, hb⟩ := not_dropped_cases hd
  case inl =>
    rw [wanted_copy hc] at h
    exact h _ List.mem_cons_self rfl
  case inr =>
    obtain ⟨x, hx, hs⟩ := hp a b r rfl ha hb
    rw [wanted_escape ha hb] at h hx
    obtain hm | hm := List.mem_append.mp hx
    · split at hm
      · rw [List.mem_singleton.mp hm] at hs
        simp at hs
      · cases hm
    · have := wanted_src hm
      omega

theorem regular_copy (hc : inString c) : Regular (c :: l) ↔ Regular l := by
  rw [regular_cons, if_pos hc]

theorem regular_percent : Regular (37 :: a :: b :: l) ↔
    (isXDigit a ∧ isXDigit b ∨ Dropped a (b :: l) ∧ Dropped b l) ∧ Regular l := by
  rw [regular_cons, if_neg not_inString_percent, if_pos rfl]

theorem regular_pair (hc : ¬inString c) (hp : c ≠ 37) :
    Regular (c :: a :: l) ↔ Dropped a l ∧ Regular l := by
  rw [regular_cons, if_neg hc, if_neg hp]

theorem copies_digit (ha : isXDigit a) (h : copies i (n + 1) (a :: l) = some cs) :
    ∃ x ∈ cs, x.src = i := by
  rw [copies_copy <| inString_of_digit ha] at h
  obtain ⟨cs, -, rfl⟩ := Option.map_eq_some_iff.mp h
  exact ⟨_, List.mem_cons_self, rfl⟩

-- A character that the loop goes over with the one in front of it
theorem dropped_of_pair (h : copies (i + 2) l.length l = some (wanted (i + 1) (a :: l))) :
    Dropped a l := by
  refine dropped_of_src (k := i + 1) (fun x hx => ?_) ?_
  · have := (copies_mem h hx).2
    omega
  · rintro a b r rfl ha -
    obtain ⟨x, hx, hs⟩ := copies_digit ha h
    exact ⟨x, hx, .inl hs⟩

-- The characters that the loop takes for those of an escape
theorem dropped_of_percent (h : copies (i + 3) l.length l = some cs)
    (hw : (if httpsReadEncoded2 a b = 32 then ⟨i, 32⟩ :: cs else cs) = wanted (i + 1) (a :: b :: l)) :
    Dropped a (b :: l) ∧ Dropped b l := by
  have hlow : ∀ x ∈ wanted (i + 1) (a :: b :: l), x.src = i ∨ i + 3 ≤ x.src := by
    intro x hx
    rw [← hw] at hx
    split at hx
    case isTrue =>
      obtain rfl | hx := List.mem_cons.mp hx
      · exact .inl rfl
      · exact .inr (copies_mem h hx).2
    case isFalse => exact .inr (copies_mem h hx).2
  have hsub : ∀ x ∈ cs, x ∈ wanted (i + 1) (a :: b :: l) := by
    intro x hx
    rw [← hw]
    split
    · exact List.mem_cons_of_mem _ hx
    · exact hx
  have ha : Dropped a (b :: l) := by
    refine dropped_of_src (k := i + 1) (fun x hx => ?_) ?_
    · have := hlow x hx
      omega
    · rintro x y r he - hy
      obtain ⟨rfl, rfl⟩ := List.cons.inj he
      obtain ⟨x, hx, hs⟩ := copies_digit hy h
      exact ⟨x, hsub x hx, .inr hs⟩
  rw [wanted_dropped ha] at hlow hsub
  refine ⟨ha, dropped_of_src (k := i + 1 + 1) (fun x hx => ?_) ?_⟩
  · have := hlow x hx
    omega
  · rintro x y r rfl hx -
    obtain ⟨x, hx, hs⟩ := copies_digit hx h
    exact ⟨x, hsub x hx, .inl hs⟩

-- Of a text that ends where its buffer does, the loop copies what it is to copy if and only if the text
-- is regular.
theorem copies_iff : copies i t.length t = some (wanted i t) ↔ Regular t := by
  induction hk : t.length using Nat.strongRecOn generalizing i t with
  | ind k ih =>
  subst hk
  match t with
  | []     => simp [copies, wanted, Regular]
  | c :: l =>
    by_cases hc : inString c
    case pos =>
      rw [List.length_cons, copies_copy hc, wanted_copy hc, regular_copy hc, ← ih l.length (by simp) rfl]
      exact Option.map_injective List.cons_injective |>.eq_iff (b := some _)
    case neg =>
      by_cases hp : c = 37
      case pos =>
        subst hp
        match l with
        | [] | [_] => simp [copies_percent_end, Regular, hc]
        | a :: b :: l =>
          have ih : copies (i + 3) l.length l = some (wanted (i + 3) l) ↔ Regular l :=
            ih l.length (by simp only [List.length_cons]; omega) rfl
          rw [List.length_cons, copies_percent, regular_percent]
          show (copies (i + 3) l.length l).map _ = _ ↔ _
          by_cases hx : isXDigit a ∧ isXDigit b
          case pos =>
            simp only [wanted_escape hx.1 hx.2, space_iff hx.1 hx.2, ← ih, hx, and_self, true_or, true_and]
            by_cases hs : a = 50 ∧ b = 48
            case pos =>
              simp only [hs, and_self, if_true]
              exact Option.map_injective List.cons_injective |>.eq_iff (b := some _)
            case neg => simp [hs]
          case neg =>
            rw [wanted_dropped (l := a :: b :: l) ⟨hc, fun _ => hx⟩, or_iff_right hx]
            constructor
            case mp =>
              intro h
              obtain ⟨cs, hcs, hw⟩ := Option.map_eq_some_iff.mp h
              obtain ⟨ha, hb⟩ := dropped_of_percent hcs hw
              rw [if_neg fun hs => hb.1 <| inString_of_space hs, wanted_dropped ha,
                wanted_dropped hb] at hw
              exact ⟨⟨ha, hb⟩, ih.mp <| hw ▸ hcs⟩
            case mpr =>
              rintro ⟨⟨ha, hb⟩, h⟩
              rw [ih.mpr h, wanted_dropped ha, wanted_dropped hb, Option.map_some,
                if_neg fun hs => hb.1 <| inString_of_space hs]
      case neg =>
        match l with
        | []     => simp [copies_last hc hp, wanted, Regular, hc, hp]
        | d :: l =>
          have ih : copies (i + 2) l.length l = some (wanted (i + 2) l) ↔ Regular l :=
            ih l.length (by simp only [List.length_cons]; omega) rfl
          have hd : Dropped c (d :: l) := ⟨hc, fun h => absurd h hp⟩
          rw [List.length_cons, copies_pair hc hp, wanted_dropped hd, regular_pair hc hp]
          show copies (i + 2) l.length l = _ ↔ _
          constructor
          case mp =>
            intro h
            have hd := dropped_of_pair h
            rw [wanted_dropped hd] at h
            exact ⟨hd, ih.mp h⟩
          case mpr =>
            rintro ⟨hd, h⟩
            rw [wanted_dropped hd]
            exact ih.mpr h

-- What lies behind a text of which nothing else is read
theorem copies_append (h : copies i n l = some cs) (hn : n ≤ l.length) :
    copies i n (l ++ t) = some cs := by
  fun_induction copies i n l generalizing cs with
  | case1 => simpa [copies] using h
  | case2 | case5 | case8 => cases h
  | case3 i n c l hc ih =>
    obtain ⟨cs, ht, rfl⟩ := Option.map_eq_some_iff.mp h
    rw [List.cons_append, copies_copy hc, ih ht <| Nat.le_of_succ_le_succ hn]
    rfl
  | case4 i n a b l _ ih =>
    obtain ⟨cs, ht, rfl⟩ := Option.map_eq_some_iff.mp h
    simp only [List.length_cons] at hn
    rw [List.cons_append, List.cons_append, List.cons_append, copies_percent, ih ht (by omega)]
    rfl
  | case6 i n c hc hp d l ih =>
    simp only [List.length_cons] at hn
    rw [List.cons_append, List.cons_append, copies_pair hc hp]
    exact ih h (by omega)
  | case7 i n c hc hp hn₁ =>
    obtain rfl : n = 0 := by simpa using hn
    match t with
    | []     => simpa [copies_last hc hp] using h
    | _ :: _ => simpa [copies_pair hc hp, copies] using h

theorem loop_inString (h : ∀ c ∈ t, inString c) : stringToFile.loop t.length (t ++ l) = some t := by
  induction t with
  | nil => simp [stringToFile.loop]
  | cons c t ih =>
    obtain ⟨hc, h⟩ := List.forall_mem_cons.mp h
    rw [List.length_cons, List.cons_append, loop_copy hc, ih h]
    rfl

end

-- What the parser is to do with a text: it reads nothing beyond it and stores what is to be copied of
-- it, and what it has stored it would store again.
def Filters (tb : Tb) (t : Bytes) : Prop :=
  ∀ pb : Buffer 40, ∃ s tb₁ pb₁,
    loop t.length t.length (.start tb) = some (s, true) ∧ s.copies = wanted 0 t ∧
    run t.length tb pb = some (s.cnt, tb₁, pb₁) ∧ s.cnt ≤ t.length ∧ pb₁.text 0 = some s.text ∧
    run s.cnt tb₁ pb₁ = some (s.cnt, tb₁, pb₁)

theorem loop_of_copies (h : copies 0 inLen (tb.bytes.take lim) = some cs) :
    ∃ s, loop lim inLen (.start tb) = some (s, true) ∧ Holds tb s ∧ s.copies = cs := by
  have he : Ends tb [] _ (loop lim inLen (.start tb)) := start_ends
  rwa [h] at he

-- A text of allowed characters is stored as it is.
theorem run_again {pb : Buffer 40} (h : ∀ c ∈ t, inString c) (ht : t ++ [0] <+: tb.bytes)
    (hp : t ++ [0] <+: pb.bytes) : run t.length tb pb = some (t.length, tb, pb) := by
  obtain ⟨r, hr⟩ := ht
  have hl : stringToFile.loop t.length tb.bytes = some t := by
    rw [← hr, List.append_assoc]
    exact loop_inString h
  rw [run_eq, stringToFile, hl]
  simp only [Option.bind_eq_bind, Option.bind_some, Buffer.strcpy_eq_self ⟨r, hr⟩, Buffer.strcpy_eq_self hp,
    Option.map_some]

theorem filters_of_regular (h : t ++ [0] <+: tb.bytes) (hr : Regular t)
    (hl : (wanted 0 t).length < 40) : Filters tb t := by
  intro pb
  obtain ⟨r, hb⟩ := h
  have hc := copies_iff (i := 0) |>.mpr hr
  have ht : tb.bytes.take t.length = t := by rw [← hb, List.append_assoc, List.take_left]
  have hn := copies_length hc
  have ht : copies 0 t.length (tb.bytes.take t.length) = some (wanted 0 t) := by rw [ht, hc]
  obtain ⟨s, he, hs, hw⟩ := loop_of_copies ht
  have hx : s.text = (wanted 0 t).map (·.char) := by rw [Scan.text, hw]
  have hk : s.text.length = s.cnt := List.length_map _
  have ha : ∀ c ∈ s.text, inString c := by
    rw [hx]
    intro c hm
    obtain ⟨x, hx, rfl⟩ := List.mem_map.mp hm
    exact (copies_mem hc hx).1
  have hp : stringToFile.loop t.length tb.bytes = some s.text := by
    rw [loop_chars (i := 0), ← hb, List.append_assoc, copies_append hc (Nat.le_refl _), hx]
    rfl
  have hd := congrArg List.length hb
  rw [tb.length_eq, List.length_append, List.length_append, List.length_singleton] at hd
  have hcnt : s.cnt = (wanted 0 t).length := congrArg List.length hw
  obtain ⟨tb₁, h₁⟩ := Buffer.strcpy_eq_some (b := tb) (s := s.text) <| by omega
  obtain ⟨pb₁, h₂⟩ := Buffer.strcpy_eq_some (b := pb) (s := s.text) <| by omega
  refine ⟨s, tb₁, pb₁, he, hw, ?_, by omega, ?_, ?_⟩
  · rw [run_eq, stringToFile, hp]
    simp only [Option.bind_eq_bind, Option.bind_some, h₁, h₂, Option.map_some, hk]
  · exact Buffer.strcpy_text (hx ▸ nul_not_mem hc) h₂
  · exact hk ▸ run_again ha (Buffer.strcpy_prefix h₁) (Buffer.strcpy_prefix h₂)

theorem regular_of_filters (h : t ++ [0] <+: tb.bytes) (hf : Filters tb t) :
    Regular t ∧ (wanted 0 t).length < 40 := by
  obtain ⟨s, tb₁, pb₁, he, hw, -, -, hp, -⟩ := hf (.zero 40)
  obtain ⟨r, hb⟩ := h
  have hs : Ends tb [] _ (loop t.length t.length (.start tb)) := start_ends
  rw [he, ← hb, List.append_assoc, List.take_left] at hs
  constructor
  case left =>
    refine copies_iff (i := 0) |>.mp ?_
    cases hc : copies 0 t.length t with
    | none =>
      rw [hc] at hs
      cases hs
    | some cs =>
      rw [hc] at hs
      obtain ⟨s₁, hs, -, hcs⟩ := hs
      cases hs
      rw [← hw, hcs]
      rfl
  case right =>
    have := Buffer.text_length hp
    rwa [Scan.text, hw, List.length_map] at this

-- Exactly the regular texts of which at most 39 characters are to be copied are filtered.
theorem filter_law (h : t ++ [0] <+: tb.bytes) :
    Filters tb t ↔ Regular t ∧ (wanted 0 t).length < 40 :=
  ⟨regular_of_filters h, fun ⟨hr, hl⟩ => filters_of_regular h hr hl⟩

-- A text with zeros behind it
def holding (t : Bytes) (h : t.length ≤ 130) : Tb where
  bytes     := t ++ List.replicate (130 - t.length) 0
  length_eq := by
    rw [List.length_append, List.length_replicate]
    omega

def room : Bytes :=
  ascii "Soba%201"

theorem filter_law_room : Filters (holding room (by decide)) room ↔
    Regular room ∧ (wanted 0 room).length < 40 :=
  filter_law <| by decide

-- The letter behind an ampersand is lost.
theorem letter_behind_ampersand : ¬∀ (t : Bytes) (tb : Tb) (pb : Buffer 40), t ++ [0] <+: tb.bytes →
    ∃ n tb₁ pb₁, run t.length tb pb = some (n, tb₁, pb₁) ∧
      pb₁.text 0 = some ((wanted 0 t).map (·.char)) := by
  intro h
  obtain ⟨n, tb₁, pb₁, hr, hp⟩ := h (ascii "a&b") (holding (ascii "a&b") (by decide)) (.zero 40) (by decide)
  have ht : (run 3 (holding (ascii "a&b") (by decide)) (.zero 40)).map (·.2.2.text 0) =
      some (some (ascii "a")) := by
    rw [run_eq]
    decide +kernel
  rw [show run 3 _ _ = _ from hr] at ht
  rw [Option.map_some, hp] at ht
  exact absurd ht <| by decide

end StringToFile
