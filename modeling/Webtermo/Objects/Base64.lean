import Webtermo.Library.Words
import Webtermo.Objects.System

-- `Base64Decode` and `Base64Encode` over the memory that they are given. Lengths are words of 16 bits,
-- which no count exceeds.

namespace Base64Decode

structure State where
  mem          : Words UInt8
  cDestData    : Nat
  vByteNumber  : Nat := 0
  wBytesOutput : Nat := 0
  -- the addresses that have been written
  written      : List Nat := []

namespace State

-- `*cDestData = x`, counted
def put (s : State) (x : UInt8) : State :=
  { s with
    mem          := s.mem.write s.cDestData x
    wBytesOutput := s.wBytesOutput + 1
    written      := s.written ++ [s.cDestData] }

-- `*cDestData++ |= x`
def merge (s : State) (x : UInt8) : State :=
  { s with
    mem       := s.mem.write s.cDestData (s.mem s.cDestData ||| x)
    cDestData := s.cDestData + 1
    written   := s.written ++ [s.cDestData] }

end State

-- The padding is no character of the alphabet, so that the branches for it are never taken.
def loop (wDestLen : Nat) : (wSourceLen : Nat) → (cSourceData : Nat) → State → State
  | 0, _, s => s
  | wSourceLen + 1, cSourceData, s =>
    match Base64.sextet (s.mem cSourceData) with
    | none   => loop wDestLen wSourceLen (cSourceData + 1) s
    | some i =>
      match s.vByteNumber with
      | 0 =>
        let s := { s with vByteNumber := 1 }
        if wDestLen ≤ s.wBytesOutput then s
        else loop wDestLen wSourceLen (cSourceData + 1) (s.put (i <<< 2))
      | 1 =>
        let s := { s with vByteNumber := 2 }.merge (i >>> 4)
        if wDestLen ≤ s.wBytesOutput then s
        else loop wDestLen wSourceLen (cSourceData + 1) (s.put (i <<< 4))
      | 2 =>
        let s := { s with vByteNumber := 3 }.merge (i >>> 2)
        if wDestLen ≤ s.wBytesOutput then s
        else loop wDestLen wSourceLen (cSourceData + 1) (s.put (i <<< 6))
      | _ =>
        loop wDestLen wSourceLen (cSourceData + 1) ({ s with vByteNumber := 0 }.merge i)

end Base64Decode

def base64DecodeAt (mem : Words UInt8) (cSourceData wSourceLen cDestData wDestLen : Nat) :
    Base64Decode.State :=
  Base64Decode.loop wDestLen wSourceLen cSourceData { mem, cDestData }

namespace Base64Decode

variable {s : State} {m : Words UInt8} {out r : Bytes} {q : Nat}

-- What has been put to the destination
structure Holds (s : State) (m : Words UInt8) (q : Nat) (r : Bytes) : Prop where
  mem     : s.mem = m.place q r
  output  : s.wBytesOutput = r.length
  written : ∀ a ∈ s.written, q ≤ a ∧ a < q + r.length

theorem Holds.phase (h : Holds s m q r) : Holds { s with vByteNumber := n } m q r :=
  ⟨h.mem, h.output, h.written⟩

theorem Holds.put (h : Holds s m q r) (hd : s.cDestData = q + r.length) :
    Holds (s.put x) m q (r ++ [x]) where
  mem     := by simp only [State.put, h.mem, hd, Words.place_concat]
  output  := by simp [State.put, h.output]
  written := by
    intro a ha
    obtain ha | ha := List.mem_append.mp ha
    case inl =>
      have := h.written a ha
      simp only [List.length_append, List.length_singleton]
      omega
    case inr =>
      simp only [List.mem_singleton.mp ha, hd, List.length_append, List.length_singleton]
      omega

theorem Holds.merge (h : Holds s m q (r ++ [y])) (hd : s.cDestData = q + r.length) :
    Holds (s.merge x) m q (r ++ [y ||| x]) where
  mem     := by simp only [State.merge, h.mem, hd, Words.place_last, Words.place_write_last]
  output  := by simp [State.merge, h.output]
  written := by
    intro a ha
    obtain ha | ha := List.mem_append.mp ha
    case inl => simpa using h.written a ha
    case inr =>
      simp only [List.mem_singleton.mp ha, hd, List.length_append, List.length_singleton]
      omega

theorem Holds.full (h : Holds s m q r) (d : Nat) : d ≤ s.wBytesOutput ↔ d ≤ r.length := by
  rw [h.output]

theorem State.merge_dest (hd : s.cDestData = q + r.length) :
    (s.merge x).cDestData = q + (r ++ [y]).length := by
  simp only [State.merge, hd, List.length_append, List.length_singleton, Nat.add_assoc]

-- No byte of the source is written before it is read: before the byte at `a`, at most `len` bytes and
-- one for each byte in front of it are put out.
def Clear (src n q len wDestLen : Nat) : Prop :=
  ∀ a, src ≤ a → a < src + n → ∀ j < wDestLen, j < len + (a - src) → a ≠ q + j

theorem Clear.tail (c : Clear src (n + 1) q len d) (h : len₁ ≤ len + 1) : Clear (src + 1) n q len₁ d :=
  fun a h₁ h₂ j hj hl => c a (by omega) (by omega) j hj (by omega)

theorem Clear.head (c : Clear src (n + 1) q r.length d) (hr : r.length ≤ d) : m.place q r src = m src := by
  refine Words.place_frame ?_
  by_contra hn
  have := c src (Nat.le_refl src) (by omega) (src - q) (by omega) (by omega)
  omega

-- A part of the destination that is still put together follows the bytes that are complete.
structure Part (vByteNumber : Nat) (cur : UInt8) (part : Bytes) : Prop where
  le    : vByteNumber ≤ 3
  empty : vByteNumber = 0 → part = []
  one   : vByteNumber ≠ 0 → part = [cur]

theorem sextets_cons_some (h : Base64.sextet c = some i) :
    Base64.sextets (c :: b) = i :: Base64.sextets b := by
  simp [Base64.sextets, h]

theorem loop_holds (h : Holds s m q (out ++ part)) (hd : s.cDestData = q + out.length)
    (hp : Part s.vByteNumber cur part) (c : Clear src n q (out ++ part).length d)
    (hl : (out ++ part).length ≤ d) :
    Holds (loop d n src s) m q
      (base64Decode.loop d (Base64.sextets (m.read src n)) s.vByteNumber out cur) := by
  induction n generalizing src s out cur part with
  | zero =>
    have ⟨hv, h₀, h₁⟩ := hp
    generalize s.vByteNumber = v at hv h₀ h₁
    match v with
    | 0         => simpa [loop, Words.read, Base64.sextets, base64Decode.loop, h₀] using h
    | 1 | 2 | 3 => simpa [loop, Words.read, Base64.sextets, base64Decode.loop, h₁] using h
  | succ n ih =>
    have hm : s.mem src = m src := by rw [h.mem, c.head hl]
    cases hx : Base64.sextet (m src) with
    | none =>
      simp only [loop, hm, hx, Words.read, Base64.sextets_cons_none hx]
      exact ih h hd hp (c.tail <| by omega) hl
    | some i =>
      have ⟨hv, h₀, h₁⟩ := hp
      -- the next byte of the destination is begun, unless there is no room for it
      have start {v : Nat} {s : State} {o : Bytes} {x : UInt8} (hs : s.vByteNumber = v) (h₁ : v ≠ 0)
          (h₃ : v ≤ 3) (ho : Holds s m q o) (hd : s.cDestData = q + o.length)
          (hc : o.length ≤ (out ++ part).length) (hl : ¬d ≤ o.length) :
          Holds (loop d n (src + 1) (s.put x)) m q
            (base64Decode.loop d (Base64.sextets (m.read (src + 1) n)) v o x) := by
        have hp : Part (s.put x).vByteNumber x [x] := ⟨hs ▸ h₃, fun h => absurd (hs.symm.trans h) h₁, fun _ => rfl⟩
        have hx : (o ++ [x]).length = o.length + 1 := List.length_append
        have := ih (ho.put hd) hd hp (c.tail <| by omega) (by omega)
        exact hs ▸ this
      obtain hv | hv | hv | hv : s.vByteNumber = 0 ∨ s.vByteNumber = 1 ∨ s.vByteNumber = 2 ∨
          s.vByteNumber = 3 := by omega
      case inl =>
        rw [h₀ hv, List.append_nil] at h
        have ho : d ≤ s.wBytesOutput ↔ d ≤ out.length := by rw [h.output]
        simp only [loop, hm, hx, Words.read, sextets_cons_some hx, hv, ho, base64Decode.loop]
        split
        case isTrue => exact h.phase
        case isFalse hl => exact start rfl (by decide) (by decide) h.phase hd (by simp) hl
      case inr.inl =>
        rw [h₁ (by omega)] at h
        have h := h.phase (n := 2) |>.merge (x := i >>> 4) hd
        have ho := h.full d
        simp only [loop, hm, hx, Words.read, sextets_cons_some hx, hv, ho, base64Decode.loop]
        split
        case isTrue => exact h
        case isFalse hl => exact start rfl (by decide) (by decide) h (State.merge_dest hd) (by simp [h₁ (by omega)]) hl
      case inr.inr.inl =>
        rw [h₁ (by omega)] at h
        have h := h.phase (n := 3) |>.merge (x := i >>> 2) hd
        have ho := h.full d
        simp only [loop, hm, hx, Words.read, sextets_cons_some hx, hv, ho, base64Decode.loop]
        split
        case isTrue => exact h
        case isFalse hl => exact start rfl (by decide) (by decide) h (State.merge_dest hd) (by simp [h₁ (by omega)]) hl
      case inr.inr.inr =>
        have hp := h₁ (by omega)
        rw [hp] at h c hl
        have h := h.phase (n := 0) |>.merge (x := i) hd
        simp only [loop, hm, hx, Words.read, sextets_cons_some hx, hv, base64Decode.loop]
        have hh : Holds (State.merge { s with vByteNumber := 0 } i) m q ((out ++ [cur ||| i]) ++ []) := by
          rwa [List.append_nil]
        have hp : Part 0 0 [] := ⟨Nat.zero_le 3, fun _ => rfl, absurd rfl⟩
        exact ih hh (State.merge_dest hd) hp (c.tail <| by simp) (by simpa using hl)

theorem decode_holds (c : Clear p n q 0 d) :
    Holds (base64DecodeAt m p n q d) m q (base64Decode (m.read p n) d) := by
  have h : Holds { mem := m, cDestData := q } m q ([] ++ []) := ⟨Words.place_nil.symm, rfl, by simp⟩
  exact loop_holds h rfl ⟨Nat.zero_le 3, fun _ => rfl, absurd rfl⟩ c (Nat.zero_le d)

theorem Holds.read (h : Holds s m q r) : s.mem.read q s.wBytesOutput = r := by
  rw [h.mem, h.output, Words.read_place]

theorem base64Decode_length_le : (base64Decode b d).length ≤ d := by
  rw [base64Decode_eq_take]
  exact List.length_take_le ..

theorem Holds.bounded (h : Holds s m q (base64Decode b d)) :
    s.wBytesOutput ≤ d ∧ ∀ a ∈ s.written, q ≤ a ∧ a < q + d := by
  have := @base64Decode_length_le b d
  refine ⟨by rwa [h.output], fun a ha => ?_⟩
  have := h.written a ha
  omega

theorem clear_inPlace : Clear p n p 0 d :=
  fun _ _ _ _ _ _ => by omega

theorem clear_apart (h : ∀ i < n, ∀ j < d, p + i ≠ q + j) : Clear p n q 0 d := by
  intro a h₁ h₂ j hj _
  have := h (a - p) (by omega) j hj
  omega

theorem sextets_filter : Base64.sextets (b.filter (Base64.sextet · |>.isSome)) = Base64.sextets b := by
  induction b with
  | nil => rfl
  | cons c b ih =>
    cases hc : Base64.sextet c with
    | none   => rw [List.filter_cons_of_neg (by simp [hc]), ih, Base64.sextets_cons_none hc]
    | some i =>
      rw [List.filter_cons_of_pos (by simp [hc]), sextets_cons_some hc, ih, sextets_cons_some hc]

-- A destination that is the source gets what another one would get, and what it would get if the
-- source had no characters outside the alphabet, and no more than there is room for.
theorem in_place_law (apart : ∀ i < n, ∀ j < d, p + i ≠ q + j)
    (cleaned : m₁.read p₁ n₁ = (m.read p n).filter (Base64.sextet · |>.isSome)) :
    let s  := base64DecodeAt m p n p d
    let s₁ := base64DecodeAt m p n q d
    let s₂ := base64DecodeAt m₁ p₁ n₁ p₁ d
    (s.wBytesOutput = s₁.wBytesOutput ∧
      s.mem.read p s.wBytesOutput = s₁.mem.read q s₁.wBytesOutput) ∧
    (s.wBytesOutput = s₂.wBytesOutput ∧
      s.mem.read p s.wBytesOutput = s₂.mem.read p₁ s₂.wBytesOutput) ∧
    (∀ a ∈ s.written, p ≤ a ∧ a < p + d) ∧ (∀ a ∈ s₁.written, q ≤ a ∧ a < q + d) ∧
    s.wBytesOutput ≤ d := by
  have h : Holds (base64DecodeAt m p n p d) m p _ := decode_holds clear_inPlace
  have h₁ : Holds (base64DecodeAt m p n q d) m q _ := decode_holds <| clear_apart apart
  have h₂ : Holds (base64DecodeAt m₁ p₁ n₁ p₁ d) m₁ p₁ _ := decode_holds clear_inPlace
  rw [cleaned, base64Decode, sextets_filter, ← base64Decode] at h₂
  refine ⟨⟨?_, ?_⟩, ⟨?_, ?_⟩, h.bounded.2, h₁.bounded.2, h.bounded.1⟩
  case refine_1 => rw [h.output, h₁.output]
  case refine_2 => rw [h.read, h₁.read]
  case refine_3 => rw [h.output, h₂.output]
  case refine_4 => rw [h.read, h₂.read]

-- `QQ==` with a line feed in it, and without one
theorem in_place_law_line_feed :
    let m : Words UInt8 := fun a => (ascii "Q\nQ==").getD a 0
    let m₁ : Words UInt8 := fun a => (ascii "QQ").getD a 0
    (∀ i < 5, ∀ j < 4, 0 + i ≠ 10 + j) ∧
    m₁.read 0 2 = (m.read 0 5).filter (Base64.sextet · |>.isSome) ∧
    let s  := base64DecodeAt m 0 5 0 4
    let s₁ := base64DecodeAt m 0 5 10 4
    let s₂ := base64DecodeAt m₁ 0 2 0 4
    (s.wBytesOutput = s₁.wBytesOutput ∧
      s.mem.read 0 s.wBytesOutput = s₁.mem.read 10 s₁.wBytesOutput) ∧
    (s.wBytesOutput = s₂.wBytesOutput ∧
      s.mem.read 0 s.wBytesOutput = s₂.mem.read 0 s₂.wBytesOutput) ∧
    (∀ a ∈ s.written, 0 ≤ a ∧ a < 0 + 4) ∧ (∀ a ∈ s₁.written, 10 ≤ a ∧ a < 10 + 4) ∧
    s.wBytesOutput ≤ 4 :=
  have apart : ∀ i < 5, ∀ j < 4, 0 + i ≠ 10 + j := by decide
  have cleaned : Words.read (fun a => (ascii "QQ").getD a 0) 0 2 =
      (Words.read (fun a => (ascii "Q\nQ==").getD a 0) 0 5).filter (Base64.sextet · |>.isSome) := by
    decide +kernel
  ⟨apart, cleaned, in_place_law apart cleaned⟩

end Base64Decode

namespace Base64Encode

def char (j : UInt8) : UInt8 :=
  if j ≤ 25 then j + 65
  else if j ≤ 51 then j + (97 - 26)
  else if j ≤ 61 then j + (48 - 52)
  else if j = 62 then 43
  else if j = 63 then 47
  else 61

-- The hextets of the octets that are left for a turn of the loop. `0xFF` stands for padding.
def vOutput : Bytes → Bytes
  | i :: j :: k :: _ =>
    [(i &&& 0xFC) >>> 2, (i &&& 0x03) <<< 4 ||| (j &&& 0xF0) >>> 4,
      (j &&& 0x0F) <<< 2 ||| (k &&& 0xC0) >>> 6, k &&& 0x3F]
  | [i, j] =>
    [(i &&& 0xFC) >>> 2, (i &&& 0x03) <<< 4 ||| (j &&& 0xF0) >>> 4, (j &&& 0x0F) <<< 2, 0xFF]
  | [i] => [(i &&& 0xFC) >>> 2, (i &&& 0x03) <<< 4, 0xFF, 0xFF]
  | []  => [0xFF, 0xFF, 0xFF, 0xFF]

end Base64Encode

open Base64Encode in
-- The bytes that are written to the destination, and that are counted
def base64Encode : (cSourceData : Bytes) → (wDestLen : Nat) → Bytes
  | [], _ => []
  | [i], wDestLen => if 4 ≤ wDestLen then (vOutput [i]).map char else []
  | [i, j], wDestLen => if 4 ≤ wDestLen then (vOutput [i, j]).map char else []
  | i :: j :: k :: s, wDestLen =>
    if 4 ≤ wDestLen then (vOutput (i :: j :: k :: s)).map char ++ base64Encode s (wDestLen - 4) else []

namespace Base64Encode

-- The characters of the hextets, and the masks in front of the shifts
theorem hextets : ∀ i, (i < 64 → char i = Base64.char i) ∧ (i &&& 0xFC) >>> 2 = i >>> 2 ∧
    (i &&& 0xF0) >>> 4 = i >>> 4 ∧ (i &&& 0xC0) >>> 6 = i >>> 6 :=
  forall_byte <| by decide +kernel

theorem masks (i : UInt8) : (i &&& 0xFC) >>> 2 = i >>> 2 ∧ (i &&& 0xF0) >>> 4 = i >>> 4 ∧
    (i &&& 0xC0) >>> 6 = i >>> 6 :=
  (hextets i).2

theorem chars (h : ∀ x ∈ Base64.groups s, x < 64) :
    (Base64.groups s).map char = (Base64.groups s).map Base64.char :=
  List.map_congr_left fun x hx => (hextets x).1 (h x hx)

-- A destination that is large enough gets the encoding.
theorem encode_eq (h : (x.length + 2) / 3 * 4 ≤ n) : base64Encode x n = Base64.encode x := by
  induction x using Base64.groups.induct generalizing n with
  | case1 a b c s ih =>
    simp only [List.length_cons] at h
    have hg : Base64.groups [a, b, c] = vOutput (a :: b :: c :: s) := by
      simp only [Base64.groups, vOutput, masks]
    have hm := chars <| @Base64.groups_lt [a, b, c]
    rw [base64Encode, if_pos (by omega), ih (by omega), ← hg, hm, Base64.encode_cons]
    rfl
  | case2 a b =>
    simp only [List.length_cons, List.length_nil] at h
    have hm := chars <| @Base64.groups_lt [a, b]
    have hv : vOutput [a, b] = Base64.groups [a, b] ++ [0xFF] := by
      simp only [Base64.groups, vOutput, masks]
      rfl
    rw [base64Encode, if_pos (by omega), hv, List.map_append, hm]
    rfl
  | case3 a =>
    simp only [List.length_cons, List.length_nil] at h
    have hm := chars <| @Base64.groups_lt [a]
    have hv : vOutput [a] = Base64.groups [a] ++ [0xFF, 0xFF] := by
      simp only [Base64.groups, vOutput, masks]
      rfl
    rw [base64Encode, if_pos (by omega), hv, List.map_append, hm]
    rfl
  | case4 => rfl

-- What comes back of an encoded string
theorem decode_encode :
    base64Decode (Base64.encode x) n = (x ++ if 3 ∣ x.length then [] else [0]).take n := by
  rw [base64Decode_eq_take, Base64.sextets_encode, Base64.decode_groups, Base64.leftover_groups]

-- The encoder writes the encoding, and the decoder takes it back exactly if there is no last group of
-- less than three bytes or no room behind the string.
theorem round_trip_law (h₁ : (x.length + 2) / 3 * 4 ≤ n₁) (h₂ : x.length ≤ n₂) :
    (base64Encode x n₁ = Base64.standard x ∧ 4 ∣ (base64Encode x n₁).length) ∧
    (base64Decode (base64Encode x n₁) n₂ = x ↔ 3 ∣ x.length ∨ n₂ = x.length) := by
  rw [encode_eq h₁, Base64.standard_eq, decode_encode]
  refine ⟨⟨rfl, ?_⟩, ?_⟩
  case refine_1 =>
    rw [Base64.encode_length]
    exact Nat.dvd_mul_left 4 _
  case refine_2 =>
    by_cases hd : 3 ∣ x.length
    case pos => simp [hd, List.take_of_length_le h₂]
    case neg =>
      rw [if_neg hd, or_iff_right hd]
      constructor
      case mp =>
        intro h
        have := congrArg List.length h
        simp only [List.length_take, List.length_append, List.length_singleton] at this
        omega
      case mpr =>
        intro h
        rw [h, List.take_left]

theorem round_trip_law_foobar :
    ((ascii "foobar").length + 2) / 3 * 4 ≤ 8 ∧ (ascii "foobar").length ≤ 40 ∧
    (base64Encode (ascii "foobar") 8 = Base64.standard (ascii "foobar") ∧
      4 ∣ (base64Encode (ascii "foobar") 8).length) ∧
    (base64Decode (base64Encode (ascii "foobar") 8) 40 = ascii "foobar" ↔
      3 ∣ (ascii "foobar").length ∨ 40 = (ascii "foobar").length) :=
  ⟨by decide +kernel, by decide +kernel, round_trip_law (by decide +kernel) (by decide +kernel)⟩

-- A byte of zeros comes back behind a single character.
theorem round_trip_one_byte :
    base64Decode (base64Encode (ascii "A") 80) 80 = [65, 0] ∧ [65, 0] ≠ ascii "A" := by
  decide +kernel

end Base64Encode
