import Webtermo.Execution.Wcl.Urlencode
import Webtermo.Execution.Wcl.Theorems.Document

open Define

namespace Wcl

variable {s s₁ mem mem₁ : Buffer cap} {t p r : Bytes} {c : UInt8} {dev : Wapp.State}
  {gsm : Fin 5 → Bool} {ps : List Part} {xml : CString xmlCap}

namespace Rfc1738

theorem digits : Percent.Digits hex :=
  .of_nibbles <| by decide

theorem doEscape_percent : doEscape 37 := by
  decide

theorem encode_eq : encode c = Percent.code hex doEscape c :=
  rfl

theorem flatMap_encode : t.flatMap encode = Percent.encode hex doEscape t :=
  rfl

-- The printable characters that are safe
def Plain (c : UInt8) : Prop :=
  0x20 ≤ c ∧ c < 0x7F ∧ c ∉ unsafeChars

theorem plain_of_not_doEscape : ∀ c, doEscape c = false → Plain c := by
  unfold Plain
  exact forall_byte <| by decide +kernel

end Rfc1738

-- A byte is written at a place that has been read already.
theorem write_read (hi : i ≤ j) (hj : j < cap) (x : UInt8) : ∃ s₁, s.write i [x] = some s₁ ∧
    s₁.bytes.take (i + 1) = s.bytes.take i ++ [x] ∧ s₁.bytes.drop (j + 1) = s.bytes.drop (j + 1) := by
  obtain ⟨s₁, h⟩ : ∃ s₁, s.write i [x] = some s₁ := Buffer.write_eq_some <| by simp; omega
  exact ⟨s₁, h, Buffer.take_write_append h, Buffer.drop_write h (by simp; omega)⟩

-- One turn of `rfc1738_unescape` writes the next decoded byte.
structure Turned (s : Buffer cap) (i j : Nat) (t r : Bytes) (s₁ : Buffer cap) (j₁ : Nat) : Prop where
  intro ::
  le      : j ≤ j₁
  decoded : ∃ x t₁, Percent.decode t = x :: Percent.decode t₁ ∧ t₁.length < t.length ∧ 0 ∉ t₁ ∧
    s₁.bytes.take (i + 1) = s.bytes.take i ++ [x] ∧ s₁.bytes.drop (j₁ + 1) = t₁ ++ 0 :: r

theorem drop_succ (h : s.bytes.drop j = c :: l) : s.bytes.drop (j + 1) = l := by
  rw [← List.drop_drop, h]
  rfl

theorem getElem?_of_drop (h : s.bytes.drop j = l) : s.bytes[j + n]? = l[n]? := by
  rw [← h, List.getElem?_drop]

theorem lt_of_drop (h : s.bytes.drop j = l) (hn : n < l.length) : j + n < cap := by
  rw [← h, List.length_drop, s.length_eq] at hn
  omega

theorem turn_turned (hi : i ≤ j) (ht : s.bytes.drop j = c :: t ++ 0 :: r) (hn : 0 ∉ c :: t) :
    ∃ s₁ j₁, rfc1738Unescape.turn s i j c = some (s₁, j₁) ∧ Turned s i j (c :: t) r s₁ j₁ := by
  have hj : j < cap := lt_of_drop (n := 0) ht <| by simp
  obtain ⟨hc, hn⟩ : 0 ≠ c ∧ 0 ∉ t := by simpa using hn
  obtain ⟨s₁, h₁, hx, hd⟩ := write_read (s := s) hi hj c
  rw [drop_succ ht] at hd
  have ha : s₁.bytes[j + 1]? = (t ++ 0 :: r)[0]? := getElem?_of_drop (n := 0) hd
  have hb : s₁.bytes[j + 2]? = (t ++ 0 :: r)[1]? := getElem?_of_drop (n := 1) hd
  have keep (hk : Percent.decode (c :: t) = c :: Percent.decode t) : Turned s i j (c :: t) r s₁ j :=
    ⟨Nat.le_refl j, c, t, hk, Nat.lt_succ_self _, hn, hx, hd⟩
  by_cases hp : c = 37
  case neg => exact ⟨s₁, j, by simp [rfc1738Unescape.turn, h₁, hp], keep <| Percent.decode_cons hp⟩
  subst hp
  match t, hn with
  | [], _ =>
    exact ⟨s₁, j, by simp [rfc1738Unescape.turn, h₁, ha], keep rfl⟩
  | [_], _ =>
    exact ⟨s₁, j, by simp [rfc1738Unescape.turn, h₁, ha, hb], keep rfl⟩
  | a :: b :: t, hn =>
    obtain ⟨ha₀, hb₀, hn⟩ : a ≠ 0 ∧ b ≠ 0 ∧ 0 ∉ t := by simpa [eq_comm] using hn
    by_cases hab : Percent.isXDigit a ∧ Percent.isXDigit b
    case neg =>
      refine ⟨s₁, j, ?_, keep <| Percent.decode_percent ?_⟩
      · have : Percent.isXDigit a = false ∨ Percent.isXDigit b = false := by
          simpa using not_and_or.mp hab
        simp [rfc1738Unescape.turn, h₁, ha, hb, ha₀, this]
      · rintro a₁ b₁ r₁ h
        cases h
        exact hab
    case pos =>
      have ha₁ : a ≠ 37 := by rintro rfl; exact absurd hab.1 <| by decide
      obtain ⟨s₂, h₂, hx₂, hd₂⟩ := write_read (s := s₁) (i := i) (j := j + 2) (by omega)
        (lt_of_drop ht <| by simp) (Percent.value a <<< 4 ||| Percent.value b)
      refine ⟨s₂, j + 2, by simp [rfc1738Unescape.turn, h₁, ha, hb, ha₀, hb₀, ha₁, hab, h₂], ?_, _, t,
        Percent.decode_escape hab.1 hab.2, ?_, hn, ?_, ?_⟩
      · omega
      · simp only [List.length_cons]
        omega
      · rw [hx₂, Buffer.take_write h₁ (Nat.le_refl i)]
      · rw [hd₂]
        exact drop_succ (drop_succ hd)

-- What has been read is written decoded.
theorem unescape_loop (hi : i ≤ j) (hd : s.bytes.drop j = t ++ 0 :: r) (hn : 0 ∉ t)
    (hf : t.length < fuel) : ∃ s₁, rfc1738Unescape.loop i j s fuel = some s₁ ∧
    s.bytes.take i ++ Percent.decode t ++ [0] <+: s₁.bytes := by
  induction fuel generalizing s i j t with
  | zero => exact absurd hf <| Nat.not_lt_zero _
  | succ fuel ih =>
    cases t with
    | nil =>
      have hj : s.bytes[j]? = some 0 := getElem?_of_drop (n := 0) hd
      have hl : j < cap := lt_of_drop (n := 0) hd <| by simp
      obtain ⟨s₁, h₁, hx, _⟩ := write_read (s := s) hi hl 0
      refine ⟨s₁, by simp [rfc1738Unescape.loop, hj, h₁], ?_⟩
      rw [Percent.decode, List.append_nil, ← hx]
      exact List.take_prefix _ _
    | cons c t =>
      have hj : s.bytes[j]? = some c := getElem?_of_drop (n := 0) hd
      have hc : c ≠ 0 := by rintro rfl; exact hn List.mem_cons_self
      obtain ⟨s₁, j₁, ht, hle, x, t₁, hx, hl, hn₁, htk, hd₁⟩ := turn_turned hi hd hn
      obtain ⟨s₂, h₂, hp⟩ := ih (Nat.succ_le_succ <| Nat.le_trans hi hle) hd₁ hn₁ (by omega)
      refine ⟨s₂, by simp [rfc1738Unescape.loop, hj, hc, ht, h₂], ?_⟩
      rw [htk] at hp
      simpa [hx] using hp

theorem rfc1738Unescape_eq (h : s.text 0 = some t) :
    ∃ s₁, rfc1738Unescape s = some s₁ ∧ Percent.decode t ++ [0] <+: s₁.bytes := by
  obtain ⟨r, hr, hn⟩ := cstr_eq_some_iff.mp h
  exact unescape_loop (Nat.le_refl 0) hr hn <| Nat.lt_succ_of_lt (Buffer.text_length h)

-- What `rfc1738_escape` writes for one character
def printed (c : UInt8) : Bytes :=
  if Rfc1738.doEscape c then Rfc1738.encode c ++ [0] else Rfc1738.encode c

theorem printed_eq : ∃ l, printed c = Rfc1738.encode c ++ l ∧ l.length ≤ 1 := by
  rw [printed]
  split
  · exact ⟨[0], rfl, Nat.le_refl 1⟩
  · exact ⟨[], (List.append_nil _).symm, Nat.zero_le 1⟩

theorem write_nul_isSome_iff : (mem.write q [0]).isSome ↔ q + 0 < cap := by
  rw [Buffer.write_isSome_iff, List.length_singleton]
  omega

theorem escapeIn_loop_cons : rfc1738EscapeIn.loop last q mem (c :: p) =
    if q < last then
      (mem.write q (printed c)).bind fun mem₁ =>
        rfc1738EscapeIn.loop last (q + (Rfc1738.encode c).length) mem₁ p
    else mem.write q [0] := by
  rw [rfc1738EscapeIn.loop, printed, Rfc1738.encode]
  split
  · split <;> rfl
  · rfl

theorem rfc1738Escape_cons : rfc1738Escape size q (c :: p) = if q + 1 < size then
    Rfc1738.encode c ++ rfc1738Escape size (q + (Rfc1738.encode c).length) p else [] :=
  rfl

-- The writes stay inside of the array if the text does.
theorem escapeIn_loop_isSome_iff : (rfc1738EscapeIn.loop last q mem p).isSome ↔
    q + (rfc1738Escape (last + 1) q p).length < cap := by
  induction p generalizing q mem with
  | nil => exact write_nul_isSome_iff
  | cons c p ih =>
    rw [escapeIn_loop_cons, rfc1738Escape_cons]
    by_cases hq : q < last
    case neg =>
      rw [if_neg hq, if_neg <| by omega]
      exact write_nul_isSome_iff
    case pos =>
      obtain ⟨l, hl, hn⟩ := printed_eq (c := c)
      simp only [hq, Nat.succ_lt_succ hq, if_true, List.length_append, ← Nat.add_assoc]
      cases hw : mem.write q (printed c) with
      | some mem₁ => exact ih
      | none =>
        have hf : ¬(mem.write q (printed c)).isSome := by simp [hw]
        rw [Buffer.write_isSome_iff, hl, List.length_append] at hf
        simp only [Option.bind_none, Option.isSome_none, Bool.false_eq_true, false_iff]
        omega

theorem escapeIn_loop_prefix (h : rfc1738EscapeIn.loop last q mem p = some mem₁) :
    mem.bytes.take q ++ rfc1738Escape (last + 1) q p ++ [0] <+: mem₁.bytes := by
  have written {q} {mem : Buffer cap} (hw : mem.write q [0] = some mem₁) :
      mem.bytes.take q ++ [] ++ [0] <+: mem₁.bytes := by
    rw [List.append_nil, ← Buffer.take_write_append hw]
    exact List.take_prefix _ _
  induction p generalizing q mem with
  | nil => exact written h
  | cons c p ih =>
    rw [escapeIn_loop_cons] at h
    rw [rfc1738Escape_cons]
    by_cases hq : q < last
    case neg =>
      rw [if_neg hq] at h
      rw [if_neg <| by omega]
      exact written h
    case pos =>
      obtain ⟨l, hl, _⟩ := printed_eq (c := c)
      rw [if_pos hq, Option.bind_eq_some_iff] at h
      obtain ⟨mem₂, hw, h⟩ := h
      rw [hl] at hw
      simpa [Nat.succ_lt_succ hq, Buffer.take_write_prefix hw] using ih h

-- The length of an escaped text
def escapedLength (t : Bytes) : Nat :=
  (t.flatMap Rfc1738.encode).length

theorem escapedLength_append : escapedLength (t ++ p) = escapedLength t + escapedLength p := by
  rw [escapedLength, List.flatMap_append, List.length_append, escapedLength, escapedLength]

theorem escapedLength_cons : escapedLength (c :: t) = (Rfc1738.encode c).length + escapedLength t := by
  rw [escapedLength, List.flatMap_cons, List.length_append, escapedLength]

theorem length_le_escapedLength : t.length ≤ escapedLength t :=
  Percent.length_le_encode

theorem encode_length_pos : 0 < (Rfc1738.encode c).length := by
  rw [Rfc1738.encode_eq, Percent.code_length]
  split <;> decide

theorem rfc1738Escape_add :
    rfc1738Escape (k + size) (k + q) t = rfc1738Escape size q t := by
  induction t generalizing q with
  | nil => rfl
  | cons c t ih =>
    simp only [rfc1738Escape_cons, Nat.add_assoc, ih, Nat.add_lt_add_iff_left]

theorem rfc1738Escape_fits (h : q + escapedLength t < size) :
    rfc1738Escape size q t = t.flatMap Rfc1738.encode := by
  induction t generalizing q with
  | nil => rfl
  | cons c t ih =>
    rw [escapedLength_cons] at h
    have := @encode_length_pos c
    rw [rfc1738Escape_cons, if_pos <| by omega, List.flatMap_cons, ih]
    omega

-- The loop ends before `last` if the whole text does, and at `last` if a part of the text ends there.
theorem escape_le_iff (hq : q ≤ last) : q + (rfc1738Escape (last + 1) q t).length ≤ last ↔
    q + escapedLength t ≤ last ∨ ∃ a, a <+: t ∧ q + escapedLength a = last := by
  induction t generalizing q with
  | nil =>
    simp only [rfc1738Escape, escapedLength, List.flatMap_nil, List.length_nil, List.prefix_nil]
    exact ⟨.inl, fun _ => hq⟩
  | cons c t ih =>
    rw [rfc1738Escape_cons, escapedLength_cons]
    by_cases hl : q < last
    case neg =>
      rw [if_neg <| by omega]
      refine ⟨fun _ => .inr ⟨[], List.nil_prefix, ?_⟩, fun _ => hq⟩
      exact Nat.le_antisymm hq <| Nat.le_of_not_lt hl
    case pos =>
      have hp : (∃ a, a <+: c :: t ∧ q + escapedLength a = last) ↔
          ∃ a, a <+: t ∧ q + (Rfc1738.encode c).length + escapedLength a = last := by
        constructor
        case mp =>
          rintro ⟨a, ha, he⟩
          cases a with
          | nil => exact absurd he <| Nat.ne_of_lt hl
          | cons d a =>
            obtain ⟨rfl, hp⟩ := List.cons_prefix_cons.mp ha
            exact ⟨a, hp, by rw [← he, escapedLength_cons, Nat.add_assoc]⟩
        case mpr =>
          rintro ⟨a, ha, he⟩
          exact ⟨c :: a, by simpa using ha, by rw [← he, escapedLength_cons, Nat.add_assoc]⟩
      rw [if_pos <| Nat.succ_lt_succ hl, List.length_append, hp, ← Nat.add_assoc, ← Nat.add_assoc]
      by_cases hc : q + (Rfc1738.encode c).length ≤ last
      case pos => exact ih hc
      case neg =>
        refine ⟨fun h => absurd h <| by omega, ?_⟩
        rintro (h | ⟨_, _, h⟩) <;> omega

-- The escaped text ends inside of `size` bytes, or a part of the text ends right before the last one.
def EndsInside (size : Nat) (s : Bytes) : Prop :=
  escapedLength s < size ∨ ∃ a, a <+: s ∧ escapedLength a + 1 = size

theorem escapeIn_text (h : rfc1738EscapeIn mem 0 (size + 1) t = some mem₁) :
    rfc1738Escape (size + 1) 0 t ++ [0] <+: mem₁.bytes := by
  have hp := escapeIn_loop_prefix h
  rwa [Nat.zero_add, Nat.add_sub_cancel, List.take_zero, List.nil_append] at hp

theorem escapeIn_isSome_iff {escbuf : Buffer (size + 1)} :
    (rfc1738EscapeIn escbuf 0 (size + 1) t).isSome ↔ EndsInside (size + 1) t := by
  rw [rfc1738EscapeIn, escapeIn_loop_isSome_iff, Nat.zero_add (size + 1), Nat.add_sub_cancel,
    Nat.lt_succ_iff, escape_le_iff <| Nat.zero_le size, EndsInside]
  simp only [Nat.zero_add, Nat.lt_succ_iff, Nat.add_right_cancel_iff]

-- Every text whose escaped form fits is read back as it was, and its escaped form is safe.
theorem url_round_trip_law (hs : 0 ∉ t) (hf : (t.flatMap Rfc1738.encode).length < size)
    (escbuf : Buffer size) :
    ∃ b₁ e b₂, rfc1738EscapeIn escbuf 0 size t = some b₁ ∧ b₁.text 0 = some e ∧
      Percent.Escaped Rfc1738.Plain e ∧ rfc1738Unescape b₁ = some b₂ ∧ b₂.text 0 = some t := by
  obtain ⟨n, rfl⟩ : ∃ n, size = n + 1 := ⟨size - 1, by omega⟩
  have hi : (rfc1738EscapeIn escbuf 0 (n + 1) t).isSome := escapeIn_isSome_iff.mpr <| .inl hf
  obtain ⟨b₁, h₁⟩ := Option.isSome_iff_exists.mp hi
  obtain ⟨r, hr⟩ := escapeIn_text h₁
  have he : Percent.Escaped Rfc1738.Plain (t.flatMap Rfc1738.encode) :=
    Percent.escaped_encode Rfc1738.digits fun c _ => Rfc1738.plain_of_not_doEscape c
  have ht : b₁.text 0 = some (t.flatMap Rfc1738.encode) := by
    rw [rfc1738Escape_fits (by simpa [escapedLength] using hf), List.append_assoc] at hr
    exact cstr_eq_some_iff.mpr ⟨r, hr.symm, he.nul_not_mem fun h => absurd h.1 <| by decide⟩
  obtain ⟨b₂, h₂, r₂, hr₂⟩ := rfc1738Unescape_eq ht
  rw [Rfc1738.flatMap_encode, Percent.decode_encode Rfc1738.digits Rfc1738.doEscape_percent,
    List.append_assoc] at hr₂
  exact ⟨b₁, _, b₂, h₁, ht, he, h₂, cstr_eq_some_iff.mpr ⟨r₂, hr₂.symm, hs⟩⟩

theorem url_round_trip_law_name : ∃ b₁ e b₂,
    rfc1738EscapeIn (Buffer.zero 32) 0 32 (ascii "Soba #1 & 100%") = some b₁ ∧ b₁.text 0 = some e ∧
      Percent.Escaped Rfc1738.Plain e ∧ rfc1738Unescape b₁ = some b₂ ∧
      b₂.text 0 = some (ascii "Soba #1 & 100%") :=
  url_round_trip_law (by decide) (by decide) _

-- What a part takes besides the text that is put into it
def Part.frame : Part → Nat
  | openTag tag              => escapedLength (Wcl.openTag tag).flatten
  | closeTag tag             => escapedLength (Wcl.closeTag tag).flatten
  | crlf                     => escapedLength Wcl.crlf
  | stored tag _ _ | poruka tag => escapedLength (addTag tag []).flatten

def Part.value (dev : Wapp.State) : Part → Nat
  | stored _ addr n => escapedLength ((storedText dev addr n).getD [])
  | poruka _        => escapedLength ((dev.infobip.poruka.text 0).getD [])
  | _               => 0

theorem escapedLength_addTag :
    escapedLength (addTag tag v).flatten = escapedLength (addTag tag []).flatten + escapedLength v := by
  simp only [addTag, List.flatten_append, List.flatten_cons, escapedLength_append]
  have : escapedLength [] = 0 := rfl
  omega

theorem Part.text_length {q : Part} (h : q.text dev = some t) :
    escapedLength t = q.frame + q.value dev := by
  cases q with
  | stored tag addr n =>
    obtain ⟨v, hv, rfl⟩ := Option.map_eq_some_iff.mp h
    rw [escapedLength_addTag, frame, value, hv, Option.getD_some]
  | poruka tag =>
    obtain ⟨v, hv, rfl⟩ := Option.map_eq_some_iff.mp h
    rw [escapedLength_addTag, frame, value, hv, Option.getD_some]
  | _ =>
    cases h
    rfl

theorem partsText_length (h : partsText dev ps = some t) :
    escapedLength t = (ps.map Part.frame).sum + (ps.map (Part.value dev)).sum := by
  induction ps generalizing t with
  | nil =>
    cases h
    rfl
  | cons q ps ih =>
    simp only [partsText, Option.bind_eq_bind, Option.bind_eq_some_iff, Option.some.injEq] at h
    obtain ⟨u, hu, v, hv, rfl⟩ := h
    rw [escapedLength_append, q.text_length hu, ih hv, List.map_cons, List.map_cons, List.sum_cons,
      List.sum_cons]
    omega

theorem partsText_isSome_iff : (partsText dev ps).isSome ↔ ∀ q ∈ ps, (q.text dev).isSome := by
  induction ps with
  | nil => simp [partsText]
  | cons q ps ih =>
    rw [List.forall_mem_cons, ← ih, partsText]
    cases q.text dev <;> cases partsText dev ps <;> simp

-- The texts that the document is made of
structure Texts (dev : Wapp.State) (gsm : Fin 5 → Bool) where
  username    : Bytes
  password    : Bytes
  sender      : Bytes
  poruka      : Bytes
  num         : Fin 5 → Bytes
  username_eq : storedText dev eeGsmUname 16 = some username
  password_eq : storedText dev eeGsmPass 16 = some password
  sender_eq   : storedText dev eeObjectName 32 = some sender
  poruka_eq   : dev.infobip.poruka.text 0 = some poruka
  num_eq      : ∀ n, gsm n → storedText dev (eeGsm1Num + n.val * 0x20) 32 = some (num n)

-- The tags around the texts take 306 bytes, and 25 more for each number.
def Texts.size (x : Texts dev gsm) : Nat :=
  306 + (escapedLength x.username + escapedLength x.password + escapedLength x.sender +
    escapedLength x.poruka) +
  (((List.finRange 5).filter (gsm ·)).map fun n => 25 + escapedLength (x.num n)).sum

-- The parts without those for the numbers
def fixedParts : List Part :=
  parts fun _ => false

theorem parts_sum (f : Part → Nat) :
    ((parts gsm).map f).sum = (fixedParts.map f).sum + ((gsmParts gsm).map f).sum := by
  simp only [fixedParts, parts, List.map_append, List.sum_append, show gsmParts (fun _ => false) = [] from rfl,
    List.map_nil, List.sum_nil]
  omega

theorem forall_parts {P : Part → Prop} :
    (∀ q ∈ parts gsm, P q) ↔ (∀ q ∈ fixedParts, P q) ∧ ∀ q ∈ gsmParts gsm, P q := by
  simp only [fixedParts, parts, List.forall_mem_append, show gsmParts (fun _ => false) = [] from rfl,
    List.not_mem_nil, false_implies, implies_true, and_true, and_right_comm]

theorem gsmParts_sum (f : Part → Nat) : ((gsmParts gsm).map f).sum =
    (((List.finRange 5).filter (gsm ·)).map fun n =>
      f (.stored (ascii "gsm") (eeGsm1Num + n.val * 0x20) 32) + f .crlf).sum := by
  rw [gsmParts]
  induction (List.finRange 5).filter (gsm ·) with
  | nil => rfl
  | cons n ns ih =>
    rw [List.flatMap_cons, List.map_append, List.sum_append, ih, List.map_cons, List.sum_cons]
    rfl

theorem fixedParts_isSome : (∀ q ∈ fixedParts, (q.text dev).isSome) ↔
    (storedText dev eeGsmUname 16).isSome ∧ (storedText dev eeGsmPass 16).isSome ∧
    (storedText dev eeObjectName 32).isSome ∧ (dev.infobip.poruka.text 0).isSome := by
  simp [fixedParts, parts, gsmParts, Part.text]

theorem gsmParts_isSome : (∀ q ∈ gsmParts gsm, (q.text dev).isSome) ↔
    ∀ n, gsm n → (storedText dev (eeGsm1Num + n.val * 0x20) 32).isSome := by
  rw [gsmParts, List.forall_mem_flatMap]
  simp [Part.text]

theorem Texts.document (x : Texts dev gsm) :
    ∃ d, document dev gsm = some d ∧ escapedLength d = x.size := by
  have hs : (partsText dev (parts gsm)).isSome := by
    rw [partsText_isSome_iff, forall_parts, fixedParts_isSome, gsmParts_isSome, x.username_eq,
      x.password_eq, x.sender_eq, x.poruka_eq]
    exact ⟨⟨rfl, rfl, rfl, rfl⟩, fun n hn => by rw [x.num_eq n hn]; rfl⟩
  obtain ⟨d, hd⟩ := Option.isSome_iff_exists.mp hs
  refine ⟨d, hd, ?_⟩
  have hf : (fixedParts.map Part.frame).sum = 306 := by decide
  have hv : (fixedParts.map (Part.value dev)).sum = escapedLength x.username +
      escapedLength x.password + escapedLength x.sender + escapedLength x.poruka := by
    simp [fixedParts, parts, gsmParts, Part.value, x.username_eq, x.password_eq, x.sender_eq,
      x.poruka_eq, Nat.add_assoc]
  have hg : ((gsmParts gsm).map Part.frame).sum + ((gsmParts gsm).map (Part.value dev)).sum =
      (((List.finRange 5).filter (gsm ·)).map fun n => 25 + escapedLength (x.num n)).sum := by
    rw [gsmParts_sum, gsmParts_sum, ← List.sum_map_add]
    refine congrArg List.sum <| List.map_congr_left fun n hn => ?_
    rw [Part.value, x.num_eq n (List.mem_filter.mp hn).2]
    rfl
  rw [partsText_length hd, parts_sum, parts_sum, hf, hv, size, ← hg]
  omega

theorem Texts.of_document (h : Wcl.document dev gsm = some d) : Nonempty (Texts dev gsm) := by
  have ht : ∀ q ∈ parts gsm, (q.text dev).isSome :=
    partsText_isSome_iff.mp <| by rw [← Wcl.document, h]; rfl
  rw [forall_parts, fixedParts_isSome, gsmParts_isSome] at ht
  obtain ⟨⟨hu, hp, hs, ht⟩, hg⟩ := ht
  exact ⟨⟨_, _, _, _, fun n => (storedText dev (eeGsm1Num + n.val * 0x20) 32).getD [],
    Option.some_get hu |>.symm, Option.some_get hp |>.symm, Option.some_get hs |>.symm,
    Option.some_get ht |>.symm, fun n hn => by rw [← Option.some_get (hg n hn)]; rfl⟩⟩

theorem Part.add_eq_some {q : Part} (ht : q.text dev = some t) (hb : SameBehind n dev dev₁)
    (hn : ∀ m ∈ q.reads, n ≤ m ∧ m ≤ 1024) (hl : xml.bytes.length + t.length < xmlCap) :
    ∃ dev₂ xml₁, q.add dev₁ xml = some (dev₂, xml₁) := by
  cases q with
  | stored tag addr m =>
    obtain ⟨v, hv, rfl⟩ := Option.map_eq_some_iff.mp ht
    obtain ⟨rBuf, hr, _⟩ := Wapp.eeRead_spec dev₁ addr m (hn m rfl).2
    have hv₁ := ((hb.mono (hn m rfl).1).eeRead hr).2.trans hv
    obtain ⟨xml₁, hx⟩ := CString.strcats_eq_some hl
    exact ⟨dev₁.setRBuf rBuf, xml₁, by rw [add, hr, Option.bind_eq_bind, Option.bind_some, hv₁]; simp [hx]⟩
  | poruka tag =>
    obtain ⟨v, hv, rfl⟩ := Option.map_eq_some_iff.mp ht
    obtain ⟨rBuf, rfl, _⟩ := hb
    obtain ⟨xml₁, hx⟩ := CString.strcats_eq_some hl
    exact ⟨dev.setRBuf rBuf, xml₁, by simp [add, hv, hx]⟩
  | crlf =>
    cases ht
    have hl : xml.bytes.length + [Wcl.crlf].flatten.length < xmlCap := by simpa using hl
    obtain ⟨xml₁, hx⟩ := CString.strcats_eq_some hl
    have hx : xml.strcat Wcl.crlf = some xml₁ := by simpa [CString.strcats] using hx
    exact ⟨dev₁, xml₁, by simp [add, hx]⟩
  | _ =>
    cases ht
    obtain ⟨xml₁, hx⟩ := CString.strcats_eq_some hl
    exact ⟨dev₁, xml₁, by simp [add, hx]⟩

theorem addParts_eq_some (ht : partsText dev ps = some t) (hb : SameBehind n dev dev₁)
    (hs : (n :: ps.filterMap Part.reads).Pairwise (· ≤ ·))
    (hm : ∀ q ∈ ps, ∀ m ∈ q.reads, m ≤ 1024)
    (hl : xml.bytes.length + t.length < xmlCap) : ∃ x, addParts dev₁ xml ps = some x := by
  induction ps generalizing dev₁ xml n t with
  | nil => exact ⟨_, rfl⟩
  | cons q ps ih =>
    simp only [partsText, Option.bind_eq_bind, Option.bind_eq_some_iff, Option.some.injEq] at ht
    obtain ⟨u, hu, v, hv, rfl⟩ := ht
    rw [List.length_append] at hl
    obtain ⟨hn, hs⟩ := reads_cons hs
    obtain ⟨hq, hm⟩ := List.forall_mem_cons.mp hm
    have hl₁ : xml.bytes.length + u.length < xmlCap := by omega
    obtain ⟨dev₂, xml₁, hq⟩ := q.add_eq_some hu hb (fun m h => ⟨hn m h, hq m h⟩) hl₁
    obtain ⟨hb₁, w, hw, hx⟩ := q.add_text hq hb hn
    cases hu.symm.trans hw
    have hl : xml₁.bytes.length + v.length < xmlCap := by rw [hx, List.length_append]; omega
    obtain ⟨x, h⟩ := ih hv hb₁ hs hm hl
    exact ⟨x, by rw [addParts, hq]; exact h⟩

theorem escape_infobip_isSome_iff {infobip : Buffer 1024} :
    (rfc1738EscapeIn infobip 4 1024 t).isSome ↔ escapedLength t < 1020 := by
  have hs : rfc1738Escape (4 + 1024) (4 + 0) t = rfc1738Escape 1024 0 t := rfc1738Escape_add
  rw [rfc1738EscapeIn, escapeIn_loop_isSome_iff, show 4 + 1024 - 1 + 1 = 4 + 1024 from rfl,
    show rfc1738Escape (4 + 1024) 4 t = _ from hs]
  constructor
  case mp =>
    intro h
    have he : rfc1738Escape 1024 0 t = _ := rfc1738Escape_eq <| by omega
    rw [escapedLength, ← he]
    omega
  case mpr =>
    intro h
    rw [rfc1738Escape_fits (by omega), ← escapedLength]
    omega

-- `CrateInfobipXMLString` stays inside of `infobip` if the document does.
theorem crateInfobip_isSome_iff {infobip : Buffer 1024} : (crateInfobip dev infobip).isSome ↔
    ∃ d, document dev dev.infobip.gsmEnable = some d ∧ escapedLength d < 1020 := by
  obtain ⟨ib, hi⟩ : ∃ ib, infobip.strcpy (ascii "XML=") = some ib :=
    Buffer.strcpy_eq_some <| by decide
  obtain ⟨x, hx⟩ : ∃ x : CString xmlCap, CString.strcpy [] = some x := ⟨_, rfl⟩
  have hb := CString.strcpy_bytes hx
  have written {xml : CString xmlCap} {d : Bytes} (h : xml.bytes = x.bytes ++ d) : xml.bytes = d := by
    rw [h, hb, List.nil_append]
  constructor
  case mp =>
    intro h
    obtain ⟨b, h⟩ := Option.isSome_iff_exists.mp h
    simp only [crateInfobip, hx, hi, Option.bind_eq_bind, Option.bind_some, Option.bind_eq_some_iff] at h
    obtain ⟨⟨_, xml⟩, hp, h⟩ := h
    obtain ⟨_, d, hd, hb⟩ := addParts_text hp SameBehind.refl parts_reads
    have hl := escape_infobip_isSome_iff.mp <| Option.isSome_of_eq_some h
    exact ⟨d, hd, written hb ▸ hl⟩
  case mpr =>
    rintro ⟨d, hd, hl⟩
    have hr : ∀ q ∈ parts dev.infobip.gsmEnable, ∀ m ∈ q.reads, m ≤ 1024 := by
      rw [forall_parts]
      refine ⟨by decide, fun q hq m hm => ?_⟩
      rw [gsmParts_reads m <| List.mem_filterMap.mpr ⟨q, hq, hm⟩]
      decide
    have hc : x.bytes.length + d.length < xmlCap := by
      have := @length_le_escapedLength d
      rw [hb, List.length_nil, xmlCap]
      omega
    obtain ⟨⟨dev₁, xml⟩, hp⟩ := addParts_eq_some hd SameBehind.refl parts_reads hr hc
    obtain ⟨_, _, hd₁, hb⟩ := addParts_text hp SameBehind.refl parts_reads
    cases hd.symm.trans hd₁
    simp only [crateInfobip, hx, hi, hp, Option.bind_eq_bind, Option.bind_some]
    rwa [written hb, escape_infobip_isSome_iff]

theorem exists_texts_iff : (∃ d, document dev gsm = some d ∧ escapedLength d < n) ↔
    ∃ x : Texts dev gsm, x.size < n := by
  constructor
  case mp =>
    rintro ⟨d, hd, hl⟩
    obtain ⟨x⟩ := Texts.of_document hd
    obtain ⟨d₁, hd₁, he⟩ := x.document
    cases hd.symm.trans hd₁
    exact ⟨x, he ▸ hl⟩
  case mpr =>
    rintro ⟨x, hl⟩
    obtain ⟨d, hd, he⟩ := x.document
    exact ⟨d, hd, he ▸ hl⟩

-- The escaped text stays inside of its buffer, and the document inside of `infobip`, exactly if there
-- is room for them.
theorem escape_bound_law (size : Nat) (escbuf : Buffer (size + 1)) (s : Bytes) (dev infobip) :
    ((∃ b, rfc1738EscapeIn escbuf 0 (size + 1) s = some b ∧ 0 ∈ b.bytes) ↔ EndsInside (size + 1) s) ∧
    ((crateInfobip dev infobip).isSome ↔ ∃ x : Texts dev dev.infobip.gsmEnable, x.size < 1020) := by
  constructor
  · refine Iff.trans ?_ (@escapeIn_isSome_iff s size escbuf)
    rw [Option.isSome_iff_exists]
    refine exists_congr fun b => and_iff_left_of_imp fun h => ?_
    exact (escapeIn_text h).subset <| by simp
  · rw [crateInfobip_isSome_iff, exists_texts_iff]

-- Names of `#`, all five numbers switched on, and the status of eight sensors
def hashes : Wapp.State := { blank.dev with
  eeprom  := fun a => if a % 16 = 15 then 0 else '#'.toNat.toUInt8
  infobip := ⟨(Buffer.zero 160).strcpy (List.replicate 8 (ascii "######## 23.5 C\r\n")).flatten |>.getD
    default, fun _ => true, true⟩
}

theorem escape_bound_hashes :
    rfc1738EscapeIn (Buffer.zero 1024) 0 1024 (List.replicate 1022 65 ++ [35]) = none ∧
      crateInfobip hashes (Buffer.zero 1024) = none := by
  decide +kernel

end Wcl
