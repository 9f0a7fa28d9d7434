import Webtermo.Library.Percent
import Webtermo.Execution.Config.Theorems.Posted
import Webtermo.Execution.Pages.State

open Define Percent

namespace Config

variable {atof : Bytes → UInt32} {b : Body} {s s₁ : State} {k : Fin 8} {t l : Bytes} {c : UInt8}

-- What `Sensor` does with the code of a sensor
def serialnum (k : Fin 8) : Cmd :=
  .code (xmlTag "SERIALNUM") (0x100 * (k.val + 1) + eeSensorCode) k

theorem serialnum_mem : serialnum k ∈ (Handler.sensor k).cmds := by
  simp [serialnum, Handler.cmds, sensor]

-- The bytes of a text of hexadecimal digits
def pairs : Bytes → Bytes
  | a :: b :: l => (value a <<< 4 ||| value b) :: pairs l
  | _           => []

-- Sixteen hexadecimal digits of either case stand for a code.
structure Code (t : Bytes) (x : Buffer 8) : Prop where
  length : t.length = 16
  digits : ∀ c ∈ t, isXDigit c
  value  : x.bytes = pairs t

-- The digits without those of the lower case
def Upper (c : UInt8) : Prop :=
  48 ≤ c ∧ c ≤ 57 ∨ 65 ≤ c ∧ c ≤ 70

instance : DecidablePred Upper :=
  fun c => inferInstanceAs <| Decidable (48 ≤ c ∧ c ≤ 57 ∨ 65 ≤ c ∧ c ≤ 70)

-- What `Sensor` is to do with a text
def Codes (atof : Bytes → UInt32) (b : Body) (k : Fin 8) (t : Bytes) (s : State) : Prop :=
  ∃ s₁ o, (serialnum k).exec atof b s = some (s₁, o) ∧
    (∀ x, Code t x → s₁.ram.vars (.code k) = x ∧
      s₁.eeprom.read (0x100 * (k.val + 1) + eeSensorCode) 8 = x.bytes) ∧
    ((¬∃ x, Code t x) → s₁.ram = s.ram ∧ s₁.eeprom = s.eeprom)

theorem upper_iff : ∀ c, Upper c ↔ isXDigit c ∧ asciitohex c = value c :=
  forall_byte <| by decide +kernel

theorem digit_lt : ∀ c, asciitohex c < 16 ∧ (isXDigit c → value c < 16) :=
  forall_byte <| by decide +kernel

theorem toNat_add_pair {x y : UInt8} (hx : x < 16) (hy : y < 16) :
    (x <<< 4 + y).toNat = 16 * x.toNat + y.toNat := by
  have hx : x.toNat < 16 := hx
  have hy : y.toNat < 16 := hy
  rw [UInt8.toNat_add, UInt8.toNat_shiftLeft]
  simp only [UInt8.reduceToNat, Nat.reduceMod, Nat.shiftLeft_eq]
  omega

-- Two digits are read as a byte by the parser exactly if none is of the lower case.
theorem upper_pair_iff (ha : isXDigit x) (hb : isXDigit y) :
    asciitohex x <<< 4 + asciitohex y = value x <<< 4 ||| value y ↔ Upper x ∧ Upper y := by
  obtain ⟨hx, hvx⟩ := digit_lt x
  obtain ⟨hy, hvy⟩ := digit_lt y
  rw [← UInt8.toNat_inj, toNat_add_pair hx hy, toNat_pair (hvx ha) (hvy hb), upper_iff, upper_iff,
    ← UInt8.toNat_inj, ← UInt8.toNat_inj]
  have h₁ := UInt8.lt_iff_toNat_lt.mp hy
  have h₂ := UInt8.lt_iff_toNat_lt.mp (hvy hb)
  simp only [UInt8.reduceToNat] at h₁ h₂
  constructor
  case mp => exact fun h => ⟨⟨ha, by omega⟩, hb, by omega⟩
  case mpr => exact fun ⟨⟨_, h₃⟩, _, h₄⟩ => by rw [h₃, h₄]

-- What the parser makes of pairs of characters
def codes : Bytes → Bytes
  | a :: b :: l => (asciitohex a <<< 4 + asciitohex b) :: codes l
  | _           => []

theorem loop_eq (h : t.length = 2 * m) :
    ds18b20CodeToArray.loop t.length (t ++ l) = some (codes t) ∧ (codes t).length = m ∧
      (pairs t).length = m := by
  induction m generalizing t with
  | zero =>
    obtain rfl := List.length_eq_zero_iff.mp h
    exact ⟨by simp [ds18b20CodeToArray.loop, codes], rfl, rfl⟩
  | succ m ih =>
    match t, h with
    | a :: b :: t, h =>
      obtain ⟨h₁, h₂, h₃⟩ := ih (t := t) <| by simp only [List.length_cons] at h; omega
      exact ⟨by simp [ds18b20CodeToArray.loop, codes, h₁], by simp [codes, h₂], by simp [pairs, h₃]⟩

theorem codes_eq_iff (hl : t.length = 2 * m) (hd : ∀ c ∈ t, isXDigit c) :
    codes t = pairs t ↔ ∀ c ∈ t, Upper c := by
  induction m generalizing t with
  | zero =>
    obtain rfl := List.length_eq_zero_iff.mp hl
    simp [codes, pairs]
  | succ m ih =>
    match t, hl, hd with
    | a :: b :: t, hl, hd =>
      obtain ⟨ha, hb, hd⟩ : isXDigit a ∧ isXDigit b ∧ ∀ c ∈ t, isXDigit c := by simpa using hd
      have ih := ih (t := t) (by simp only [List.length_cons] at hl; omega) hd
      simp only [codes, pairs, List.cons.injEq, ih, upper_pair_iff ha hb, List.forall_mem_cons, and_assoc]

theorem loop_ne_nil (h : ds18b20CodeToArray.loop (n + 1) l = some d) : d ≠ [] := by
  match l with
  | [] | [_] => exact nomatch h
  | a :: b :: l =>
    obtain ⟨_, _, rfl⟩ := Option.map_eq_some_iff.mp h
    exact List.cons_ne_nil _ _

theorem serialnum_exec (h : XmlParser.Text (xmlTag "SERIALNUM") b.bytes t) :
    (serialnum k).exec atof b s = (s.tb.strcpy t).bind fun tb =>
      if t = [] then some ({ s with tb }, [])
      else (serialnum k).parse atof t.length { s with tb } :=
  exec_posted serialnum_mem rfl (fun _ _ h => nomatch h) h

theorem serialnum_inPage : Memory.InPage 64 (0x100 * (k.val + 1) + eeSensorCode) 8 := by
  decide +revert

theorem read_code {m : Memory} (x : Buffer 8) :
    (m.writePage 64 (0x100 * (k.val + 1) + eeSensorCode) x.bytes).read
      (0x100 * (k.val + 1) + eeSensorCode) 8 = x.bytes := by
  have hp : Memory.InPage 64 (0x100 * (k.val + 1) + eeSensorCode) x.bytes.length := by
    rw [x.length_eq]
    exact serialnum_inPage
  have := @Memory.read_writePage m _ _ _ hp
  rwa [x.length_eq] at this

-- A code that is written as a whole
theorem write_whole {x : Buffer 8} (hd : d.length = 8) : x.write 0 d = some ⟨d, hd⟩ := by
  simp [Buffer.write, hd, List.drop_eq_nil_of_le <| Nat.le_of_eq x.length_eq]

theorem codeToArray_eq {x : Buffer 8} (ht : t ++ [0] <+: tb.bytes) (hl : t.length = 16) :
    ∃ y : Buffer 8, ds18b20CodeToArray t.length tb x = some y ∧ y.bytes = codes t := by
  obtain ⟨r, hr⟩ := ht
  obtain ⟨h, hc, -⟩ := loop_eq (l := [0] ++ r) (m := 8) hl
  rw [← List.append_assoc, hr] at h
  exact ⟨⟨codes t, hc⟩, by rw [ds18b20CodeToArray, h]; exact write_whole hc, rfl⟩

theorem serialnum_parse {x : Buffer 8}
    (h : ds18b20CodeToArray n s.tb (s.ram.vars (.code k)) = some x) :
    (serialnum k).parse atof n s = some ({ s with ram := s.ram.set (.code k) x }.eeWrite
      (0x100 * (k.val + 1) + eeSensorCode) x.bytes) := by
  simp only [serialnum, Cmd.parse, h]
  rfl

theorem codes_of_upper (h : XmlParser.Text (xmlTag "SERIALNUM") b.bytes t)
    (hc : t = [] ∨ t.length = 16 ∧ ∀ c ∈ t, Upper c) : Codes atof b k t s := by
  obtain ⟨tb, ht⟩ : ∃ tb, s.tb.strcpy t = some tb := Buffer.strcpy_eq_some <| by
    obtain rfl | ⟨hl, _⟩ := hc
    · decide
    · omega
  have he : (serialnum k).exec atof b s = _ := serialnum_exec h
  rw [ht, Option.bind_some] at he
  obtain rfl | ⟨hl, hu⟩ := hc
  case inl =>
    exact ⟨{ s with tb }, [], he, fun _ hx => absurd hx.length <| by decide, fun _ => ⟨rfl, rfl⟩⟩
  case inr =>
    have hn : t ≠ [] := by rintro rfl; exact absurd hl <| by decide
    obtain ⟨y, hy, hb⟩ := @codeToArray_eq t tb (s.ram.vars (.code k)) (Buffer.strcpy_prefix ht) hl
    rw [if_neg hn, serialnum_parse hy] at he
    have hd : ∀ c ∈ t, isXDigit c := fun c hc => (upper_iff c |>.mp <| hu c hc).1
    have hp : codes t = pairs t := codes_eq_iff (m := 8) hl hd |>.mpr hu
    refine ⟨_, _, he, fun x hx => ?_, fun hx => absurd ⟨y, hl, hd, hb.trans hp⟩ hx⟩
    have hxy : y = x :=
      Buffer.eq_of_bytes <| hb.trans <| hp.trans hx.value.symm
    subst hxy
    exact ⟨Ram.set_self, read_code y⟩

-- A text that is not empty is written over the code.
theorem serialnum_written (h : XmlParser.Text (xmlTag "SERIALNUM") b.bytes t) (hn : t ≠ [])
    (he : (serialnum k).exec atof b s = some (s₁, o)) : ∃ tb d y, s.tb.strcpy t = some tb ∧
      ds18b20CodeToArray.loop t.length tb.bytes = some d ∧
      (s.ram.vars (.code k)).write 0 d = some y ∧ s₁.ram.vars (.code k) = y := by
  rw [serialnum_exec h, Option.bind_eq_some_iff] at he
  obtain ⟨tb, ht, he⟩ := he
  rw [if_neg hn] at he
  simp only [serialnum, Cmd.parse, ds18b20CodeToArray, Option.bind_eq_bind,
    Option.bind_eq_some_iff, Option.some.injEq] at he
  obtain ⟨y, ⟨d, hd, hw⟩, he⟩ := he
  cases he
  exact ⟨tb, d, y, ht, hd, hw, Ram.set_self⟩

-- A code is stored as the parser reads it.
theorem Code.stored (hx : Code t x) (h : XmlParser.Text (xmlTag "SERIALNUM") b.bytes t)
    (he : (serialnum k).exec atof b s = some (s₁, o)) :
    (s₁.ram.vars (.code k)).bytes = codes t := by
  have hn : t ≠ [] := by rintro rfl; exact absurd hx.length <| by decide
  obtain ⟨tb, d, y, ht, hd, hw, rfl⟩ := serialnum_written h hn he
  obtain ⟨r, hr⟩ := Buffer.strcpy_prefix ht
  obtain ⟨hc₁, hc₂, -⟩ := loop_eq (l := [0] ++ r) (m := 8) hx.length
  rw [← List.append_assoc, hr] at hc₁
  cases hd.symm.trans hc₁
  rw [Option.some.inj <| hw.symm.trans <| write_whole hc₂]

theorem upper_of_codes (h : XmlParser.Text (xmlTag "SERIALNUM") b.bytes t)
    (hc : ∀ s, Codes atof b k t s) : t = [] ∨ t.length = 16 ∧ ∀ c ∈ t, Upper c := by
  refine or_iff_not_imp_left.mpr fun hn => ?_
  obtain ⟨s₁, o, he, hx, -⟩ := hc <| .reset fun _ => 0
  by_cases hx₁ : ∃ x, Code t x
  case pos =>
    obtain ⟨x, hx₁⟩ := hx₁
    have hb := hx₁.stored h he
    rw [(hx x hx₁).1] at hb
    exact ⟨hx₁.length, codes_eq_iff (m := 8) hx₁.length hx₁.digits |>.mp <| hb.symm.trans hx₁.value⟩
  case neg =>
    obtain ⟨tb, d, y, ht, hd, hw, hy⟩ := serialnum_written h hn he
    -- a code whose first byte is another one than the parser makes of the text
    obtain ⟨n, hl⟩ := Nat.exists_eq_add_one.mpr <| List.length_pos_iff.mpr hn
    obtain ⟨a, d, rfl⟩ := List.exists_cons_of_ne_nil <| loop_ne_nil (hl ▸ hd)
    let z : Buffer 8 := ⟨List.replicate 8 (a + 1), rfl⟩
    let s : State := .reset fun _ => 0
    obtain ⟨s₂, o, he, -, hu⟩ := hc { s with ram := s.ram.set (.code k) z }
    obtain ⟨tb₂, d₂, y₂, ht₂, hd₂, hw₂, hy₂⟩ := serialnum_written h hn he
    cases ht.symm.trans ht₂
    cases hd.symm.trans hd₂
    rw [(hu hx₁).1, Ram.set_self] at hy₂
    rw [Ram.set_self] at hw₂
    have hb := Buffer.write_bytes hw₂
    rw [← hy₂] at hb
    have hh : a + 1 = a := by simpa [z] using congrArg List.head? hb
    exact absurd hh <| succ_ne a

theorem hextoascii_digits : Percent.Digits Pages.hexDigit :=
  .of_nibbles <| by decide

theorem hexDigit_upper : ∀ c : UInt8, Upper (Pages.hexDigit (c >>> 4)) ∧ Upper (Pages.hexDigit (c &&& 15)) :=
  forall_nibble (P := fun c => Upper (Pages.hexDigit c)) <| by decide

theorem hextoascii_upper (h : c ∈ Pages.hextoascii d) : Upper c := by
  obtain ⟨h₁, h₂⟩ := hexDigit_upper d
  simp only [Pages.hextoascii, List.mem_cons, List.not_mem_nil, or_false] at h
  obtain rfl | rfl := h
  · exact h₁
  · exact h₂

theorem pairs_hextoascii : pairs (t.flatMap Pages.hextoascii) = t := by
  induction t with
  | nil => rfl
  | cons c t ih =>
    rw [List.flatMap_cons, Pages.hextoascii]
    simp only [List.cons_append, List.nil_append, pairs, ih, hextoascii_digits.value_eq]

-- The code that is printed is read back, and a code is stored and nothing else, exactly if the text is
-- empty or consists of sixteen digits without those of the lower case.
theorem code_law (h : XmlParser.Text (xmlTag "SERIALNUM") b.bytes t) :
    ((∀ s, Codes atof b k t s) ↔ t = [] ∨ t.length = 16 ∧ ∀ c ∈ t, Upper c) ∧
    ∀ x : Buffer 8, Code (x.bytes.flatMap Pages.hextoascii) x ∧
      ∀ c ∈ x.bytes.flatMap Pages.hextoascii, Upper c := by
  refine ⟨⟨upper_of_codes h, fun hc _ => codes_of_upper h hc⟩, fun x => ?_⟩
  have hu : ∀ c ∈ x.bytes.flatMap Pages.hextoascii, Upper c := by
    intro c hc
    obtain ⟨_, _, hc⟩ := List.mem_flatMap.mp hc
    exact hextoascii_upper hc
  refine ⟨⟨?_, fun c hc => (upper_iff c |>.mp <| hu c hc).1, pairs_hextoascii.symm⟩, hu⟩
  simp [List.length_flatMap, Pages.hextoascii, x.length_eq]

def printed : Bytes :=
  ascii "28FF641E8C160450"

theorem code_law_printed :
    ((∀ s, Codes (fun _ => 0) (posting (xmlTag "SERIALNUM") printed) 0 printed s) ↔
      printed = [] ∨ printed.length = 16 ∧ ∀ c ∈ printed, Upper c) ∧
    ∀ x : Buffer 8, Code (x.bytes.flatMap Pages.hextoascii) x ∧
      ∀ c ∈ x.bytes.flatMap Pages.hextoascii, Upper c :=
  code_law (posting_text (by decide))

def lower : Bytes :=
  ascii "28ff641e8c160450"

def lowerCode : Buffer 8 :=
  ⟨pairs lower, rfl⟩

theorem code_lower : Code lower lowerCode :=
  ⟨rfl, by decide +kernel, rfl⟩

-- Of the digits in lower case the parser makes zeros.
theorem code_lower_case : ¬∀ b t s, XmlParser.Text (xmlTag "SERIALNUM") b.bytes t →
    Codes (fun _ => 0) b 0 t s := by
  intro h
  have ht : XmlParser.Text (xmlTag "SERIALNUM") (posting (xmlTag "SERIALNUM") lower).bytes lower :=
    posting_text <| by decide
  obtain ⟨s₁, o, he, hx, -⟩ := h _ _ (.reset fun _ => 0) ht
  have hs := code_lower.stored ht he
  rw [(hx lowerCode code_lower).1] at hs
  exact absurd hs <| by decide +kernel

end Config
