import Webtermo.Objects.Numbers
import Webtermo.Execution.Config.Theorems.Absent
import Webtermo.Execution.Config.Theorems.Posted

open Define Decimal Numbers

namespace Config

-- What the numbers of a setting are
inductive Format
  | word
  | limit
  | channel
  | byte
  deriving DecidableEq

def Cmd.format : Cmd → Option Format
  | .int .. | .int16 ..               => some .word
  | .temp _ _ (some (.lowLimit _))    => some .limit
  | .temp _ _ (some (.highLimit _))   => some .limit
  | .temp _ _ (some (.kanal _))       => some .channel
  | .temp .. | .zona ..               => some .byte
  | _                                 => none

namespace Format

def Range : Format → Int → Prop
  | word,    n => 0 ≤ n ∧ n ≤ 65535
  | limit,   n => -128 ≤ n ∧ n ≤ 127
  | channel, n => 1 ≤ n ∧ n ≤ 4
  | byte,    n => 0 ≤ n ∧ n ≤ 255

-- What `EEread_16` or `EEread_8` returns, as the type of the setting has it
def read : Format → Memory → Nat → Int
  | word,  m, a => (eeRead16 m a).toNat
  | limit, m, a => (m a).toInt8.toInt
  | _,     m, a => (m a).toNat

def size : Format → Nat
  | word => 2
  | _    => 1

-- A decimal number as a text. Only the numbers of a limit have a sign.
inductive Denotes (f : Format) : Bytes → Int → Prop
  | plain (hn : d ≠ []) (hd : Digits d) : Denotes f d (value d)
  | minus (hf : f = limit) (hn : d ≠ []) (hd : Digits d) : Denotes f (45 :: d) (-value d)

structure Number (f : Format) (t : Bytes) (n : Int) : Prop where
  denotes : f.Denotes t n
  range   : f.Range n

-- The texts for which the parsers do what they are to do: a text for two bytes has no more digits in
-- front than `intBuf` has places, and is not a number of six digits or one that is too large. A text
-- for one byte is empty or a number.
def Admits (f : Format) (t : Bytes) : Prop :=
  t.length < 130 ∧
  match f with
  | word => (t.takeWhile isDigit).length ≤ 6 ∧ (Digits t → t.length ≤ 5 ∧ value t ≤ 65535)
  | _    => t = [] ∨ ∃ n, f.Number t n

end Format

-- What a command is to do with a text
def Settles (atof : Bytes → UInt32) (b : Body) (c : Cmd) (f : Format) (a : Nat) (t : Bytes) (s : State) :
    Prop :=
  ∃ s₁ o, c.exec atof b s = some (s₁, o) ∧
    (∀ n, f.Number t n → f.read s₁.eeprom a = n ∧
      ∀ v ∈ c.var, v.encode (s₁.ram.vars v) = s₁.eeprom.read a f.size) ∧
    ((¬∃ n, f.Number t n) → s₁.eeprom = s.eeprom ∧ s₁.ram = s.ram)

-- The bytes that a command makes of the text in `tb`
def Cmd.digits (c : Cmd) (varlen : Nat) (tb : Tb) : Option (Option Bytes) :=
  match c with
  | .int .. | .int16 .. => (intToFile varlen tb).map (·.map fun (a, b) => [a, b])
  | .temp ..            => (getTemp varlen tb).map fun (x, _) => some [x]
  | .zona ..            => some <| some [(atoi tb.bytes % 256).toNat.toUInt8]
  | _                   => none

-- What a command leaves that has written these bytes or none
def Cmd.Saved (c : Cmd) (a : Nat) (s s₁ : State) : Option Bytes → Prop
  | none   => s₁.eeprom = s.eeprom ∧ s₁.ram = s.ram
  | some d => s₁.eeprom = s.eeprom.writePage 64 a d ∧ ∀ v ∈ c.var, v.encode (s₁.ram.vars v) = d

variable {atof : Bytes → UInt32} {b : Body} {c : Cmd} {h : Handler} {s s₁ : State} {m : Memory}
variable {f : Format} {t d l : Bytes} {tb : Tb} {x y : UInt8} {a : Nat} {n : Int}

-- What a handler is to do with it, whatever the texts of its other tags are
def Kept (atof : Bytes → UInt32) (b : Body) (h : Handler) (f : Format) (a : Nat) (t : Bytes)
    (s : State) : Prop :=
  ∀ s₁ o, (handler atof b).run s h.cmds = some (s₁, o) →
    (handler atof b).Guarded (fun s c => c.Fits b s) s h.cmds →
    (∀ n, f.Number t n → f.read s₁.eeprom a = n) ∧
    ((¬∃ n, f.Number t n) → f.read s₁.eeprom a = f.read s.eeprom a)

theorem bytes16_pair : bytes16 (x.toUInt16 * 256 + y.toUInt16) = [x, y] := by
  have h₁ := x.toNat_lt
  have h₂ := y.toNat_lt
  have h : (x.toUInt16 * 256 + y.toUInt16).toNat = 256 * x.toNat + y.toNat := by
    simp
    omega
  simp only [bytes16, List.cons.injEq, and_true, ← UInt8.toNat_inj]
  simp [h, Nat.shiftRight_eq_div_pow]
  omega

theorem save8_saved {c : Cmd} {w : Option Var8} (hv : c.var = w.map .u8) (h : s.save8 a w x = (s₁, o)) :
    c.Saved a s s₁ (some [x]) := by
  cases w with
  | none =>
    cases h
    exact ⟨rfl, fun v hm => by simp [hv] at hm⟩
  | some w =>
    cases h
    refine ⟨rfl, fun v hm => ?_⟩
    obtain rfl : Var.u8 w = v := by simpa [hv] using hm
    exact congrArg (fun x => [x]) Ram.set_self

theorem parse_digits (hf : c.format = some f) (ha : c.addr = some a) :
    (c.digits k s.tb = none → c.parse atof k s = none) ∧
    ∀ d, c.digits k s.tb = some d → ∃ s₁ o, c.parse atof k s = some (s₁, o) ∧ c.Saved a s s₁ d := by
  cases c with
  | int g a₁ | int16 g a₁ v =>
    cases ha
    simp only [Cmd.digits, Cmd.parse, Option.map_eq_none_iff, Option.map_eq_some_iff]
    refine ⟨fun h => by simp [h], ?_⟩
    rintro d ⟨p, hp, rfl⟩
    cases p with
    | none => exact ⟨s, [], by simp [hp], rfl, rfl⟩
    | some p =>
      obtain ⟨x, y⟩ := p
      obtain ⟨pb, hw⟩ : ∃ pb, s.pb.write 0 [x, y] = some pb := Buffer.write_eq_some <| by simp
      simp only [hp, Option.bind_eq_bind, Option.bind_some, hw]
      refine ⟨_, _, rfl, ?_, ?_⟩
      · simp [bytes16_pair]
      · simp [Cmd.var, Var.encode, bytes16_pair]
  | temp g a₁ v =>
    cases ha
    simp only [Cmd.digits, Cmd.parse, Option.map_eq_none_iff, Option.map_eq_some_iff]
    refine ⟨fun h => by simp [h], ?_⟩
    rintro d ⟨⟨x, tb⟩, hp, rfl⟩
    simp only [hp, Option.bind_eq_bind, Option.bind_some]
    refine ⟨_, _, rfl, save8_saved (s := { s with tb }) ?_ rfl⟩
    cases v <;> rfl
  | zona g a₁ =>
    cases ha
    refine ⟨fun h => absurd h (Option.some_ne_none _), ?_⟩
    rintro d ⟨⟩
    exact ⟨_, _, rfl, rfl, fun v hv => absurd hv.symm (Option.some_ne_none _)⟩
  | _ => cases hf

theorem exec_format (hc : c ∈ h.cmds) (hf : c.format = some f) (ht : c.tag = some g)
    (hp : XmlParser.Text g b.bytes t) : c.exec atof b s = (s.tb.strcpy t).bind fun tb =>
      if t = [] then some ({ s with tb }, []) else c.parse atof t.length { s with tb } := by
  refine exec_posted hc ht ?_ hp
  rintro t a rfl
  cases hf

theorem exec_digits (hc : c ∈ h.cmds) (hf : c.format = some f) (ht : c.tag = some g)
    (ha : c.addr = some a) (hp : XmlParser.Text g b.bytes t) (hn : t ≠ [])
    (hs : s.tb.strcpy t = some tb) :
    (c.digits t.length tb = none → c.exec atof b s = none) ∧ ∀ d, c.digits t.length tb = some d →
      ∃ s₁ o, c.exec atof b s = some (s₁, o) ∧ c.Saved a s s₁ d := by
  rw [exec_format hc hf ht hp, hs, Option.bind_some, if_neg hn]
  exact parse_digits (s := { s with tb }) hf ha

-- Two bytes

theorem intToFile_eq (h : t ++ [0] <+: tb.bytes) : intToFile t.length tb =
    if 6 < (t.takeWhile isDigit).length then none
    else if (t.takeWhile isDigit).length < t.length then some none
    else if (t.takeWhile isDigit).length = 6 then none
    else some <| some ((atoiDigits t / 256).toUInt8, (atoiDigits t % 256).toUInt8) := by
  obtain ⟨r, hr⟩ := h
  have ht : tb.bytes.take t.length = t := by
    rw [← hr, List.append_assoc]
    exact List.take_left
  simp only [intToFile, ht]
  by_cases hd : (t.takeWhile isDigit).length < t.length
  case pos => simp only [hd, if_true]
  case neg => rw [takeWhile_all <| Numbers.digits_iff.mpr <| Nat.le_of_not_lt hd]

theorem word_number_iff : Format.word.Number t n ↔
    t ≠ [] ∧ Digits t ∧ value t ≤ 65535 ∧ n = value t := by
  constructor
  case mp =>
    rintro ⟨hd, hr⟩
    cases hd with
    | plain hn hd => exact ⟨hn, hd, by simpa [Format.Range] using hr, rfl⟩
    | minus hf => exact nomatch hf
  case mpr =>
    rintro ⟨hn, hd, hr, rfl⟩
    exact ⟨.plain hn hd, by simpa [Format.Range] using hr⟩

theorem eeRead16_pair (h : k ≤ 65535) (hp : Memory.InPage 64 a 2) :
    (eeRead16 (m.writePage 64 a [(k / 256).toUInt8, (k % 256).toUInt8]) a).toNat = k := by
  have h₀ := Memory.writePage_get (m := m) (d := [(k / 256).toUInt8, (k % 256).toUInt8]) (i := 0) hp (by simp)
  have h₁ := Memory.writePage_get (m := m) (d := [(k / 256).toUInt8, (k % 256).toUInt8]) (i := 1) hp (by simp)
  rw [Nat.add_zero] at h₀
  rw [eeRead16, h₀, h₁]
  simp [Nat.shiftLeft_eq]
  omega

-- One byte

theorem getTemp_loop_digit (hx : Digit x) :
    getTemp.loop (k + 1) (x :: l) e p = getTemp.loop k l (e ++ [x]) p := by
  have hm : x ≠ 45 := by
    rintro rfl
    exact absurd hx <| by decide
  cases l <;> simp [getTemp.loop, hm, isDigit_iff.mpr hx]

theorem getTemp_loop_digits (hd : Digits d) :
    getTemp.loop d.length (d ++ l) e p = some (e ++ d, p, true) := by
  induction d generalizing e with
  | nil => simp [getTemp.loop]
  | cons c d ih =>
    obtain ⟨hc, hd⟩ := List.forall_mem_cons.mp hd
    rw [List.length_cons, List.cons_append, getTemp_loop_digit hc, ih hd, List.append_assoc]
    rfl

theorem getTemp_digits (hd : Digits d) (h : d ++ [0] <+: tb.bytes) :
    ∃ tb₁, getTemp d.length tb = some ((atoiDigits d).toUInt8, tb₁) := by
  obtain ⟨r, hr⟩ := h
  have hl : d.length < 130 := by
    have := congrArg List.length hr
    simp only [List.length_append, List.length_singleton, tb.length_eq] at this
    omega
  obtain ⟨tb₁, ht⟩ := Buffer.strcpy_eq_some (b := tb) hl
  have hg : getTemp.loop d.length tb.bytes [] false = some (d, false, true) := by
    rw [← hr, List.append_assoc]
    exact getTemp_loop_digits hd
  exact ⟨tb₁, by simp [getTemp, hg, ht]⟩

theorem getTemp_minus (hn : d ≠ []) (hd : Digits d) (h : 45 :: d ++ [0] <+: tb.bytes) :
    ∃ tb₁, getTemp (45 :: d).length tb = some (0xFF - (atoiDigits d).toUInt8 + 1, tb₁) := by
  obtain ⟨r, hr⟩ := h
  have hl : d.length < 130 := by
    have := congrArg List.length hr
    simp only [List.length_append, List.length_cons, List.length_nil, tb.length_eq] at this
    omega
  obtain ⟨tb₁, ht⟩ := Buffer.strcpy_eq_some (b := tb) hl
  obtain ⟨c, d, rfl⟩ := List.exists_cons_of_ne_nil hn
  obtain ⟨hc, hd⟩ := List.forall_mem_cons.mp hd
  have hg : getTemp.loop (45 :: c :: d).length tb.bytes [] false = some (c :: d, true, true) := by
    have := getTemp_loop_digits (l := [0] ++ r) (e := [c]) (p := true) hd
    rw [← hr, List.append_assoc]
    simpa [getTemp.loop, isDigit_iff.mpr hc] using this
  exact ⟨tb₁, by simp only [getTemp, hg, Option.bind_eq_bind, Option.bind_some, if_true, ht]⟩

theorem minus_toInt8 {k : Nat} (h : k ≤ 128) : (0xFF - k.toUInt8 + 1).toInt8.toInt = -(k : Int) := by
  have : ∀ k : Fin 129, (0xFF - k.val.toUInt8 + 1).toInt8.toInt = -(k.val : Int) := by decide +kernel
  exact this ⟨k, Nat.lt_succ_of_le h⟩

theorem plain_toInt8 {k : Nat} (h : k ≤ 127) : k.toUInt8.toInt8.toInt = k := by
  have : ∀ k : Fin 128, k.val.toUInt8.toInt8.toInt = (k.val : Int) := by decide +kernel
  exact this ⟨k, Nat.lt_succ_of_le h⟩

theorem format_temp {v : Option Var8} : (Cmd.temp g a v).format ≠ some .word := by
  match v with
  | none   => exact nofun
  | some v => cases v <;> exact nofun

theorem Format.size_eq (hf : f ≠ .word) : f.size = 1 := by
  cases f with
  | word => exact absurd rfl hf
  | limit | channel | byte => rfl

theorem Format.Range.bounds (h : f.Range n) : -65535 ≤ n ∧ n ≤ 65535 := by
  cases f <;> simp only [Range] at h <;> omega

theorem read_plain {k : Nat} (hf : f ≠ .word) (hr : f.Range k) (h : m a = k.toUInt8) :
    f.read m a = k := by
  cases f with
  | word => exact absurd rfl hf
  | limit =>
    simp only [Format.Range] at hr
    rw [Format.read, h, plain_toInt8 <| by omega]
  | channel | byte =>
    simp only [Format.Range] at hr
    simp [Format.read, h]
    omega

theorem read_minus {k : Nat} (hr : Format.limit.Range (-k)) (h : m a = 0xFF - k.toUInt8 + 1) :
    Format.limit.read m a = -k := by
  simp only [Format.Range] at hr
  rw [Format.read, h, minus_toInt8 <| by omega]

theorem writePage_byte (hp : Memory.InPage 64 a 1) : m.writePage 64 a [x] a = x :=
  Memory.writePage_get (m := m) (d := [x]) (i := 0) hp Nat.zero_lt_one

-- A number is read back from the bytes that are made of it.
theorem number_digits (hf : c.format = some f) (h : t ++ [0] <+: tb.bytes) (hn : f.Number t n)
    (hl : f = .word → t.length ≤ 5) : ∃ d, c.digits t.length tb = some (some d) ∧ d.length = f.size ∧
      ∀ (m : Memory) a, Memory.InPage 64 a f.size → f.read (m.writePage 64 a d) a = n := by
  cases c with
  | int | int16 =>
    cases hf
    obtain ⟨-, hd, hv, rfl⟩ := word_number_iff.mp hn
    have hl := hl rfl
    refine ⟨[(value t / 256).toUInt8, (value t % 256).toUInt8], ?_, rfl, fun m a hp => ?_⟩
    · have h₁ : ¬6 < t.length := by omega
      have h₂ : t.length ≠ 6 := by omega
      simp [Cmd.digits, intToFile_eq h, takeWhile_all hd, h₁, h₂, atoiDigits_eq hd hl]
    · exact congrArg Int.ofNat <| eeRead16_pair hv hp
  | temp g a₁ v =>
    have hw : f ≠ .word := by
      rintro rfl
      exact format_temp hf
    have hs := Format.size_eq hw
    obtain ⟨hd, hr⟩ := hn
    have hb := hr.bounds
    cases hd with
    | plain hn hd =>
      obtain ⟨tb₁, hg⟩ := getTemp_digits hd h
      rw [atoiDigits_of_lt (by omega)] at hg
      refine ⟨[(value t).toUInt8], by simp [Cmd.digits, hg], hs.symm, fun m a hp => ?_⟩
      exact read_plain hw hr <| writePage_byte (hs ▸ hp)
    | minus hf hn hd =>
      subst hf
      obtain ⟨tb₁, hg⟩ := getTemp_minus hn hd h
      rw [atoiDigits_of_lt (by omega)] at hg
      exact ⟨_, by rw [Cmd.digits, hg]; rfl, rfl, fun m a hp => read_minus hr <| writePage_byte hp⟩
  | zona =>
    cases hf
    obtain ⟨hd, hr⟩ := hn
    cases hd with
    | plain hn hd =>
      obtain ⟨r, ht⟩ := h
      have hv : value t < 256 := by
        simp only [Format.Range] at hr
        omega
      have ha : atoi tb.bytes = value t := by
        rw [← ht, List.append_assoc]
        exact (atoi_digits hd hn <| by decide).trans <| congrArg _ <| atoiDigits_of_lt <| by omega
      refine ⟨[(value t).toUInt8], ?_, rfl, fun m a hp => ?_⟩
      · have : ((value t : Int) % 256).toNat = value t := by omega
        rw [Cmd.digits, ha, this]
      · exact read_plain (nofun) hr <| writePage_byte hp
    | minus hf => exact nomatch hf
  | _ => cases hf

theorem Handler.holds (hc : c ∈ h.cmds) (ha : c.addr = some a) (hf : c.format = some f) :
    Slots.Holds Eeprom.fields Eeprom.size Eeprom.page a f.size := by
  have hs : c.size = some f.size := by
    cases c with
    | temp g a v =>
      match v with
      | none   => cases hf; rfl
      | some v => cases v <;> cases hf <;> rfl
    | int | int16 | zona =>
      cases hf
      rfl
    | _ => cases hf
  have hl := ((h.placed hc ha).fixed _ hs).1
  exact Slots.holds_iff (by decide) |>.mpr hl

-- A command that writes the same bytes whatever the EEPROM holds changes the setting for some text that
-- is no number.
theorem number_of_settles (hc : c ∈ h.cmds) (hf : c.format = some f) (ht : c.tag = some g)
    (ha : c.addr = some a) (hp : XmlParser.Text g b.bytes t) (hn : t ≠ [])
    (hs : ∀ s, Settles atof b c f a t s) (hb : s.tb.strcpy t = some tb)
    (hd : c.digits t.length tb = some (some d)) (hl : d.length = f.size) : ∃ n, f.Number t n := by
  by_contra hx
  have hq : Memory.InPage 64 a f.size := (h.holds hc ha hf).inPage
  obtain ⟨x, d, rfl⟩ : ∃ x e, d = x :: e := by
    refine List.exists_cons_of_ne_nil ?_
    rintro rfl
    cases f <;> cases hl
  let s₀ : State := { s with eeprom := fun _ => x + 1 }
  obtain ⟨s₁, o, he, hw, -⟩ := (exec_digits (s := s₀) hc hf ht ha hp hn hb).2 _ hd
  obtain ⟨s₂, o₂, he₂, -, hu⟩ := hs s₀
  cases he.symm.trans he₂
  have h₁ : s₁.eeprom a = x := by
    rw [hw]
    exact Memory.writePage_get (d := x :: d) (i := 0) (hl ▸ hq) <| Nat.succ_pos _
  have h₂ : s₁.eeprom a = x + 1 := congrFun (hu hx).1 a
  exact succ_ne x <| h₂.symm.trans h₁

theorem digits_byte {d : Option Bytes} (hf : c.format = some f) (hw : f ≠ .word)
    (h : c.digits k tb = some d) : ∃ x, d = some [x] := by
  cases c with
  | int | int16 =>
    cases hf
    exact absurd rfl hw
  | temp =>
    obtain ⟨x, -, rfl⟩ := Option.map_eq_some_iff.mp h
    exact ⟨x.1, rfl⟩
  | zona =>
    cases h
    exact ⟨_, rfl⟩
  | _ => cases h

theorem word_digits (hf : c.format = some .word) (h : t ++ [0] <+: tb.bytes) :
    (c.digits t.length tb).isSome → (t.takeWhile isDigit).length ≤ 6 ∧
      (Digits t → t.length ≤ 5 ∧ ∃ d, c.digits t.length tb = some (some d) ∧ d.length = 2) := by
  cases c with
  | int | int16 =>
    simp only [Cmd.digits, intToFile_eq h, Option.isSome_map]
    intro hs
    split at hs
    case isTrue => cases hs
    case isFalse h₁ =>
      refine ⟨Nat.le_of_not_lt h₁, fun hd => ?_⟩
      rw [takeWhile_all hd] at h₁ hs ⊢
      simp only [lt_self_iff_false, if_false] at hs ⊢
      split at hs
      case isTrue => cases hs
      case isFalse h₂ =>
        rw [if_neg h₁, if_neg h₂]
        exact ⟨by omega, _, rfl, rfl⟩
  | temp => exact absurd hf format_temp
  | _ => cases hf

theorem word_skipped (hf : c.format = some .word) (h : t ++ [0] <+: tb.bytes)
    (hl : (t.takeWhile isDigit).length ≤ 6) (hd : ¬Digits t) :
    c.digits t.length tb = some none := by
  cases c with
  | int | int16 =>
    have h₁ := mt Numbers.digits_iff.mpr hd
    rw [Cmd.digits, intToFile_eq h, if_neg (by omega), if_pos (by omega)]
    rfl
  | temp => exact absurd hf format_temp
  | _ => cases hf

theorem settles_of_admits (hc : c ∈ h.cmds) (hf : c.format = some f) (ht : c.tag = some g)
    (ha : c.addr = some a) (hp : XmlParser.Text g b.bytes t) (hm : f.Admits t) :
    Settles atof b c f a t s := by
  obtain ⟨hl, hm⟩ := hm
  obtain ⟨tb, hb⟩ := Buffer.strcpy_eq_some (b := s.tb) hl
  have hq : Memory.InPage 64 a f.size := (h.holds hc ha hf).inPage
  have hx := Buffer.strcpy_prefix hb
  by_cases hn : t = []
  case pos =>
    refine ⟨{ s with tb }, [], ?_, ?_, fun _ => ⟨rfl, rfl⟩⟩
    · rw [exec_format hc hf ht hp, hb, Option.bind_some, if_pos hn]
    · rintro n ⟨hd, -⟩
      cases hd with
      | plain h => exact absurd hn h
      | minus => cases hn
  case neg =>
    have he : ∀ d, c.digits t.length tb = some d →
        ∃ s₁ o, c.exec atof b s = some (s₁, o) ∧ c.Saved a s s₁ d :=
      (exec_digits hc hf ht ha hp hn hb).2
    by_cases hd : ∃ n, f.Number t n
    case pos =>
      have hl : f = .word → t.length ≤ 5 := by
        rintro rfl
        obtain ⟨_, hd⟩ := hd
        exact (hm.2 (word_number_iff.mp hd).2.1).1
      obtain ⟨n, hd⟩ := hd
      obtain ⟨d, hd, hs, -⟩ := number_digits hf hx hd hl
      obtain ⟨s₁, o, he, hw, hv⟩ := he _ hd
      refine ⟨s₁, o, he, fun n₁ hn₁ => ?_, fun h => absurd ⟨n, ‹_›⟩ h⟩
      obtain ⟨d₁, hd₁, -, hr⟩ := number_digits hf hx hn₁ hl
      cases hd.symm.trans hd₁
      rw [hw]
      exact ⟨hr _ _ hq, fun v h => (hv v h).trans <| hs ▸ (Memory.read_writePage (hs ▸ hq)).symm⟩
    case neg =>
      have hd₁ : c.digits t.length tb = some none := by
        cases f with
        | word =>
          refine word_skipped hf hx hm.1 fun hd₁ => hd ⟨_, word_number_iff.mpr ⟨hn, hd₁, ?_, rfl⟩⟩
          exact (hm.2 hd₁).2
        | limit | channel | byte => exact absurd (hm.resolve_left hn) hd
      obtain ⟨s₁, o, he, hu⟩ := he _ hd₁
      exact ⟨s₁, o, he, fun n hn => absurd ⟨n, hn⟩ hd, fun _ => hu⟩

theorem admits_of_settles (hc : c ∈ h.cmds) (hf : c.format = some f) (ht : c.tag = some g)
    (ha : c.addr = some a) (hp : XmlParser.Text g b.bytes t) (hs : ∀ s, Settles atof b c f a t s) :
    f.Admits t := by
  let s : State := .reset fun _ => 0
  obtain ⟨s₁, o, he, -⟩ := hs s
  rw [exec_format hc hf ht hp, Option.bind_eq_some_iff] at he
  obtain ⟨tb, hb, he⟩ := he
  refine ⟨Buffer.strcpy_isSome_iff.mp <| Option.isSome_of_eq_some hb, ?_⟩
  by_cases hn : t = []
  case pos =>
    subst hn
    cases f with
    | word => simp [value]
    | limit | channel | byte => exact .inl rfl
  case neg =>
    have hx := Buffer.strcpy_prefix hb
    have hd : (c.digits t.length tb).isSome := by
      by_contra hd
      rw [if_neg hn, (parse_digits (s := { s with tb }) hf ha).1 <| by simpa using hd] at he
      cases he
    have hw : ∀ d, c.digits t.length tb = some (some d) → d.length = f.size → ∃ n, f.Number t n :=
      fun d => number_of_settles hc hf ht ha hp hn hs hb
    by_cases hf₁ : f = .word
    case pos =>
      subst hf₁
      obtain ⟨h₁, h₂⟩ := word_digits hf hx hd
      refine ⟨h₁, fun hd₁ => ?_⟩
      obtain ⟨h₃, d, hd₂, hl⟩ := h₂ hd₁
      obtain ⟨n, hd₂⟩ := hw d hd₂ hl
      exact ⟨h₃, (word_number_iff.mp hd₂).2.2.1⟩
    case neg =>
      obtain ⟨d, hd⟩ := Option.isSome_iff_exists.mp hd
      obtain ⟨x, rfl⟩ := digits_byte hf hf₁ hd
      obtain ⟨n, hd⟩ := hw _ hd (Format.size_eq hf₁).symm
      cases f with
      | word => exact absurd rfl hf₁
      | limit | channel | byte => exact .inr ⟨n, hd⟩

theorem Format.read_congr {m₁ : Memory} (h : ∀ i < f.size, m₁ (a + i) = m (a + i)) :
    f.read m₁ a = f.read m a := by
  have h₀ := h 0 <| by cases f <;> decide
  rw [Nat.add_zero] at h₀
  cases f with
  | word => simp only [read, eeRead16, h₀, h 1 <| by decide]
  | limit | channel | byte => simp only [read, h₀]

-- Only the command of a setting writes to it.
theorem kept_of_settles (hc : c ∈ h.cmds) (hf : c.format = some f) (ha : c.addr = some a)
    (hs : ∀ s, Settles atof b c f a t s) : Kept atof b h f a t s := by
  intro s₁ o hr g
  obtain ⟨p, q, hq⟩ := List.append_of_mem hc
  obtain ⟨s₂, s₃, m⟩ := Around.of_run hr g hq
  obtain ⟨o₁, he, -⟩ := m.exec
  obtain ⟨s₄, o₂, he₁, hn, hu⟩ := hs s₂
  cases he.symm.trans he₁
  have hi : ∀ i < f.size, Eeprom.In a (a + i) := by
    intro i hi
    have hh := h.holds hc ha hf
    exact Memory.pageAddr_eq hh.inPage hi ▸ hh.inSlot i hi
  have hb : f.read s₁.eeprom a = f.read s₃.eeprom a :=
    Format.read_congr fun i h => (m.eeprom ha <| hi i h).2
  have hd : f.read s₂.eeprom a = f.read s.eeprom a :=
    Format.read_congr fun i h => (m.eeprom ha <| hi i h).1
  refine ⟨fun n h => hb.trans (hn n h).1, fun h => hb.trans ?_⟩
  rw [(hu h).1, hd]

-- Exactly the texts that are admitted are stored as their number and leave the setting as it was if they
-- are none, and they do so in any run of their handler.
theorem number_law (hc : c ∈ h.cmds) (hf : c.format = some f) (ht : c.tag = some g)
    (ha : c.addr = some a) (hp : XmlParser.Text g b.bytes t) :
    ((∀ s, Settles atof b c f a t s) ↔ f.Admits t) ∧ (f.Admits t → ∀ s, Kept atof b h f a t s) :=
  ⟨⟨admits_of_settles hc hf ht ha hp, fun hm _ => settles_of_admits hc hf ht ha hp hm⟩,
    fun hm _ => kept_of_settles hc hf ha fun _ => settles_of_admits hc hf ht ha hp hm⟩

theorem number_law_limit :
    ((∀ s, Settles (fun _ => 0) (posting (xmlTag "LOWLIMIT") (ascii "-12"))
      (.temp (xmlTag "LOWLIMIT") (0x100 + eeLowAlarm) (some <| .lowLimit 0)) .limit (0x100 + eeLowAlarm)
      (ascii "-12") s) ↔ Format.limit.Admits (ascii "-12")) ∧
    (Format.limit.Admits (ascii "-12") → ∀ s, Kept (fun _ => 0)
      (posting (xmlTag "LOWLIMIT") (ascii "-12")) (.sensor 0) .limit (0x100 + eeLowAlarm) (ascii "-12") s) :=
  number_law (h := .sensor 0) (by simp [Handler.cmds, sensor]) rfl rfl rfl (posting_text (by decide))

theorem Format.Denotes.head (h : f.Denotes t n) : ∃ x ∈ t.head?, Digit x ∨ x = 45 := by
  cases h with
  | plain hn hd =>
    obtain ⟨x, d, rfl⟩ := List.exists_cons_of_ne_nil hn
    exact ⟨x, rfl, .inl <| (List.forall_mem_cons.mp hd).1⟩
  | minus => exact ⟨45, rfl, .inr rfl⟩

-- A limit is set to 0 by a text that is no number.
theorem limit_of_letters : ¬∀ b t s, XmlParser.Text (xmlTag "LOWLIMIT") b.bytes t →
    Settles (fun _ => 0) b (.temp (xmlTag "LOWLIMIT") (0x100 + eeLowAlarm) (some <| .lowLimit 0)) .limit
      (0x100 + eeLowAlarm) t s := by
  intro h
  have hp : XmlParser.Text (xmlTag "LOWLIMIT") (posting (xmlTag "LOWLIMIT") (ascii "abc")).bytes
    (ascii "abc") := posting_text <| by decide
  obtain ⟨-, ht | ⟨n, hn, -⟩⟩ := admits_of_settles (h := .sensor 0)
    (by simp [Handler.cmds, sensor]) rfl rfl rfl hp fun s => h _ _ s hp
  · exact absurd ht <| by decide
  · exact absurd hn.head <| by decide

end Config
