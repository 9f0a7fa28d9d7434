import Webtermo.Execution.Clock.State
import Webtermo.Execution.Sntp.Theorems
import Webtermo.Objects.Numbers
import Webtermo.Objects.XmlParser

open Calendar
open Sntp (Accepted)

namespace Clock

-- The number that a text of decimal digits stands for
def decimal (t : Bytes) : Nat :=
  Nat.ofDigits 10 <| t.reverse.map fun c => c.toNat - 48

structure Number (b : Body) (tag t : Bytes) (n : Nat) : Prop where
  text   : XmlParser.Text tag b.bytes t
  some   : t ≠ []
  digits : ∀ c ∈ t, isDigit c
  value  : decimal t = n

-- The number that the document has for a variable. Sunday is 0.
def Var.number (c : DateTime) : Var → Nat
  | sat     => c.hour
  | minuta  => c.minute
  | sekunda => c.second
  | datum   => c.date.day
  | dan     => c.date.weekday
  | godina  => c.date.year
  | mjesec  => c.date.month

-- The document denotes an instant.
structure Denotes (b : Body) (c : DateTime) : Prop where
  year    : 2000 ≤ c.date.year ∧ c.date.year ≤ 2099
  numbers : ∀ v : Var, ∃ t, Number b v.tag t (v.number c)

-- The RTC is set to an instant. Its weekdays are those from 1 to 7.
structure Shows (c : DateTime) (r : Rtc) : Prop where
  year    : 2000 + r.date.year.toNat = c.date.year
  month   : r.date.month.toNat = c.date.month
  day     : r.date.date.toNat = c.date.day
  weekday : r.date.weekDay.toNat = if c.date.weekday = 0 then 7 else c.date.weekday
  hours   : r.time.hours.toNat = c.hour
  minutes : r.time.minutes.toNat = c.minute
  seconds : r.time.seconds.toNat = c.second

structure AllOrNothing (b : Body) (r r₁ : Rtc) : Prop where
  all     : ∀ c, Denotes b c → Shows c r₁ ∧ Accepted r₁.date r₁.time
  nothing : (¬∃ c, Denotes b c) → r₁ = r

variable {b : Body} {s s₁ : State} {r r₁ : Rtc} {c : DateTime} {v : Var} {vs : List Var} {tb : Tb}
  {t t₁ : Bytes}

theorem atoiDigits_eq (h : ∀ c ∈ t, isDigit c) (hl : t.length ≤ 5) : atoiDigits t = decimal t :=
  Numbers.atoiDigits_eq (fun c hc => Numbers.isDigit_iff.mp <| h c hc) hl

theorem tag_ne_nil : v.tag ≠ [] := by
  cases v <;> decide +kernel

theorem tag_length : v.tag.length ≤ 30 := by
  cases v <;> decide +kernel

theorem xmlParser_of_text (h : XmlParser.Text v.tag b.bytes t) :
    xmlParser v.tag b tb = (tb.strcpy t).map fun tb => (t.length, tb) :=
  XmlParser.xmlParser_of_text tag_length tag_ne_nil h

theorem text_unique (h : XmlParser.Text v.tag b.bytes t) (h₁ : XmlParser.Text v.tag b.bytes t₁) :
    t = t₁ := by
  have ⟨a, r, hb, hf⟩ := h.first
  have ⟨r₁, ht⟩ := (hb ▸ h₁).unique (hb ▸ hf)
  rw [← XmlParser.takeWhile_split (r := r) h.text, ht, XmlParser.takeWhile_split h₁.text]

-- What `XMLParser` has copied is read as a number.
theorem strcpy_take (h : tb.strcpy t = some tb₁) (hd : ∀ c ∈ t, isDigit c) :
    (tb₁.bytes.take t.length).takeWhile isDigit = t := by
  have hb := Buffer.write_bytes h
  rw [List.take_zero, List.nil_append, List.append_assoc] at hb
  rw [hb, List.take_left, List.takeWhile_eq_self_iff]
  exact hd

theorem intToFile_eq (h : tb.strcpy t = some tb₁) (hd : ∀ c ∈ t, isDigit c) (hl : t.length ≤ 5) :
    intToFile t.length tb₁ =
      some (some ((decimal t / 256).toUInt8, (decimal t % 256).toUInt8)) := by
  have h₁ : ¬6 < t.length := by omega
  have h₂ : t.length ≠ 6 := by omega
  simp only [intToFile, strcpy_take h hd, atoiDigits_eq hd hl, h₁, h₂, Nat.lt_irrefl, if_false]

-- Six digits and more do not fit into `intBuf`.
theorem intToFile_long (h : tb.strcpy t = some tb₁) (hd : ∀ c ∈ t, isDigit c) (hl : 5 < t.length) :
    intToFile t.length tb₁ = none := by
  simp only [intToFile, strcpy_take h hd, Nat.lt_irrefl, if_false]
  split
  case isTrue => rfl
  case isFalse => rw [if_pos (by omega)]

-- What is stored of a number
def Var.stored (n : Nat) : Var → UInt8
  | godina => (n + 48).toUInt8
  | _      => n.toUInt8

namespace Number

variable {n : Nat}

theorem read_eq (h₀ : tb.get 0 = (n / 256).toUInt8) (h₁ : tb.get 1 = (n % 256).toUInt8) :
    v.read tb = v.stored n := by
  rw [← UInt8.toNat_inj]
  cases v with
  | godina =>
    simp only [Var.read, Var.stored, h₀, h₁, UInt16.toNat_toUInt8, UInt16.toNat_sub, UInt16.toNat_add,
      UInt16.toNat_mul, UInt8.toNat_toUInt16, Nat.toUInt8_eq, UInt8.toNat_ofNat', UInt16.reduceToNat]
    omega
  | _ =>
    simp only [Var.read, Var.stored, h₁, Nat.toUInt8_eq, UInt8.toNat_ofNat']
    omega

theorem receive (h : Number b v.tag t n) (hl : t.length ≤ 5) :
    ∃ tb, s.receive b v = .some { vars := Function.update s.vars v (v.stored n), tb } := by
  have ⟨tb₁, h₁⟩ := s.tb.strcpy_eq_some (s := t) (by omega)
  have ⟨tb₂, h₂⟩ : ∃ tb₂, tb₁.write 0 [(decimal t / 256).toUInt8, (decimal t % 256).toUInt8] =
      .some tb₂ := Buffer.write_eq_some (by simp)
  have h₀ : t.length ≠ 0 := mt List.length_eq_zero_iff.mp h.some
  have hr : v.read tb₂ = v.stored n := by
    have g₀ := Buffer.get_write h₂ (i := 0) (by simp)
    have g₁ := Buffer.get_write h₂ (i := 1) (by simp)
    exact read_eq (h.value ▸ g₀) (h.value ▸ g₁)
  refine ⟨tb₂, ?_⟩
  simp only [State.receive, xmlParser_of_text h.text, h₁, Option.map_some, Option.bind_eq_bind,
    Option.bind_some, h₀, if_false, intToFile_eq h₁ h.digits hl, h₂, hr]

theorem receive_long (h : Number b v.tag t n) (hl : 5 < t.length) : s.receive b v = none := by
  have h₀ : t.length ≠ 0 := mt List.length_eq_zero_iff.mp h.some
  rw [State.receive, xmlParser_of_text h.text]
  cases h₁ : s.tb.strcpy t with
  | none => rfl
  | some tb₁ =>
    simp only [Option.map_some, Option.bind_eq_bind, Option.bind_some, h₀, if_false,
      intToFile_long h₁ h.digits hl, Option.bind_none]

end Number

-- The texts that the conversion has room for
def Short (b : Body) : Prop :=
  ∀ (v : Var) t, XmlParser.Text v.tag b.bytes t → t.length ≤ 5

theorem foldlM_receive (vs : List Var) (h : ∀ v : Var, ∃ t, Number b v.tag t (v.number c) ∧ t.length ≤ 5) :
    ∃ s₁, vs.foldlM (State.receive b) s = some s₁ ∧
      ∀ v, v ∈ vs ∨ s.vars v = v.stored (v.number c) → s₁.vars v = v.stored (v.number c) := by
  induction vs generalizing s with
  | nil => exact ⟨s, rfl, fun _ h => h.resolve_left List.not_mem_nil⟩
  | cons v vs ih =>
    have ⟨t, hn, hl⟩ := h v
    have ⟨tb, hr⟩ := hn.receive (s := s) hl
    have ⟨s₁, hs, hv⟩ := ih (s := { vars := Function.update s.vars v (v.stored (v.number c)), tb })
    refine ⟨s₁, by rw [List.foldlM_cons, hr]; exact hs, fun w hw => hv w ?_⟩
    by_cases hwv : w = v
    case pos => exact .inr <| hwv ▸ Function.update_self ..
    case neg =>
      obtain hw | hw := hw
      · exact .inl <| (List.mem_cons.mp hw).resolve_left hwv
      · exact .inr <| (Function.update_of_ne hwv ..).trans hw

theorem foldlM_receive_none (hv : v ∈ vs) (h : ∀ s : State, s.receive b v = none) :
    vs.foldlM (State.receive b) s = none := by
  induction vs generalizing s with
  | nil => exact nomatch hv
  | cons w vs ih =>
    rw [List.foldlM_cons]
    obtain rfl | hv := List.mem_cons.mp hv
    · rw [h s]
      rfl
    · cases s.receive b w with
      | none => rfl
      | some s₁ => exact ih hv

-- What the RTC is set to for an instant
def Rtc.of (c : DateTime) : Rtc :=
  let x (v : Var) := v.stored (v.number c)
  ⟨⟨x .godina, x .mjesec, x .datum, x .dan⟩, ⟨x .sat, x .minuta, x .sekunda⟩⟩

theorem saveTime_eq (h : ∀ v : Var, ∃ t, Number b v.tag t (v.number c) ∧ t.length ≤ 5) :
    ∃ s₁, saveTime b s r = some (s₁, .of c) := by
  have ⟨s₁, h₁, t₁⟩ := foldlM_receive (s := s) [.sat, .minuta, .sekunda] h
  have ⟨s₂, h₂, t₂⟩ := foldlM_receive (s := s₁) [.datum, .dan, .godina, .mjesec] h
  refine ⟨s₂, ?_⟩
  simp only [saveTime, h₁, h₂, Option.bind_eq_bind, Option.bind_some, setTime, setDate, Rtc.of]
  rw [t₁ .sat, t₁ .minuta, t₁ .sekunda, t₂ .datum, t₂ .dan, t₂ .godina, t₂ .mjesec]
  all_goals exact .inl <| by decide

theorem saveTime_none (h : ∀ s : State, s.receive b v = none) : saveTime b s r = none := by
  have hv : v ∈ [.sat, .minuta, .sekunda] ∨ v ∈ [.datum, .dan, .godina, .mjesec] := by
    cases v <;> decide
  rw [saveTime]
  obtain hv | hv := hv
  · rw [foldlM_receive_none hv h]
    rfl
  · cases [.sat, .minuta, .sekunda].foldlM (State.receive b) s with
    | none => rfl
    | some s₁ =>
      simp only [Option.bind_eq_bind, Option.bind_some]
      rw [foldlM_receive_none hv h]
      rfl

theorem number_lt (hv : v ≠ .godina) : v.number c < 60 := by
  have := c.hour_lt
  have := c.minute_lt
  have := c.second_lt
  have := c.date.month_le
  have := Nat.le_trans c.date.day_le monthDays_le
  have : c.date.weekday < 7 := Nat.mod_lt _ (by decide)
  cases v with
  | godina => exact absurd rfl hv
  | _ =>
    simp only [Var.number]
    omega

theorem stored_toNat (hv : v ≠ .godina) : (v.stored (v.number c)).toNat = v.number c := by
  have hn := number_lt (c := c) hv
  have hs : v.stored (v.number c) = (v.number c).toUInt8 := by
    cases v with
    | godina => exact absurd rfl hv
    | _ => rfl
  rw [hs, Nat.toUInt8_eq, UInt8.toNat_ofNat', Nat.mod_eq_of_lt (by omega)]

-- The instant is right but for Sundays.
theorem shows_iff (hy : 2000 ≤ c.date.year ∧ c.date.year ≤ 2099) :
    (Shows c (.of c) ∧ Accepted (Rtc.of c).date (Rtc.of c).time) ↔ c.date.weekday ≠ 0 := by
  have year : 2000 + (Rtc.of c).date.year.toNat = c.date.year := by
    simp only [Rtc.of, Var.stored, Var.number, Nat.toUInt8_eq, UInt8.toNat_ofNat']
    omega
  have month : (Rtc.of c).date.month.toNat = c.date.month := stored_toNat (by decide)
  have day : (Rtc.of c).date.date.toNat = c.date.day := stored_toNat (by decide)
  have weekday : (Rtc.of c).date.weekDay.toNat = c.date.weekday := stored_toNat (by decide)
  have hours : (Rtc.of c).time.hours.toNat = c.hour := stored_toNat (by decide)
  have minutes : (Rtc.of c).time.minutes.toNat = c.minute := stored_toNat (by decide)
  have seconds : (Rtc.of c).time.seconds.toNat = c.second := stored_toNat (by decide)
  constructor
  case mp =>
    intro ⟨shows, _⟩ hw
    have := shows.weekday
    rw [weekday, hw] at this
    exact nomatch this
  case mpr =>
    intro hw
    have := c.hour_lt
    have := c.minute_lt
    have := c.second_lt
    have := c.date.month_pos
    have := c.date.month_le
    have := c.date.day_pos
    have := Nat.le_trans c.date.day_le monthDays_le
    have : c.date.weekday < 7 := Nat.mod_lt _ (by decide)
    constructor
    case left => exact ⟨year, month, day, weekday.trans (if_neg hw).symm, hours, minutes, seconds⟩
    case right =>
      constructor
      all_goals
        simp only [UInt8.le_iff_toNat_le, UInt8.reduceToNat, month, day, weekday, hours, minutes,
          seconds]
        omega

-- A document denotes no more than one instant.
theorem Denotes.unique (h : Denotes b c) (h₁ : Denotes b c₁) : c = c₁ := by
  have hv (v : Var) : v.number c = v.number c₁ := by
    have ⟨t, hn⟩ := h.numbers v
    have ⟨t₁, hn₁⟩ := h₁.numbers v
    rw [← hn.value, ← hn₁.value, text_unique hn.text hn₁.text]
  exact DateTime.ext (Date.ext (hv .godina) (hv .mjesec) (hv .datum)) (hv .sat) (hv .minuta)
    (hv .sekunda)

theorem Denotes.short (h : Denotes b c) (hl : Short b) (v : Var) :
    ∃ t, Number b v.tag t (v.number c) ∧ t.length ≤ 5 :=
  have ⟨t, hn⟩ := h.numbers v
  ⟨t, hn, hl v t hn.text⟩

-- The RTC is set as it should be exactly if the document denotes an instant that is not on a Sunday, by
-- numbers of at most five digits.
theorem all_or_nothing_law :
    (∀ r, ∃ s₁ r₁, saveTime b s r = some (s₁, r₁) ∧ AllOrNothing b r r₁) ↔
      ∃ c, Denotes b c ∧ c.date.weekday ≠ 0 ∧ Short b := by
  constructor
  case mp =>
    intro h
    have hd : ∃ c, Denotes b c := by
      by_contra hd
      have ⟨_, r₁, e₁, h₁⟩ := h ⟨⟨0, 1, 1, 1⟩, ⟨0, 0, 0⟩⟩
      have ⟨_, r₂, e₂, h₂⟩ := h ⟨⟨0, 1, 1, 1⟩, ⟨0, 0, 1⟩⟩
      have he : r₁ = r₂ := (Prod.ext_iff.mp <| Option.some.inj <| e₁.symm.trans e₂).2
      exact absurd ((h₁.nothing hd).symm.trans <| he.trans <| h₂.nothing hd) (by decide)
    have ⟨c, hd⟩ := hd
    have ⟨_, r₁, e, ha⟩ := h ⟨⟨0, 1, 1, 1⟩, ⟨0, 0, 0⟩⟩
    have hl : Short b := by
      intro v t ht
      by_contra hl
      have ⟨t₁, hn⟩ := hd.numbers v
      rw [text_unique ht hn.text] at hl
      rw [saveTime_none fun s => hn.receive_long (Nat.not_le.mp hl)] at e
      exact nomatch e
    have ⟨_, e₁⟩ := saveTime_eq (s := s) (r := r₁) (hd.short hl)
    have he : r₁ = .of c := (Prod.ext_iff.mp <| Option.some.inj <| e.symm.trans e₁).2
    exact ⟨c, hd, (shows_iff hd.year).mp <| he ▸ ha.all c hd, hl⟩
  case mpr =>
    intro ⟨c, hd, hw, hl⟩ r
    have ⟨s₁, e⟩ := saveTime_eq (s := s) (r := r) (hd.short hl)
    refine ⟨s₁, .of c, e, fun c₁ hd₁ => ?_, fun h => absurd ⟨c, hd⟩ h⟩
    have hc : c₁ = c := hd₁.unique hd
    exact hc ▸ (shows_iff hd.year).mpr hw

def hourOnly : Body where
  bytes := ascii "<TIME><HOUR>10</HOUR></TIME>"
  rest  := []

-- The variables of the fields that are missing get what the hour has left in `tb`.
theorem all_or_nothing_hour_only :
    let s : State := ⟨fun _ => 0, Buffer.zero 130⟩
    let r : Rtc := ⟨⟨24, 1, 1, 1⟩, ⟨12, 0, 0⟩⟩
    (saveTime hourOnly s r).map Prod.snd = some ⟨⟨58, 10, 10, 10⟩, ⟨10, 10, 10⟩⟩ ∧
    ¬∃ s₁ r₁, saveTime hourOnly s r = some (s₁, r₁) ∧ AllOrNothing hourOnly r r₁ := by
  intro s r
  have h : (saveTime hourOnly s r).map Prod.snd = some ⟨⟨58, 10, 10, 10⟩, ⟨10, 10, 10⟩⟩ := by
    decide +kernel
  refine ⟨h, fun ⟨s₁, r₁, e, ha⟩ => ?_⟩
  have hn : ¬∃ c, Denotes hourOnly c := by
    intro ⟨c, hd⟩
    have ⟨t, ht⟩ := hd.numbers .minuta
    exact absurd ht.text.infix (by decide +kernel)
  rw [e, Option.map_some] at h
  have he : r = ⟨⟨58, 10, 10, 10⟩, ⟨10, 10, 10⟩⟩ := (ha.nothing hn).symm.trans <| Option.some.inj h
  exact absurd he <| by decide

end Clock
