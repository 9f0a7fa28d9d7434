import Webtermo.Execution.Logger.Lines
import Webtermo.Execution.Lfs.Saves

namespace Logger

-- A text without a separator or the end of a line
def Field (x : Bytes) : Prop :=
  ∀ c ∈ x, c ≠ 59 ∧ c ≠ 13 ∧ c ≠ 10

-- A line of `n` fields, each of which has a separator behind it
def Record (n : Nat) (b : Bytes) : Prop :=
  ∃ fields : List Bytes, fields.length = n ∧ (∀ x ∈ fields, Field x) ∧
    b = fields.flatMap (· ++ [59]) ++ [13, 10]

-- The number of columns that the second line of a header names
def announced (header : Bytes) : Nat :=
  (header.dropWhile (· ≠ 10)).count 59 + 1

theorem Field.append (hx : Field x) (hy : Field y) : Field (x ++ y) :=
  fun c hc => (List.mem_append.mp hc).elim (hx c) (hy c)

theorem Field.count (h : Field x) : x.count 59 = 0 :=
  List.count_eq_zero.mpr fun hm => (h 59 hm).1 rfl

theorem field_of_digits (h : Decimal.Digits x) : Field x := by
  intro c hc
  have hd := h c hc
  refine ⟨?_, ?_, ?_⟩ <;>
  · rintro rfl
    exact absurd hd (by decide)

theorem field_myFtoa : Field (myFtoa t p) := by
  intro c hc
  have hd := Temperature.mem_myFtoa hc
  refine ⟨?_, ?_, ?_⟩ <;>
  · rintro rfl
    exact absurd hd (by decide)

theorem count_fields {fields : List Bytes} (h : ∀ x ∈ fields, Field x) :
    (fields.flatMap (· ++ [59])).count 59 = fields.length := by
  induction fields with
  | nil => rfl
  | cons x fields ih =>
    obtain ⟨hx, hf⟩ := List.forall_mem_cons.mp h
    rw [List.flatMap_cons, List.count_append, List.count_append, hx.count, ih hf, List.length_cons]
    simp [Nat.add_comm]

theorem Record.count (h : Record n b) : b.count 59 = n := by
  obtain ⟨fields, hl, hf, rfl⟩ := h
  rw [List.count_append, count_fields hf, hl]
  rfl

theorem announced_append (h : 10 ∉ a) : announced (a ++ b) = announced b := by
  rw [announced, announced, List.dropWhile_append_of_pos]
  intro c hc
  have : c ≠ 10 := fun he => h (he ▸ hc)
  simpa using this

theorem newline_not_mem_toString (n : Nat) : 10 ∉ ascii (toString n) :=
  fun h => absurd (Decimal.digits_toString n 10 h) (by decide)

theorem announced_createName (letter columns) (m : Lfs.Month) :
    announced (Lfs.createName letter columns m).2 = announced (ascii columns) := by
  apply announced_append
  simp only [List.mem_append, not_or]
  exact ⟨⟨⟨by decide, newline_not_mem_toString _⟩, by decide⟩, newline_not_mem_toString _⟩

-- The log of a sensor for the MKT once its temperature is saved
def updated (l : Log) (s : Fin 8 → Slot) (k : Fin 8) : MktLog :=
  if l = .temp ∧ (s k).enble = 1 ∧ (s k).nvCount ≠ 0 then (s k).mkt.update (s k).mean else (s k).mkt

-- The temperature that a record is due to show for a sensor: the mean of its readings or the MKT, and the
-- last reading if there are none
def due (calculateMkt : (Fin 8 → MktLog) → Fin 8 → Single) (l : Log) (s : Fin 8 → Slot) (k : Fin 8) : Single :=
  if (s k).nvCount = 0 then (s k).temp
  else if (s k).measureType = 1 then
    calculateMkt (fun j => if j ≤ k then updated l s j else (s j).mkt) k
  else (s k).mean

-- The temperatures of the sensors that are enabled
def shown (c : (Fin 8 → MktLog) → Fin 8 → Single) (l : Log) (s : Fin 8 → Slot) (k : Fin 8) : Option Single :=
  if (s k).enble = 1 then some (due c l s k) else none

variable {c : (Fin 8 → MktLog) → Fin 8 → Single} {l : Log} {s s₁ : Fin 8 → Slot}

-- The sensors `ks` have yet to be saved.
structure Left (l : Log) (s : Fin 8 → Slot) (ks : List (Fin 8)) (s₁ : Fin 8 → Slot) : Prop where
  slot : ∀ j ∈ ks, s₁ j = s j
  mkt  : ∀ j, (s₁ j).mkt = if j ∈ ks then (s j).mkt else updated l s j

-- The sensors are saved in the order of their numbers.
theorem suffix_finRange {k : Fin 8} {ks : List (Fin 8)} (h : k :: ks <:+ List.finRange 8) :
    k ∉ ks ∧ ∀ j, j ∈ ks ↔ ¬j ≤ k := by
  obtain ⟨p, hp⟩ := h
  have hs := List.pairwise_lt_finRange 8
  rw [← hp, List.pairwise_append, List.pairwise_cons] at hs
  obtain ⟨_, ⟨hk, _⟩, hpk⟩ := hs
  refine ⟨fun hm => absurd (hk k hm) (lt_irrefl k), fun j => ?_⟩
  constructor
  case mp => exact fun hj => not_le.mpr (hk j hj)
  case mpr =>
    intro hj
    have hm : j ∈ p ++ k :: ks := hp ▸ List.mem_finRange j
    obtain hm | hm := List.mem_append.mp hm
    case inl => exact absurd (hpk j hm k List.mem_cons_self).le hj
    case inr => exact List.mem_of_ne_of_mem (fun he => hj he.le) hm

theorem saveSlot_mkt (k : Fin 8) : (saveSlot c l s k).mkt = updated l s k := by
  by_cases h : (s k).enble = 1 ∧ (s k).nvCount ≠ 0
  case pos => simp [saveSlot, updated, h]
  case neg =>
    have hn : ¬(l = .temp ∧ (s k).enble = 1 ∧ (s k).nvCount ≠ 0) := fun hl => h hl.2
    rw [saveSlot, updated, if_neg hn]
    simp only [if_neg h]

-- What a turn leaves for `temp_to_ascii`
theorem saveSlot_shown (k : Fin 8) : (saveSlot c l s k).shown =
    if (s k).enble = 1 then
      some <| if (s k).nvCount = 0 then (s k).temp
        else if (s k).measureType = 1 then c (Function.update (fun j => (s j).mkt) k (updated l s k)) k
        else (s k).mean
    else none := by
  by_cases he : (s k).enble = 1 <;> by_cases hn : (s k).nvCount = 0 <;>
    simp [saveSlot, Slot.shown, updated, he, hn]

theorem Left.turn (h : Left l s (k :: ks) s₁) (hk : k :: ks <:+ List.finRange 8) :
    Left l s ks (Function.update s₁ k (saveSlot c l s₁ k)) ∧ (saveSlot c l s₁ k).shown = shown c l s k := by
  obtain ⟨hn, hle⟩ := suffix_finRange hk
  have hslot := h.slot k List.mem_cons_self
  have hupd : updated l s₁ k = updated l s k := by
    simp only [updated, hslot]
  have hmkt (j) : Function.update (fun j => (s₁ j).mkt) k (updated l s k) j =
      if j ∈ ks then (s j).mkt else updated l s j := by
    by_cases hj : j = k
    case pos => simp [hj, hn]
    case neg => simp [hj, h.mkt]
  refine ⟨⟨fun j hj => ?_, fun j => ?_⟩, ?_⟩
  · have hj₁ : j ≠ k := fun he => hn (he ▸ hj)
    rw [Function.update_of_ne hj₁, h.slot j (List.mem_cons_of_mem _ hj)]
  · rw [← hmkt]
    by_cases hj : j = k
    case pos => simp [hj, saveSlot_mkt, hupd]
    case neg => simp [hj]
  · have hlogs : Function.update (fun j => (s₁ j).mkt) k (updated l s k) =
        fun j => if j ≤ k then updated l s j else (s j).mkt := by
      funext j
      rw [hmkt]
      simp only [hle, ite_not]
    rw [saveSlot_shown, hupd, hlogs, hslot]
    rfl

-- The line with the temperatures `ts` of the sensors that are enabled
def columns (ts : Fin 8 → Option Single) (dsave : CString 120) (ks : List (Fin 8)) : Option (CString 120) :=
  ks.foldlM (fun dsave k => column (ts k) dsave) dsave

theorem saveLines_eq (d : CString 120) (h : Left l s ks s₁) (hk : ks <:+ List.finRange 8) :
    saveLines c l s₁ d ks = columns (shown c l s) d ks := by
  induction ks generalizing s₁ d with
  | nil => rfl
  | cons k ks ih =>
    obtain ⟨h₁, hs⟩ := h.turn (c := c) hk
    have ih (d) := ih d h₁ (List.IsSuffix.trans (List.suffix_cons k ks) hk)
    simp only [saveLines, columns, List.foldlM_cons, hs, Option.bind_eq_bind]
    exact Option.bind_congr fun d _ => ih d

-- The line of the temperatures

theorem semicolon : ascii ";" = [59] :=
  rfl

theorem colon : ascii ":" = [58] :=
  rfl

theorem newline : ascii "\r\n" = [13, 10] :=
  rfl

theorem print_length (c : Moment) : c.print.length ≤ 16 := by
  have h₁ := Decimal.print_length c.datum
  have h₂ := Decimal.print_length c.sat
  have h₃ := Decimal.print_length c.minuta
  have h₄ := Decimal.print_length c.sekunda
  simp only [Moment.print, List.length_append, semicolon, colon, List.length_singleton]
  omega

def Moment.fields (c : Moment) : List Bytes :=
  [Decimal.print c.datum, Decimal.print c.sat ++ ascii ":" ++ Decimal.print c.minuta ++ ascii ":" ++
    Decimal.print c.sekunda]

theorem print_fields (c : Moment) : (∀ x ∈ c.fields, Field x) ∧ c.print = c.fields.flatMap (· ++ [59]) := by
  have digits (n : UInt8) : Field (Decimal.print n) := field_of_digits <| Decimal.digits_print n
  have colon : Field (ascii ":") := by simp [colon, Field]
  constructor
  · simp only [Moment.fields, List.forall_mem_cons]
    exact ⟨digits _, (((digits _).append colon).append (digits _)).append colon |>.append (digits _), by simp⟩
  · simp [Moment.print, Moment.fields, semicolon]

-- A temperature that there is has a text that fits.
def Shows (temp : Option Single) : Prop :=
  ∀ x ∈ temp, ∃ t ∈ x, Temperature.Fits t

def cell : Option Single → Bytes
  | some (some t) => myFtoa t 2
  | _             => []

theorem field_cell : Field (cell temp) := by
  match temp with
  | some (some t) => exact field_myFtoa
  | some none | none => exact nofun

theorem column_eq (temp : Option Single) (h : Shows temp) :
    ∃ l : List Bytes, column temp d = d.strcats l ∧ l.flatten = cell temp ++ [59] ∧ (cell temp).length < 10 := by
  cases temp with
  | none => exact ⟨[ascii ";"], by simp [column, CString.strcats], rfl, by decide⟩
  | some x =>
    obtain ⟨t, hx, ht⟩ := h x rfl
    obtain rfl : x = some t := hx
    refine ⟨[myFtoa t 2, ascii ";"], ?_, by simp [cell, semicolon], Temperature.fits_iff t |>.mpr ht⟩
    rw [column]
    simp only [Option.bind_eq_bind, Option.bind_some, Temperature.tempToAscii_eq, if_pos ht]
    simp [CString.strcats]

theorem column_none (h : ¬Shows temp) : column temp d = none := by
  match temp with
  | none => exact absurd nofun h
  | some none => rfl
  | some (some t) =>
    have ht : ¬Temperature.Fits t := fun ht => h <| by
      rintro _ ⟨⟩
      exact ⟨t, rfl, ht⟩
    rw [column]
    simp only [Option.bind_eq_bind, Option.bind_some, Temperature.tempToAscii_eq, if_neg ht]
    rfl

theorem columns_eq (ks : List (Fin 8)) (h : d.bytes.length + 10 * ks.length < 120) (ht : ∀ k ∈ ks, Shows (ts k)) :
    ∃ d₁, columns ts d ks = some d₁ ∧
      d₁.bytes = d.bytes ++ (ks.map fun k => cell (ts k)).flatMap (· ++ [59]) ∧
      d₁.bytes.length ≤ d.bytes.length + 10 * ks.length := by
  induction ks generalizing d with
  | nil => exact ⟨d, rfl, by simp, by simp⟩
  | cons k ks ih =>
    obtain ⟨hk, ht⟩ := List.forall_mem_cons.mp ht
    obtain ⟨l, hc, hl, hlen⟩ := column_eq (d := d) (ts k) hk
    have hf : l.flatten.length < 11 := by
      rw [hl, List.length_append, List.length_singleton]
      omega
    rw [List.length_cons] at h
    obtain ⟨d₁, h₁⟩ := (CString.strcats_eq_some (by omega) : ∃ d₁, d.strcats l = some d₁)
    have hb := CString.strcats_bytes h₁
    have hl₁ : d₁.bytes.length ≤ d.bytes.length + 10 := by
      rw [hb, List.length_append]
      omega
    obtain ⟨d₂, h₂, hb₂, hl₂⟩ := ih (d := d₁) (by omega) ht
    refine ⟨d₂, ?_, ?_, by rw [List.length_cons]; omega⟩
    · rw [columns, List.foldlM_cons, hc, h₁]
      exact h₂
    · rw [hb₂, hb, hl]
      simp

theorem columns_shows (h : columns ts d ks = some d₁) : ∀ k ∈ ks, Shows (ts k) := by
  induction ks generalizing d with
  | nil => exact nofun
  | cons k ks ih =>
    simp only [columns, List.foldlM_cons, Option.bind_eq_bind, Option.bind_eq_some_iff] at h
    obtain ⟨d₂, h₂, h⟩ := h
    refine List.forall_mem_cons.mpr ⟨?_, ih h⟩
    by_contra hn
    rw [column_none hn] at h₂
    cases h₂

-- The record when the mean of the first sensor has been taken from the flash
def begun (f : Flash) (s : Fin 8 → Slot) : Fin 8 → Slot :=
  Function.update s 0 { s 0 with temp := f.mean }

def Log.create : Log → Lfs.Month → Bytes × Bytes
  | temp  => Lfs.createDatName
  | haccp => Lfs.createHaccpName

theorem announced_create (l : Log) (m : Lfs.Month) : announced (l.create m).2 = 10 := by
  cases l with
  | temp => exact (announced_createName _ _ m).trans (by decide)
  | haccp => exact (announced_createName _ _ m).trans (by decide)

theorem Left.start : Left l s (List.finRange 8) s where
  slot := fun _ _ => rfl
  mkt  := fun j => by rw [if_pos (List.mem_finRange j)]

theorem saveLine_eq (c : (Fin 8 → MktLog) → Fin 8 → Single) (f l) (x : Moment) (s : Fin 8 → Slot) :
    saveLine c f l x s = (CString.strcpy x.print).bind fun d =>
      (columns (shown c l (begun f s)) d (List.finRange 8)).bind fun d =>
        (d.strcat (ascii "\r\n")).bind fun d => some d.bytes := by
  have h (d) := saveLines_eq (c := c) d (Left.start (l := l) (s := begun f s)) (List.suffix_refl _)
  simp only [saveLine, Option.bind_eq_bind]
  refine Option.bind_congr fun d _ => ?_
  rw [← h d]
  rfl

-- Every enabled sensor has a temperature to show, with a text that fits.
def Due (c : (Fin 8 → MktLog) → Fin 8 → Single) (l : Log) (s : Fin 8 → Slot) : Prop :=
  ∀ k, (s k).enble = 1 → ∃ t ∈ due c l s k, Temperature.Fits t

theorem due_iff : Due c l s ↔ ∀ k, Shows (shown c l s k) := by
  refine forall_congr' fun k => ?_
  by_cases he : (s k).enble = 1 <;> simp [Shows, shown, he]

theorem saveLine_iff (c : (Fin 8 → MktLog) → Fin 8 → Single) (f l m) (x : Moment) (s : Fin 8 → Slot) :
    (∃ line, saveLine c f l x s = some line ∧ Record (announced (Log.create l m).2) line) ↔
      Due c l (begun f s) := by
  rw [saveLine_eq, announced_create, due_iff]
  constructor
  case mp =>
    intro ⟨line, hl, _⟩ k
    simp only [Option.bind_eq_some_iff] at hl
    obtain ⟨_, _, _, hd, _⟩ := hl
    exact columns_shows hd k (List.mem_finRange k)
  case mpr =>
    intro ht
    have hx := print_length x
    have hx₁ : x.print.length < 120 := by omega
    have h₀ : CString.strcpy x.print = some ⟨x.print, hx₁⟩ := dif_pos hx₁
    obtain ⟨d, hd, hb, hl⟩ := columns_eq (d := ⟨x.print, hx₁⟩) (List.finRange 8)
      (by simp only [List.length_finRange]; omega) (fun k _ => ht k)
    simp only [List.length_finRange] at hl
    have hl₁ : (d.bytes ++ ascii "\r\n").length < 120 := by
      rw [List.length_append, newline]
      simp only [List.length_cons, List.length_nil]
      omega
    have h₁ : d.strcat (ascii "\r\n") = some ⟨_, hl₁⟩ := dif_pos hl₁
    refine ⟨d.bytes ++ ascii "\r\n", by rw [h₀]; simp [hd, h₁], ?_⟩
    obtain ⟨hp, he⟩ := print_fields x
    let cells := (List.finRange 8).map fun k => cell (shown c l (begun f s) k)
    refine ⟨x.fields ++ cells, ?_, ?_, by rw [hb, newline, List.flatMap_append, ← he]⟩
    · simp [Moment.fields, cells]
    · intro y hy
      obtain hy | hy := List.mem_append.mp hy
      case inl => exact hp y hy
      case inr =>
        obtain ⟨k, _, rfl⟩ := List.mem_map.mp hy
        exact field_cell

-- The line of an alarm

-- The name of a sensor as it stands in `rBuf`
def nameIn (eeprom : Memory) (rBuf : Buffer 1024) (k : Fin 8) : Option Bytes :=
  (readName eeprom rBuf k).bind (·.text 0)

def alarmLength (x : Moment) (name : Bytes) (t : ℚ) (type : UInt8) : Nat :=
  x.print.length + name.length + (myFtoa t 2).length + (alarmText type).length + 4

-- The line of an alarm can be put together, and then it is this one.
theorem saveAlarm_eq_some_iff (x : Moment) (eeprom rBuf) (t : ℚ) (k type) :
    saveAlarm x eeprom rBuf (some t) k type = some line ↔
      ∃ name, nameIn eeprom rBuf k = some name ∧ Temperature.Fits t ∧
        alarmLength x name t type < 100 ∧
        line = x.print ++ name ++ [59] ++ myFtoa t 2 ++ [59] ++ alarmText type ++ [13, 10] := by
  have hx := print_length x
  have hx₁ : x.print.length < 100 := by omega
  have h₀ : CString.strcpy x.print = some ⟨x.print, hx₁⟩ := dif_pos hx₁
  have hr : saveAlarm x eeprom rBuf (some t) k type = (nameIn eeprom rBuf k).bind fun name =>
      (tempToAscii t).bind fun ttoa =>
        (CString.strcats ⟨x.print, hx₁⟩ [name, [59], ttoa, [59], alarmText type, [13, 10]]).bind
          fun dsave => some dsave.bytes := by
    simp only [saveAlarm, nameIn, h₀, newline, semicolon, Option.bind_eq_bind, Option.bind_some, Option.bind_assoc]
  have hl (name) : x.print.length + [name, [59], myFtoa t 2, [59], alarmText type, [13, 10]].flatten.length =
      alarmLength x name t type := by
    simp [alarmLength]
    omega
  rw [hr, Option.bind_eq_some_iff]
  refine exists_congr fun name => and_congr_right fun _ => ?_
  rw [Temperature.tempToAscii_eq]
  by_cases hf : Temperature.Fits t
  case neg => simp [hf]
  case pos =>
    have hlt : (∃ d, CString.strcats ⟨x.print, hx₁⟩ [name, [59], myFtoa t 2, [59], alarmText type, [13, 10]] = some d) ↔
        alarmLength x name t type < 100 := by
      rw [← hl]
      exact CString.strcats_eq_some_iff
    rw [if_pos hf, Option.bind_some, Option.bind_eq_some_iff, ← hlt]
    constructor
    case mp =>
      rintro ⟨d, hd, he⟩
      have hb := CString.strcats_bytes hd
      refine ⟨hf, ⟨d, hd⟩, ?_⟩
      rw [← Option.some.inj he, hb]
      simp
    case mpr =>
      rintro ⟨_, ⟨d, hd⟩, he⟩
      refine ⟨d, hd, ?_⟩
      rw [CString.strcats_bytes hd, he]
      simp

theorem announced_alarm (m : Lfs.Month) : announced (Lfs.createAlarmName m).2 = 5 :=
  (announced_createName _ _ m).trans (by decide)

theorem alarmText_field (h : type = Alarm.hi ∨ type = Alarm.low) :
    ∃ tip, alarmText type = tip ++ [59] ∧ Field tip := by
  obtain rfl | rfl := h
  case inl => exact ⟨ascii "VISOKA TEMPERATURA", rfl, by unfold Field; decide +kernel⟩
  case inr => exact ⟨ascii "NISKA TEMPERATURA", rfl, by unfold Field; decide +kernel⟩

theorem saveAlarm_none (x : Moment) (eeprom rBuf k type) : saveAlarm x eeprom rBuf none k type = none := by
  simp only [saveAlarm, Option.bind_eq_bind, Option.bind_none, Option.bind_fun_none]

theorem saveAlarm_iff (x : Moment) (eeprom rBuf) (tAlarm : Single) (k type m) :
    (∃ line name, saveAlarm x eeprom rBuf tAlarm k type = some line ∧
      Record (announced (Lfs.createAlarmName m).2) line ∧
      nameIn eeprom rBuf k = some name ∧ Field name) ↔
      ∃ name t, nameIn eeprom rBuf k = some name ∧ Field name ∧ tAlarm = some t ∧ Temperature.Fits t ∧
        (type = Alarm.hi ∨ type = Alarm.low) ∧ alarmLength x name t type < 100 := by
  obtain ⟨hp, he⟩ := print_fields x
  cases tAlarm with
  | none => simp [saveAlarm_none]
  | some t =>
    simp only [announced_alarm, saveAlarm_eq_some_iff]
    constructor
    case mp =>
      intro ⟨line, name, ⟨name₁, hn₁, ht, hl, hline⟩, hr, hn, hf⟩
      cases hn.symm.trans hn₁
      refine ⟨name, t, hn, hf, rfl, ht, ?_, hl⟩
      by_contra hk
      obtain ⟨hh, hk⟩ := not_or.mp hk
      have hc := hr.count
      rw [hline, alarmText, if_neg hh, if_neg hk, he] at hc
      have hx : (x.fields.flatMap (· ++ [59])).count 59 = 2 := count_fields hp
      simp only [List.count_append, hx, hf.count, field_myFtoa.count] at hc
      contradiction
    case mpr =>
      rintro ⟨name, _, hn, hf, ⟨⟩, ht, hk, hl⟩
      obtain ⟨tip, htip, hft⟩ := alarmText_field hk
      refine ⟨_, name, ⟨name, hn, ht, hl, rfl⟩, ⟨x.fields ++ [name, myFtoa t 2, tip], rfl, ?_, ?_⟩, hn, hf⟩
      · simpa [or_imp, forall_and, hf, field_myFtoa, hft] using hp
      · simp [he, htip]

-- What a sensor is read with

theorem readtemp_le (ds : Alarm.DsBuf) : |Alarm.readtemp ds| ≤ 2 ^ (13 : ℤ) := by
  have bound (raw : Nat) (h : raw ≤ 0x10000) : |mkRat (6 * raw + raw / 4 : Nat) 100| ≤ 2 ^ (13 : ℤ) := by
    have hn : (((6 * raw + raw / 4 : Nat) : ℤ) : ℚ) ≤ 800000 := by
      exact_mod_cast (by omega : 6 * raw + raw / 4 ≤ 800000)
    rw [Rat.mkRat_eq_div, abs_of_nonneg (by positivity), div_le_iff₀ (by norm_num)]
    exact hn.trans (by norm_num)
  have h₀ := (ds 0).toNat_lt
  have h₁ := (ds 1).toNat_lt
  simp only [Alarm.readtemp]
  split
  case isTrue =>
    rw [abs_neg]
    exact bound _ (by omega)
  case isFalse => exact bound _ (by omega)

-- A reading has a text that fits exactly if the sum with the calibration lies between the bounds.
theorem newTemp_iff (ds : Alarm.DsBuf) (kalibracija : UInt32) :
    (∃ ttoa, (newTemp ds kalibracija).bind tempToAscii = some ttoa) ↔
      ∃ q, floatVal kalibracija = some q ∧ Single.Fits (Single.round (Alarm.readtemp ds) + q) := by
  have hf : fTemp ds = some (Single.round (Alarm.readtemp ds)) :=
    Single.ofRat_of_le (by decide) (by decide) (readtemp_le ds)
  have ht (x : Single) : (∃ ttoa, x.bind tempToAscii = some ttoa) ↔ ∃ t ∈ x, Temperature.Fits t := by
    cases x with
    | none => simp
    | some t => simp [Temperature.tempToAscii_eq]
  cases hk : floatVal kalibracija with
  | none => simp [newTemp, hk, Single.add]
  | some q =>
    simp only [ht, newTemp, hf, hk, Single.add, Option.bind_eq_bind, Option.bind_some, Option.some.injEq,
      exists_eq_left', Single.ofRat_fits_iff]

-- A sensor whose name has an end gets a line that fits.
theorem alarmLength_lt (hn : name.length < 30) (ht : Temperature.Fits t) :
    alarmLength x name t type < 100 := by
  have hx := print_length x
  have hf := Temperature.fits_iff t |>.mpr ht
  have ha : (alarmText type).length ≤ 19 := by
    rw [alarmText]
    split
    case isTrue => decide
    case isFalse => split <;> decide
  rw [alarmLength]
  omega

-- A reading has a text that fits into `ttoa` exactly if its sum with the calibration lies between the bounds. The
-- lines of `SaveTemp` and `SaveHaccp` are records exactly if their temperatures fit. The line of `SaveAlarm` is one
-- exactly if its temperature does, the alarm is not a read error, and the name that stands in `rBuf` has no end of
-- a line and leaves room for the rest.
theorem lines_law (c : (Fin 8 → MktLog) → Fin 8 → Single) (f l m x s) (eeprom rBuf) (tAlarm : Single) (k type)
    (ds kalibracija) :
    ((∃ ttoa, (newTemp ds kalibracija).bind tempToAscii = some ttoa) ↔
      ∃ q, floatVal kalibracija = some q ∧ Single.Fits (Single.round (Alarm.readtemp ds) + q)) ∧
    ((∃ line, saveLine c f l x s = some line ∧ Record (announced (Log.create l m).2) line) ↔
      Due c l (begun f s)) ∧
    ((∃ line name, saveAlarm x eeprom rBuf tAlarm k type = some line ∧
        Record (announced (Lfs.createAlarmName m).2) line ∧
        nameIn eeprom rBuf k = some name ∧ Field name) ↔
      ∃ name t, nameIn eeprom rBuf k = some name ∧ Field name ∧ tAlarm = some t ∧ Temperature.Fits t ∧
        (type = Alarm.hi ∨ type = Alarm.low) ∧ alarmLength x name t type < 100) :=
  ⟨newTemp_iff ds kalibracija, saveLine_iff c f l m x s, saveAlarm_iff x eeprom rBuf tAlarm k type m⟩

-- A reading of 20 degrees
def twenty : Alarm.DsBuf :=
  fun i => if i = 0 then 0x40 else if i = 1 then 0x01 else 0

-- With 1000000 for its calibration, a reading of 20 overflows `ttoa`. The line of a read error has no field
-- for the kind of the alarm.
theorem lines_break :
    (newTemp twenty 0x49742400 = some 1000020 ∧ tempToAscii 1000020 = none) ∧
    saveAlarm ⟨1, 2, 3, 4⟩ (fun i => if i = 0x140 then 65 else 0) (.zero 1024) (some 20) 0 Alarm.err =
      some (ascii "1;2:3:4;A;20.00;\r\n") ∧
    ¬Record 5 (ascii "1;2:3:4;A;20.00;\r\n") := by
  refine ⟨⟨by decide +kernel, ?_⟩, ?_, ?_⟩
  · rw [Temperature.tempToAscii_eq, if_neg (by decide +kernel)]
  · decide +kernel
  · intro h
    have hc := h.count
    revert hc
    decide

end Logger
