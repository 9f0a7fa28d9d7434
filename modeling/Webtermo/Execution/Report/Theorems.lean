import Webtermo.Library.Trace
import Webtermo.Execution.Report.State
import Webtermo.Execution.Wapp.Theorems.Delivery
import Webtermo.Execution.Alarm.Theorems.Run

open Define

namespace Report

variable {s s₁ : State} {w w₁ : Wapp.State} {t o : List Obs} {k : Fin 8}

def Obs.cause (k : Fin 8) (c : Option UInt8) : Obs → Option UInt8
  | raised j kind  => if j = k then some kind else c
  | reported _ _ _ => c

-- The kind of the alarm of sensor `k` that was raised last
def cause (k : Fin 8) (t : List Obs) : Option UInt8 :=
  t.foldl (Obs.cause k) none

-- The name that is stored for a sensor in its block of the EEPROM
def storedName (w : Wapp.State) (k : Fin 8) : Option Bytes :=
  cstr (w.eeprom.read ((k + 1) * 0x100 + eeSensorName) 0xC0)

-- The end of a WhatsApp text that reports an alarm. There is none for some kinds.
def wappReport (name : Bytes) (kind : UInt8) (temp : ℚ) : Option Bytes := do
  let lines ← Wapp.SendWApp.alarmLines kind temp
  if lines = [] then none else some (ascii "\n" ++ name ++ ascii "\n" ++ lines.flatten)

-- The text of an SMS that reports an alarm
def smsReport (name : Bytes) (kind : UInt8) (temp : ℚ) : Option Bytes := do
  let lines ← Wapp.SendSMS.alarmLines kind temp
  if lines = [] then none else some (name ++ ascii "\r\n" ++ lines.flatten)

-- The texts of both channels report an alarm of a kind.
structure Carried (w : Wapp.State) (name : Bytes) (kind : UInt8) (temp : ℚ) : Prop where
  wapp : ∃ r ∈ wappReport name kind temp, ∃ t ∈ w.wapp.msg.text 0, r <:+ t
  sms  : ∃ r ∈ smsReport name kind temp, w.infobip.poruka.text 0 = some r

-- When a delay has run out, both channels report the alarm that has started it.
def ReportLaw : List Obs → Prop :=
  Always fun t o => ∀ k w w₁, o = .reported k w w₁ → ∃ kind ∈ cause k t, ∃ name ∈ storedName w k,
    Carried w₁ name (if kind = Alarm.err then Alarm.err else (w.senzor k).state) (w.temp k)

-- The temperature lies beyond the limit of a sensor on the side of an alarm.
def Beyond (temp : ℚ) (sen : Sensor) (state : UInt8) : Prop :=
  (state = Alarm.hi ∧ sen.highLimit.toInt < temp) ∨
  (state = Alarm.low ∧ temp ≤ sen.highLimit.toInt ∧ temp < sen.lowLimit.toInt)

-- When a delay has run out, it is not a read error that has started it, the temperature lies beyond
-- the limits that the two channels take, and the name has fewer than 16 characters.
def Reportable : List Obs → Prop :=
  Always fun t o => ∀ k w w₁, o = .reported k w w₁ → cause k t ≠ some Alarm.err ∧
    Beyond (w.temp k) (w.senzor k) (w.senzor k).state ∧
    Beyond (w.temp k) (Wapp.SendSMS.limits w k) (w.senzor k).state ∧
    ∃ name ∈ storedName w k, name.length < 16

-- The texts that the two functions put together

-- What `SendWApp` leaves alone
structure Aside (w w₁ : Wapp.State) : Prop where
  eeprom    : w₁.eeprom = w.eeprom
  temp      : w₁.temp = w.temp
  senzor    : w₁.senzor = w.senzor
  senzor255 : w₁.senzor255 = w.senzor255

-- The block of a sensor from its name on
theorem block_name {r : Buffer n} (hb : r.bytes = w.eeprom.read ((k + 1) * 0x100) 256 ++ l)
    (hn : storedName w k = some name) : r.text eeSensorName = some name := by
  rw [Buffer.text, hb, show 256 = eeSensorName + 0xC0 from rfl, Memory.read_add, List.append_assoc,
    List.drop_left' Memory.read_length]
  exact cstr_append hn

theorem sendWApp_text (h : Wapp.sendWApp w k = some (w₁, u)) (hn : storedName w k = some name) :
    Aside w w₁ ∧ ∃ objekt lines,
      Wapp.SendWApp.alarmLines (Wapp.alarmType (w.temp k) (w.senzor k)) (w.temp k) = some lines ∧
      w₁.wapp.msg.text 0 =
        some (objekt ++ (ascii "\n" ++ name ++ ascii "\n" ++ lines.flatten)) := by
  simp only [Wapp.sendWApp, Option.bind_eq_bind, Option.bind_eq_some_iff, Option.some.injEq] at h
  obtain ⟨w₂, hr₂, objekt, ho, m₁, hm₁, m₂, hm₂, w₃, hr₃, senzor, hs, m₃, hm₃, m₄, hm₄, lines, hl, m₅,
    hm₅, h⟩ := h
  have h : _ = w₁ := congrArg Prod.fst h
  obtain ⟨r₂, e₂, _⟩ := Wapp.eeRead_bytes hr₂
  subst e₂
  obtain ⟨r₃, e₃, b₃⟩ := Wapp.eeRead_bytes hr₃
  subst e₃
  cases hs.symm.trans <| block_name b₃ hn
  refine ⟨h ▸ ⟨rfl, rfl, rfl, rfl⟩, objekt, lines, hl, ?_⟩
  have t₁ := Buffer.strcpy_text (Buffer.text_nul_not_mem ho) hm₁
  have t₂ := Buffer.strcat_text (by decide) t₁ hm₂
  have t₃ := Buffer.strcat_text (cstr_nul_not_mem hn) t₂ hm₃
  have t₄ := Buffer.strcat_text (by decide) t₃ hm₄
  have t₅ := Wapp.strcats_text hm₅ t₄ <| Wapp.SendWApp.alarmLines_nul_not_mem hl
  rw [← h]
  simpa [Wapp.SendWApp.arm] using t₅

theorem sendSMS_text (h : Wapp.sendSMS w k = some w₁) (hn : storedName w k = some name)
    (hl : name.length < 16) : w₁.wapp = w.wapp ∧ ∃ lines,
      Wapp.SendSMS.alarmLines (Wapp.alarmType (w.temp k) (Wapp.SendSMS.limits w k)) (w.temp k) =
        some lines ∧
      w₁.infobip.poruka.text 0 = some (name ++ ascii "\r\n" ++ lines.flatten) := by
  simp only [Wapp.sendSMS, Option.bind_eq_bind, Option.bind_eq_some_iff, Option.some.injEq] at h
  obtain ⟨w₂, hr₂, ime, hs, p₁, hp₁, p₂, hp₂, lines, hls, p₃, hp₃, w₃, hr₃, h⟩ := h
  obtain ⟨r₂, e₂, b₂⟩ := Wapp.eeRead_bytes hr₂
  subst e₂
  obtain ⟨r₃, e₃, _⟩ := Wapp.eeRead_bytes hr₃
  subst e₃
  have hi : r₂.text 0 = some name := by
    rw [storedName, show 0xC0 = 16 + 0xB0 from rfl, Memory.read_add] at hn
    rw [Buffer.text, List.drop_zero, b₂, Nat.mul_comm]
    exact cstr_append <| cstr_of_append hn <| by simpa using hl
  cases hs.symm.trans hi
  refine ⟨h ▸ rfl, lines, hls, ?_⟩
  have t₁ := Buffer.strcpy_text (Buffer.text_nul_not_mem hi) hp₁
  have t₂ := Buffer.strcat_text (by decide) t₁ hp₂
  have t₃ := Wapp.strcats_text hp₃ t₂ <| Wapp.SendSMS.alarmLines_nul_not_mem hls
  rw [← h]
  exact t₃

theorem alarmType_of_beyond (h : Beyond temp sen state) : Wapp.alarmType temp sen = state := by
  obtain ⟨hs, h⟩ | ⟨hs, h, hl⟩ := h
  · simp [Wapp.alarmType, h, hs]
  · simp [Wapp.alarmType, not_lt.mpr h, hl, hs]

theorem Beyond.wappReport (h : Beyond temp sen state)
    (hl : Wapp.SendWApp.alarmLines state x = some lines) :
    wappReport name state x = some (ascii "\n" ++ name ++ ascii "\n" ++ lines.flatten) := by
  have hn : lines ≠ [] := by
    obtain ⟨hs, _⟩ | ⟨hs, _⟩ := h
    all_goals
      simp only [Wapp.SendWApp.alarmLines, hs, if_true, Option.bind_eq_bind, Option.bind_eq_some_iff,
        Option.some.injEq, Alarm.hi, Alarm.low, show (2 : UInt8) ≠ 1 by decide, if_false] at hl
      obtain ⟨_, _, hl⟩ := hl
      simp [← hl]
  simp [Report.wappReport, hl, hn]

theorem Beyond.smsReport (h : Beyond temp sen state)
    (hl : Wapp.SendSMS.alarmLines state x = some lines) :
    smsReport name state x = some (name ++ ascii "\r\n" ++ lines.flatten) := by
  have hn : lines ≠ [] := by
    obtain ⟨hs, _⟩ | ⟨hs, _⟩ := h
    all_goals
      simp only [Wapp.SendSMS.alarmLines, hs, if_true, Option.bind_eq_bind, Option.bind_eq_some_iff,
        Option.some.injEq, Alarm.hi, Alarm.low, show (2 : UInt8) ≠ 1 by decide, if_false] at hl
      have ⟨_, _, hl⟩ := hl
      simp [← hl]
  simp [Report.smsReport, hl, hn]

-- With the temperature beyond both limits, both texts report the state of the sensor.
theorem send_carried (h : (Wapp.Slot.sen k).send w = some (w₁, u))
    (hb : Beyond (w.temp k) (w.senzor k) (w.senzor k).state)
    (hb₁ : Beyond (w.temp k) (Wapp.SendSMS.limits w k) (w.senzor k).state)
    (hn : storedName w k = some name) (hl : name.length < 16) :
    Carried w₁ name (w.senzor k).state (w.temp k) := by
  simp only [Wapp.Slot.send, Option.bind_eq_bind, Option.bind_eq_some_iff] at h
  obtain ⟨⟨w₂, _⟩, h₂, w₃, h₃, h⟩ := h
  cases h
  obtain ⟨a, objekt, lines, hw, ht⟩ := sendWApp_text h₂ hn
  have hn₂ : storedName w₂ k = some name := by
    rw [storedName, a.eeprom]
    exact hn
  obtain ⟨same, lines₁, hs, ht₁⟩ := sendSMS_text h₃ hn₂ hl
  have hm : Wapp.SendSMS.limits w₂ k = Wapp.SendSMS.limits w k := by
    simp [Wapp.SendSMS.limits, a.senzor, a.senzor255]
  rw [alarmType_of_beyond hb] at hw
  rw [a.temp, hm, alarmType_of_beyond hb₁] at hs
  exact {
    wapp := ⟨_, hb.wappReport hw, _, same ▸ ht, objekt, rfl⟩
    sms  := ⟨_, hb₁.smsReport hs, ht₁⟩
  }

-- A running delay has been started by an alarm that was raised.
def Started (t : List Obs) (s : State) : Prop :=
  ∀ k, (s.dev.sen k).delayWord ≠ 0 → (cause k t).isSome

theorem cause_append (h : (cause k t).isSome) : (cause k (t ++ o)).isSome := by
  rw [cause, List.foldl_append]
  show (List.foldl (Obs.cause k) (cause k t) o).isSome
  generalize cause k t = c at h
  induction o generalizing c with
  | nil => exact h
  | cons x o ih =>
    refine ih _ ?_
    cases x with
    | raised j kind =>
      simp only [Obs.cause]
      split
      · rfl
      · exact h
    | reported => exact h

theorem cause_raised (h : .raised k kind ∈ o) : (cause k (t ++ o)).isSome := by
  have ⟨o₁, o₂, ho⟩ := List.append_of_mem h
  rw [ho, List.append_cons, ← List.append_assoc]
  refine cause_append ?_
  simp [cause, Obs.cause]

theorem Started.append (h : Started t s)
    (hw : ∀ k, (s₁.dev.sen k).delayWord ≠ 0 → (s.dev.sen k).delayWord ≠ 0) : Started (t ++ o) s₁ :=
  fun k hk => cause_append <| h k <| hw k hk

theorem testSensor_word (h : (Alarm.testSensor m).1.delayWord ≠ 0) :
    m.delayWord ≠ 0 ∨ (Alarm.testSensor m).2 := by
  by_cases he : m.senzor.enble = 0
  case pos => exact .inl <| by rwa [Alarm.testSensor_off he] at h
  case neg =>
    by_cases hn : m.senzor.errorCounter = 0
    case pos =>
      rw [Alarm.testSensor_read he hn] at h ⊢
      cases Alarm.testAlarm_cases m with
      | quiet same alarm =>
        simp only [same, alarm, if_true] at h
        exact .inl h
      | enter _ _ _ _ alarm => exact .inr <| by simp [alarm]
      | leave same alarm => simp [same, alarm] at h
    case neg =>
      by_cases hc : m.senzor.errorCounter = Alarm.onewireErrorCount
      case pos => exact .inr <| by rw [Alarm.testSensor_error he hc]
      case neg => exact .inl <| by rwa [Alarm.testSensor_waiting hn hc] at h

theorem scanSensors_word {d : Alarm.State} (h : ((Alarm.scanSensors d r).1.sen k).delayWord ≠ 0) :
    (d.sen k).delayWord ≠ 0 ∨ (Alarm.scanSensors d r).2.any (·.raised k) := by
  induction r generalizing d with
  | nil => simpa [Alarm.scanSensors, Alarm.testSensors, Alarm.State.look] using testSensor_word h
  | cons j r ih =>
    simp only [Alarm.scanSensors] at h ⊢
    split at h
    case isTrue => exact .inl h
    case isFalse he =>
      rw [if_neg he]
      refine (ih h).imp_left fun h => ?_
      by_cases hk : k = j
      case pos => simpa [hk] using h
      case neg => rwa [Alarm.State.set_sen_ne _ hk] at h

theorem ptReadTemp_word {d d₁ : Alarm.State} (hs : Alarm.ptReadTemp d ds = some (d₁, u))
    (h : (d₁.sen k).delayWord ≠ 0) : (d.sen k).delayWord ≠ 0 ∨ u.any (·.raised k) := by
  unfold Alarm.ptReadTemp at hs
  split at hs
  case h_1 =>
    cases hs
    exact .inl h
  case h_2 =>
    have hs := Option.some.inj hs
    have := scanSensors_word (d := d) (r := List.finRange 8) (k := k)
    rw [hs] at this
    exact this h
  case h_3 j _ =>
    simp only [Option.bind_eq_bind, Option.bind_eq_some_iff] at hs
    have ⟨m, hm, hs⟩ := hs
    cases hs
    simp only [List.any_cons]
    refine (scanSensors_word h).imp (fun h => ?_) fun h => by simp [h]
    by_cases hk : k = j
    case pos =>
      subst hk
      rwa [Alarm.State.set_sen_self, (Alarm.readSensor_spec hm).2] at h
    case neg => rwa [Alarm.State.set_sen_ne _ hk] at h

theorem readTemp_started {d : Alarm.State} (h : Started t s)
    (hs : Alarm.ptReadTemp s.dev ds = some (d, u)) :
    Started (t ++ raises d u) { s with dev := d } := by
  intro k hk
  cases ptReadTemp_word hs hk with
  | inl hk => exact cause_append <| h k hk
  | inr hk => exact cause_raised <| List.mem_filterMap.mpr ⟨k, List.mem_finRange k, if_pos hk⟩

theorem ReportLaw.silent (h : ReportLaw t) (ho : ∀ x ∈ o, ∀ k w w₁, x ≠ .reported k w w₁) :
    ReportLaw (t ++ o) :=
  h.append fun _ x _ he k w w₁ hx => absurd hx <| ho x (by simp [he]) k w w₁

theorem raises_silent : ∀ x ∈ raises d u, ∀ k w w₁, x ≠ .reported k w w₁ := by
  intro x hx k w w₁ he
  subst he
  have ⟨j, _, hj⟩ := List.mem_filterMap.mp hx
  split at hj <;> cases hj

theorem delayTurn_word (h : (Wapp.delayTurn word delay).1 ≠ 0 ∨ (Wapp.delayTurn word delay).2) :
    word ≠ 0 := by
  intro hw
  have : ¬delay.toUInt32 < 0 := by simp [UInt32.lt_iff_toNat_lt]
  simp [Wapp.delayTurn, hw, this] at h

theorem slotStep_law (i : Started t s ∧ (Reportable t → ReportLaw t))
    (hs : delayLoop.step s slot = some (s₁, o)) :
    Started (t ++ o) s₁ ∧ (Reportable (t ++ o) → ReportLaw (t ++ o)) := by
  cases slot with
  | inp n =>
    simp only [delayLoop, slotStep, Option.bind_eq_bind, Option.bind_eq_some_iff] at hs
    have ⟨⟨w, _⟩, _, hs⟩ := hs
    cases hs
    simpa [Started] using i
  | sen k =>
    simp only [delayLoop, slotStep] at hs
    generalize ht : Wapp.delayTurn _ _ = turn at hs
    have word {j : Fin 8}
        (h : ((s.dev.set k { s.dev.sen k with delayWord := turn.1 }).sen j).delayWord ≠ 0) :
        (s.dev.sen j).delayWord ≠ 0 := by
      by_cases hj : j = k
      case pos =>
        subst hj
        rw [Alarm.State.set_sen_self] at h
        exact delayTurn_word <| .inl <| ht ▸ h
      case neg => rwa [Alarm.State.set_sen_ne _ hj] at h
    split at hs
    case isFalse =>
      cases hs
      exact ⟨i.1.append fun j hj => word hj, by simpa using i.2⟩
    case isTrue expired =>
      simp only [Option.bind_eq_bind, Option.bind_eq_some_iff] at hs
      have ⟨⟨w, u⟩, hw, hs⟩ := hs
      cases hs
      refine ⟨i.1.append fun j hj => word hj, fun r => ?_⟩
      refine (i.2 r.of_append).concat fun j w₂ w₃ he => ?_
      cases he
      have ⟨kind, hk⟩ := Option.isSome_iff_exists.mp <| i.1 k <| delayTurn_word <| .inr <| ht ▸ expired
      have ⟨hc, hb, hb₁, name, hn, hl⟩ := r _ _ [] rfl _ _ _ rfl
      refine ⟨kind, hk, name, hn, ?_⟩
      have hc : kind ≠ Alarm.err := fun h => hc <| h ▸ hk
      rw [if_neg hc]
      exact send_carried hw hb hb₁ hn hl

theorem step_law (i : Started t s ∧ (Reportable t → ReportLaw t))
    (hs : device.step s e = some (s₁, o)) :
    Started (t ++ o) s₁ ∧ (Reportable (t ++ o) → ReportLaw (t ++ o)) := by
  cases e with
  | readTemp ds =>
    simp only [device, Option.bind_eq_bind, Option.bind_eq_some_iff] at hs
    have ⟨⟨d, u⟩, hd, hs⟩ := hs
    cases hs
    exact ⟨readTemp_started i.1 hd, fun r => (i.2 r.of_append).silent raises_silent⟩
  | alarmDelay =>
    exact Machine.run_history (I := fun t s => Started t s ∧ (Reportable t → ReportLaw t))
      (fun i _ hs => slotStep_law i hs) i Machine.Guarded.trivial hs
  | post k sen =>
    cases hs
    refine ⟨i.1.append fun j hj => ?_, by simpa using i.2⟩
    by_cases h : j = k
    case pos => simpa [Alarm.saveSensor, h] using hj
    case neg => simpa [Alarm.saveSensor, h] using hj
  | others temp wapp =>
    cases hs
    simpa [Started] using i

-- In every run from a state in which no delay is running, both channels report what they should as
-- long as they can.
theorem report_law (h : ∀ k, (s.dev.sen k).delayWord = 0) (hr : device.run s es = some (s₁, t))
    (reportable : Reportable t) : ReportLaw t :=
  (Machine.run_history (I := fun t s => Started t s ∧ (Reportable t → ReportLaw t)) (t := [])
    (fun i _ hs => step_law i hs) ⟨fun k hk => absurd (h k) hk, fun _ => Always.nil⟩
    Machine.Guarded.trivial hr).2 reportable

instance : Decidable (Carried w name kind temp) :=
  decidable_of_iff
    ((∃ r ∈ wappReport name kind temp, ∃ t ∈ w.wapp.msg.text 0, r <:+ t) ∧
      ∃ r ∈ smsReport name kind temp, w.infobip.poruka.text 0 = some r)
    ⟨fun ⟨h, h₁⟩ => ⟨h, h₁⟩, fun ⟨h, h₁⟩ => ⟨h, h₁⟩⟩

instance : Decidable (Beyond temp sen state) :=
  inferInstanceAs <| Decidable (_ ∨ _)

-- A condition on the reports of a trace
instance {P : List Obs → Fin 8 → Wapp.State → Wapp.State → Prop} [∀ t k w w₁, Decidable (P t k w w₁)] :
    Decidable (Always (fun t o => ∀ k w w₁, o = .reported k w w₁ → P t k w w₁) t) := by
  have : ∀ t : List Obs, ∀ o : Obs, Decidable (∀ k w w₁, o = .reported k w w₁ → P t k w w₁) := by
    intro t o
    cases o with
    | raised => exact isTrue fun _ _ _ he => nomatch he
    | reported k w w₁ =>
      refine decidable_of_iff (P t k w w₁) ⟨fun h _ _ _ he => ?_, fun h => h k w w₁ rfl⟩
      obtain ⟨rfl, rfl, rfl⟩ := Obs.reported.inj he
      exact h
  infer_instance

instance : Decidable (Reportable t) :=
  inferInstanceAs <| Decidable (Always _ t)

instance : Decidable (ReportLaw t) :=
  inferInstanceAs <| Decidable (Always _ t)

-- Only sensor 1, which has the name A, is enabled. The others have another limit.
def warm (limit : Int8) : State where
  dev  := { Alarm.oneSensor with sen := fun k => {
    Alarm.oneSensor.sen 0 with senzor := { (Alarm.oneSensor.sen 0).senzor with
      highLimit := if k = 1 then 8 else limit, enble := if k = 1 then 1 else 0 } } }
  wapp := .init (Wapp.tooWarm [])

def oneAlarm : List Event :=
  [.readTemp Alarm.thirty, .readTemp Alarm.thirty, .readTemp Alarm.thirty, .alarmDelay]

theorem report_law_one_alarm : ∃ s₁ t, device.run (warm 8) oneAlarm = some (s₁, t) ∧
    s₁.wapp.infobip.poruka.text 0 = some (ascii "A\r\n ALARM VISOKE TEMPERATURE 30.00 C\r\n") ∧
    ReportLaw t := by
  have : (device.run (warm 8) oneAlarm).any (fun (s₁, t) => Reportable t ∧
      s₁.wapp.infobip.poruka.text 0 =
        some (ascii "A\r\n ALARM VISOKE TEMPERATURE 30.00 C\r\n")) := by
    decide +kernel
  have ⟨(s₁, t), hr, ht⟩ := Option.any_eq_true _ _ |>.mp this
  have ⟨reportable, hs⟩ := of_decide_eq_true ht
  exact ⟨s₁, t, hr, hs, report_law (fun _ => rfl) hr reportable⟩

-- Sensor 0 would not be too warm with 30 degrees.
theorem sms_without_alarm :
    ¬∀ s es s₁ t, (∀ k, (s.dev.sen k).delayWord = 0) → device.run s es = some (s₁, t) →
      ReportLaw t := by
  intro h
  have : (device.run (warm 100) oneAlarm).any (fun (_, t) => ¬ReportLaw t) := by
    decide +kernel
  have ⟨(s₁, t), hr, ht⟩ := Option.any_eq_true _ _ |>.mp this
  exact of_decide_eq_true ht <| h _ _ _ _ (fun _ => rfl) hr

end Report
