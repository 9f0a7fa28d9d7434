import Webtermo.Execution.Alarm.Theorems.DelayLaw

namespace Alarm

variable {m m₁ : SensorMem} {s s₁ : State} {k : Fin 8} {o : Obs}

-- A good reading does not end a read error for which messages are still to be sent.
def ReadOk (m : SensorMem) (ds : DsBuf) : Prop :=
  goodReading ds → onewireErrorCount < m.senzor.errorCounter → m.senzor.state = Alarm.no →
    m.delayWord = 0

def errorsAfter (m : SensorMem) (ds : DsBuf) : UInt8 :=
  if goodReading ds then 0
  else if m.senzor.errorCounter < onewireErrorCount then m.senzor.errorCounter + 1
  else m.senzor.errorCounter

-- A read error is not raised for a sensor that is in a temperature alarm.
def TestOk (m : SensorMem) (errors : UInt8) : Prop :=
  m.senzor.enble ≠ 0 → errors = onewireErrorCount → m.senzor.state = Alarm.no

-- No sensor is left to be read before the alarms are tested.
def State.TestsNow (s : State) (rest : List (Fin 8)) : Prop :=
  ∀ j ∈ rest, (s.sen j).senzor.enble = 0

-- A save handler leaves a sensor enabled and its delay alone as long as messages are still to be
-- sent for it.
def SaveOk (m : SensorMem) (sen : Sensor) : Prop :=
  1 ≤ sen.delay.toNat ∧ (m.delayWord ≠ 0 → sen.enble ≠ 0 ∧ sen.delay = m.senzor.delay)

def Event.Ok (k : Fin 8) (s : State) : Event → Prop
  | readTemp ds => match s.ptReadTemp with
    | .start   => True
    | .yielded => s.TestsNow (List.finRange 8) → TestOk (s.sen k) (s.sen k).senzor.errorCounter
    | .wait j  => (j = k → ReadOk (s.sen k) ds) ∧ (s.TestsNow (after j) →
        TestOk (s.sen k) (if j = k then errorsAfter (s.sen k) ds else (s.sen k).senzor.errorCounter))
  | alarmDelay => True
  | post j sen => j = k → SaveOk (s.sen k) sen

instance : Decidable (ReadOk m ds) := inferInstanceAs <| Decidable (_ → _ → _ → _)
instance : Decidable (TestOk m n) := inferInstanceAs <| Decidable (_ → _ → _)
instance : Decidable (s.TestsNow rest) := inferInstanceAs <| Decidable (∀ j ∈ rest, _)
instance : Decidable (SaveOk m sen) := inferInstanceAs <| Decidable (_ ∧ (_ → _))

instance : Decidable (Event.Ok k s e) := by
  cases e <;> unfold Event.Ok
  case readTemp ds => cases s.ptReadTemp <;> infer_instance
  all_goals infer_instance

theorem State.look_seen (h : s.sen k = m) : Seen k m (s.look tick called raised) where
  inAlarm := by simp [look, h]
  delay   := by simp [look, h]

theorem readSensor_spec (h : readSensor m ds = some m₁) :
    m₁.senzor = { m.senzor with errorCounter := errorsAfter m ds } ∧
      m₁.delayWord = m.delayWord := by
  by_cases hg : goodReading ds
  case pos =>
    simp only [readSensor, hg, if_true, Option.bind_eq_bind, Option.bind_eq_some_iff] at h
    have ⟨_, _, h⟩ := h
    cases h
    simp [errorsAfter, hg]
  case neg =>
    simp only [readSensor, hg, Bool.false_eq_true, if_false] at h
    cases h
    simp [errorsAfter, hg]

-- A bad reading does not end a read error that has been raised.
theorem errorsAfter_bad (h : ¬goodReading ds) (hn : onewireErrorCount < m.senzor.errorCounter) :
    onewireErrorCount < errorsAfter m ds := by
  have : ¬m.senzor.errorCounter < onewireErrorCount := by
    simp only [UInt8.lt_iff_toNat_lt] at hn ⊢
    omega
  rw [errorsAfter, if_neg h, if_neg this]
  exact hn

theorem readSensor_inAlarm (h : readSensor m ds = some m₁) (on : InAlarm m) (hw : m.delayWord ≠ 0)
    (ok : ReadOk m ds) : InAlarm m₁ := by
  have ⟨hs, _⟩ := readSensor_spec h
  simp only [InAlarm, hs]
  refine ⟨on.1, ?_⟩
  cases on.2 with
  | inl hn => exact .inl hn
  | inr hn =>
    by_cases hg : goodReading ds
    case pos => exact .inl fun hst => hw <| ok hg hn hst
    case neg => exact .inr <| errorsAfter_bad hg hn

theorem readSensor_turn (on : m.delayWord ≠ 0 → InAlarm m) (ok : ReadOk m ds)
    (h : readSensor m ds = some m₁) (seen : Seen k m₁ o) (tick : ¬o.tick) (raised : ¬o.raised k)
    (called : ¬o.called k) : Turn k m m₁ o :=
  have ⟨hs, hw⟩ := readSensor_spec h
  .quiet seen tick raised called hw fun w => ⟨readSensor_inAlarm h (on w) w ok, by rw [hs]⟩

-- What `test_alarm` does to a sensor that has been read: nothing, a new alarm, or the end of one
inductive Tested (m m₁ : SensorMem) (alarm : UInt8) : Prop
  | quiet (same : m₁ = m) (alarm : alarm = 0)
  | enter (off : m.senzor.state = Alarm.no) (state : UInt8) (on : state ≠ Alarm.no)
    (same : m₁ = { m with senzor := { m.senzor with state } }) (alarm : alarm ≠ 0)
  | leave (same : m₁ = { m with senzor := { m.senzor with state := Alarm.no }, delayWord := 0 })
    (alarm : alarm = 0)

theorem testAlarm_cases (m : SensorMem) : Tested m (testAlarm m).1 (testAlarm m).2 := by
  unfold testAlarm
  simp only
  split
  case isTrue off =>
    split
    case isTrue => exact .enter off Alarm.hi (by simp) rfl (by simp)
    case isFalse =>
      split
      case isTrue => exact .enter off Alarm.low (by simp) rfl (by simp)
      case isFalse => exact .quiet rfl rfl
  case isFalse =>
    split
    case isTrue =>
      split
      case isTrue => exact .leave rfl rfl
      case isFalse => exact .quiet rfl rfl
    case isFalse =>
      split
      case isTrue =>
        split
        case isTrue => exact .leave rfl rfl
        case isFalse => exact .quiet rfl rfl
      case isFalse => exact .quiet rfl rfl

theorem testSensor_off (h : m.senzor.enble = 0) : testSensor m = (m, false) := by
  simp [testSensor, h]

theorem testSensor_read (h : m.senzor.enble ≠ 0) (hn : m.senzor.errorCounter = 0) :
    testSensor m = if (testAlarm m).2 = 0 then ((testAlarm m).1, false)
      else ({ (testAlarm m).1 with delayWord := 1 }, true) := by
  simp [testSensor, h, hn]

theorem testSensor_error (h : m.senzor.enble ≠ 0) (hn : m.senzor.errorCounter = onewireErrorCount) :
    testSensor m = ({ m with senzor := { m.senzor with errorCounter := 7 }, delayWord := 1 }, true) := by
  have : (5 : UInt8) ≠ 0 := by decide
  have h₅ : (5 : UInt8) + 2 = 7 := by decide
  simp [testSensor, h, hn, this, h₅]

theorem testSensor_waiting (hn : m.senzor.errorCounter ≠ 0)
    (hc : m.senzor.errorCounter ≠ onewireErrorCount) : testSensor m = (m, false) := by
  simp only [onewireErrorCount] at hc
  simp [testSensor, hn, hc]

-- An alarm is raised only for a sensor that is not in alarm and that then is.
theorem testSensor_turn (on : m.delayWord ≠ 0 → InAlarm m) (ok : TestOk m m.senzor.errorCounter)
    (seen : Seen k (testSensor m).1 o) (tick : ¬o.tick) (raised : o.raised k = (testSensor m).2)
    (called : ¬o.called k) : Turn k m (testSensor m).1 o := by
  have unchanged (h : testSensor m = (m, false)) : Turn k m (testSensor m).1 o := by
    rw [h] at seen raised ⊢
    exact .quiet seen tick (by simp [raised]) called rfl fun w => ⟨on w, rfl⟩
  by_cases he : m.senzor.enble = 0
  case pos => exact unchanged <| testSensor_off he
  case neg =>
    by_cases hn : m.senzor.errorCounter = 0
    case pos =>
      have ht := testSensor_read he hn
      cases testAlarm_cases m with
      | quiet same alarm => exact unchanged <| by simp [ht, same, alarm]
      | enter off state on same alarm =>
        rw [ht] at seen raised ⊢
        simp only [same, alarm, if_false] at seen raised ⊢
        exact .raised seen tick raised called rfl (by simp [InAlarm, off, hn]) ⟨he, .inl on⟩
      | leave same alarm =>
        rw [ht] at seen raised ⊢
        simp only [same, alarm, if_true] at seen raised ⊢
        exact .cleared seen tick (by simp [raised]) called rfl (by simp [InAlarm, hn])
    case neg =>
      by_cases hc : m.senzor.errorCounter = onewireErrorCount
      case pos =>
        rw [testSensor_error he hc] at seen raised ⊢
        exact .raised seen tick raised called rfl (by simp [InAlarm, ok he hc, hc])
          ⟨he, .inr <| by simp⟩
      case neg => exact unchanged <| testSensor_waiting hn hc

theorem testAlarm_delay : (testAlarm m).1.senzor.delay = m.senzor.delay := by
  cases testAlarm_cases m with
  | quiet same => rw [same]
  | enter _ _ _ same => rw [same]
  | leave same => rw [same]

theorem testSensor_delay : (testSensor m).1.senzor.delay = m.senzor.delay := by
  by_cases he : m.senzor.enble = 0
  case pos => rw [testSensor_off he]
  case neg =>
    by_cases hn : m.senzor.errorCounter = 0
    case pos =>
      rw [testSensor_read he hn]
      split <;> exact testAlarm_delay
    case neg =>
      by_cases hc : m.senzor.errorCounter = onewireErrorCount
      case pos => rw [testSensor_error he hc]
      case neg => rw [testSensor_waiting hn hc]

-- The loops of `ptReadTemp`

theorem testSensors_inv (i : Inv k t (s.sen k))
    (ok : TestOk (s.sen k) (s.sen k).senzor.errorCounter) :
    Inv k (t ++ (testSensors s).2) ((testSensors s).1.sen k) := by
  have pos : 1 ≤ (testSensor (s.sen k)).1.senzor.delay.toNat := by
    rw [testSensor_delay]
    exact i.pos
  refine i.turn ?_ pos
  exact testSensor_turn i.awaited_inAlarm ok (State.look_seen rfl) (by simp [State.look]) rfl
    (by simp [State.look])

-- Nothing but `state` changes for a sensor that is skipped, and nothing that is tested reads it.
theorem skip_senzor (s : State) :
    ((s.set j { s.sen j with state := 0 }).sen i).senzor = (s.sen i).senzor := by
  by_cases h : i = j
  case pos => simp [h]
  case neg => simp [h]

theorem skip_inv (i : Inv k t (s.sen k)) :
    Inv k t ((s.set j { s.sen j with state := 0 }).sen k) := by
  by_cases h : k = j
  case pos =>
    subst h
    rw [State.set_sen_self]
    exact ⟨i.law, i.once, i.live, i.answered, i.counted, i.called, i.awaited, i.bound, i.pos⟩
  case neg => exact (State.set_sen_ne s h).symm ▸ i

theorem scanSensors_inv (i : Inv k t (s.sen k))
    (ok : s.TestsNow rest → TestOk (s.sen k) (s.sen k).senzor.errorCounter) :
    Inv k (t ++ (scanSensors s rest).2) ((scanSensors s rest).1.sen k) := by
  induction rest generalizing s with
  | nil => exact testSensors_inv i <| ok <| by simp [State.TestsNow]
  | cons j rest ih =>
    by_cases he : (s.sen j).senzor.enble = 0
    case pos =>
      simp only [scanSensors, he, ne_eq, not_true_eq_false, if_false]
      refine ih (skip_inv i) fun h => ?_
      have hk : s.TestsNow (j :: rest) := by
        intro r hr
        cases hr with
        | head => exact he
        | tail _ hr => exact skip_senzor s ▸ h r hr
      simpa only [TestOk, skip_senzor] using ok hk
    case neg =>
      simp only [scanSensors, he, ne_eq, not_false_eq_true, if_true, List.append_nil]
      exact i

-- A reading of another sensor is nothing to sensor `k`.
theorem quiet_look (i : Inv k t (s.sen k)) (h : s₁.sen k = s.sen k) :
    Inv k (t ++ [s₁.look false (fun _ => false) (fun _ => false)]) (s₁.sen k) := by
  rw [h]
  refine i.turn (.quiet (State.look_seen h) ?_ ?_ ?_ rfl fun w => ⟨i.awaited_inAlarm w, rfl⟩) i.pos
  all_goals simp [State.look]

theorem read_inv (i : Inv k t (s.sen k)) (ok : j = k → ReadOk (s.sen k) ds)
    (h : readSensor (s.sen j) ds = some m) :
    Inv k (t ++ [(s.set j m).look false (fun _ => false) (fun _ => false)]) ((s.set j m).sen k) := by
  by_cases hj : k = j
  case pos =>
    subst hj
    have hm := State.set_sen_self s (k := k) (m := m)
    have pos : 1 ≤ m.senzor.delay.toNat := by
      rw [(readSensor_spec h).1]
      exact i.pos
    rw [hm]
    refine i.turn (readSensor_turn i.awaited_inAlarm (ok rfl) h (State.look_seen hm) ?_ ?_ ?_) pos
    all_goals simp [State.look]
  case neg => exact quiet_look i <| State.set_sen_ne s hj

theorem read_testOk (h : readSensor (s.sen j) ds = some m)
    (ok : TestOk (s.sen k) (if j = k then errorsAfter (s.sen k) ds else (s.sen k).senzor.errorCounter)) :
    TestOk ((s.set j m).sen k) ((s.set j m).sen k).senzor.errorCounter := by
  by_cases hj : k = j
  case pos =>
    subst hj
    simpa [TestOk, readSensor_spec h] using ok
  case neg => simpa [hj, Ne.symm hj] using ok

theorem read_testsNow (h : (s.set j m).TestsNow (after j)) : s.TestsNow (after j) := by
  intro r hr
  have hj : r ≠ j := by
    simp only [after, List.mem_filter, decide_eq_true_eq] at hr
    exact (Fin.ne_of_lt hr.2).symm
  simpa [hj] using h r hr

theorem readTemp_inv (i : Inv k t (s.sen k)) (ok : Event.Ok k s (.readTemp ds))
    (h : ptReadTemp s ds = some (s₁, u)) : Inv k (t ++ u) (s₁.sen k) := by
  cases hp : s.ptReadTemp with
  | start =>
    simp only [ptReadTemp, hp] at h
    cases h
    simpa using i
  | yielded =>
    simp only [ptReadTemp, Event.Ok, hp] at h ok
    have hs := scanSensors_inv i ok
    rwa [Option.some.inj h] at hs
  | wait j =>
    simp only [ptReadTemp, Event.Ok, hp] at h ok
    simp only [Option.bind_eq_bind, Option.bind_eq_some_iff] at h
    have ⟨m, hm, h⟩ := h
    have hs := scanSensors_inv (read_inv i ok.1 hm) fun hn => read_testOk hm <| ok.2 <| read_testsNow hn
    have ⟨h₁, h₂⟩ := Prod.mk.inj <| Option.some.inj h
    rw [← h₁, ← h₂]
    simpa using hs

theorem alarmDelay_inv (i : Inv k t (s.sen k)) :
    Inv k (t ++ (ptAlarmDelay s).2) ((ptAlarmDelay s).1.sen k) := by
  refine i.turn (.tick (State.look_seen rfl) rfl ?_ Iff.rfl rfl rfl) i.pos
  simp [State.look]

theorem saveSensor_inv (i : Inv k t (s.sen k)) (ok : j = k → SaveOk (s.sen k) sen) :
    Inv k (t ++ (saveSensor s j sen).2) ((saveSensor s j sen).1.sen k) := by
  by_cases hj : k = j
  case pos =>
    subst hj
    have ⟨pos, ok⟩ := ok rfl
    have on (w : (s.sen k).delayWord ≠ 0) : InAlarm ((saveSensor s k sen).1.sen k) ∧
        ((saveSensor s k sen).1.sen k).senzor.delay = (s.sen k).senzor.delay := by
      simpa [saveSensor, InAlarm, ok w] using (i.awaited_inAlarm w).2
    refine i.turn (.quiet (State.look_seen rfl) ?_ ?_ ?_ ?_ on) <| by simpa [saveSensor] using pos
    all_goals simp [State.look, saveSensor]
  case neg => exact quiet_look i <| State.set_sen_ne s hj

theorem step_inv (i : Inv k t (s.sen k)) (ok : Event.Ok k s e) (h : device.step s e = some (s₁, u)) :
    Inv k (t ++ u) (s₁.sen k) := by
  cases e with
  | readTemp ds => exact readTemp_inv i ok h
  | alarmDelay =>
    cases h
    exact alarmDelay_inv i
  | post j sen =>
    cases h
    exact saveSensor_inv i ok

-- In every run that meets the condition, messages are sent exactly `DELAY` ticks after an alarm was
-- raised if the sensor is still in it, and only once.
theorem alarm_delay_law (hw : (s.sen k).delayWord = 0) (hd : 1 ≤ (s.sen k).senzor.delay.toNat)
    (g : device.Guarded (Event.Ok k) s es) (hr : device.run s es = some (s₁, t)) :
    DelayLaw k t ∧ AtMostOnce k t :=
  have i : Inv k t (s₁.sen k) := Machine.run_history (M := device) (I := fun t s => Inv k t (s.sen k))
    step_inv (.init hw hd) g hr
  ⟨i.law, i.once⟩

-- Sensor 0, too warm above eight degrees with a delay of one tick, is the only one enabled.
def oneSensor : State where
  sen k      := {
    senzor    := { (default : Sensor) with
      highLimit := 8, enble := if k = 0 then 1 else 0, delay := 1 }
    temp      := 0
    state     := 0
    nvSum     := 0
    nvCount   := 0
    delayWord := 0
  }
  ptReadTemp := .start

-- A reading of 30 degrees
def thirty : DsBuf
  | 0 => 0xE0
  | 1 => 0x01
  | 8 => 78
  | _ => 0

def tooWarm : List Event :=
  [.readTemp thirty, .readTemp thirty, .readTemp thirty]

-- An observation as far as it is about sensor `k`
def Obs.at (k : Fin 8) (o : Obs) : Bool × Bool × Bool × Bool × Nat :=
  (o.tick, o.called k, o.raised k, o.inAlarm k, o.delay k)

theorem alarm_delay_law_too_warm :
    ((device.run oneSensor (tooWarm ++ [Event.alarmDelay])).map fun r => r.2.map (Obs.at 0)) =
      some [(false, false, false, false, 1), (false, false, true, true, 1),
        (true, true, false, true, 1)] ∧
    ∀ s₁ t, device.run oneSensor (tooWarm ++ [Event.alarmDelay]) = some (s₁, t) →
      DelayLaw 0 t ∧ AtMostOnce 0 t :=
  ⟨by decide +kernel, fun _ _ => alarm_delay_law (k := 0) rfl (by decide) (by decide +kernel)⟩

-- Sensor 0 is disabled while messages are to be sent for it.
def disabled : List Event :=
  tooWarm ++ [Event.post 0 { oneSensor.sen 0 |>.senzor with enble := 0 }, .alarmDelay]

-- A sensor for which messages are sent was in alarm right before.
theorem DelayLaw.inAlarm (h : DelayLaw k (t ++ [y, x])) (hx : x.called k) : y.inAlarm k :=
  have ⟨_, _, _, hs, _⟩ := (h (t ++ [y]) x [] (by simp)).mp hx
  hs.holds_last

-- The word is cleared only by a temperature that is back to normal.
theorem called_when_disabled :
    ¬∀ s es s₁ t, (s.sen 0).delayWord = 0 → device.run s es = some (s₁, t) →
      (∀ o ∈ t, o.delay 0 = 1) → DelayLaw 0 t := by
  intro h
  have hd : ((device.run oneSensor disabled).map fun r => r.2.map (Obs.at 0)) =
      some ([(false, false, false, false, 1), (false, false, true, true, 1)] ++
        [(false, false, false, false, 1), (true, true, false, false, 1)]) := by
    decide +kernel
  have ⟨⟨s₁, t⟩, hr, ht⟩ := Option.map_eq_some_iff.mp hd
  simp only at ht
  have delay : ∀ p ∈ t.map (Obs.at 0), p.2.2.2.2 = 1 := by
    simp only [ht]
    decide
  have law := h oneSensor disabled s₁ t rfl hr fun o ho => delay _ (List.mem_map_of_mem ho)
  have ⟨t₁, _, ht, _, h₂⟩ := List.map_eq_append_iff.mp ht
  have ⟨y, _, hy, hyo, h₂⟩ := List.map_eq_cons_iff.mp h₂
  have ⟨x, _, hx, hxo, h₂⟩ := List.map_eq_cons_iff.mp h₂
  rw [ht, hy, hx, List.map_eq_nil_iff.mp h₂] at law
  simp only [Obs.at, Prod.mk.injEq] at hyo hxo
  have := law.inAlarm hxo.2.1
  simp [hyo] at this

end Alarm
