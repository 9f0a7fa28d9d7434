import Webtermo.Execution.Alarm.Theorems.Run
import Webtermo.Execution.Input.Theorems
import Webtermo.Execution.Pages.Theorems.Document

-- The time until an alarm is sent, as the pages of the sensors and of the inputs print it
namespace Pages

-- Seconds taken apart, with no difference below zero on the way and nothing cut off
structure Split (sec hh mm ss : ℤ) : Prop where
  pos     : 0 ≤ sec
  hours   : hh = sec / 3600
  rest    : 0 ≤ sec - hh * 3600
  minutes : mm = (sec - hh * 3600) / 60
  left    : 0 ≤ sec - hh * 3600 - mm * 60
  seconds : ss = sec - hh * 3600 - mm * 60

structure Remaining (limit : UInt16) (word : UInt32) (hh mm ss : UInt16) : Prop where
  value   : 3600 * hh.toNat + 60 * mm.toNat + ss.toNat =
    if word ≠ 0 ∧ word.toNat ≤ limit.toNat then limit.toNat - word.toNat else 0
  minutes : mm.toNat < 60
  seconds : ss.toNat < 60
  exact   : word ≠ 0 → Split (limit.toNat - word.toNat) hh.toNat mm.toNat ss.toNat

-- The page has an element `tag` with the hours, minutes and seconds that are left.
def Page.Shows (page : Page) (env : Env) (tag : Bytes) (limit : UInt16) (word : UInt32) : Prop :=
  ∀ ans, ∃ v hh mm ss, .printed tag .tmpBuf v ∈ page.parts ans ∧
    v.print env ans = some (dec hh.toNat ++ ascii ":" ++ dec mm.toNat ++ ascii ":" ++ dec ss.toNat) ∧
    Remaining limit word hh mm ss

section Delay

variable {limit : UInt16} {word : UInt32}

theorem remaining_zero : Remaining limit 0 0 0 0 :=
  ⟨by simp, by decide, by decide, by simp⟩

theorem delay_split (hw : word ≠ 0) (h : word.toNat ≤ limit.toNat) :
    Split (limit.toNat - word.toNat) (delay limit word).1.toNat (delay limit word).2.1.toNat
      (delay limit word).2.2.toNat := by
  have hl := limit.toNat_lt
  have hd : (limit.toUInt32 - word).toNat = limit.toNat - word.toNat := by
    rw [UInt32.toNat_sub, UInt16.toNat_toUInt32]
    omega
  simp only [delay, if_neg hw]
  generalize limit.toUInt32 - word = sec at hd ⊢
  have hours : ((sec / 3600).toUInt16).toNat = sec.toNat / 3600 := by
    simp
    omega
  generalize (sec / 3600).toUInt16 = hh at hours ⊢
  have rest : (sec - hh.toUInt32 * 3600).toNat = sec.toNat - hh.toNat * 3600 := by
    simp [UInt32.toNat_sub]
    omega
  have minutes : (((sec - hh.toUInt32 * 3600) / 60).toUInt16).toNat =
      (sec.toNat - hh.toNat * 3600) / 60 := by
    simp [rest]
    omega
  generalize ((sec - hh.toUInt32 * 3600) / 60).toUInt16 = mm at minutes ⊢
  have seconds : ((sec - hh.toUInt32 * 3600 - mm.toUInt32 * 60).toUInt16).toNat =
      sec.toNat - hh.toNat * 3600 - mm.toNat * 60 := by
    rw [UInt32.toNat_toUInt16, UInt32.toNat_sub, rest]
    simp
    omega
  exact ⟨by omega, by omega, by omega, by omega, by omega, by omega⟩

theorem Split.remaining (hw : word ≠ 0) (h : Split (limit.toNat - word.toNat) (UInt16.toNat hh)
    (UInt16.toNat mm) (UInt16.toNat ss)) : Remaining limit word hh mm ss := by
  have ⟨h₁, h₂, h₃, h₄, h₅, h₆⟩ := h
  refine ⟨?_, by omega, by omega, fun _ => h⟩
  rw [if_pos ⟨hw, by omega⟩]
  omega

theorem delay_remaining (h : word.toNat ≤ limit.toNat) :
    Remaining limit word (delay limit word).1 (delay limit word).2.1 (delay limit word).2.2 := by
  by_cases hw : word = 0
  case pos =>
    subst hw
    exact remaining_zero
  case neg => exact (delay_split hw h).remaining hw

-- A word beyond the delay is the only one with a difference below zero.
theorem Remaining.le (h : Remaining limit word hh mm ss) : word.toNat ≤ limit.toNat := by
  by_cases hw : word = 0
  case pos => simp [hw]
  case neg =>
    have := (h.exact hw).pos
    omega

theorem Page.shows_iff {page : Page} {env : Env}
    (hp : ∀ ans, .printed tag .tmpBuf (.delay f) ∈ page.parts ans) (hf : f env = (limit, word)) :
    page.Shows env tag limit word ↔ word.toNat ≤ limit.toNat := by
  constructor
  case mp =>
    intro h
    obtain ⟨_, _, _, _, _, _, hr⟩ := h ioError
    exact hr.le
  case mpr =>
    intro h ans
    refine ⟨_, _, _, _, hp ans, ?_, delay_remaining h⟩
    simp [Value.delay, Value.print, hf]

end Delay

end Pages

namespace Alarm

open Pages (Page numbered)

variable {m m₁ : SensorMem} {s s₁ : State} {k : Fin 8} {o : List Obs}

def SensorMem.Within (m : SensorMem) : Prop :=
  m.delayWord.toNat ≤ m.senzor.delay.toNat

-- No word is beyond its delay.
def State.Within (s : State) : Prop :=
  ∀ k, (s.sen k).Within

def State.Shown (s : State) : Prop :=
  ∀ env : Pages.Env, ∀ k, Page.online.Shows
    { env with senzor := fun k => (s.sen k).senzor, delaySen := fun k => (s.sen k).delayWord }
    (numbered "DELAY" k) (s.sen k).senzor.delay (s.sen k).delayWord

theorem State.shown_iff : s.Shown ↔ s.Within := by
  have shows_iff (env : Pages.Env) (k : Fin 8) : Page.online.Shows
      { env with senzor := fun k => (s.sen k).senzor, delaySen := fun k => (s.sen k).delayWord }
      (numbered "DELAY" k) (s.sen k).senzor.delay (s.sen k).delayWord ↔ (s.sen k).Within :=
    Page.shows_iff (f := fun s => ((s.senzor k).delay, s.delaySen k))
      (fun _ => List.mem_append_left _ <| List.mem_append_right _ <|
        List.mem_flatMap.mpr ⟨k, List.mem_finRange k, by simp⟩) rfl
  constructor
  case mp => exact fun h k => shows_iff (Pages.State.start fun _ => 0).toEnv k |>.mp <| h _ k
  case mpr => exact fun h env k => shows_iff env k |>.mpr <| h k

-- No alarm is raised for a sensor without a delay, and no delay is set that has passed already.
def Event.Timed (s : State) : Event → Prop
  | readTemp ds => ∀ r ∈ ptReadTemp s ds, ∀ x ∈ r.2, ∀ k, x.raised k → (s.sen k).senzor.delay ≠ 0
  | alarmDelay  => True
  | post k sen  => (s.sen k).delayWord.toNat ≤ sen.delay.toNat

-- What a turn of `ptReadTemp` does to the delay of a sensor
structure Ran (m m₁ : SensorMem) (raised : Prop) : Prop where
  delay : m₁.senzor.delay = m.senzor.delay
  set   : raised → m₁.delayWord = 1
  quiet : ¬raised → m₁.delayWord = m.delayWord ∨ m₁.delayWord = 0

namespace Ran

theorem refl {raised : Prop} (h : ¬raised) : Ran m m raised :=
  ⟨rfl, fun hr => absurd hr h, fun _ => .inl rfl⟩

theorem within (h : Ran m m₁ raised) (hw : m.Within) :
    m₁.Within ↔ (raised → m.senzor.delay ≠ 0) := by
  have pos : m.senzor.delay ≠ 0 ↔ 1 ≤ m.senzor.delay.toNat := by
    rw [Ne, ← UInt16.toNat_inj, UInt16.toNat_zero, Nat.one_le_iff_ne_zero]
  rw [SensorMem.Within, h.delay]
  by_cases hr : raised
  case pos => simp [h.set hr, hr, pos]
  case neg =>
    refine iff_of_true ?_ fun h => absurd h hr
    cases h.quiet hr with
    | inl h => exact h ▸ hw
    | inr h => simp [h]

end Ran

theorem testSensor_ran : Ran m (testSensor m).1 (testSensor m).2 := by
  have unchanged (h : testSensor m = (m, false)) : Ran m (testSensor m).1 (testSensor m).2 := by
    rw [h]
    exact .refl (by simp)
  by_cases he : m.senzor.enble = 0
  case pos => exact unchanged <| testSensor_off he
  case neg =>
    by_cases hn : m.senzor.errorCounter = 0
    case pos =>
      have ht := testSensor_read he hn
      cases testAlarm_cases m with
      | quiet same alarm => exact unchanged <| by simp [ht, same, alarm]
      | enter _ _ _ same alarm =>
        rw [ht, if_neg alarm]
        exact ⟨testAlarm_delay, fun _ => rfl, fun h => absurd rfl h⟩
      | leave same alarm =>
        rw [ht, if_pos alarm]
        exact ⟨testAlarm_delay, nofun, fun _ => .inr <| by rw [same]⟩
    case neg =>
      by_cases hc : m.senzor.errorCounter = onewireErrorCount
      case pos =>
        rw [testSensor_error he hc]
        exact ⟨rfl, fun _ => rfl, fun h => absurd rfl h⟩
      case neg => exact unchanged <| testSensor_waiting hn hc

theorem testSensors_ran :
    Ran (s.sen k) ((testSensors s).1.sen k) (∃ x ∈ (testSensors s).2, x.raised k) := by
  simpa [testSensors, State.look] using testSensor_ran

theorem scanSensors_ran :
    Ran (s.sen k) ((scanSensors s rest).1.sen k) (∃ x ∈ (scanSensors s rest).2, x.raised k) := by
  induction rest generalizing s with
  | nil => exact testSensors_ran
  | cons j rest ih =>
    by_cases he : (s.sen j).senzor.enble = 0
    case pos =>
      have skipped : ((s.set j { s.sen j with state := 0 }).sen k).delayWord = (s.sen k).delayWord := by
        by_cases h : k = j
        case pos => simp [h]
        case neg => simp [h]
      simp only [scanSensors, he, ne_eq, not_true_eq_false, if_false]
      obtain ⟨delay, set, quiet⟩ := ih (s := s.set j { s.sen j with state := 0 })
      exact ⟨delay.trans <| congrArg _ <| skip_senzor s, set, skipped ▸ quiet⟩
    case neg =>
      simp only [scanSensors, he, ne_eq, not_false_eq_true, if_true]
      exact .refl (by simp)

theorem readTemp_ran (h : ptReadTemp s ds = some (s₁, o)) :
    Ran (s.sen k) (s₁.sen k) (∃ x ∈ o, x.raised k) := by
  cases hp : s.ptReadTemp with
  | start =>
    simp only [ptReadTemp, hp] at h
    cases h
    exact .refl (by simp)
  | yielded =>
    simp only [ptReadTemp, hp, Option.some.injEq] at h
    have ran : Ran (s.sen k) ((scanSensors s (List.finRange 8)).1.sen k)
        (∃ x ∈ (scanSensors s (List.finRange 8)).2, x.raised k) := scanSensors_ran
    rwa [h] at ran
  | wait j =>
    simp only [ptReadTemp, hp, Option.bind_eq_bind, Option.bind_eq_some_iff, Option.some.injEq] at h
    obtain ⟨m, hm, h⟩ := h
    obtain ⟨hs, ho⟩ := Prod.mk.inj h
    obtain ⟨hd, hw⟩ := readSensor_spec hm
    have read : ((s.set j m).sen k).senzor.delay = (s.sen k).senzor.delay ∧
        ((s.set j m).sen k).delayWord = (s.sen k).delayWord := by
      by_cases hj : k = j
      case pos =>
        subst hj
        simp [hd, hw]
      case neg => simp [hj]
    have ran : Ran ((s.set j m).sen k) ((scanSensors (s.set j m) (after j)).1.sen k)
        (∃ x ∈ (scanSensors (s.set j m) (after j)).2, x.raised k) := scanSensors_ran
    rw [← hs, ← ho]
    simp only [List.exists_mem_cons_iff, State.look, Bool.false_eq_true, false_or]
    exact ⟨ran.delay.trans read.1, ran.set, read.2 ▸ ran.quiet⟩

theorem turn_within : (Wapp.delayTurn word delay).1.toNat ≤ UInt16.toNat delay := by
  rw [Wapp.delayTurn]
  generalize (if word ≠ 0 then word + 1 else word) = delaytimer
  by_cases h : delay.toUInt32 < delaytimer
  case pos => simp [h]
  case neg =>
    simp only [h, if_false]
    simpa [UInt32.lt_iff_toNat_lt] using h

theorem step_within (hw : s.Within) (h : device.step s e = some (s₁, o)) :
    s₁.Within ↔ e.Timed s := by
  cases e with
  | readTemp ds =>
    have ran (k) := readTemp_ran (k := k) h
    have hs : ptReadTemp s ds = some (s₁, o) := h
    simp only [State.Within, Event.Timed, hs, Option.mem_some_iff, forall_eq',
      fun k => (ran k).within (hw k)]
    constructor
    case mp => exact fun h x hx k hr => h k ⟨x, hx, hr⟩
    case mpr =>
      rintro h k ⟨x, hx, hr⟩
      exact h x hx k hr
  | alarmDelay =>
    cases h
    exact iff_of_true (fun _ => turn_within) trivial
  | post j sen =>
    cases h
    constructor
    case mp =>
      intro h
      simpa [SensorMem.Within, saveSensor, Event.Timed] using h j
    case mpr =>
      intro h k
      simp only [Event.Timed] at h
      by_cases hk : k = j
      case pos =>
        subst hk
        simpa [SensorMem.Within, saveSensor] using h
      case neg => simpa [saveSensor, hk] using hw k

end Alarm

namespace Input

open Pages (Page numbered)

variable {s s₁ : State} {i : Fin 3} {w : List UInt8}

def State.Within (s : State) : Prop :=
  ∀ i, (s.delayIn i).toNat ≤ (s.dinput i).delay.toNat

def State.Shown (s : State) : Prop :=
  ∀ env : Pages.Env, ∀ i, Page.onlineinput.Shows { env with dinput := s.dinput, delayIn := s.delayIn }
    (numbered "DELAY" i) (s.dinput i).delay (s.delayIn i)

theorem State.shown_iff : s.Shown ↔ s.Within := by
  have shows_iff (env : Pages.Env) (i : Fin 3) : Page.onlineinput.Shows
      { env with dinput := s.dinput, delayIn := s.delayIn } (numbered "DELAY" i) (s.dinput i).delay
      (s.delayIn i) ↔ (s.delayIn i).toNat ≤ (s.dinput i).delay.toNat :=
    Page.shows_iff (f := fun s => ((s.dinput i).delay, s.delayIn i))
      (fun _ => List.mem_append_left _ <| List.mem_append_right _ <|
        List.mem_map.mpr ⟨i, List.mem_finRange i, rfl⟩) rfl
  constructor
  case mp => exact fun h i => shows_iff (Pages.State.start fun _ => 0).toEnv i |>.mp <| h _ i
  case mpr => exact fun h env i => shows_iff env i |>.mpr <| h i

-- The alarm is not raised without a delay, and no delay is set that has passed already.
def Event.Timed (s : State) : Event → Prop
  | elapse _         => True
  | scan din         => 1 ∈ (scanInputs s din).2 → (s.dinput 0).delay ≠ 0
  | alarmDelay       => True
  | post i _ _ delay => (s.delayIn i).toNat ≤ delay.toNat

theorem Resumed.delay (r : Resumed c active s s₁ w) (i : Fin 3) :
    (s₁.dinput i).delay = (s.dinput i).delay := by
  by_cases hi : i = 0
  case pos =>
    subst hi
    cases r with
    | raise => simp [State.goto, State.setAlarm]
    | release => simp [State.goto, State.setAlarm]
    | _ => rfl
  case neg => rw [(r.frame hi).1]

theorem Resumed.word (r : Resumed c active s s₁ w) :
    (1 ∈ w → s₁.delayIn 0 = 1) ∧ (1 ∉ w → s₁.delayIn 0 = s.delayIn 0 ∨ s₁.delayIn 0 = 0) := by
  cases r with
  | raise => simp [State.goto, State.setAlarm]
  | release => simp [State.goto, State.setAlarm]
  | _ => exact ⟨fun h => absurd h List.not_mem_nil, fun _ => .inl rfl⟩

theorem Resumed.within (r : Resumed c active s s₁ w) (hw : s.Within) :
    s₁.Within ↔ (1 ∈ w → (s.dinput 0).delay ≠ 0) := by
  have pos : (s.dinput 0).delay ≠ 0 ↔ 1 ≤ (s.dinput 0).delay.toNat := by
    rw [Ne, ← UInt16.toNat_inj, UInt16.toNat_zero, Nat.one_le_iff_ne_zero]
  have first : (s₁.delayIn 0).toNat ≤ (s₁.dinput 0).delay.toNat ↔
      (1 ∈ w → (s.dinput 0).delay ≠ 0) := by
    rw [r.delay 0]
    by_cases h : 1 ∈ w
    case pos => simp [r.word.1 h, h, pos]
    case neg =>
      refine iff_of_true ?_ fun h₁ => absurd h₁ h
      cases r.word.2 h with
      | inl h => exact h ▸ hw 0
      | inr h => simp [h]
  constructor
  case mp => exact fun h => first.mp <| h 0
  case mpr =>
    intro h i
    by_cases hi : i = 0
    case pos => exact hi ▸ first.mpr h
    case neg =>
      rw [r.delay i, (r.frame hi).2]
      exact hw i

theorem scan_within (hw : s.Within) (h : scanInputs s din = (s₁, w)) :
    s₁.Within ↔ (1 ∈ w → (s.dinput 0).delay ≠ 0) := by
  cases scanInputs_cases h with
  | inl h =>
    obtain ⟨_, hs, he⟩ := h
    rw [hs, he]
    exact iff_of_true hw nofun
  | inr h =>
    obtain ⟨c, _, r⟩ := h
    exact r.within hw

theorem step_within (hw : s.Within) (h : device.step s e = some (s₁, o)) :
    s₁.Within ↔ e.Timed s := by
  cases e with
  | elapse ticks =>
    cases h
    exact iff_of_true hw trivial
  | scan din =>
    cases h
    exact scan_within hw rfl
  | alarmDelay =>
    cases h
    exact iff_of_true (fun _ => Alarm.turn_within) trivial
  | post j enable type delay =>
    cases h
    constructor
    case mp =>
      intro h
      simpa [saveInput, Event.Timed] using h j
    case mpr =>
      intro h i
      simp only [Event.Timed] at h
      by_cases hi : i = j
      case pos =>
        subst hi
        simpa [saveInput] using h
      case neg => simpa [saveInput, hi] using hw i

end Input

namespace Pages

-- In all runs of the sensors and of the inputs from states without a word beyond its delay, the pages
-- show the time that is left in every state exactly if no alarm is raised without a delay, and no delay
-- is set below its running word.
theorem remaining_law {s s₁ : Alarm.State} {u u₁ : Input.State} (hs : s.Within) (hu : u.Within)
    (hr : Alarm.device.run s es = some (s₁, o)) (ht : Input.device.run u fs = some (u₁, t)) :
    (Alarm.device.Guarded (fun s _ => s.Shown) s es ∧ s₁.Shown ↔
      Alarm.device.Guarded (fun s e => e.Timed s) s es) ∧
    (Input.device.Guarded (fun u _ => u.Shown) u fs ∧ u₁.Shown ↔
      Input.device.Guarded (fun u e => e.Timed u) u fs) := by
  constructor
  case left =>
    have law := Machine.run_good_iff Alarm.step_within hr
    simp only [Alarm.State.shown_iff, law]
    exact and_iff_right hs
  case right =>
    have law := Machine.run_good_iff Input.step_within ht
    simp only [Input.State.shown_iff, law]
    exact and_iff_right hu

instance {s : Alarm.State} : Decidable s.Within :=
  inferInstanceAs <| Decidable (∀ k, (s.sen k).delayWord.toNat ≤ (s.sen k).senzor.delay.toNat)

instance {u : Input.State} : Decidable u.Within :=
  inferInstanceAs <| Decidable (∀ i, (u.delayIn i).toNat ≤ (u.dinput i).delay.toNat)

instance {s : Alarm.State} {e : Alarm.Event} : Decidable (e.Timed s) :=
  match e with
  | .readTemp ds => inferInstanceAs <| Decidable
    (∀ r ∈ Alarm.ptReadTemp s ds, ∀ x ∈ r.2, ∀ k, x.raised k → (s.sen k).senzor.delay ≠ 0)
  | .alarmDelay  => inferInstanceAs <| Decidable True
  | .post k sen  => inferInstanceAs <| Decidable ((s.sen k).delayWord.toNat ≤ sen.delay.toNat)

instance {u : Input.State} {e : Input.Event} : Decidable (e.Timed u) := by
  cases e <;> unfold Input.Event.Timed <;> infer_instance

def setDelay (delay : UInt16) : Alarm.Event :=
  .post 0 { (Alarm.oneSensor.sen 0).senzor with delay }

-- Sensor 0 is too warm, and input 0 is active, each since a tick ago.
theorem remaining_law_counts : ∃ s₁ o u₁ t,
    Alarm.device.run Alarm.oneSensor (setDelay 3700 :: Alarm.tooWarm ++ [.alarmDelay]) =
      some (s₁, o) ∧
    Input.device.run Input.booted (Input.scans 8 (fun _ => 1) ++ [.alarmDelay]) = some (u₁, t) ∧
    delay (s₁.sen 0).senzor.delay (s₁.sen 0).delayWord = (1, 1, 38) ∧
    delay (u₁.dinput 0).delay (u₁.delayIn 0) = (0, 0, 58) ∧ s₁.Shown ∧ u₁.Shown := by
  have hd : (Alarm.device.run Alarm.oneSensor
      (setDelay 3700 :: Alarm.tooWarm ++ [.alarmDelay])).any fun x =>
        delay (x.1.sen 0).senzor.delay (x.1.sen 0).delayWord = (1, 1, 38) := by
    decide +kernel
  have hi : (Input.device.run Input.booted
      (Input.scans 8 (fun _ => 1) ++ [.alarmDelay])).any fun x =>
        delay (x.1.dinput 0).delay (x.1.delayIn 0) = (0, 0, 58) := by
    decide +kernel
  obtain ⟨⟨s₁, o⟩, hr, hd⟩ := (Option.any_eq_true ..).mp hd
  obtain ⟨⟨u₁, t⟩, ht, hi⟩ := (Option.any_eq_true ..).mp hi
  obtain ⟨sensors, inputs⟩ := remaining_law (by decide) (by decide) hr ht
  refine ⟨s₁, o, u₁, t, hr, ht, of_decide_eq_true hd, of_decide_eq_true hi, ?_, ?_⟩
  · exact sensors.mpr (by decide +kernel) |>.2
  · exact inputs.mpr (by decide +kernel) |>.2

-- An alarm is raised with a delay of zero.
theorem remaining_wraps : ∃ s es s₁ o, s.Within ∧ Alarm.device.run s es = some (s₁, o) ∧
    delay (s₁.sen 0).senzor.delay (s₁.sen 0).delayWord = (13398, 28, 15) ∧ ¬s₁.Shown := by
  have hd : (Alarm.device.run Alarm.oneSensor (setDelay 0 :: Alarm.tooWarm)).any fun x =>
      delay (x.1.sen 0).senzor.delay (x.1.sen 0).delayWord = (13398, 28, 15) ∧
        (x.1.sen 0).senzor.delay.toNat < (x.1.sen 0).delayWord.toNat := by
    decide +kernel
  obtain ⟨⟨s₁, o⟩, hr, hd⟩ := (Option.any_eq_true ..).mp hd
  obtain ⟨printed, beyond⟩ := of_decide_eq_true hd
  refine ⟨_, _, s₁, o, by decide, hr, printed, fun h => ?_⟩
  exact Nat.not_le_of_lt beyond <| Alarm.State.shown_iff.mp h 0

end Pages
