import Webtermo.Library.Trace
import Webtermo.Execution.OneWire.State
import Webtermo.Execution.Logger.Theorems.Pass

namespace OneWire

open Alarm (SensorMem DsBuf goodReading onewireErrorCount)

variable {s s₁ : State} {t o : List Obs} {k : Fin 8} {ds : DsBuf} {m m₁ : SensorMem}

def Obs.calls (cs : List Call) : Obs → List Call
  | turn _          => []
  | call c          => cs ++ [c]
  | reading _ _ _ _ => cs

-- The calls of the current turn
def calls (t : List Obs) : List Call :=
  t.foldl Obs.calls []

-- The bytes of the scratchpad that have been read in the calls
def bytes (cs : List Call) : List UInt8 :=
  cs.filterMap fun
    | .read (.ok b) => some b
    | _             => none

-- A reading of a sensor counts only with nine bytes from the bus, and a failed call makes it a failed
-- reading.
structure Counted (cs : List Call) (m m₁ : SensorMem) : Prop where
  changed : m₁.temp ≠ m.temp ∨ m₁.nvSum ≠ m.nvSum ∨ m₁.nvCount ≠ m.nvCount → (bytes cs).length = 9
  failed  : (∃ c ∈ cs, c.failed) → m₁.temp = m.temp ∧ m₁.nvSum = m.nvSum ∧ m₁.nvCount = m.nvCount ∧
    m₁.senzor.errorCounter = if m.senzor.errorCounter < onewireErrorCount then
      m.senzor.errorCounter + 1 else m.senzor.errorCounter

def AtReadings (Q : List Call → DsBuf → SensorMem → SensorMem → Prop) : List Obs → Prop :=
  Always fun t o => ∀ k ds m m₁, o = .reading k ds m m₁ → Q (calls t) ds m m₁

def ScratchpadLaw : List Obs → Prop :=
  AtReadings fun cs _ m m₁ => Counted cs m m₁

-- After a failed call, the checksum refuses what is left in `dsBuf`.
def Refused : List Obs → Prop :=
  AtReadings fun cs ds _ _ => (∃ c ∈ cs, c.failed) → ¬goodReading ds

def Obs.IsReading : Obs → Prop
  | reading _ _ _ _ => True
  | _               => False

theorem AtReadings.silent (ho : ∀ x ∈ o, ¬x.IsReading) :
    AtReadings Q (t ++ o) ↔ AtReadings Q t := by
  refine ⟨Always.of_append, fun h => Always.append h fun _ x _ he k ds m m₁ hx => ?_⟩
  exact absurd (hx ▸ trivial) <| ho x <| by simp [he]

theorem AtReadings.concat : AtReadings Q (t ++ [Obs.reading k ds m m₁]) ↔
    AtReadings Q t ∧ Q (calls t) ds m m₁ := by
  constructor
  case mp =>
    intro h
    exact ⟨h.of_append, h t _ [] rfl k ds m m₁ rfl⟩
  case mpr =>
    intro ⟨h, hq⟩
    refine Always.concat h fun k₁ ds₁ m₂ m₃ he => ?_
    cases he
    exact hq

theorem calls_call : calls (t ++ cs.map .call) = calls t ++ cs := by
  rw [calls, List.foldl_append]
  show List.foldl Obs.calls (calls t) _ = _
  generalize calls t = l
  induction cs generalizing l with
  | nil => simp
  | cons c cs ih => simp [Obs.calls, ih]

theorem calls_turn : calls (t ++ .turn k :: cs.map .call) = cs := by
  rw [List.append_cons, calls_call]
  simp [calls, Obs.calls]

theorem bytes_append {cs₁ : List Call} : bytes (cs ++ cs₁) = bytes cs ++ bytes cs₁ :=
  List.filterMap_append

theorem bytes_select : bytes (select code command a) = [] := by
  refine List.filterMap_eq_nil_iff.mpr fun c hc => ?_
  cases hc with
  | head => rfl
  | tail _ hc =>
    rw [← List.map_uncurry_zip_eq_zipWith] at hc
    have ⟨p, _, hp⟩ := List.mem_map.mp hc
    exact hp ▸ rfl

theorem bytes_read {rs : List (Except UInt8 UInt8)} (h : ∀ c ∈ rs.map Call.read, ¬c.failed) :
    (bytes (rs.map .read)).length = rs.length := by
  rw [bytes, List.filterMap_map, List.filterMap_length_eq_length]
  intro r hr
  have := h _ <| List.mem_map_of_mem hr
  cases r with
  | ok b    => rfl
  | error b => exact absurd rfl this

-- Exactly a failed call without a refusal is not counted as one.
theorem counted_iff (hm : Alarm.readSensor m ds = some m₁)
    (hb : (∀ c ∈ cs, ¬c.failed) → (bytes cs).length = 9) :
    Counted cs m m₁ ↔ ((∃ c ∈ cs, c.failed) → ¬goodReading ds) := by
  constructor
  case mp =>
    intro h hf hg
    have ⟨_, _, hc, _⟩ := h.failed hf
    cases Alarm.readSensor_reading hm with
    | good _ _ count => simp [hc] at count
    | bad hb => exact hb hg
  case mpr =>
    intro h
    by_cases hg : goodReading ds
    case pos =>
      have hn : ¬∃ c ∈ cs, c.failed := fun hf => h hf hg
      exact ⟨fun _ => hb <| by simpa using hn, fun hf => absurd hf hn⟩
    case neg =>
      simp only [Alarm.readSensor, hg, Bool.false_eq_true, if_false] at hm
      cases hm
      exact ⟨by simp, fun _ => ⟨rfl, rfl, rfl, rfl⟩⟩

-- While a sensor is being converted, its turn has read no byte.
def Converting (t : List Obs) (s : State) : Prop :=
  ∀ k, s.dev.ptReadTemp = .wait k → bytes (calls t) = []

theorem startTurn_silent {d : Alarm.State} : ∀ x ∈ startTurn d next, ¬x.IsReading := by
  unfold startTurn
  split
  · simp [Obs.IsReading]
  · exact fun x hx => absurd hx List.not_mem_nil

theorem startTurn_converting : Converting (t ++ startTurn s.dev next) s := by
  intro k hk
  simp only [startTurn, hk]
  rw [calls_turn]
  exact bytes_select

theorem turn_law {f : Fin 9 → Except UInt8 UInt8} (hb : bytes (calls t) = [])
    (hm : Alarm.readSensor m ds = some m₁)
    (hc : cs = select code command a ++ (List.ofFn f).map Call.read)
    (h : ScratchpadLaw t ↔ Refused t) :
    ScratchpadLaw (t ++ (cs.map .call ++ [Obs.reading k ds m m₁])) ↔
      Refused (t ++ (cs.map .call ++ [Obs.reading k ds m m₁])) := by
  have silent : ∀ x ∈ cs.map Obs.call, ¬x.IsReading := by simp [Obs.IsReading]
  simp only [ScratchpadLaw, Refused, ← List.append_assoc, AtReadings.concat]
  refine and_congr ?_ ?_
  · rw [AtReadings.silent silent, AtReadings.silent silent]
    exact h
  · rw [calls_call, hc]
    refine counted_iff hm fun hn => ?_
    rw [bytes_append, bytes_append, hb, bytes_select, List.nil_append, List.nil_append]
    refine (bytes_read fun c hr => hn c ?_).trans List.length_ofFn
    exact List.mem_append_right _ <| List.mem_append_right _ hr

theorem step_law (i : Converting t s ∧ (ScratchpadLaw t ↔ Refused t))
    (hs : bus.step s e = some (s₁, o)) :
    Converting (t ++ o) s₁ ∧ (ScratchpadLaw (t ++ o) ↔ Refused (t ++ o)) := by
  cases e with
  | other sen =>
    cases hs
    simpa [Converting] using i
  | readTemp a next =>
    simp only [bus, ptReadTemp] at hs
    split at hs
    case h_1 k loc =>
      simp only [Option.bind_eq_bind, Option.bind_eq_some_iff] at hs
      obtain ⟨m₁, hm, ⟨d, _⟩, hd, hs⟩ := hs
      cases hs
      rw [List.append_cons, ← List.append_assoc]
      refine ⟨startTurn_converting, ?_⟩
      rw [ScratchpadLaw, Refused, AtReadings.silent startTurn_silent,
        AtReadings.silent startTurn_silent]
      exact turn_law (i.1 k loc) hm rfl i.2
    case h_2 =>
      simp only [Option.bind_eq_bind, Option.bind_eq_some_iff] at hs
      obtain ⟨⟨d, _⟩, hd, hs⟩ := hs
      cases hs
      refine ⟨startTurn_converting, ?_⟩
      rw [ScratchpadLaw, Refused, AtReadings.silent startTurn_silent,
        AtReadings.silent startTurn_silent]
      exact i.2

-- In every run from the start of `ptReadTemp`, the readings are counted as they should be exactly if
-- the checksum refuses all those with a failed call.
theorem scratchpad_law (h : s.dev.ptReadTemp = .start) (hr : bus.run s es = some (s₁, t)) :
    ScratchpadLaw t ↔ Refused t :=
  (Machine.run_history (I := fun t s => Converting t s ∧ (ScratchpadLaw t ↔ Refused t)) (t := [])
    (fun hi _ hs => step_law hi hs)
    ⟨fun _ hk => absurd (h ▸ hk) nofun, iff_of_true Always.nil Always.nil⟩
    Machine.Guarded.trivial hr).2

def working : Select :=
  ⟨.ok (), fun _ => .ok ()⟩

-- Sensor 0 is read as 30 degrees with all calls as they should be.
def goodTurn : List Event :=
  .replicate 3 (.readTemp ⟨working, fun i => .ok (Alarm.thirty i)⟩ working)

def empty : State :=
  ⟨Alarm.oneSensor, fun _ => 0⟩

instance (cs m m₁) : Decidable (Counted cs m m₁) :=
  decidable_of_iff
    ((m₁.temp ≠ m.temp ∨ m₁.nvSum ≠ m.nvSum ∨ m₁.nvCount ≠ m.nvCount → (bytes cs).length = 9) ∧
      ((∃ c ∈ cs, c.failed) → m₁.temp = m.temp ∧ m₁.nvSum = m.nvSum ∧ m₁.nvCount = m.nvCount ∧
        m₁.senzor.errorCounter = if m.senzor.errorCounter < onewireErrorCount then
          m.senzor.errorCounter + 1 else m.senzor.errorCounter))
    ⟨fun ⟨h, h₁⟩ => ⟨h, h₁⟩, fun ⟨h, h₁⟩ => ⟨h, h₁⟩⟩

instance [∀ cs ds m m₁, Decidable (Q cs ds m m₁)] : Decidable (AtReadings Q t) := by
  have : ∀ t : List Obs, ∀ o : Obs,
      Decidable (∀ k ds m m₁, o = .reading k ds m m₁ → Q (calls t) ds m m₁) := by
    intro t o
    cases o with
    | reading k ds m m₁ =>
      exact decidable_of_iff (Q (calls t) ds m m₁)
        ⟨fun h _ _ _ _ he => by cases he; exact h, fun h => h k ds m m₁ rfl⟩
    | _ => exact isTrue nofun
  exact inferInstanceAs <| Decidable (Always _ t)

instance : Decidable (ScratchpadLaw t) :=
  inferInstanceAs <| Decidable (AtReadings _ t)

instance : Decidable (Refused t) :=
  inferInstanceAs <| Decidable (AtReadings _ t)

theorem scratchpad_law_good_turn : ∃ s₁ t, bus.run empty goodTurn = some (s₁, t) ∧
    (s₁.dev.sen 0).temp = 30 ∧ ScratchpadLaw t := by
  have : (bus.run empty goodTurn).any (fun (s₁, t) => (s₁.dev.sen 0).temp = 30 ∧ Refused t) := by
    decide +kernel
  have ⟨(s₁, t), hr, ht⟩ := Option.any_eq_true _ _ |>.mp this
  have ⟨h, refused⟩ := of_decide_eq_true ht
  exact ⟨s₁, t, hr, h, (scratchpad_law rfl hr).mpr refused⟩

-- Every call runs into `I2C_TIMEOUT_ERR`. The checksum of the zeros in `dsBuf` is 0.
def deadBus : List Event :=
  let select := ⟨.error 23, fun _ => .error 23⟩
  .replicate 3 (.readTemp ⟨select, fun _ => .error 23⟩ select)

theorem zeros_accepted :
    ¬∀ s es s₁ t, s.dev.ptReadTemp = .start → bus.run s es = some (s₁, t) → ScratchpadLaw t := by
  intro h
  have : (bus.run empty deadBus).any (fun (_, t) => ¬ScratchpadLaw t) := by
    decide +kernel
  have ⟨(s₁, t), hr, ht⟩ := Option.any_eq_true _ _ |>.mp this
  exact of_decide_eq_true ht <| h _ _ _ _ rfl hr

end OneWire
