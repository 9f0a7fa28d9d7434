import Webtermo.Execution.Logger.Theorems.Pass

namespace Logger

variable {c : (Fin 8 → Mkt) → Fin 8 → ℚ} {f : Flash} {l : Log} {k : Fin 8}
variable {s s₁ : State} {t o : List Obs} {ls : List Log}

-- The observations that matter for the readings of sensor `k`
def Obs.About (k : Fin 8) : Obs → Prop
  | accepted j _ | logged _ j _ _ => j = k
  | start | tested _ _            => False

def Obs.add (ls : List Log) (k : Fin 8) (xs : List ℚ) : Obs → List ℚ
  | accepted j x   => if j = k then xs ++ [x] else xs
  | logged l j _ _ => if j = k ∧ l ∈ ls then [] else xs
  | _              => xs

-- The readings of sensor `k` that have been accepted since a value of it was last put into one of the
-- given logs
def readings (ls : List Log) (k : Fin 8) (t : List Obs) : List ℚ :=
  t.foldl (Obs.add ls k) []

def mean (xs : List ℚ) : ℚ :=
  xs.sum / xs.length

-- The value that is put into a log is the mean of all readings since the previous one in the same log,
-- and what `temp[k]` has been if there are none.
def MeanLaw (k : Fin 8) : List Obs → Prop :=
  Always fun t o => ∀ l before x, o = .logged l k before x →
    x = if readings [l] k t = [] then before else mean (readings [l] k t)

-- When a value is put into a log, the other log has had none since the first reading to be counted, the
-- count fits its word, and sensor 1 has a reading.
def Fair (k : Fin 8) : List Obs → Prop :=
  Always fun t o => match o with
    | .logged l j _ _ => j = k →
      readings [l] k t = readings [.temp, .haccp] k t ∧ (readings [l] k t).length < 2 ^ 32 ∧
        (k = 0 → readings [l] k t ≠ [])
    | _ => True

instance : Decidable (MeanLaw k t) := by
  have : ∀ t : List Obs, ∀ o : Obs, Decidable (∀ l before x, o = .logged l k before x →
      x = if readings [l] k t = [] then before else mean (readings [l] k t)) := by
    intro t o
    exact match o with
      | .logged l j b x =>
        decidable_of_iff (j = k → x = if readings [l] k t = [] then b else mean (readings [l] k t))
          ⟨fun h _ _ _ he => by cases he; exact h rfl, fun h hj => h l b x (hj ▸ rfl)⟩
      | .start | .accepted .. | .tested .. => isTrue nofun
  exact inferInstanceAs <| Decidable (Always _ t)

instance : Decidable (Fair k t) := by
  have : ∀ t : List Obs, ∀ o : Obs, Decidable (match o with
      | .logged l j _ _ => j = k →
        readings [l] k t = readings [.temp, .haccp] k t ∧ (readings [l] k t).length < 2 ^ 32 ∧
          (k = 0 → readings [l] k t ≠ [])
      | _ => True) := by
    intro t o
    cases o <;> infer_instance
  exact inferInstanceAs <| Decidable (Always _ t)

-- The words of the NVRAM hold the readings since the last value in either of the logs.
structure Holds (k : Fin 8) (t : List Obs) (s : State) : Prop where
  sum   : (s.dev.sen k).nvSum = (readings [.temp, .haccp] k t).sum
  count : (s.dev.sen k).nvCount = UInt32.ofNat (readings [.temp, .haccp] k t).length

theorem readings_append : readings ls k (t ++ o) = o.foldl (Obs.add ls k) (readings ls k t) :=
  List.foldl_append

theorem readings_other (h : ∀ x ∈ o, ¬x.About k) : readings ls k (t ++ o) = readings ls k t := by
  rw [readings_append]
  generalize readings ls k t = xs
  induction o with
  | nil => rfl
  | cons x o ih =>
    have ⟨hx, ho⟩ := List.forall_mem_cons.mp h
    have hx : x.add ls k xs = xs := by
      cases x with
      | accepted j x | logged l j b x => simp [Obs.add, show j ≠ k from hx]
      | _ => rfl
    rw [List.foldl_cons, hx, ih ho]

theorem Holds.congr (h : Holds k t s) (ho : ∀ x ∈ o, ¬x.About k)
    (hs : (s₁.dev.sen k).nvSum = (s.dev.sen k).nvSum)
    (hc : (s₁.dev.sen k).nvCount = (s.dev.sen k).nvCount) : Holds k (t ++ o) s₁ := by
  constructor
  case sum => rw [readings_other ho, hs, h.sum]
  case count => rw [readings_other ho, hc, h.count]

theorem tests_not_about {d : Alarm.State} : ∀ x ∈ tests d, ¬x.About k := by
  intro x hx
  have ⟨j, _, hj⟩ := List.mem_filterMap.mp hx
  simp only at hj
  split at hj
  case isTrue =>
    cases hj
    exact id
  case isFalse => cases hj

theorem readObs_not_logged {d d₁ : Alarm.State} :
    ∀ x ∈ readObs d d₁ ds, ∀ l b z, x ≠ .logged l k b z := by
  have tested : ∀ x ∈ (if d₁.ptReadTemp = .start then tests d₁ else []), ∀ l b z,
      x ≠ .logged l k b z := by
    intro x hx l b z hl
    split at hx
    case isTrue =>
      subst hl
      exact tests_not_about (k := k) _ hx rfl
    case isFalse => cases hx
  unfold readObs
  cases d.ptReadTemp with
  | start => nofun
  | yielded => exact List.forall_mem_cons.mpr ⟨nofun, tested⟩
  | wait j =>
    refine List.forall_mem_append.mpr ⟨fun x hx => ?_, tested⟩
    split at hx
    case isTrue => exact List.mem_singleton.mp hx ▸ nofun
    case isFalse => cases hx

theorem readTemp_holds (hs : Alarm.ptReadTemp s.dev ds = some (d, u)) (h : Holds k t s) :
    Holds k (t ++ readObs s.dev d ds) { s with dev := d } := by
  have tested : ∀ x ∈ (if d.ptReadTemp = .start then tests d else []), ¬x.About k := by
    split
    · exact tests_not_about
    · nofun
  cases Alarm.ptReadTemp_cases hs with
  | yield loc hd => exact h.congr (by simp [readObs, loc]) (by simp [hd]) (by simp [hd])
  | scan loc hd =>
    have hk : Alarm.Kept (s.dev.sen k) (d.sen k) := hd ▸ .scanSensors
    refine h.congr ?_ hk.nvSum hk.nvCount
    simp only [readObs, loc]
    exact List.forall_mem_cons.mpr ⟨id, tested⟩
  | read j m loc hm hd =>
    have hk : Alarm.Kept ((s.dev.set j m).sen k) (d.sen k) := hd ▸ .scanSensors
    by_cases hj : j = k
    case neg =>
      rw [Alarm.State.set_sen_ne _ (Ne.symm hj)] at hk
      refine h.congr ?_ hk.nvSum hk.nvCount
      simp only [readObs, loc, List.forall_mem_append]
      refine ⟨?_, tested⟩
      split
      · simpa [Obs.About] using hj
      · nofun
    case pos =>
      subst hj
      rw [Alarm.State.set_sen_self] at hk
      simp only [readObs, loc]
      cases Alarm.readSensor_reading hm with
      | good hg sum count =>
        rw [if_pos hg, ← List.append_assoc]
        have ha : Holds j (t ++ [Obs.accepted j (d.sen j).temp]) { s with dev := d } := by
          constructor
          case sum =>
            rw [readings_append, hk.temp]
            simp [Obs.add, hk.nvSum, sum, h.sum]
          case count =>
            rw [readings_append]
            simp [Obs.add, hk.nvCount, count, h.count]
        exact ha.congr tested rfl rfl
      | bad hb _ sum count =>
        rw [if_neg hb, List.nil_append]
        exact h.congr tested (hk.nvSum.trans sum) (hk.nvCount.trans count)

-- The turns of the other sensors

theorem saveSensor_other (hj : j ≠ k) :
    (saveSensor c l b s j).1.dev.sen k = s.dev.sen k ∧
    (saveSensor c l b s j).1.measureType = s.measureType ∧
    ∀ x ∈ (saveSensor c l b s j).2, ¬x.About k := by
  unfold saveSensor
  simp only
  split
  case isTrue =>
    split <;> simp [Obs.About, hj, hj.symm]
  case isFalse => simp

theorem saveSensors_other (hk : k ∉ ks) :
    (saveSensors c l b s ks).1.dev.sen k = s.dev.sen k ∧
    ∀ x ∈ (saveSensors c l b s ks).2, ¬x.About k := by
  induction ks generalizing s with
  | nil => exact ⟨rfl, nofun⟩
  | cons j ks ih =>
    have ⟨hj, hk⟩ : k ≠ j ∧ k ∉ ks := by simpa using hk
    have ⟨hd, _, ho⟩ := saveSensor_other (c := c) (l := l) (b := b)
      (s := s) hj.symm
    have ⟨hd₁, ho₁⟩ := ih (s := (saveSensor c l b s j).1) hk
    exact ⟨hd₁.trans hd, List.forall_mem_append.mpr ⟨ho, ho₁⟩⟩

-- The turn of sensor `k` among those of the others
theorem saveSensors_split (hk : k ∈ ks) (hn : ks.Nodup) : ∃ s₂ o₁ o₂,
    s₂.dev.sen k = s.dev.sen k ∧ s₂.measureType = s.measureType ∧
    (∀ x ∈ o₁, ¬x.About k) ∧ (∀ x ∈ o₂, ¬x.About k) ∧
    (saveSensors c l b s ks).2 =
      o₁ ++ (saveSensor c l b s₂ k).2 ++ o₂ ∧
    (saveSensors c l b s ks).1.dev.sen k =
      (saveSensor c l b s₂ k).1.dev.sen k := by
  induction ks generalizing s with
  | nil => cases hk
  | cons j ks ih =>
    have ⟨hj, hn⟩ := List.nodup_cons.mp hn
    by_cases hjk : j = k
    case pos =>
      subst hjk
      have ⟨hd, ho⟩ := saveSensors_other (c := c) (l := l) (b := b)
        (s := (saveSensor c l b s j).1) hj
      exact ⟨s, [], _, rfl, rfl, nofun, ho, rfl, hd⟩
    case neg =>
      have hk : k ∈ ks := (List.mem_cons.mp hk).resolve_left <| Ne.symm hjk
      have ⟨hd, hm, ho⟩ := saveSensor_other (c := c) (l := l)
        (b := b) (s := s) hjk
      have ⟨s₂, o₁, o₂, hd₂, hm₂, h₁, h₂, he, hr⟩ :=
        ih (s := (saveSensor c l b s j).1) hk hn
      refine ⟨s₂, _ ++ o₁, o₂, hd₂.trans hd, hm₂.trans hm, List.forall_mem_append.mpr ⟨ho, h₁⟩, h₂,
        ?_, hr⟩
      simp only [saveSensors, he, List.append_assoc]

-- All that a record does to an enabled sensor whose mean is logged
inductive Recorded (l : Log) (k : Fin 8) (before : ℚ) (m m₁ : Alarm.SensorMem) : List Obs → Prop
  | mean (h : m.nvCount ≠ 0) (sum : m₁.nvSum = 0) (count : m₁.nvCount = 0) :
    Recorded l k before m m₁ [.logged l k before (m.nvSum / m.nvCount.toNat)]
  | last (h : m.nvCount = 0) (same : m₁ = m) : Recorded l k before m m₁ [.logged l k before m.temp]

theorem saveSensor_cases (he : (s.dev.sen k).senzor.enble = 1) (hm : s.measureType k ≠ 1) :
    Recorded l k (b k) (s.dev.sen k) ((saveSensor c l b s k).1.dev.sen k)
      (saveSensor c l b s k).2 := by
  simp only [saveSensor, he, if_true, hm, if_false]
  split
  case isTrue h => exact .mean h (by simp) (by simp)
  case isFalse h => exact .last (by simpa using h) rfl

-- Between the values of other sensors, a record puts one value of sensor `k` into its log.
inductive Saved (l : Log) (k : Fin 8) (s s₁ : State) (o : List Obs) : Prop
  | intro (m : Alarm.SensorMem) (o₁ o₂ o₃ : List Obs) (sum : m.nvSum = (s.dev.sen k).nvSum)
    (count : m.nvCount = (s.dev.sen k).nvCount) (temp : k ≠ 0 → m.temp = (s.dev.sen k).temp)
    (other : ∀ x ∈ o₁ ++ o₃, ¬x.About k) (split : o = o₁ ++ o₂ ++ o₃)
    (turn : Recorded l k (s.dev.sen k).temp m (s₁.dev.sen k) o₂)

theorem saveSensors_saved {s₂ : State}
    (hs : saveSensors c l (fun k => (s.dev.sen k).temp) s₂ (List.finRange 8) = (s₁, o))
    (he : (s₂.dev.sen k).senzor.enble = 1) (hm : s₂.measureType k ≠ 1)
    (sum : (s₂.dev.sen k).nvSum = (s.dev.sen k).nvSum)
    (count : (s₂.dev.sen k).nvCount = (s.dev.sen k).nvCount)
    (temp : k ≠ 0 → (s₂.dev.sen k).temp = (s.dev.sen k).temp) :
    Saved l k s s₁ o := by
  have ⟨s₃, o₁, o₂, hd, ht, h₁, h₂, ho, hr⟩ := saveSensors_split (c := c)
    (l := l) (b := fun k => (s.dev.sen k).temp) (s := s₂) (List.mem_finRange k)
    (List.nodup_finRange 8)
  rw [hs] at ho hr
  have turn := saveSensor_cases (c := c) (l := l)
    (b := fun k => (s.dev.sen k).temp) (s := s₃) (k := k) (hd ▸ he) (ht ▸ hm)
  rw [← hr, hd] at turn
  exact .intro _ o₁ _ o₂ sum count temp (List.forall_mem_append.mpr ⟨h₁, h₂⟩) ho turn

theorem save_saved (he : (s.dev.sen k).senzor.enble = 1) (hm : s.measureType k ≠ 1)
    (hs : save c f l s = some (s₁, o)) : Saved l k s s₁ o := by
  simp only [save, Option.bind_eq_bind, Option.bind_eq_some_iff, Option.some.injEq] at hs
  have ⟨x, _, hs⟩ := hs
  have keep : ∀ {m : Alarm.SensorMem}, m = (s.dev.set 0 { s.dev.sen 0 with temp := x }).sen k →
      m.senzor = (s.dev.sen k).senzor ∧ m.nvSum = (s.dev.sen k).nvSum ∧
      m.nvCount = (s.dev.sen k).nvCount ∧ (k ≠ 0 → m.temp = (s.dev.sen k).temp) := by
    intro m hm
    by_cases h : k = 0
    case pos =>
      rw [h, Alarm.State.set_sen_self] at hm
      simp [hm, h]
    case neg =>
      rw [Alarm.State.set_sen_ne _ h] at hm
      simp [hm]
  have ⟨hz, sum, count, temp⟩ := keep rfl
  exact saveSensors_saved hs (by rw [hz, he]) hm sum count temp

theorem MeanLaw.silent (h : MeanLaw k t) (ho : ∀ x ∈ o, ∀ l b z, x ≠ .logged l k b z) :
    MeanLaw k (t ++ o) :=
  h.append fun _ x _ he l b z hx => absurd hx <| ho x (by simp [he]) l b z

theorem MeanLaw.other (h : MeanLaw k t) (ho : ∀ x ∈ o, ¬x.About k) : MeanLaw k (t ++ o) :=
  h.silent fun x hm _ _ _ hx => ho x hm (hx ▸ rfl)

-- Under the conditions of `Fair`, the words of the NVRAM give the value that the law asks for.
theorem Saved.law (h : Saved l k s s₁ o) (i : Holds k t s) (hl : MeanLaw k t)
    (fair : Fair k (t ++ o)) : Holds k (t ++ o) s₁ ∧ MeanLaw k (t ++ o) := by
  have ⟨m, o₁, o₂, o₃, sum, count, temp, other, split, turn⟩ := h
  have ⟨h₁, h₃⟩ := List.forall_mem_append.mp other
  have value {x} (ho : o₂ = [.logged l k (s.dev.sen k).temp x]) (hx : x =
      if readings [l] k t = [] then (s.dev.sen k).temp else mean (readings [l] k t))
      (hsum : (s₁.dev.sen k).nvSum = 0) (hcount : (s₁.dev.sen k).nvCount = 0) :
      Holds k (t ++ o) s₁ ∧ MeanLaw k (t ++ o) := by
    have hr : readings [.temp, .haccp] k (t ++ o) = [] := by
      have hm : l ∈ [Log.temp, .haccp] := by cases l <;> simp
      rw [split, ho, ← List.append_assoc, readings_other h₃, ← List.append_assoc, readings_append]
      simp [Obs.add, hm]
    refine ⟨⟨by rw [hr, hsum]; rfl, by rw [hr, hcount]; rfl⟩, ?_⟩
    rw [split, ho, ← List.append_assoc, ← List.append_assoc]
    refine MeanLaw.other ((hl.other h₁).concat fun l₁ b z he => ?_) h₃
    cases he
    rw [readings_other h₁, hx]
  have fair {x} (ho : o₂ = [.logged l k (s.dev.sen k).temp x]) :
      readings [l] k t = readings [.temp, .haccp] k t ∧ (readings [l] k t).length < 2 ^ 32 ∧
        (k = 0 → readings [l] k t ≠ []) := by
    rw [split, ho, List.append_assoc] at fair
    have := fair.at_append rfl
    rwa [readings_other h₁, readings_other h₁] at this
  have hcount (hl : (readings [l] k t).length < 2 ^ 32)
      (he : readings [l] k t = readings [.temp, .haccp] k t) :
      m.nvCount.toNat = (readings [l] k t).length := by
    rw [count, i.count, ← he]
    exact Nat.mod_eq_of_lt hl
  cases turn with
  | mean hc hsum hcount₁ =>
    have ⟨he, hlen, _⟩ := fair rfl
    refine value rfl ?_ hsum hcount₁
    have hn : readings [l] k t ≠ [] := by
      intro hn
      have := hcount hlen he
      rw [hn] at this
      exact hc <| UInt32.toNat_inj.mp this
    rw [if_neg hn, mean, hcount hlen he, sum, i.sum, he]
  | last hc same =>
    have ⟨he, hlen, hk⟩ := fair rfl
    have hn : readings [l] k t = [] := by
      have := hcount hlen he
      rw [hc] at this
      exact List.length_eq_zero_iff.mp this.symm
    refine value rfl ?_ ?_ (same ▸ hc)
    · rw [if_pos hn]
      exact temp fun h => hk h hn
    · rw [same, sum, i.sum, ← he, hn]
      rfl

-- Sensor `k` is enabled, and its mean is logged.
def Enabled (k : Fin 8) (s : State) (_ : Event) : Prop :=
  (s.dev.sen k).senzor.enble = 1 ∧ s.measureType k ≠ 1

instance : Decidable (Enabled k s e) :=
  inferInstanceAs <| Decidable (_ ∧ _)

theorem step_law (i : Holds k t s ∧ MeanLaw k t) (fair : Fair k (t ++ o)) (ok : Enabled k s e)
    (hs : (logger c f).step s e = some (s₁, o)) :
    Holds k (t ++ o) s₁ ∧ MeanLaw k (t ++ o) := by
  cases e with
  | readTemp ds =>
    simp only [logger, Option.bind_eq_bind, Option.bind_eq_some_iff] at hs
    have ⟨⟨d, _⟩, hd, hs⟩ := hs
    cases hs
    exact ⟨readTemp_holds hd i.1, i.2.silent readObs_not_logged⟩
  | alarmDelay =>
    cases hs
    exact ⟨i.1.congr nofun rfl rfl, by simpa using i.2⟩
  | post j sen type =>
    cases hs
    have hk : ((Alarm.saveSensor s.dev j sen).1.sen k).nvSum = (s.dev.sen k).nvSum ∧
        ((Alarm.saveSensor s.dev j sen).1.sen k).nvCount = (s.dev.sen k).nvCount := by
      by_cases h : k = j
      case pos => simp [Alarm.saveSensor, h]
      case neg => simp [Alarm.saveSensor, h]
    exact ⟨i.1.congr nofun hk.1 hk.2, by simpa using i.2⟩
  | save l => exact (save_saved ok.1 ok.2 hs).law i.1 i.2 fair

-- In every run in which the conditions of `Fair` are met, each log gets the means.
theorem mean_law (hsum : (s.dev.sen k).nvSum = 0) (hcount : (s.dev.sen k).nvCount = 0)
    (g : (logger c f).Guarded (Enabled k) s es)
    (hr : (logger c f).run s es = some (s₁, t)) (fair : Fair k t) : MeanLaw k t := by
  have := Machine.run_history (t := [])
    (I := fun t s => Fair k t → Holds k t s ∧ MeanLaw k t)
    (fun hi ok hs fair => step_law (hi fair.of_append) fair ok hs)
    (fun _ => ⟨⟨hsum, hcount⟩, Always.nil⟩) g hr
  exact (this fair).2

-- Sensors at 5 degrees, all enabled, and two vectors of the flash
def device : State where
  dev         := { sen := fun _ => { Alarm.oneSensor.sen 0 with temp := 5 }, ptReadTemp := .start }
  measureType := fun _ => 0
  mkt         := fun _ => { log := fun _ => 0, count := 0 }

def vectors : Flash where
  sum   := 0x080001A5
  count := 0x080001A7

def noMkt : (Fin 8 → Mkt) → Fin 8 → ℚ :=
  fun _ _ => 0

-- Sensors 0 and 1 are read as 30 degrees before the first of two records.
def twoRecords : List Event :=
  [.readTemp Alarm.thirty, .readTemp Alarm.thirty, .readTemp Alarm.thirty, .readTemp Alarm.thirty,
    .save .temp, .save .temp]

theorem mean_law_two_records : ∃ s₁ t, (logger noMkt vectors).run device twoRecords = some (s₁, t) ∧
    .accepted 1 30 ∈ t ∧ .logged .temp 1 30 30 ∈ t ∧ MeanLaw 1 t := by
  have : ((logger noMkt vectors).run device twoRecords).any (fun x =>
      Fair 1 x.2 ∧ .accepted 1 30 ∈ x.2 ∧ .logged .temp 1 30 30 ∈ x.2) := by
    decide +kernel
  obtain ⟨⟨s₁, t⟩, hr, ht⟩ := Option.any_eq_true _ _ |>.mp this
  obtain ⟨fair, ha, hl⟩ := of_decide_eq_true ht
  exact ⟨s₁, t, hr, ha, hl, mean_law rfl rfl (by decide +kernel) hr fair⟩

-- A record of sensor 0 without a reading
theorem logged_from_flash :
    ¬∀ calculateMkt f s k es s₁ t, (s.dev.sen k).nvSum = 0 → (s.dev.sen k).nvCount = 0 →
      (logger calculateMkt f).Guarded (Enabled k) s es →
      (logger calculateMkt f).run s es = some (s₁, t) → MeanLaw k t := by
  intro h
  have : ((logger noMkt vectors).run device [.save .temp]).any (fun x => ¬MeanLaw 0 x.2) := by
    decide +kernel
  obtain ⟨⟨s₁, t⟩, hr, ht⟩ := Option.any_eq_true _ _ |>.mp this
  exact of_decide_eq_true ht <| h _ _ _ _ _ _ _ rfl rfl (by decide +kernel) hr

end Logger
