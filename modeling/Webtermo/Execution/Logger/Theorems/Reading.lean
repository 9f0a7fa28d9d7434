import Webtermo.Execution.Logger.Theorems.Mean

namespace Logger

variable {c : (Fin 8 → Mkt) → Fin 8 → ℚ} {f : Flash} {l : Log} {k j : Fin 8}
variable {s s₁ : State} {d d₁ : Alarm.State} {m : Alarm.SensorMem} {t o : List Obs}

-- What has been observed of the pass so far
def pass (t : List Obs) : List Obs :=
  t.foldl (fun p o => if o = .start then [] else p ++ [o]) []

-- What an alarm is decided with is a reading of the same pass.
def ReadingLaw : List Obs → Prop :=
  Always fun t o => ∀ k x, o = .tested k x → .accepted k x ∈ pass t

instance : Decidable (ReadingLaw t) := by
  have : ∀ t : List Obs, ∀ o : Obs,
      Decidable (∀ k x, o = .tested k x → .accepted k x ∈ pass t) := by
    intro t o
    exact match o with
      | .tested k x =>
        decidable_of_iff (.accepted k x ∈ pass t)
          ⟨fun h _ _ he => by cases he; exact h, fun h => h k x rfl⟩
      | .start | .accepted .. | .logged .. => isTrue nofun
  exact inferInstanceAs <| Decidable (Always _ t)

-- The sensors before `j` have had their turn in the current pass.
def Passed (s : State) (k : Fin 8) : Prop :=
  match s.dev.ptReadTemp with
  | .wait j => k < j
  | _       => False

instance : Decidable (Passed s k) := by
  unfold Passed
  split <;> infer_instance

-- A sensor whose turn is over without a good reading is not enabled, and a record leaves the
-- temperature of those with a good one as it is.
def Undisturbed (c : (Fin 8 → Mkt) → Fin 8 → ℚ) (f : Flash) (s : State) : Event → Prop
  | .post k sen _ => Passed s k → sen.enble ≠ 0 → (s.dev.sen k).senzor.errorCounter = 0 →
    (s.dev.sen k).state = Alarm.ok
  | .save l => ∀ k, Passed s k → (s.dev.sen k).state = Alarm.ok →
    ∀ r ∈ save c f l s, (r.1.dev.sen k).temp = (s.dev.sen k).temp
  | _ => True

instance : Decidable (Undisturbed c f s e) := by
  cases e <;> simp only [Undisturbed] <;> infer_instance

-- A sensor that has had its turn is marked as good only with the temperature of a reading, and is
-- only tested if it is.
structure Read (t : List Obs) (k : Fin 8) (m : Alarm.SensorMem) : Prop where
  accepted : m.state = Alarm.ok → .accepted k m.temp ∈ pass t
  ok       : m.senzor.enble ≠ 0 → m.senzor.errorCounter = 0 → m.state = Alarm.ok

theorem pass_append (h : .start ∉ o) : pass (t ++ o) = pass t ++ o := by
  rw [pass, List.foldl_append]
  show List.foldl _ (pass t) o = _
  generalize pass t = p
  induction o generalizing p with
  | nil => simp
  | cons x o ih =>
    have ⟨hx, ho⟩ : .start ≠ x ∧ .start ∉ o := by simpa using h
    simp [hx.symm, ih ho]

theorem Read.append (h : Read t k m) (ho : .start ∉ o) : Read (t ++ o) k m where
  accepted hs := pass_append ho ▸ List.mem_append_left o (h.accepted hs)
  ok := h.ok

theorem mem_tests : .tested k x ∈ tests d ↔
    (d.sen k).senzor.enble ≠ 0 ∧ (d.sen k).senzor.errorCounter = 0 ∧ x = (d.sen k).temp := by
  simp only [tests, List.mem_filterMap, List.mem_finRange, true_and]
  constructor
  case mp =>
    intro ⟨j, hj⟩
    split at hj
    case isTrue h =>
      cases hj
      exact ⟨h.1, h.2, rfl⟩
    case isFalse => cases hj
  case mpr => exact fun ⟨he, hn, hx⟩ => ⟨k, by simp [he, hn, hx]⟩

theorem start_not_mem_tests : .start ∉ tests d := by
  intro h
  have ⟨j, _, hj⟩ := List.mem_filterMap.mp h
  simp only at hj
  split at hj <;> cases hj

-- Where the first loop of a pass ends
inductive Scanned (t : List Obs) (d : Alarm.State) : Prop
  | tests (loc : d.ptReadTemp = .start) (h : ∀ k x, .tested k x ∈ tests d → .accepted k x ∈ pass t)
  | wait (j : Fin 8) (loc : d.ptReadTemp = .wait j) (h : ∀ k < j, Read t k (d.sen k))

-- The loop goes on with the sensors that have not had their turn.
theorem scanSensors_scanned (hs : rest.Pairwise (· < ·)) (h : ∀ k ∉ rest, Read t k (d.sen k)) :
    Scanned t (Alarm.scanSensors d rest).1 := by
  induction rest generalizing d with
  | nil =>
    refine .tests rfl fun k x hx => ?_
    have ⟨he, hn, hx⟩ := mem_tests.mp hx
    have hk : Alarm.Kept (d.sen k) ((Alarm.scanSensors d []).1.sen k) := .scanSensors
    have r := h k List.not_mem_nil
    rw [hx, hk.temp]
    exact r.accepted <| r.ok (hk.enble ▸ he) (hk.error.mp hn)
  | cons i rest ih =>
    have ⟨hi, hs⟩ := List.pairwise_cons.mp hs
    simp only [Alarm.scanSensors]
    split
    case isTrue =>
      refine .wait i rfl fun k hk => h k fun hm => ?_
      cases hm with
      | head => exact Nat.lt_irrefl _ hk
      | tail _ hm => exact Nat.lt_asymm hk (hi k hm)
    case isFalse he =>
      have he : (d.sen i).senzor.enble = 0 := by simpa using he
      refine ih hs fun k hk => ?_
      by_cases hki : k = i
      case pos =>
        rw [hki, Alarm.State.set_sen_self]
        exact ⟨fun h => absurd h (by simp), fun h => absurd he h⟩
      case neg =>
        rw [Alarm.State.set_sen_ne _ hki]
        exact h k <| by simp [hki, hk]

-- Up to the second loop of the pass, the sensors that have had their turn have been read.
def Fresh (t : List Obs) (d : Alarm.State) : Prop :=
  ∀ j, d.ptReadTemp = .wait j → ∀ k < j, Read t k (d.sen k)

theorem Scanned.law (h : Scanned t d) (hl : ReadingLaw t) :
    Fresh (t ++ if d.ptReadTemp = .start then Logger.tests d else []) d ∧
      ReadingLaw (t ++ if d.ptReadTemp = .start then Logger.tests d else []) := by
  cases h with
  | tests loc h =>
    refine ⟨fun j hj => absurd (loc ▸ hj) nofun, ?_⟩
    rw [if_pos loc]
    refine hl.append fun o₁ x o₂ ho k y hx => ?_
    have hm : .start ∉ o₁ := fun hm => start_not_mem_tests <| ho ▸ List.mem_append_left _ hm
    rw [pass_append hm]
    exact List.mem_append_left _ <| h k y (by simp [ho, hx])
  | wait j loc h =>
    rw [if_neg (loc ▸ nofun), List.append_nil]
    refine ⟨fun i hi => ?_, hl⟩
    cases loc.symm.trans hi
    exact h

theorem ReadingLaw.untested (h : ReadingLaw t) (ho : ∀ x ∈ o, ∀ k y, x ≠ .tested k y) :
    ReadingLaw (t ++ o) :=
  h.append fun _ x _ he k y hx => absurd hx <| ho x (by simp [he]) k y

theorem Read.of_reading (h : Alarm.Reading m m₁ ds) (hs : Alarm.readSensor m ds = some m₁)
    (ha : Alarm.goodReading ds → .accepted k m₁.temp ∈ pass t) : Read t k m₁ := by
  cases h with
  | good hg =>
    refine ⟨fun _ => ha hg, fun _ _ => ?_⟩
    simp only [Alarm.readSensor, hg, if_true, Option.bind_eq_bind, Option.bind_eq_some_iff] at hs
    obtain ⟨_, _, hs⟩ := hs
    cases hs
    rfl
  | bad hb temp sum count enble error =>
    refine ⟨fun ho => ?_, fun _ hn => absurd hn error⟩
    simp only [Alarm.readSensor, hb, Bool.false_eq_true, if_false] at hs
    cases hs
    simp at ho

theorem readTemp_fresh (h : Fresh t d) (hl : ReadingLaw t)
    (hs : Alarm.ptReadTemp d ds = some (d₁, u)) :
    Fresh (t ++ readObs d d₁ ds) d₁ ∧ ReadingLaw (t ++ readObs d d₁ ds) := by
  cases Alarm.ptReadTemp_cases hs with
  | yield loc hd =>
    subst hd
    simp only [readObs, loc, List.append_nil]
    refine ⟨?_, hl⟩
    rintro j ⟨⟩
  | scan loc hd =>
    have hn : Scanned (t ++ [Obs.start]) d₁ := hd ▸
      scanSensors_scanned (List.pairwise_lt_finRange 8) fun k hk => absurd (List.mem_finRange k) hk
    simp only [readObs, loc]
    rw [List.append_cons]
    exact hn.law <| hl.untested <| by simp
  | read k m loc hm hd =>
    simp only [readObs, loc, ← List.append_assoc]
    have hk : Alarm.Kept ((d.set k m).sen k) (d₁.sen k) := hd ▸ .scanSensors
    rw [Alarm.State.set_sen_self] at hk
    generalize ho : (if Alarm.goodReading ds then [Obs.accepted k (d₁.sen k).temp] else []) = o
    have hn : .start ∉ o := by
      rw [← ho]
      split <;> simp
    have ha : Alarm.goodReading ds → .accepted k m.temp ∈ pass (t ++ o) := by
      intro hg
      rw [pass_append hn, ← ho, if_pos hg, hk.temp]
      simp
    have r : Scanned (t ++ o) d₁ := by
      refine hd ▸ scanSensors_scanned Alarm.after_sorted fun i hi => ?_
      by_cases hik : i = k
      case pos =>
        rw [hik, Alarm.State.set_sen_self]
        exact .of_reading (Alarm.readSensor_reading hm) hm ha
      case neg =>
        have hi : ¬k < i := mt Alarm.mem_after.mpr hi
        have hi : i < k := Nat.lt_of_le_of_ne (Nat.not_lt.mp hi) (Fin.val_ne_of_ne hik)
        rw [Alarm.State.set_sen_ne _ hik]
        exact (h k loc i hi).append hn
    refine r.law <| hl.untested ?_
    rw [← ho]
    split <;> simp

-- A record changes nothing of a sensor but its temperature and the words of its mean.
structure Same (s s₁ : State) : Prop where
  loc    : s₁.dev.ptReadTemp = s.dev.ptReadTemp
  senzor : ∀ k, (s₁.dev.sen k).senzor = (s.dev.sen k).senzor
  state  : ∀ k, (s₁.dev.sen k).state = (s.dev.sen k).state

theorem Same.set (h : m.senzor = (s.dev.sen k).senzor) (hs : m.state = (s.dev.sen k).state) :
    Same s { s with dev := s.dev.set k m, mkt } := by
  refine ⟨rfl, fun i => ?_, fun i => ?_⟩
  all_goals
    by_cases hi : i = k
    case pos => simpa [hi] using ‹_›
    case neg => simp [hi]

theorem Same.trans {s₂ : State} (h : Same s s₂) (h₁ : Same s₂ s₁) : Same s s₁ :=
  ⟨h₁.loc.trans h.loc, fun k => (h₁.senzor k).trans (h.senzor k),
    fun k => (h₁.state k).trans (h.state k)⟩

def Obs.IsLogged : Obs → Prop
  | logged _ _ _ _ => True
  | _              => False

theorem saveSensor_same : Same s (saveSensor c l b s k).1 ∧
    ∀ x ∈ (saveSensor c l b s k).2, x.IsLogged := by
  unfold saveSensor
  simp only
  split
  case isTrue =>
    split
    · exact ⟨.set rfl rfl, by simp [Obs.IsLogged]⟩
    · exact ⟨⟨rfl, fun _ => rfl, fun _ => rfl⟩, by simp [Obs.IsLogged]⟩
  case isFalse => exact ⟨⟨rfl, fun _ => rfl, fun _ => rfl⟩, nofun⟩

theorem saveSensors_same : Same s (saveSensors c l b s ks).1 ∧
    ∀ x ∈ (saveSensors c l b s ks).2, x.IsLogged := by
  induction ks generalizing s with
  | nil => exact ⟨⟨rfl, fun _ => rfl, fun _ => rfl⟩, nofun⟩
  | cons k ks ih =>
    have ⟨h, ho⟩ := saveSensor_same (c := c) (l := l) (b := b) (s := s) (k := k)
    have ⟨h₁, ho₁⟩ := ih (s := (saveSensor c l b s k).1)
    exact ⟨h.trans h₁, List.forall_mem_append.mpr ⟨ho, ho₁⟩⟩

theorem save_same (hs : save c f l s = some (s₁, o)) : Same s s₁ ∧ ∀ x ∈ o, x.IsLogged := by
  simp only [save, Option.bind_eq_bind, Option.bind_eq_some_iff, Option.some.injEq] at hs
  obtain ⟨x, _, hs⟩ := hs
  obtain ⟨h, ho⟩ := hs ▸ saveSensors_same
  have h₀ : Same s { s with dev := s.dev.set 0 { s.dev.sen 0 with temp := x } } := .set rfl rfl
  exact ⟨h₀.trans h, ho⟩

theorem passed_iff : Passed s k ↔ ∃ j, s.dev.ptReadTemp = .wait j ∧ k < j := by
  unfold Passed
  split <;> simp_all

theorem step_fresh (i : Fresh t s.dev ∧ ReadingLaw t) (ok : Undisturbed c f s e)
    (hs : (logger c f).step s e = some (s₁, o)) :
    Fresh (t ++ o) s₁.dev ∧ ReadingLaw (t ++ o) := by
  cases e with
  | readTemp ds =>
    simp only [logger, Option.bind_eq_bind, Option.bind_eq_some_iff] at hs
    obtain ⟨⟨d, _⟩, hd, hs⟩ := hs
    cases hs
    exact readTemp_fresh i.1 i.2 hd
  | alarmDelay =>
    cases hs
    rw [List.append_nil]
    exact ⟨fun j hj k hk => ⟨(i.1 j hj k hk).accepted, (i.1 j hj k hk).ok⟩, i.2⟩
  | post k sen type =>
    cases hs
    rw [List.append_nil]
    refine ⟨fun j hj n hn => ?_, i.2⟩
    have r := i.1 j hj n hn
    by_cases hk : n = k
    case pos =>
      subst hk
      simp only [Alarm.saveSensor, Alarm.State.set_sen_self]
      exact ⟨r.accepted, fun he hz => ok (passed_iff.mpr ⟨j, hj, hn⟩) he hz⟩
    case neg =>
      rw [Alarm.saveSensor, Alarm.State.set_sen_ne _ hk]
      exact r
  | save l =>
    obtain ⟨same, ho⟩ := save_same hs
    have hn : .start ∉ o := fun h => ho _ h
    refine ⟨fun j hj k hk => ?_, i.2.untested fun x hx k y he => ?_⟩
    · have hj := same.loc ▸ hj
      have r := (i.1 j hj k hk).append hn
      refine ⟨fun h => ?_, same.senzor k ▸ same.state k ▸ r.ok⟩
      have h := same.state k ▸ h
      rw [ok k (passed_iff.mpr ⟨j, hj, hk⟩) h _ hs]
      exact r.accepted h
    · subst he
      exact ho _ hx

-- In every run from the start of `ptReadTemp` that is not disturbed in a pass, every alarm is decided
-- with a reading of the pass.
theorem reading_law (h : s.dev.ptReadTemp = .start) (g : (logger c f).Guarded (Undisturbed c f) s es)
    (hr : (logger c f).run s es = some (s₁, t)) : ReadingLaw t :=
  (Machine.run_history (I := fun t s => Fresh t s.dev ∧ ReadingLaw t) (t := [])
    (fun hi ok hs => step_fresh hi ok hs) ⟨fun _ hj => absurd (h ▸ hj) nofun, Always.nil⟩ g hr).2

def reads (n : Nat) : List Event :=
  .replicate n (.readTemp Alarm.thirty)

-- A pass with a record before and after it and a POST for the last sensor in it
def calm : List Event :=
  [Event.save .temp] ++ reads 5 ++ [Event.post 7 (default : Sensor) 0] ++ reads 4 ++ [Event.save .haccp]

theorem reading_law_calm : ∃ s₁ t, (logger noMkt vectors).run device calm = some (s₁, t) ∧
    .tested 6 30 ∈ t ∧ ReadingLaw t := by
  have : ((logger noMkt vectors).run device calm).any (fun x => .tested 6 30 ∈ x.2) := by
    decide +kernel
  obtain ⟨⟨s₁, t⟩, hr, ht⟩ := Option.any_eq_true _ _ |>.mp this
  exact ⟨s₁, t, hr, of_decide_eq_true ht, reading_law rfl (by decide +kernel) hr⟩

-- Sensor 0 is switched on while sensor 1 is being read.
def lateSensor : List Event :=
  [Event.post 0 (default : Sensor) 0] ++ reads 2 ++ [Event.post 0 (device.dev.sen 0).senzor 0] ++ reads 7

theorem tested_unread :
    ¬∀ calculateMkt f s es s₁ t, s.dev.ptReadTemp = .start →
      (logger calculateMkt f).run s es = some (s₁, t) → ReadingLaw t := by
  intro h
  have : ((logger noMkt vectors).run device lateSensor).any (fun x => ¬ReadingLaw x.2) := by
    decide +kernel
  obtain ⟨⟨s₁, t⟩, hr, ht⟩ := Option.any_eq_true _ _ |>.mp this
  exact of_decide_eq_true ht <| h _ _ _ _ _ _ rfl hr

end Logger
