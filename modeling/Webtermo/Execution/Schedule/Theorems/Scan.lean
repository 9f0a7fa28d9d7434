import Webtermo.Execution.Schedule.State
import Webtermo.Library.Trace

namespace Scan

def setups : List Nat :=
  [5, 10, 15, 30, 60, 120, 240, 360]

-- Minute 1 of a slot
def Scheduled (scansetup m : Nat) : Prop :=
  if scansetup ≤ 60 then
    minuteOfHour m % scansetup = 1
  else
    minuteOfHour m = 1 ∧ hourOfDay m % (scansetup / 60) = 0

instance : Decidable (Scheduled scansetup m) :=
  inferInstanceAs <| Decidable (ite ..)

-- The clock goes forward, and no minute is left out.
def Polled (m n : Nat) : Prop :=
  m ≤ n ∧ n ≤ m + 1

instance : Decidable (Polled m n) :=
  inferInstanceAs <| Decidable (_ ∧ _)

-- A pass at `n` after one at `m` is the first of a scheduled minute.
def Begins (scansetup m n : Nat) : Prop :=
  m ≠ n ∧ Scheduled scansetup n

instance : Decidable (Begins scansetup m n) :=
  inferInstanceAs <| Decidable (_ ∧ _)

-- The minute of the last pass, or else that of the start
def now (m₀ : Nat) (t : List Pass) : Nat :=
  (t.getLast?.map (·.minute)).getD m₀

-- The only pass so far has begun a scheduled minute, and `ptSaveTemp` did not wait yet.
def Owed (scansetup m₀ : Nat) (pt : Pt) : List Pass → Prop
  | [x] => pt = .start ∧ Begins scansetup m₀ x.minute
  | _   => False

instance : Decidable (Owed scansetup m₀ pt t) :=
  match t with
  | [_]        => inferInstanceAs <| Decidable (_ ∧ _)
  | []         => inferInstanceAs <| Decidable False
  | _ :: _ :: _ => inferInstanceAs <| Decidable False

-- The first pass of a scheduled minute calls `SaveTemp`, or else the pass after it if the former was
-- the first one of all and has found `ptSaveTemp` at its beginning. No other pass does.
def InTime (scansetup m₀ : Nat) (pt : Pt) : List Pass → Prop :=
  Always fun past x => x.saved ↔
    (Begins scansetup (now m₀ past) x.minute ∧ (past ≠ [] ∨ pt = .waiting)) ∨
    Owed scansetup m₀ pt past

-- The scheduled minutes that have begun since the start
def begun (scansetup m₀ : Nat) (t : List Pass) : Nat :=
  (List.range' (m₀ + 1) (now m₀ t - m₀)).countP (Scheduled scansetup ·)

structure Law (scansetup m₀ : Nat) (pt : Pt) (t : List Pass) : Prop where
  inTime : InTime scansetup m₀ pt t
  once   : t.countP (·.saved) + (if Owed scansetup m₀ pt t then 1 else 0) = begun scansetup m₀ t

variable {scansetup m₀ : Nat} {pt : Pt} {t : List Pass} {s s₁ : State}

theorem Scheduled.later (hs : scansetup ∈ setups) (h : Scheduled scansetup m) :
    ¬Scheduled scansetup (m + 1) ∧ ¬Scheduled scansetup (m + 2) := by
  simp only [setups, List.mem_cons, List.not_mem_nil, or_false] at hs
  obtain rfl | rfl | rfl | rfl | rfl | rfl | rfl | rfl := hs
  all_goals
    simp only [Scheduled, minuteOfHour, hourOfDay, Nat.reduceLeDiff, if_true, if_false] at *
    omega

theorem due_iff (hs : scansetup ∈ setups) (hp : Polled m n) :
    due scansetup (minuteOfHour m) (hourOfDay n) (minuteOfHour n) ↔ Begins scansetup m n := by
  have ⟨_, _⟩ := hp
  simp only [setups, List.mem_cons, List.not_mem_nil, or_false] at hs
  obtain rfl | rfl | rfl | rfl | rfl | rfl | rfl | rfl := hs
  all_goals
    simp [due, Begins, Scheduled, minuteOfHour, hourOfDay]
    omega

@[simp] theorem now_nil : now m₀ [] = m₀ :=
  rfl

@[simp] theorem now_concat : now m₀ (t ++ [x]) = x.minute := by
  simp [now]

@[simp] theorem not_owed_nil : ¬Owed scansetup m₀ pt [] :=
  id

theorem owed_concat : Owed scansetup m₀ pt (t ++ [x]) ↔
    t = [] ∧ pt = .start ∧ Begins scansetup (now m₀ t) x.minute := by
  cases t with
  | nil => simp [Owed]
  | cons y t => cases t <;> simp [Owed]

theorem Owed.scheduled (h : Owed scansetup m₀ pt t) : Scheduled scansetup (now m₀ t) :=
  match t, h with
  | [_], h => h.2.2

theorem begun_concat (hm : m₀ ≤ now m₀ t) (hp : Polled (now m₀ t) x.minute) :
    begun scansetup m₀ (t ++ [x]) =
      begun scansetup m₀ t + if Begins scansetup (now m₀ t) x.minute then 1 else 0 := by
  have ⟨hl, hu⟩ := hp
  simp only [begun, now_concat]
  obtain he | he : x.minute = now m₀ t ∨ x.minute = now m₀ t + 1 := by omega
  · simp [he, Begins]
  · have hr : x.minute - m₀ = now m₀ t - m₀ + 1 := by omega
    have hx : m₀ + 1 + (now m₀ t - m₀) = x.minute := by omega
    have hn : now m₀ t ≠ x.minute := by omega
    rw [hr, List.range'_1_concat, List.countP_append, hx]
    simp [Begins, hn, List.countP_singleton]

-- What the loop and the protothread have in common
structure Inv (scansetup m₀ : Nat) (pt : Pt) (t : List Pass) (s : State) : Prop where
  law    : Law scansetup m₀ pt t
  le     : m₀ ≤ now m₀ t
  oldmin : s.oldmin = minuteOfHour (now m₀ t)
  flag   : s.scanflag ↔ Owed scansetup m₀ pt t
  first  : t = [] → s.pt = pt
  -- `SaveTemp` has just been called, so that the next minute is not scheduled.
  rests  : s.pt = .start → t ≠ [] → ¬s.scanflag ∧ ¬Scheduled scansetup (now m₀ t + 1)

theorem Inv.init : Inv scansetup m₀ pt [] (.init m₀ pt) where
  law    := ⟨.nil, by simp [begun, Owed]⟩
  le     := Nat.le_refl _
  oldmin := rfl
  flag   := by simp [State.init, Owed]
  first  := fun _ => rfl
  rests  := by simp

-- A pass as the law demands keeps the law.
theorem Law.concat (l : Law scansetup m₀ pt t) (hs : scansetup ∈ setups) (hm : m₀ ≤ now m₀ t)
    (hp : Polled (now m₀ t) x.minute)
    (h : x.saved ↔ (Begins scansetup (now m₀ t) x.minute ∧ (t ≠ [] ∨ pt = .waiting)) ∨
      Owed scansetup m₀ pt t) :
    Law scansetup m₀ pt (t ++ [x]) where
  inTime := l.inTime.concat h
  once   := by
    rw [begun_concat hm hp, ← l.once, List.countP_append, List.countP_singleton]
    have hb : Owed scansetup m₀ pt t → ¬Begins scansetup (now m₀ t) x.minute := by
      intro ho ⟨hn, hx⟩
      have ⟨hl, hu⟩ := hp
      have he : x.minute = now m₀ t + 1 := by omega
      exact (ho.scheduled.later hs).1 <| he ▸ hx
    have ho := @owed_concat scansetup m₀ pt t x
    have hw : pt = .waiting ↔ pt ≠ .start := by cases pt <;> simp
    split_ifs <;> grind

-- All that a pass can do
inductive Passed (flag : Bool) (m : Nat) (s : State) : State → Bool → Prop
  | yields (hp : s.pt = .start) : Passed flag m s ⟨minuteOfHour m, flag, .waiting⟩ false
  | waits (hp : s.pt = .waiting) (hf : flag = false) :
    Passed flag m s ⟨minuteOfHour m, flag, .waiting⟩ false
  | saves (hp : s.pt = .waiting) (hf : flag = true) :
    Passed flag m s ⟨minuteOfHour m, false, .start⟩ true

theorem step_passed (h : (device scansetup).step s m = some (s₁, o)) :
    ∃ saved, o = [⟨m, saved⟩] ∧ Passed
      (s.scanflag || due scansetup s.oldmin (hourOfDay m) (minuteOfHour m)) m s s₁ saved := by
  simp only [device, Option.some.injEq, Prod.mk.injEq] at h
  refine ⟨_, h.2.symm, h.1 ▸ ?_⟩
  cases hp : s.pt with
  | start => simpa [ptSaveTemp, checkScanTime, hp] using .yields hp
  | waiting =>
    cases hf : s.scanflag || due scansetup s.oldmin (hourOfDay m) (minuteOfHour m) with
    | false => simpa [ptSaveTemp, checkScanTime, hp, hf] using .waits hp rfl
    | true  => simpa [ptSaveTemp, checkScanTime, hp, hf] using .saves hp rfl

theorem Inv.step (i : Inv scansetup m₀ pt t s) (hs : scansetup ∈ setups)
    (hp : Polled (now m₀ t) m) (h : (device scansetup).step s m = some (s₁, o)) :
    Inv scansetup m₀ pt (t ++ o) s₁ ∧ now m₀ (t ++ o) = m := by
  have ⟨saved, ho, hc⟩ := step_passed h
  cases ho
  have hm : m₀ ≤ m := Nat.le_trans i.le hp.1
  have hf : (s.scanflag || due scansetup s.oldmin (hourOfDay m) (minuteOfHour m)) = true ↔
      Owed scansetup m₀ pt t ∨ Begins scansetup (now m₀ t) m := by
    rw [Bool.or_eq_true, i.flag, i.oldmin, due_iff hs hp]
  have hx := @owed_concat scansetup m₀ pt t ⟨m, saved⟩
  refine ⟨?_, now_concat⟩
  cases hc with
  | yields hp₁ =>
    -- Either nothing has happened yet, or the last call lies at most a minute back.
    have hr : (t = [] ∧ pt = .start) ∨
        (t ≠ [] ∧ ¬Owed scansetup m₀ pt t ∧ ¬Begins scansetup (now m₀ t) m) := by
      by_cases ht : t = []
      · exact .inl ⟨ht, i.first ht ▸ hp₁⟩
      · have ⟨hf₁, hn⟩ := i.rests hp₁ ht
        have ⟨hl, hu⟩ := hp
        refine .inr ⟨ht, mt i.flag.mpr hf₁, fun ⟨hne, hb⟩ => hn ?_⟩
        exact (show m = now m₀ t + 1 by omega) ▸ hb
    refine ⟨i.law.concat hs i.le hp ?_, by simpa, by simp, ?_, by simp, by simp⟩
    · obtain ⟨rfl, rfl⟩ | ⟨ht, ho, hb⟩ := hr
      · simp
      · simp [ho, hb]
    · rw [hf, hx]
      obtain ⟨rfl, rfl⟩ | ⟨ht, ho, hb⟩ := hr
      · simp
      · simp [ht, ho, hb]
  | waits hp₁ hf₁ =>
    have ⟨ho, hb⟩ := not_or.mp <| mt hf.mpr <| by simp [hf₁]
    refine ⟨i.law.concat hs i.le hp ?_, by simpa, by simp, ?_, by simp, by simp⟩
    · simp [ho, hb]
    · simp [hf₁, hx, hb]
  | saves hp₁ hf₁ =>
    have ht : t ≠ [] ∨ pt = .waiting := by
      by_cases ht : t = []
      · exact .inr <| i.first ht ▸ hp₁
      · exact .inl ht
    have hn : ¬(t = [] ∧ pt = .start ∧ Begins scansetup (now m₀ t) m) := by
      grind
    refine ⟨i.law.concat hs i.le hp ?_, by simpa, by simp, ?_, by simp, ?_⟩
    · simpa [ht, or_comm] using hf.mp hf₁
    · rw [hx]
      simpa using hn
    · -- The scheduled minute has begun in this pass or in the one before.
      intro _ _
      refine ⟨by simp, ?_⟩
      rw [now_concat]
      have ⟨hl, hu⟩ := hp
      obtain ho | hb := hf.mp hf₁
      · have ⟨h₁, h₂⟩ := ho.scheduled.later hs
        obtain he | he : m = now m₀ t ∨ m = now m₀ t + 1 := by omega
        · exact he ▸ h₁
        · exact he ▸ h₂
      · exact (hb.2.later hs).1

theorem run_inv (i : Inv scansetup m₀ pt t s) (hs : scansetup ∈ setups)
    (hc : (now m₀ t :: ms).IsChain Polled) (h : (device scansetup).run s ms = some (s₁, o)) :
    Inv scansetup m₀ pt (t ++ o) s₁ := by
  induction ms generalizing t s o with
  | nil =>
    cases h
    simpa using i
  | cons m ms ih =>
    have ⟨s₂, o₁, o₂, hr, h, ho⟩ := (device scansetup).run_cons h
    have ⟨hp, hc⟩ := List.isChain_cons_cons.mp hc
    have ⟨i, hm⟩ := i.step hs hp hr
    rw [ho, ← List.append_assoc]
    exact ih i (hm ▸ hc) h

-- In every run in which the clock goes forward and no minute is left out, `SaveTemp` is called once
-- for each scheduled minute, by the first pass in it, or by the next pass if the former is the first
-- pass of all and `ptSaveTemp` does not wait yet.
theorem schedule_law (hs : scansetup ∈ setups) (hc : (m₀ :: ms).IsChain Polled)
    (h : (device scansetup).run (.init m₀ pt) ms = some (s, t)) : Law scansetup m₀ pt t := by
  have := run_inv .init hs hc h
  exact this.law

-- From midnight for an hour
theorem schedule_law_hour : ∃ s t,
    (device 15).run (.init 0 .start) (List.range 60) = some (s, t) ∧ Law 15 0 .start t := by
  have : ((device 15).run (.init 0 .start) (List.range 60)).isSome := by
    decide +kernel
  have ⟨(s, t), hr⟩ := Option.isSome_iff_exists.mp this
  exact ⟨s, t, hr, schedule_law (by decide) (by decide +kernel) hr⟩

-- The minute 1 is polled once, by the first pass of all.
theorem saved_other_minute :
    ¬∀ scansetup ∈ setups, ∀ m₀ pt ms s t, (m₀ :: ms).IsChain Polled →
      (device scansetup).run (.init m₀ pt) ms = some (s, t) →
      ∀ x ∈ t, x.saved → Scheduled scansetup x.minute := by
  intro h
  have hr : (device 5).run (.init 0 .start) [1, 2] =
      some (⟨2, false, .start⟩, [⟨1, false⟩, ⟨2, true⟩]) := rfl
  have := h 5 (by decide) 0 .start _ _ _ (by decide) hr ⟨2, true⟩ (by decide) rfl
  exact absurd this (by decide)

end Scan
