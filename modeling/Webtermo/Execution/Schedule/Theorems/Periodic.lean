import Webtermo.Execution.Schedule.State
import Webtermo.Library.Onset
import Webtermo.Library.Trace

namespace Periodic

def Obs.calls (tm : Timer) : Obs → Bool
  | tick        => false
  | pass called => called tm

def Obs.isTick : Obs → Bool
  | tick   => true
  | pass _ => false

-- The milliseconds since the last call for a timer, or else since the start
def elapsed (tm : Timer) (t : List Obs) : Nat :=
  since (fun x => !x.calls tm) Obs.isTick t

-- Two calls for a timer are at least its interval apart.
def Paced (tm : Timer) : List Obs → Prop :=
  Always fun past x => x.calls tm → past.any (·.calls tm) → tm.interval.toNat ≤ elapsed tm past

-- No pass comes when a tenth of the interval is over since the last call, but not all of it.
def Sparse (tm : Timer) : List Obs → Prop :=
  Always fun past x => !x.isTick → past.any (·.calls tm) →
    ¬(tm.interval.toNat ≤ 10 * elapsed tm past ∧ elapsed tm past < tm.interval.toNat)

variable {s s₁ : State} {tm : Timer} {t : List Obs}

theorem interval_le : tm.interval.toNat ≤ 1000 := by
  cases tm <;> decide

theorem due_iff (h : s.localTime - s.timer tm = .ofNat (10 * n)) :
    s.due tm ↔ tm.interval.toNat ≤ 10 * n % 2 ^ 32 := by
  simp [State.due, h, UInt32.le_iff_toNat_le]

-- `LocalTime` goes ten steps a millisecond.
structure Inv (t : List Obs) (s : State) : Prop where
  time  : ∀ tm, s.localTime - s.timer tm = .ofNat (10 * elapsed tm t)
  paced : ∀ tm, Paced tm t ↔ Sparse tm t

theorem Inv.init : Inv [] .init where
  time  := fun tm => by simp [State.init, elapsed]
  paced := fun _ => iff_of_true .nil .nil

theorem Inv.tick (i : Inv t s) : Inv (t ++ [Obs.tick]) (incrementTimer s) where
  time tm := by
    have he : elapsed tm (t ++ [Obs.tick]) = elapsed tm t + 1 := since_concat_pos rfl
    have hs : s.localTime + 10 - s.timer tm = s.localTime - s.timer tm + 10 := by
      rw [UInt32.sub_eq_add_neg, UInt32.sub_eq_add_neg, UInt32.add_assoc, UInt32.add_assoc,
        UInt32.add_comm 10]
    rw [he, incrementTimer, hs, i.time tm, Nat.mul_succ, UInt32.ofNat_add]
    rfl
  paced tm := by
    have := i.paced tm
    simp only [Paced, Sparse, Always.concat_iff] at *
    exact and_congr this <| by simp [Obs.calls, Obs.isTick]

theorem Inv.pass (i : Inv t s) : Inv (t ++ [Obs.pass s.due]) (lwIPPeriodicHandle s) where
  time tm := by
    by_cases hd : s.due tm
    case pos =>
      have he : elapsed tm (t ++ [Obs.pass s.due]) = 0 := since_concat_neg (by simp [Obs.calls, hd])
      simp [lwIPPeriodicHandle, hd, he]
    case neg =>
      have he : elapsed tm (t ++ [Obs.pass s.due]) = elapsed tm t :=
        since_concat_pos (by simp [Obs.calls, hd])
      simpa [lwIPPeriodicHandle, hd, he] using i.time tm
  paced tm := by
    have hd := due_iff (i.time tm)
    have hi := @interval_le tm
    have hs : (s.due tm → t.any (·.calls tm) → tm.interval.toNat ≤ elapsed tm t) ↔
        (t.any (·.calls tm) →
          ¬(tm.interval.toNat ≤ 10 * elapsed tm t ∧ elapsed tm t < tm.interval.toNat)) := by
      constructor
      case mp =>
        intro h ha _
        have := h (hd.mpr <| by omega) ha
        omega
      case mpr =>
        intro h hp ha
        have := h ha
        have := hd.mp hp
        omega
    simp only [Paced, Sparse, Always.concat_iff] at *
    exact and_congr (i.paced tm) (by simpa [Obs.calls, Obs.isTick] using hs)

theorem step_inv (i : Inv t s) (h : device.step s e = some (s₁, o)) : Inv (t ++ o) s₁ := by
  cases e <;> cases h
  case tick => exact i.tick
  case pass => exact i.pass

-- Whatever the order of ticks and passes, the calls for a timer are its interval apart exactly if no
-- pass comes within its interval after a call when a tenth of it is over.
theorem pacing_law (h : device.run .init es = some (s, t)) : Paced tm t ↔ Sparse tm t := by
  have := device.run_history (I := Inv) (fun i _ => step_inv i) .init .trivial h
  exact this.paced tm

instance : Decidable (Paced tm t) :=
  inferInstanceAs <| Decidable (Always _ t)

instance : Decidable (Sparse tm t) :=
  inferInstanceAs <| Decidable (Always _ t)

-- A pass after each `n` milliseconds
def passes (n : Nat) : List Event :=
  let part := List.replicate n Event.tick ++ [Event.pass]
  part ++ part

theorem pacing_law_passes : ∃ s t,
    device.run .init (passes 250) = some (s, t) ∧ Paced .tcp t ∧ ∃ tm, t.any (·.calls tm) := by
  have : (device.run .init (passes 250)).any fun (_, t) => Sparse .tcp t ∧ t.any (·.calls .tcp) := by
    decide +kernel
  have ⟨(s, t), hr, ht⟩ := Option.any_eq_true _ _ |>.mp this
  have ⟨hs, hc⟩ := of_decide_eq_true ht
  exact ⟨s, t, hr, (pacing_law hr).mpr hs, .tcp, hc⟩

theorem called_early : ¬∀ tm es s t, device.run .init es = some (s, t) → Paced tm t := by
  intro h
  have : (device.run .init (passes 25)).any fun (_, t) => ¬Paced .tcp t := by
    decide +kernel
  have ⟨(s, t), hr, ht⟩ := Option.any_eq_true _ _ |>.mp this
  exact of_decide_eq_true ht (h _ _ _ _ hr)

end Periodic
