import Webtermo.Execution.Input.State
import Webtermo.Execution.Timer.State

namespace Timers

theorem toInt_toInt32 (n : UInt32) :
    n.toInt32.toInt = if n.toNat < 2 ^ 31 then (n.toNat : Int) else n.toNat - 2 ^ 32 := by
  have hb : n.toInt32.toInt = n.toBitVec.toInt := rfl
  rw [hb, BitVec.toInt_eq_toNat_cond, UInt32.toNat_toBitVec]
  congr 1
  exact propext ⟨fun _ => by omega, fun _ => by omega⟩

-- A timer compares its interval with the ticks since it was set, as long as they do not reach the bit of
-- the sign.
theorem timerExpired_iff (hn : t.interval.toNat < 2 ^ 31) (ht : s.timex = t.start + .ofNat k) :
    timerExpired s t ↔ k % 2 ^ 32 < 2 ^ 31 ∧ t.interval.toNat ≤ k % 2 ^ 32 := by
  have hd : s.timex - t.start = .ofNat k := by
    rw [ht, UInt32.add_comm, UInt32.add_sub_cancel]
  have hk : (UInt32.ofNat k).toNat = k % 2 ^ 32 := UInt32.toNat_ofNat'
  simp only [timerExpired, decide_eq_true_eq, hd, Int32.le_iff_toInt_le, toInt_toInt32, hk, if_pos hn]
  split
  case isTrue h => omega
  case isFalse h => omega

variable {s s₁ : System ι} {i : ι}

-- The timer `i` has been set for `n`, and `k` ticks have passed since.
structure Since (i : ι) (n : UInt32) (k : Nat) (s : System ι) : Prop where
  interval : (s.timer i).interval = n
  timex    : s.counters.timex = (s.timer i).start + .ofNat k

namespace Since

theorem expired_iff (h : Since i n k s) (hn : n.toNat < 2 ^ 31) (hk : k < 2 ^ 31) :
    s.expired i ↔ n.toNat ≤ k := by
  rw [System.expired, timerExpired_iff (h.interval.symm ▸ hn) h.timex, h.interval]
  omega

-- After half of a turn the interval has passed for nothing.
theorem not_expired (h : Since i n (2 ^ 31) s) (hn : n.toNat < 2 ^ 31) : ¬s.expired i := by
  rw [System.expired, timerExpired_iff (h.interval.symm ▸ hn) h.timex]
  omega

variable [DecidableEq ι]

theorem set (hs : (device ι).step s (.timerSet i n) = some (s₁, o)) : Since i n 0 s₁ := by
  cases hs
  exact ⟨by simp [timerSet], by simp [timerSet]⟩

theorem step (h : Since i n k s) (he : ∀ m, e ≠ .timerSet i m)
    (hs : (device ι).step s e = some (s₁, o)) : Since i n (k + if e = .tick then 1 else 0) s₁ := by
  cases e with
  | tick =>
    cases hs
    refine ⟨h.interval, ?_⟩
    simp [incrementTimer, h.timex, UInt32.add_assoc]
  | timerSet j m =>
    cases hs
    have hj : i ≠ j := fun hj => he m <| hj ▸ rfl
    exact ⟨by simpa [hj] using h.interval, by simpa [hj] using h.timex⟩
  | i2cTimer v =>
    cases hs
    exact ⟨h.interval, by simpa using h.timex⟩

theorem run (h : Since i n k s) (he : ∀ m, .timerSet i m ∉ es)
    (hr : (device ι).run s es = some (s₁, o)) : Since i n (k + es.count .tick) s₁ := by
  induction es generalizing s k o with
  | nil =>
    cases hr
    exact h
  | cons e es ih =>
    obtain ⟨s₂, _, _, hs, hr, _⟩ := Machine.run_cons hr
    have h₂ := h.step (fun m hm => he m <| hm ▸ List.mem_cons_self) hs
    have := ih h₂ (fun m hm => he m <| List.mem_cons_of_mem _ hm) hr
    simpa [List.count_cons, Nat.add_assoc, Nat.add_comm, Nat.add_left_comm] using this

end Since

variable [DecidableEq ι]

theorem run_exists (s : System ι) (es : List (Event ι)) :
    ∃ s₁ o, (device ι).run s es = some (s₁, o) :=
  Machine.run_exists fun s e => by cases e <;> exact ⟨_, _, rfl⟩

-- Whatever else happens after it has been set, a timer is expired exactly when its interval has passed, and
-- it stays expired, for half of a turn of `Timex`.
theorem timer_law (s : System ι) (i : ι) (es₁ es₂ : List (Event ι)) (hn : n.toNat < 2 ^ 31)
    (he : ∀ m, .timerSet i m ∉ es₁ ++ es₂) (hk : (es₁ ++ es₂).count .tick < 2 ^ 31) :
    ∃ s₁ s₂ o₁ o₂, (device ι).run s (.timerSet i n :: es₁) = some (s₁, o₁) ∧
      (device ι).run s₁ es₂ = some (s₂, o₂) ∧
      (s₁.expired i ↔ n.toNat ≤ es₁.count .tick) ∧ (s₁.expired i → s₂.expired i) := by
  obtain ⟨s₁, o₁, h₁⟩ := run_exists s (.timerSet i n :: es₁)
  obtain ⟨s₂, o₂, h₂⟩ := run_exists s₁ es₂
  obtain ⟨s₃, _, _, hs, hr, _⟩ := Machine.run_cons h₁
  simp only [List.mem_append, not_or] at he
  rw [List.count_append] at hk
  have hs₁ := Since.set hs |>.run (fun m => (he m).1) hr
  have hs₂ := hs₁.run (fun m => (he m).2) h₂
  rw [Nat.zero_add] at hs₁ hs₂
  have he₁ := hs₁.expired_iff hn (by omega)
  have he₂ := hs₂.expired_iff hn hk
  exact ⟨s₁, s₂, o₁, o₂, h₁, h₂, he₁, fun h => he₂.mpr <| Nat.le_add_right_of_le <| he₁.mp h⟩

-- `Timex` wraps between the two ticks.
theorem timer_law_wrap :
    ∃ s₁ s₂ o₁ o₂,
      (device Bool).run ⟨⟨0xFFFFFFFF, 0, 0, 0⟩, fun _ => ⟨0, 0⟩⟩
        [.timerSet true 2, .tick, .timerSet false 7, .tick] = some (s₁, o₁) ∧
      (device Bool).run s₁ [.tick, .i2cTimer 1] = some (s₂, o₂) ∧
      (s₁.expired true ↔ 2 ≤ 2) ∧ (s₁.expired true → s₂.expired true) :=
  timer_law ⟨⟨0xFFFFFFFF, 0, 0, 0⟩, fun _ => ⟨0, 0⟩⟩ true
    [.tick, .timerSet false 7, .tick] [.tick, .i2cTimer 1] (by decide) (by simp) (by decide)

end Timers

-- The timer of the inputs, whose ticks are counted from the boot, is one of these.
theorem Input.State.expired_eq {s : Input.State} {c : Timers.State} {t : Timers.Timer}
    (hs : s.input1Timer ≤ s.timex) (hc : c.timex = .ofNat s.timex)
    (ht : t = ⟨.ofNat s.input1Timer, .ofNat debounce⟩) : s.expired = Timers.timerExpired c t := by
  have hk : c.timex = t.start + .ofNat (s.timex - s.input1Timer) := by
    rw [hc, ht, ← UInt32.ofNat_add, Nat.add_sub_cancel' hs]
  have hn : t.interval.toNat = debounce := ht ▸ rfl
  rw [Bool.eq_iff_iff, Timers.timerExpired_iff (by simp [hn]) hk, hn]
  exact decide_eq_true_iff
