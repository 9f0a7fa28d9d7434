import Webtermo.Execution.Schedule.State

namespace Haccp

namespace Event

-- The minutes that the two checks read
def resetMinute : Event → Nat
  | pass m _ | boot m => m

def haccpMinute : Event → Nat
  | pass _ n | boot n => n

end Event

-- The clock goes forward, and neither check leaves out a minute.
structure Follows (e₁ e₂ : Event) : Prop where
  forward : e₁.haccpMinute ≤ e₂.resetMinute
  inPass  : e₂.resetMinute ≤ e₂.haccpMinute
  reset   : e₂.resetMinute ≤ e₁.resetMinute + 1
  haccp   : e₂.haccpMinute ≤ e₁.haccpMinute + 1

theorem follows_iff : Follows e₁ e₂ ↔ e₁.haccpMinute ≤ e₂.resetMinute ∧
    e₂.resetMinute ≤ e₂.haccpMinute ∧ e₂.resetMinute ≤ e₁.resetMinute + 1 ∧
    e₂.haccpMinute ≤ e₁.haccpMinute + 1 :=
  ⟨fun ⟨a, b, c, d⟩ => ⟨a, b, c, d⟩, fun ⟨a, b, c, d⟩ => ⟨a, b, c, d⟩⟩

instance : Decidable (Follows e₁ e₂) :=
  decidable_of_iff _ follows_iff.symm

-- The minutes that begin the hours 6, 10, 14, 18 and 22 of a day
def Slot (m : Nat) : Prop :=
  minuteOfHour m = 0 ∧ hourOfDay m ∈ [6, 10, 14, 18, 22]

instance : Decidable (Slot m) :=
  inferInstanceAs <| Decidable (_ ∧ _)

-- The minutes of the planned resets
def Planned (m : Nat) : Prop :=
  minuteOfHour m = 59 ∧ hourOfDay m ∈ [1, 5, 9, 13, 17, 21]

-- The minute of the last event
def now (m₀ : Nat) (es : List Event) : Nat :=
  (es.getLast?.map (·.resetMinute)).getD m₀

structure Law (m₀ now : Nat) (t : List Obs) : Prop where
  -- `SaveHaccp` is called once in the minute of a slot exactly if the device does not come up in it.
  once  : ∀ n, m₀ ≤ n → n ≤ now → Slot n → (t.count (.saveHaccp n) = 1 ↔ .boot n ∉ t)
  saves : ∀ n, t.count (.saveHaccp n) ≤ 1 ∧ (.saveHaccp n ∈ t → Slot n)
  reset : ∀ n, t.count (.reset n) ≤ 1 ∧ (.reset n ∈ t → Planned n)

variable {m₀ : Nat} {t : List Obs} {s s₁ : State} {e e₁ : Event}

-- What is known after an event `e`, with the minute up to which the slots are settled
structure Inv (m₀ : Nat) (t : List Obs) (s : State) (e : Event) (settled : Nat) : Prop where
  saves  : ∀ n, t.count (.saveHaccp n) =
    if m₀ ≤ n ∧ n ≤ settled ∧ Slot n ∧ .boot n ∉ t then 1 else 0
  resets : ∀ n, t.count (.reset n) ≤ 1 ∧ (.reset n ∈ t → Planned n ∧ n ≤ e.resetMinute)
  boots  : ∀ n, .boot n ∈ t → n ≤ settled
  up     : s.up → settled = e.haccpMinute ∧ s.oldResetMin = minuteOfHour e.resetMinute ∧
    s.oldHaccpMin = minuteOfHour e.haccpMinute
  down   : ¬s.up → settled = e.resetMinute ∧ minuteOfHour settled = 59
  le     : m₀ ≤ settled ∧ e.resetMinute ≤ e.haccpMinute

theorem Slot.not_last (h : Slot m) : minuteOfHour m ≠ 59 :=
  fun hm => by simp [h.1] at hm

-- All that a step can do
inductive Stepped (s : State) : Event → State → List Obs → Prop
  | boot (hu : ¬s.up) : Stepped s (.boot m) (.init m) [.boot m]
  | reset (hu : s.up) (hp : Planned m) (hn : s.oldResetMin ≠ minuteOfHour m) :
    Stepped s (.pass m n) { s with up := false } [.reset m]
  | save (hu : s.up) (hs : Slot n) (hn : s.oldHaccpMin ≠ minuteOfHour n) :
    Stepped s (.pass m n) ⟨true, minuteOfHour m, minuteOfHour n⟩ [.saveHaccp n]
  | idle (hu : s.up) (hn : Slot n → s.oldHaccpMin = minuteOfHour n) :
    Stepped s (.pass m n) ⟨true, minuteOfHour m, minuteOfHour n⟩ []

theorem step_stepped (h : device.step s e = some (s₁, o)) : Stepped s e s₁ o := by
  cases e with
  | boot m =>
    simp only [device] at h
    split at h
    case isTrue => cases h
    case isFalse hu =>
      cases h
      exact .boot hu
  | pass m n =>
    simp only [device] at h
    split at h
    case isFalse => cases h
    case isTrue hu =>
      by_cases hr : minuteOfHour m = 59 ∧ s.oldResetMin ≠ minuteOfHour m ∧
        hourOfDay m ∈ [1, 5, 9, 13, 17, 21]
      case pos =>
        rw [pass, check4hour, if_pos hr] at h
        cases h
        exact .reset hu ⟨hr.1, hr.2.2⟩ hr.2.1
      case neg =>
        simp only [pass, check4hour, hr, if_false, hu, if_true, checkHaccpScan, Option.some.injEq,
          Prod.mk.injEq] at h
        have ⟨h, ho⟩ := h
        split at ho
        case isTrue hs => exact h ▸ ho ▸ .save hu ⟨hs.1, hs.2.2⟩ hs.2.1
        case isFalse hs =>
          refine h ▸ ho ▸ .idle hu fun hn => ?_
          by_contra ho
          exact hs ⟨hn.1, ho, hn.2⟩

namespace Inv

variable {settled : Nat}

theorem boot (i : Inv m₀ t s e settled) (hu : ¬s.up) (f : Follows e (.boot m)) :
    Inv m₀ (t ++ [Obs.boot m]) (.init m) (.boot m) m := by
  have ⟨hs, h₅₉⟩ := i.down hu
  have ⟨hl, hr⟩ := i.le
  have h₁ : e.haccpMinute ≤ m := f.forward
  have h₂ : m ≤ e.resetMinute + 1 := f.reset
  constructor
  case saves =>
    intro n
    have hn : Slot n → n ≠ settled := fun hn he => hn.not_last <| he ▸ h₅₉
    have hc : [Obs.boot m].count (.saveHaccp n) = 0 := by simp
    rw [List.count_append, hc, i.saves, Nat.add_zero]
    refine if_congr ?_ rfl rfl
    simp only [List.mem_append, List.mem_singleton, Obs.boot.injEq]
    grind
  case resets =>
    intro n
    have ⟨hc, hm⟩ := i.resets n
    refine ⟨by simpa using hc, fun h => ?_⟩
    have ⟨hp, hn⟩ := hm <| by simpa using h
    exact ⟨hp, show n ≤ m by omega⟩
  case boots =>
    intro n h
    obtain h | h : .boot n ∈ t ∨ n = m := by simpa using h
    · have := i.boots n h
      omega
    · exact Nat.le_of_eq h
  case up => exact fun _ => ⟨rfl, rfl, rfl⟩
  case down => simp [State.init]
  case le => exact ⟨by omega, Nat.le_refl _⟩

theorem reset (i : Inv m₀ t s e settled) (hu : s.up) (hp : Planned m)
    (hn : s.oldResetMin ≠ minuteOfHour m) (f : Follows e (.pass m n)) :
    Inv m₀ (t ++ [Obs.reset m]) { s with up := false } (.pass m n) m := by
  have ⟨hs, hr, _⟩ := i.up hu
  have ⟨hl, hle⟩ := i.le
  have h₁ : e.haccpMinute ≤ m := f.forward
  have h₂ : m ≤ e.resetMinute + 1 := f.reset
  have h₃ : m ≤ n := f.inPass
  constructor
  case saves =>
    intro k
    have hk : Slot k → k ≠ m := fun hk he => hk.not_last <| he ▸ hp.1
    have hc : [Obs.reset m].count (.saveHaccp k) = 0 := by simp
    rw [List.count_append, hc, i.saves, Nat.add_zero]
    refine if_congr ?_ rfl rfl
    simp only [List.mem_append, List.mem_singleton, reduceCtorEq, or_false]
    grind
  case resets =>
    intro k
    have ⟨hc, hm⟩ := i.resets k
    have hk : .reset m ∉ t := by
      intro h
      have hm := ((i.resets m).2 h).2
      have he : e.resetMinute = m := by omega
      exact hn <| hr.trans <| congrArg _ he
    by_cases he : m = k
    · cases he
      refine ⟨by simp [List.count_eq_zero_of_not_mem hk], fun _ => ⟨hp, Nat.le_refl _⟩⟩
    · refine ⟨by simpa [List.count_singleton, he] using hc, fun h => ?_⟩
      have ⟨hp, hn⟩ := hm <| by simpa [Ne.symm he] using h
      exact ⟨hp, show k ≤ m by omega⟩
  case boots =>
    intro k h
    have := i.boots k <| by simpa using h
    omega
  case up => simp
  case down => exact fun _ => ⟨rfl, hp.1⟩
  case le => exact ⟨by omega, h₃⟩

-- A pass that does not reset the device settles the minute that `CheckHaccpScan` has read.
theorem pass (i : Inv m₀ t s e settled) (hu : s.up) (f : Follows e (.pass m n))
    (ho : o = if Slot n ∧ s.oldHaccpMin ≠ minuteOfHour n then [.saveHaccp n] else []) :
    Inv m₀ (t ++ o) ⟨true, minuteOfHour m, minuteOfHour n⟩ (.pass m n) n := by
  have ⟨hs, _, hh⟩ := i.up hu
  have ⟨hl, hle⟩ := i.le
  have h₁ : e.haccpMinute ≤ m := f.forward
  have h₂ : m ≤ n := f.inPass
  have h₃ : n ≤ e.haccpMinute + 1 := f.haccp
  -- The minute before a slot is not minute 0.
  have hd : Slot n → (s.oldHaccpMin ≠ minuteOfHour n ↔ n ≠ settled) := by
    intro ⟨hn, _⟩
    rw [hh, ← hs, hn]
    simp only [minuteOfHour] at *
    omega
  constructor
  case saves =>
    intro k
    have hb := i.boots k
    have hm : .boot k ∈ t ++ o ↔ .boot k ∈ t := by
      rw [ho]
      split <;> simp
    have hc : o.count (.saveHaccp k) =
        if k = n ∧ Slot n ∧ n ≠ settled then 1 else 0 := by
      rw [ho]
      split <;> grind
    rw [List.count_append, i.saves, hc]
    simp only [hm]
    split_ifs <;> grind
  case resets =>
    intro k
    have ⟨hc, hm⟩ := i.resets k
    have ho : .reset k ∉ o := by
      rw [ho]
      split <;> simp
    refine ⟨by simpa [List.count_eq_zero_of_not_mem ho] using hc, fun h => ?_⟩
    have ⟨hp, hk⟩ := hm <| by simpa [ho] using h
    exact ⟨hp, show k ≤ m by omega⟩
  case boots =>
    intro k h
    have ho : .boot k ∉ o := by
      rw [ho]
      split <;> simp
    have := i.boots k <| by simpa [ho] using h
    omega
  case up => exact fun _ => ⟨rfl, rfl, rfl⟩
  case down => simp
  case le => exact ⟨by omega, h₂⟩

theorem step (i : Inv m₀ t s e settled) (f : Follows e e₁)
    (h : device.step s e₁ = some (s₁, o)) : ∃ settled, Inv m₀ (t ++ o) s₁ e₁ settled := by
  cases step_stepped h with
  | boot hu        => exact ⟨_, i.boot hu f⟩
  | reset hu hp hn => exact ⟨_, i.reset hu hp hn f⟩
  | save hu hs hn  => exact ⟨_, i.pass hu f <| by rw [if_pos ⟨hs, hn⟩]⟩
  | idle hu hn     => exact ⟨_, i.pass hu f <| by rw [if_neg fun h => h.2 <| hn h.1]⟩

theorem start : Inv m₀ [.boot m₀] (.init m₀) (.boot m₀) m₀ where
  saves n := by
    refine (if_neg ?_).symm
    simp only [List.mem_singleton, Obs.boot.injEq]
    omega
  resets := by simp
  boots  := by simp
  up     := fun _ => ⟨rfl, rfl, rfl⟩
  down   := by simp [State.init]
  le     := ⟨Nat.le_refl _, Nat.le_refl _⟩

theorem le_settled (i : Inv m₀ t s e settled) : e.resetMinute ≤ settled := by
  have ⟨_, hl⟩ := i.le
  by_cases hu : s.up
  case pos =>
    have := (i.up hu).1
    omega
  case neg => exact Nat.le_of_eq (i.down hu).1.symm

theorem law (i : Inv m₀ t s e settled) : Law m₀ e.resetMinute t where
  once n hm hn hs := by
    have : n ≤ settled := Nat.le_trans hn i.le_settled
    rw [i.saves]
    simp [hm, hs, this]
  saves n := by
    rw [← List.count_pos_iff, i.saves]
    split
    case isTrue h => exact ⟨Nat.le_refl _, fun _ => h.2.2.1⟩
    case isFalse => simp
  reset n :=
    have ⟨hc, hm⟩ := i.resets n
    ⟨hc, fun h => (hm h).1⟩

end Inv

@[simp] theorem now_cons : now m (e :: es) = now e.resetMinute es := by
  cases es <;> simp [now, List.getLast?_cons]

theorem run_law (i : Inv m₀ t s e settled) (hc : (e :: es).IsChain Follows)
    (h : device.run s es = some (s₁, o)) : Law m₀ (now e.resetMinute es) (t ++ o) := by
  induction es generalizing t s e settled o with
  | nil =>
    cases h
    simpa [now] using i.law
  | cons e₁ es ih =>
    have ⟨s₂, o₁, o₂, hs, h, ho⟩ := device.run_cons h
    have ⟨f, hc⟩ := List.isChain_cons_cons.mp hc
    have ⟨settled, i⟩ := i.step f hs
    have := ih i hc h
    rw [now_cons, ho, ← List.append_assoc]
    exact this

-- In every run in which the clock goes forward, neither check leaves out a minute, and a planned
-- reset takes less than a minute, `SaveHaccp` is called once in each slot in which the device does not
-- come up, and in no other, and no minute has two resets.
theorem haccp_law (hc : (Event.boot m₀ :: es).IsChain Follows)
    (h : device.run .off (.boot m₀ :: es) = some (s, t)) : Law m₀ (now m₀ es) t := by
  have ⟨s₁, o₁, o₂, hs, h, ho⟩ := device.run_cons h
  cases hs
  exact ho ▸ run_law .start hc h

-- Passes from the minute `m` to a planned reset at the end of the hour 5, and then on from the minute
-- in which the device comes up
def morning (m boot : Nat) : List Event :=
  (List.range' m (360 - m)).map (fun m => .pass m m) ++
    .boot boot :: (List.range' boot (363 - boot)).map fun m => .pass m m

theorem haccp_law_morning : ∃ s t,
    device.run .off (.boot 350 :: morning 350 359) = some (s, t) ∧ t.count (.saveHaccp 360) = 1 := by
  have : (device.run .off (.boot 350 :: morning 350 359)).any fun x => .boot 360 ∉ x.2 := by
    decide +kernel
  obtain ⟨⟨s, t⟩, hr, ht⟩ := Option.any_eq_true _ _ |>.mp this
  have l := haccp_law (by decide +kernel) hr
  exact ⟨s, t, hr, l.once 360 (by decide) (by decide) (by decide) |>.mpr <| of_decide_eq_true ht⟩

-- The device comes up again at six.
theorem slot_skipped :
    ¬∀ m₀ es s t, (Event.boot m₀ :: es).IsChain Follows →
      device.run .off (.boot m₀ :: es) = some (s, t) →
      ∀ n, m₀ < n → n ≤ now m₀ es → Slot n → t.count (.saveHaccp n) = 1 := by
  intro h
  have : (device.run .off (.boot 350 :: morning 350 360)).any fun x =>
      x.2.count (.saveHaccp 360) = 0 := by
    decide +kernel
  obtain ⟨⟨s, t⟩, hr, ht⟩ := Option.any_eq_true _ _ |>.mp this
  have := h _ _ _ _ (by decide +kernel) hr 360 (by decide) (by decide) (by decide)
  simp [of_decide_eq_true ht] at this

end Haccp
