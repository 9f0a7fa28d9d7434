import Webtermo.Library.Since
import Webtermo.Execution.Alarm.State

namespace Alarm

-- The alarms raised for sensor `k`, with the ticks since then, as long as the sensor stays in alarm
def raise (k : Fin 8) : Watch Obs where
  starts o := o.raised k
  holds o  := o.inAlarm k
  counts   := Obs.tick

-- The calls of `SendWApp` and `SendSMS` for sensor `k`
def call (k : Fin 8) : Watch Obs where
  starts o := o.called k
  holds o  := o.inAlarm k
  counts   := Obs.tick

-- Messages are sent at exactly the ticks to which the sensor has been in alarm since an alarm was
-- raised `DELAY` ticks earlier.
def DelayLaw (k : Fin 8) : List Obs → Prop :=
  Always fun t o => o.called k ↔ o.tick ∧ ∃ n x, (raise k).Since t n x ∧ n + 1 = x.delay k

-- No messages are sent again as long as the sensor stays in alarm.
def AtMostOnce (k : Fin 8) : List Obs → Prop :=
  Always fun t o => o.called k → ¬∃ n x, (call k).Since t n x

variable {m m₁ : SensorMem} {o : Obs} {k : Fin 8}

structure Seen (k : Fin 8) (m₁ : SensorMem) (o : Obs) : Prop where
  inAlarm : o.inAlarm k ↔ InAlarm m₁
  delay   : o.delay k = m₁.senzor.delay.toNat

-- All that an action can do to a sensor whose alarms end in the ways that the code expects
inductive Turn (k : Fin 8) (m m₁ : SensorMem) (o : Obs) : Prop
  | quiet
    (seen : Seen k m₁ o) (tick : ¬o.tick) (raised : ¬o.raised k) (called : ¬o.called k)
    (word : m₁.delayWord = m.delayWord)
    (on : m.delayWord ≠ 0 → InAlarm m₁ ∧ m₁.senzor.delay = m.senzor.delay)
  | cleared
    (seen : Seen k m₁ o) (tick : ¬o.tick) (raised : ¬o.raised k) (called : ¬o.called k)
    (word : m₁.delayWord = 0) (off : ¬InAlarm m₁)
  | raised
    (seen : Seen k m₁ o) (tick : ¬o.tick) (raised : o.raised k) (called : ¬o.called k)
    (word : m₁.delayWord = 1) (off : ¬InAlarm m) (on : InAlarm m₁)
  | tick
    (seen : Seen k m₁ o) (tick : o.tick) (raised : ¬o.raised k)
    (called : o.called k ↔ (Wapp.delayTurn m.delayWord m.senzor.delay).2)
    (word : m₁.delayWord = (Wapp.delayTurn m.delayWord m.senzor.delay).1)
    (senzor : m₁.senzor = m.senzor)

-- The word in the NVRAM is one more than the ticks since the alarm for which messages are still to be
-- sent, and zero when there is none.
structure Inv (k : Fin 8) (t : List Obs) (m : SensorMem) : Prop where
  law      : DelayLaw k t
  once     : AtMostOnce k t
  live     : ∀ {n x}, (raise k).Since t n x → InAlarm m
  answered : ∀ {n x}, (raise k).Since t n x → m.delayWord = 0 → x.delay k ≤ n
  counted  : ∀ {n x}, (raise k).Since t n x → m.delayWord ≠ 0 →
    m.delayWord.toNat = n + 1 ∧ x.delay k = m.senzor.delay.toNat
  called   : ∀ {n x}, (call k).Since t n x → InAlarm m ∧ m.delayWord = 0
  awaited  : m.delayWord ≠ 0 → ∃ n x, (raise k).Since t n x
  bound    : m.delayWord.toNat ≤ m.senzor.delay.toNat
  pos      : 1 ≤ m.senzor.delay.toNat

namespace Inv

theorem init (hw : m.delayWord = 0) (hd : 1 ≤ m.senzor.delay.toNat) : Inv k [] m where
  law         := Always.nil
  once        := Always.nil
  live h      := absurd h Watch.not_since_nil
  answered h  := absurd h Watch.not_since_nil
  counted h   := absurd h Watch.not_since_nil
  called h    := absurd h Watch.not_since_nil
  awaited h   := absurd hw h
  bound       := by simp [hw]
  pos         := hd

-- A sensor that is not in alarm has no live alarm, and one in alarm has a running delay.
theorem awaited_inAlarm (i : Inv k t m) (h : m.delayWord ≠ 0) : InAlarm m :=
  have ⟨_, _, h⟩ := i.awaited h
  i.live h

-- An action that is no tick neither sends anything nor breaks the law.
theorem law_of_quiet (i : Inv k t m) (tick : ¬o.tick) (called : ¬o.called k) :
    DelayLaw k (t ++ [o]) ∧ AtMostOnce k (t ++ [o]) :=
  ⟨i.law.concat <| by simp [tick, called], i.once.concat <| by simp [called]⟩

-- Without a tick the count of a live alarm stays.
theorem since_of_quiet (h : (raise k).Since (t ++ [o]) n x) (tick : ¬o.tick) (raised : ¬o.raised k) :
    (raise k).Since t n x := by
  cases h.cases
  case inl h => exact absurd h.1 raised
  case inr h =>
    have ⟨_, h, hn⟩ := h
    simp only [raise, tick] at hn
    exact hn ▸ h

theorem called_of_quiet (h : (call k).Since (t ++ [o]) n x) (called : ¬o.called k) :
    ∃ n, (call k).Since t n x := by
  cases h.cases
  case inl h => exact absurd h.1 called
  case inr h => exact ⟨_, h.choose_spec.1⟩

theorem quiet (i : Inv k t m) (seen : Seen k m₁ o) (tick : ¬o.tick) (raised : ¬o.raised k)
    (called : ¬o.called k) (word : m₁.delayWord = m.delayWord)
    (on : m.delayWord ≠ 0 → InAlarm m₁ ∧ m₁.senzor.delay = m.senzor.delay)
    (pos : 1 ≤ m₁.senzor.delay.toNat) : Inv k (t ++ [o]) m₁ where
  law          := i.law_of_quiet tick called |>.1
  once         := i.law_of_quiet tick called |>.2
  live h       := seen.inAlarm.mp h.holds_last
  answered h w := i.answered (since_of_quiet h tick raised) (word ▸ w)
  counted h w  := by
    have ⟨hn, hd⟩ := i.counted (since_of_quiet h tick raised) (word ▸ w)
    exact ⟨word ▸ hn, (on (word ▸ w)).2 ▸ hd⟩
  called h     := by
    have ⟨_, hc⟩ := called_of_quiet h called
    exact ⟨seen.inAlarm.mp h.holds_last, word ▸ (i.called hc).2⟩
  awaited w    := by
    have ⟨n, x, h⟩ := i.awaited (word ▸ w)
    exact ⟨_, x, h.concat <| seen.inAlarm.mpr (on (word ▸ w)).1⟩
  bound        := by
    by_cases w : m.delayWord = 0
    case pos => simp [word, w]
    case neg => exact word ▸ (on w).2 ▸ i.bound
  pos          := pos

theorem cleared (i : Inv k t m) (seen : Seen k m₁ o) (tick : ¬o.tick) (called : ¬o.called k)
    (word : m₁.delayWord = 0) (off : ¬InAlarm m₁) (pos : 1 ≤ m₁.senzor.delay.toNat) :
    Inv k (t ++ [o]) m₁ where
  law         := i.law_of_quiet tick called |>.1
  once        := i.law_of_quiet tick called |>.2
  live h      := seen.inAlarm.mp h.holds_last
  answered h  := absurd (seen.inAlarm.mp h.holds_last) off
  counted h   := absurd (seen.inAlarm.mp h.holds_last) off
  called h    := absurd (seen.inAlarm.mp h.holds_last) off
  awaited w   := absurd word w
  bound       := by simp [word]
  pos         := pos

-- A new alarm is raised for a sensor that is not in alarm, so it is the only live one.
theorem raised (i : Inv k t m) (seen : Seen k m₁ o) (tick : ¬o.tick) (raised : o.raised k)
    (called : ¬o.called k) (word : m₁.delayWord = 1) (off : ¬InAlarm m) (on : InAlarm m₁)
    (pos : 1 ≤ m₁.senzor.delay.toNat) : Inv k (t ++ [o]) m₁ where
  law         := i.law_of_quiet tick called |>.1
  once        := i.law_of_quiet tick called |>.2
  live _      := on
  answered _  := by simp [word]
  counted h _ := by
    cases h.cases
    case inl h => exact ⟨by simp [word, h.2.1], h.2.2 ▸ seen.delay⟩
    case inr h => exact absurd (i.live h.choose_spec.1) off
  called h    := by
    have ⟨_, hc⟩ := called_of_quiet h called
    exact absurd (i.called hc).1 off
  awaited _   := ⟨0, o, .new raised <| seen.inAlarm.mpr on⟩
  bound       := by simpa [word] using pos
  pos         := pos

-- The count of a live alarm at a tick.
theorem since_of_tick (h : (raise k).Since (t ++ [o]) n x) (tick : o.tick) (raised : ¬o.raised k) :
    ∃ n₁, (raise k).Since t n₁ x ∧ n = n₁ + 1 := by
  cases h.cases
  case inl h => exact absurd h.1 raised
  case inr h => simpa [raise, tick] using h

theorem idle (i : Inv k t m) (seen : Seen k m₁ o) (tick : o.tick) (raised : ¬o.raised k)
    (called : ¬o.called k) (w : m.delayWord = 0) (word : m₁.delayWord = 0)
    (senzor : m₁.senzor = m.senzor) : Inv k (t ++ [o]) m₁ where
  law          := i.law.concat <| by
    refine iff_of_false called fun ⟨_, n, x, h, hn⟩ => ?_
    have := i.answered h w
    omega
  once         := i.once.concat <| by simp [called]
  live h       := seen.inAlarm.mp h.holds_last
  answered h _ := by
    have ⟨_, h, hn⟩ := since_of_tick h tick raised
    have := i.answered h w
    omega
  counted _    := absurd word
  called h     := ⟨seen.inAlarm.mp h.holds_last, word⟩
  awaited w    := absurd word w
  bound        := by simp [word]
  pos          := senzor ▸ i.pos

theorem counting (i : Inv k t m) (seen : Seen k m₁ o) (tick : o.tick) (raised : ¬o.raised k)
    (called : ¬o.called k) (w : m.delayWord ≠ 0) (hw : m.delayWord.toNat < m.senzor.delay.toNat)
    (word : m₁.delayWord.toNat = m.delayWord.toNat + 1) (senzor : m₁.senzor = m.senzor) :
    Inv k (t ++ [o]) m₁ where
  law           := i.law.concat <| by
    refine iff_of_false called fun ⟨_, n, x, h, hn⟩ => ?_
    have ⟨_, _⟩ := i.counted h w
    omega
  once          := i.once.concat <| by simp [called]
  live h        := seen.inAlarm.mp h.holds_last
  answered _ w₁ := by simp [w₁] at word
  counted h _   := by
    have ⟨_, h, hn⟩ := since_of_tick h tick raised
    have ⟨_, hd⟩ := i.counted h w
    exact ⟨by omega, senzor ▸ hd⟩
  called h      := by
    have ⟨_, hc⟩ := called_of_quiet h called
    exact absurd (i.called hc).2 w
  awaited _     := by
    have ⟨_, x, h⟩ := i.awaited w
    have on : InAlarm m₁ := by simpa [InAlarm, senzor] using i.live h
    exact ⟨_, x, h.concat <| seen.inAlarm.mpr on⟩
  bound         := by
    rw [word, senzor]
    exact hw
  pos           := senzor ▸ i.pos

theorem expired (i : Inv k t m) (seen : Seen k m₁ o) (tick : o.tick) (raised : ¬o.raised k)
    (called : o.called k) (w : m.delayWord ≠ 0) (hw : m.delayWord.toNat = m.senzor.delay.toNat)
    (word : m₁.delayWord = 0) (senzor : m₁.senzor = m.senzor) : Inv k (t ++ [o]) m₁ where
  law          := i.law.concat <| by
    have ⟨n, x, h⟩ := i.awaited w
    have ⟨_, _⟩ := i.counted h w
    exact iff_of_true called ⟨tick, n, x, h, by omega⟩
  once         := i.once.concat fun _ ⟨_, _, h⟩ => w (i.called h).2
  live h       := seen.inAlarm.mp h.holds_last
  answered h _ := by
    have ⟨_, h, hn⟩ := since_of_tick h tick raised
    have ⟨_, _⟩ := i.counted h w
    omega
  counted _    := absurd word
  called h     := ⟨seen.inAlarm.mp h.holds_last, word⟩
  awaited w    := absurd word w
  bound        := by simp [word]
  pos          := senzor ▸ i.pos

end Inv

-- What a pass of `ptAlarmDelay` makes of a word that is not beyond the delay
theorem delayTurn_zero : Wapp.delayTurn 0 d = (0, false) := by
  simp [Wapp.delayTurn]

theorem delayTurn_expired (w : word ≠ 0) (h : word.toNat = UInt16.toNat d) :
    Wapp.delayTurn word d = (0, true) := by
  have hd := d.toNat_lt
  have : d.toUInt32 < word + 1 := by
    simp [UInt32.lt_iff_toNat_lt]
    omega
  simp [Wapp.delayTurn, w, this]

theorem delayTurn_counting (w : word ≠ 0) (h : word.toNat < UInt16.toNat d) :
    Wapp.delayTurn word d = (word + 1, false) ∧ (word + 1).toNat = word.toNat + 1 := by
  have hd := d.toNat_lt
  have hs : (word + 1).toNat = word.toNat + 1 := by
    simp
    omega
  have : ¬d.toUInt32 < word + 1 := by
    simp [UInt32.lt_iff_toNat_lt]
    omega
  exact ⟨by simp [Wapp.delayTurn, w, this], hs⟩

theorem Inv.turn (i : Inv k t m) (h : Turn k m m₁ o) (pos : 1 ≤ m₁.senzor.delay.toNat) :
    Inv k (t ++ [o]) m₁ := by
  cases h with
  | quiet seen tick raised called word on => exact i.quiet seen tick raised called word on pos
  | cleared seen tick raised called word off => exact i.cleared seen tick called word off pos
  | raised seen tick raised called word off on => exact i.raised seen tick raised called word off on pos
  | tick seen tick raised called word senzor =>
    by_cases w : m.delayWord = 0
    case pos =>
      rw [w, delayTurn_zero] at called word
      exact i.idle seen tick raised (by simp [called]) w word senzor
    case neg =>
      by_cases hw : m.delayWord.toNat = m.senzor.delay.toNat
      case pos =>
        rw [delayTurn_expired w hw] at called word
        exact i.expired seen tick raised (by simp [called]) w hw word senzor
      case neg =>
        have hw : m.delayWord.toNat < m.senzor.delay.toNat := Nat.lt_of_le_of_ne i.bound hw
        have ⟨hd, hs⟩ := delayTurn_counting w hw
        rw [hd] at called word
        exact i.counting seen tick raised (by simp [called]) w hw (word ▸ hs) senzor

end Alarm
