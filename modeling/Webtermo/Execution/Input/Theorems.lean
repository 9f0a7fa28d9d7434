import Webtermo.Library.Onset
import Webtermo.Library.Trace
import Webtermo.Execution.Input.State

namespace Input

variable {s s₁ : State} {t o : List Obs} {x : Obs} {w : List UInt8} {i : Fin 3} {a b n : Nat}

-- The contact that an input is enabled as
def contact (d : DInput) : Option Contact :=
  if d.enable = 1 ∧ d.type = 2 then some .no
  else if d.enable = 1 ∧ d.type = 1 then some .nc
  else none

namespace Obs

def time (x : Obs) : Nat :=
  x.before.timex

def active (i : Fin 3) (x : Obs) : Bool :=
  (contact <| x.before.dinput i).any (·.active <| x.din i)

def inactive (i : Fin 3) (x : Obs) : Bool :=
  !x.active i

-- Whether a scan sets the delay word of the input to 1
def sets (i : Fin 3) (x : Obs) : Bool :=
  i = 0 ∧ 1 ∈ x.writes

end Obs

-- An input that has been active for more than two windows is in an alarm, which it has raised once.
def Raised (i : Fin 3) (t : List Obs) (x : Obs) : Prop :=
  ∀ a ∈ onset (Obs.active i) Obs.time (t ++ [x]), a + 2 * debounce < x.time →
    (x.after.dinput i).alarm = 1 ∧ since (Obs.active i) (Obs.sets i) (t ++ [x]) = 1

def Released (i : Fin 3) (t : List Obs) (x : Obs) : Prop :=
  ∀ b ∈ onset (Obs.inactive i) Obs.time (t ++ [x]), b + 2 * debounce < x.time →
    (x.after.dinput i).alarm = 0 ∧ x.after.delayIn i = 0

-- A running delay is restarted only after the input has been inactive for a window.
def Undisturbed (i : Fin 3) (t : List Obs) (x : Obs) : Prop :=
  x.sets i → x.before.delayIn i ≠ 0 → ∃ t₁ y q z t₂, t = t₁ ++ y :: q ++ z :: t₂ ∧
    y.time + debounce ≤ z.time ∧ (∀ u ∈ y :: q ++ [z], u.inactive i) ∧
    ∀ u ∈ y :: q ++ z :: t₂, ¬u.sets i

structure Debounced (i : Fin 3) (t : List Obs) (x : Obs) : Prop where
  raised      : Raised i t x
  released    : Released i t x
  undisturbed : Undisturbed i t x

def DebounceLaw (i : Fin 3) : List Obs → Prop :=
  Always (Debounced i)

namespace PtInput1

@[simp] def contact : PtInput1 → Option Contact
  | start => none
  | yielded c | waitOn c | debounceOn c | waitOff c | debounceOff c => some c

-- Between the two writes of the alarm
@[simp] def On : PtInput1 → Prop
  | waitOff _ | debounceOff _ => True
  | _                         => False

-- Before the window in which the alarm is raised
@[simp] def Early : PtInput1 → Prop
  | start | yielded _ | waitOn _ => True
  | _                            => False

@[simp] def Window : PtInput1 → Prop
  | debounceOn _ | debounceOff _ => True
  | _                            => False

instance : DecidablePred On
  | start | yielded _ | waitOn _ | debounceOn _ => inferInstanceAs <| Decidable False
  | waitOff _ | debounceOff _                   => inferInstanceAs <| Decidable True

instance : DecidablePred Early
  | start | yielded _ | waitOn _               => inferInstanceAs <| Decidable True
  | debounceOn _ | waitOff _ | debounceOff _   => inferInstanceAs <| Decidable False

instance : DecidablePred Window
  | start | yielded _ | waitOn _ | waitOff _ => inferInstanceAs <| Decidable False
  | debounceOn _ | debounceOff _             => inferInstanceAs <| Decidable True

end PtInput1

-- The thread is polled in its own place.
def State.Polled (s : State) : Prop :=
  s.ptInput1.contact = contact (s.dinput 0)

instance : Decidable s.Polled :=
  inferInstanceAs <| Decidable (_ = _)

-- What a scan has to find for the first input to be debounced: an input in alarm is still enabled as
-- the same contact, and not active again at the end of a window, no window is as long as the range of
-- the timer, and an active input is in its window in time.
structure Serves (t : List Obs) (x : Obs) : Prop where
  kept    : x.before.ptInput1.On → x.before.Polled
  falls   : x.before.ptInput1.On → x.before.ptInput1.Window → x.before.expired → ¬x.active 0
  timely  : x.before.ptInput1.Window → x.before.Polled →
    x.before.timex < x.before.input1Timer + 2 ^ 31
  prompt  : ∀ a ∈ onset (Obs.active 0) Obs.time (t ++ [x]), a + debounce < x.time →
    x.before.Polled ∧ ¬x.before.ptInput1.Early

def Served : List Obs → Prop :=
  Always Serves

-- The other inputs are not polled. They may not be active for long.
def Unused (i : Fin 3) : List Obs → Prop :=
  Always fun t x => ∀ a ∈ onset (Obs.active i) Obs.time (t ++ [x]), x.time ≤ a + 2 * debounce

theorem expired_timerSet : s.timerSet.expired = false := by
  simp [State.expired, State.timerSet]

theorem State.expired_iff : s.expired ↔ (s.timex - s.input1Timer) % 2 ^ 32 < 2 ^ 31 ∧
    debounce ≤ (s.timex - s.input1Timer) % 2 ^ 32 :=
  decide_eq_true_iff

theorem State.not_expired (h : ¬s.expired) (ht : s.timex < s.input1Timer + 2 ^ 31) :
    s.timex < s.input1Timer + debounce := by
  rw [expired_iff] at h
  simp only [debounce] at *
  omega

-- Everything that a thread can do when it is resumed
inductive Resumed (c : Contact) (active : Bool) (s : State) : State → List UInt8 → Prop
  | first   : s.ptInput1 = .start → Resumed c active s (s.goto <| .yielded c) []
  | lost    : s.ptInput1.contact ≠ some c → s.ptInput1 ≠ .start → Resumed c active s (s.goto .start) []
  | await   : s.ptInput1 = .yielded c ∨ s.ptInput1 = .waitOn c → ¬active →
    Resumed c active s (s.goto <| .waitOn c) []
  | opened  : s.ptInput1 = .yielded c ∨ s.ptInput1 = .waitOn c → active →
    Resumed c active s (s.timerSet.goto <| .debounceOn c) []
  | hold    : s.ptInput1 = .debounceOn c ∨ s.ptInput1 = .debounceOff c → ¬s.expired →
    Resumed c active s s []
  | raise   : s.ptInput1 = .debounceOn c → s.expired → active →
    Resumed c active s ((s.setAlarm 1).goto <| .waitOff c) [1]
  | bounce  : s.ptInput1 = .debounceOn c → s.expired → ¬active → Resumed c active s (s.goto .start) []
  | stay    : s.ptInput1 = .waitOff c → active → Resumed c active s s []
  | fall    : s.ptInput1 = .waitOff c → ¬active →
    Resumed c active s (s.timerSet.goto <| .debounceOff c) []
  | release : s.ptInput1 = .debounceOff c → s.expired → ¬active →
    Resumed c active s ((s.setAlarm 0).goto .start) [0]
  | relapse : s.ptInput1 = .debounceOff c → s.expired → active → Resumed c active s (s.goto .start) []

theorem State.goto_self (h : s.ptInput1 = loc) : s.goto loc = s := by
  cases s
  cases h
  rfl

theorem Contact.resumed {c : Contact} (h : c.thread d s = (s₁, w)) :
    Resumed c (c.active d) s s₁ w := by
  suffices hr : Resumed c (c.active d) s (c.thread d s).1 (c.thread d s).2 by rwa [h] at hr
  unfold Contact.thread
  split_ifs with h₁ h₂ h₃ h₄ h₅
  · exact .first h₁
  · unfold Contact.waitOn
    split_ifs with ha
    · simp only [Contact.debounceOn, expired_timerSet]
      exact .opened h₂ ha
    · exact .await h₂ ha
  · unfold Contact.debounceOn
    split_ifs with he ha
    · simp only [Contact.waitOff, if_pos ha]
      exact .raise h₃ he ha
    · exact .bounce h₃ he ha
    · simp only [State.goto_self h₃]
      exact .hold (.inl h₃) he
  · unfold Contact.waitOff
    split_ifs with ha
    · simp only [State.goto_self h₄]
      exact .stay h₄ ha
    · simp only [Contact.debounceOff, expired_timerSet]
      exact .fall h₄ ha
  · unfold Contact.debounceOff
    split_ifs with he ha
    · exact .relapse h₅ he ha
    · exact .release h₅ he ha
    · simp only [State.goto_self h₅]
      exact .hold (.inr h₅) he
  · refine .lost (fun hc => ?_) h₁
    cases hl : s.ptInput1 <;> simp_all [PtInput1.contact]

-- The pins are read first.
def State.read (s : State) (din : Fin 3 → UInt8) : State :=
  { s with dinput := fun i => { s.dinput i with state := din i } }

theorem scanInputs_cases (h : scanInputs s d = (s₁, w)) :
    (contact (s.dinput 0) = none ∧ s₁ = s.read d ∧ w = []) ∨
    ∃ c, contact (s.dinput 0) = some c ∧ Resumed c (c.active <| d 0) (s.read d) s₁ w := by
  simp only [scanInputs] at h
  split_ifs at h with hno hnc
  case pos => exact .inr ⟨.no, by simp [contact, hno], Contact.resumed h⟩
  case pos => exact .inr ⟨.nc, by simp [contact, hnc], Contact.resumed h⟩
  case neg =>
    cases h
    exact .inl ⟨by simp [contact, hno, hnc], rfl, rfl⟩

-- What the state says of a stretch in which the input has been active since `a` and has raised `n`
-- alarms.
def OnSince (a n : Nat) (s : State) : Prop :=
  match s.ptInput1 with
  | .start | .yielded _ | .waitOn _ => n = 0
  | .debounceOn _                   => n = 0 ∧ s.input1Timer ≤ a + debounce
  | .waitOff _                      => n = 1
  | .debounceOff _                  => s.input1Timer ≤ a

-- Likewise for an input that has not been active since `b`.
structure OffSince (b : Nat) (s : State) : Prop where
  wait  : s.ptInput1 ≠ .waitOff c
  timer : s.ptInput1 = .debounceOff c → s.input1Timer ≤ b

-- Where the thread can be after a scan `l`, when the stretch began at `a`
def Recent (a l : Nat) (s : State) : Prop :=
  match s.ptInput1 with
  | .start | .yielded _ | .waitOn _   => l ≤ a + debounce
  | .debounceOn _ | .debounceOff _    => l < s.input1Timer + debounce
  | .waitOff _                        => True

structure Alarms (s : State) : Prop where
  on  : s.ptInput1.On → (s.dinput 0).alarm = 1
  off : ¬s.ptInput1.On → (s.dinput 0).alarm = 0 ∧ s.delayIn 0 = 0

theorem OnSince.zero (h : OnSince a n s) (hn : ¬s.ptInput1.On) : n = 0 := by
  unfold OnSince at h
  cases hl : s.ptInput1 <;> simp_all

theorem Resumed.on (r : Resumed c true s s₁ w) (h : OnSince a n s)
    (kept : s.ptInput1.On → s.ptInput1.contact = some c)
    (falls : s.ptInput1.On → s.ptInput1.Window → ¬s.expired)
    (timely : s.ptInput1.Window → s.ptInput1.contact = some c → s.timex < s.input1Timer + 2 ^ 31)
    (prompt : a + debounce < s.timex → s.ptInput1.contact = some c ∧ ¬s.ptInput1.Early) :
    OnSince a (n + if 1 ∈ w then 1 else 0) s₁ ∧ Recent a s.timex s₁ := by
  have early (h : s.ptInput1.Early) : s.timex ≤ a + debounce :=
    Nat.le_of_not_lt fun ha => (prompt ha).2 h
  cases r with
  | first hl =>
    have hn : n = 0 := h.zero <| by simp [hl]
    exact ⟨hn, early <| by simp [hl]⟩
  | lost hl =>
    have hn : n = 0 := h.zero <| hl ∘ kept
    exact ⟨hn, Nat.le_of_not_lt fun ha => hl (prompt ha).1⟩
  | await hl ha => exact absurd rfl ha
  | opened hl =>
    have he : s.ptInput1.Early := by cases hl <;> simp [*]
    have hn : n = 0 := h.zero <| by cases hl <;> simp [*]
    exact ⟨⟨hn, early he⟩, Nat.lt_add_of_pos_right <| by simp⟩
  | hold hl he =>
    have hw : s.ptInput1.Window := by cases hl <;> simp [*]
    have hc : s.ptInput1.contact = some c := by cases hl <;> simp [*]
    have := State.not_expired he <| timely hw hc
    refine ⟨by simpa using h, ?_⟩
    cases hl with
    | inl hl => simpa only [Recent, hl] using this
    | inr hl => simpa only [Recent, hl] using this
  | raise hl he =>
    have hn : n = 0 := h.zero <| by simp [hl]
    exact ⟨by simp [OnSince, State.goto, hn], trivial⟩
  | bounce _ _ ha => exact absurd rfl ha
  | stay hl => exact ⟨by simpa using h, by simp [Recent, hl]⟩
  | fall _ ha => exact absurd rfl ha
  | release _ _ ha => exact absurd rfl ha
  | relapse hl he => exact absurd he <| falls (by simp [hl]) (by simp [hl])

theorem Resumed.off (r : Resumed c false s s₁ w)
    (hw : ∀ c, s.ptInput1 = .waitOff c → s.timex ≤ b)
    (hd : ∀ c, s.ptInput1 = .debounceOff c → s.input1Timer ≤ b)
    (timely : s.ptInput1.Window → s.ptInput1.contact = some c → s.timex < s.input1Timer + 2 ^ 31) :
    OffSince b s₁ ∧ (s₁.ptInput1.On → s.timex < b + debounce) := by
  have idle (loc) (hl : ¬loc.On) : OffSince b (s.goto loc) :=
    ⟨fun h => hl <| by simp_all [State.goto], fun h => absurd (by simp_all [State.goto]) hl⟩
  cases r with
  | first => exact ⟨idle _ (by simp), nofun⟩
  | lost => exact ⟨idle _ (by simp), nofun⟩
  | await => exact ⟨idle _ (by simp), nofun⟩
  | opened _ ha => exact absurd ha nofun
  | hold hl he =>
    cases hl with
    | inl hl => exact ⟨⟨by simp [hl], by simp [hl]⟩, by simp [hl]⟩
    | inr hl =>
      have ht := State.not_expired he <| timely (by simp [hl]) (by simp [hl])
      exact ⟨⟨by simp [hl], hd _⟩, fun _ => Nat.lt_of_lt_of_le ht <| Nat.add_le_add_right (hd _ hl) _⟩
  | raise _ _ ha => exact absurd ha nofun
  | bounce => exact ⟨idle _ (by simp), nofun⟩
  | stay _ ha => exact absurd ha nofun
  | fall hl =>
    refine ⟨⟨nofun, fun _ => hw _ hl⟩, fun _ => ?_⟩
    exact Nat.lt_of_le_of_lt (hw _ hl) <| Nat.lt_add_of_pos_right <| by simp
  | release => exact ⟨⟨nofun, nofun⟩, nofun⟩
  | relapse _ _ ha => exact absurd ha nofun

theorem Resumed.alarms (r : Resumed c active s s₁ w) (h : Alarms s)
    (kept : s.ptInput1.On → s.ptInput1.contact = some c)
    (falls : s.ptInput1.On → s.ptInput1.Window → s.expired → ¬active) : Alarms s₁ := by
  have idle (ho : ¬s.ptInput1.On) (loc) (hl : ¬loc.On) : Alarms (s.goto loc) :=
    ⟨fun h => absurd h hl, fun _ => h.off ho⟩
  cases r with
  | first hl => exact idle (by simp [hl]) _ (by simp)
  | lost hl => exact idle (hl ∘ kept) _ (by simp)
  | await hl => exact idle (by cases hl <;> simp [*]) _ (by simp)
  | opened hl => exact ⟨nofun, fun _ => h.off <| by cases hl <;> simp [*]⟩
  | hold => exact h
  | raise => exact ⟨fun _ => by simp [State.goto, State.setAlarm], fun ho => absurd trivial ho⟩
  | bounce hl => exact idle (by simp [hl]) _ (by simp)
  | stay => exact h
  | fall hl => exact ⟨fun _ => h.on <| by simp [hl], fun ho => absurd trivial ho⟩
  | release => exact ⟨nofun, fun _ => by simp [State.goto, State.setAlarm]⟩
  | relapse hl he ha =>
    exact absurd ha <| falls (by simp [hl]) (by simp [hl]) he

theorem Resumed.idle_of_mem (r : Resumed c active s s₁ w) (h : 1 ∈ w) : ¬s.ptInput1.On := by
  cases r with
  | raise hl => simp [hl]
  | _ => simp at h

theorem Resumed.timer_le (r : Resumed c active s s₁ w) (h : s.input1Timer ≤ s.timex) :
    s₁.input1Timer ≤ s₁.timex := by
  cases r with
  | opened => exact Nat.le_refl _
  | fall => exact Nat.le_refl _
  | _ => exact h

structure Inv (t : List Obs) (s : State) : Prop where
  alarms : Alarms s
  timer  : s.input1Timer ≤ s.timex
  on     : ∀ {a}, a ∈ onset (Obs.active 0) Obs.time t →
    OnSince a (since (Obs.active 0) (Obs.sets 0) t) s
  off    : ∀ {b}, b ∈ onset (Obs.inactive 0) Obs.time t → OffSince b s
  idle   : onset (Obs.active 0) Obs.time t = none → s.ptInput1 ≠ .waitOff c

-- An active scan continues the stretch before it or begins one.
theorem Inv.onSince (i : Inv t s) : OnSince ((onset (Obs.active 0) Obs.time t).getD s.timex)
    (since (Obs.active 0) (Obs.sets 0) t) s := by
  cases ho : onset (Obs.active 0) Obs.time t with
  | some a => exact i.on ho
  | none =>
    rw [since_of_onset ho]
    have := i.timer
    unfold OnSince
    split
    case h_5 hl => exact absurd hl <| i.idle ho
    all_goals simp <;> omega

theorem Inv.offSince (i : Inv t s) (h : b = (onset (Obs.inactive 0) Obs.time t).getD s.timex) :
    (∀ c, s.ptInput1 = .waitOff c → s.timex ≤ b) ∧
    (∀ c, s.ptInput1 = .debounceOff c → s.input1Timer ≤ b) := by
  cases ho : onset (Obs.inactive 0) Obs.time t with
  | some b₁ =>
    simp only [ho, Option.getD_some] at h
    have ⟨hw, hd⟩ := i.off ho
    exact ⟨fun _ hl => absurd hl hw, fun _ hl => h ▸ hd hl⟩
  | none =>
    simp only [ho, Option.getD_none] at h
    exact ⟨fun _ _ => h ▸ Nat.le_refl _, fun _ _ => h ▸ i.timer⟩

theorem OnSince.settled (h : OnSince a n s) (hr : Recent a l s) (hl : a + 2 * debounce < l) :
    s.ptInput1.On ∧ n = 1 := by
  simp only [OnSince, Recent, debounce] at h hr hl
  cases hp : s.ptInput1 <;> simp only [hp] at h hr
  case waitOff => exact ⟨trivial, h⟩
  all_goals omega

theorem Inv.of_active (ha : x.active 0) (al : Alarms x.after)
    (ht : x.after.input1Timer ≤ x.after.timex) (hu : x.sets 0 → x.before.delayIn 0 = 0)
    (hi : a = (onset (Obs.active 0) Obs.time t).getD x.time)
    (hs : OnSince a (since (Obs.active 0) (Obs.sets 0) t + if 1 ∈ x.writes then 1 else 0) x.after)
    (hr : Recent a x.time x.after) : Inv (t ++ [x]) x.after ∧ Debounced 0 t x := by
  have hn : since (Obs.active 0) (Obs.sets 0) (t ++ [x]) =
      since (Obs.active 0) (Obs.sets 0) t + if 1 ∈ x.writes then 1 else 0 := by
    simp [since_concat_pos ha, Obs.sets]
  have on {a₁} (h : a₁ ∈ onset (Obs.active 0) Obs.time (t ++ [x])) : a₁ = a :=
    hi ▸ (onset_concat h).2
  have off : onset (Obs.inactive 0) Obs.time (t ++ [x]) = none :=
    onset_concat_neg <| by simp [Obs.inactive, ha]
  constructor
  case left =>
    refine ⟨al, ht, fun h => ?_, by simp [off], by simp [onset_concat_pos ha]⟩
    rw [on h, hn]
    exact hs
  case right =>
    refine ⟨fun a₁ h hl => ?_, by simp [Released, off], fun h hw => absurd (hu h) hw⟩
    have ⟨ho, h₁⟩ := hs.settled hr (on h ▸ hl)
    exact ⟨al.on ho, hn ▸ h₁⟩

theorem Inv.of_inactive (ha : ¬x.active 0) (al : Alarms x.after)
    (ht : x.after.input1Timer ≤ x.after.timex) (hu : x.sets 0 → x.before.delayIn 0 = 0)
    (hi : b = (onset (Obs.inactive 0) Obs.time t).getD x.time) (hs : OffSince b x.after)
    (hr : x.after.ptInput1.On → x.time < b + debounce) :
    Inv (t ++ [x]) x.after ∧ Debounced 0 t x := by
  have off {b₁} (h : b₁ ∈ onset (Obs.inactive 0) Obs.time (t ++ [x])) : b₁ = b :=
    hi ▸ (onset_concat h).2
  have on : onset (Obs.active 0) Obs.time (t ++ [x]) = none :=
    onset_concat_neg ha
  constructor
  case left => exact ⟨al, ht, by simp [on], fun h => off h ▸ hs, fun _ => hs.wait⟩
  case right =>
    refine ⟨by simp [Raised, on], fun b₁ h hl => ?_, fun h hw => absurd (hu h) hw⟩
    refine al.off fun ho => ?_
    have := hr ho
    rw [off h] at hl
    omega

theorem Inv.scan (i : Inv t s) (h : scanInputs s d = (s₁, w)) (v : Serves t ⟨d, s, s₁, w⟩) :
    Inv (t ++ [⟨d, s, s₁, w⟩]) s₁ ∧ Debounced 0 t ⟨d, s, s₁, w⟩ := by
  cases scanInputs_cases h
  case inl h =>
    have ⟨hc, hs, hw⟩ := h
    subst hs
    have idle : ¬(s.read d).ptInput1.On := by
      intro ho
      have : s.ptInput1.contact = none := (v.kept ho).trans hc
      cases hl : s.ptInput1 <;> simp_all [State.read]
    have hs {b} : OffSince b (s.read d) :=
      ⟨fun hl => idle <| hl ▸ trivial, fun hl => absurd (hl ▸ trivial) idle⟩
    exact Inv.of_inactive (by simp [Obs.active, hc]) ⟨i.alarms.on, i.alarms.off⟩ i.timer
      (by simp [Obs.sets, hw]) rfl hs fun ho => absurd ho idle
  case inr h =>
    have ⟨c, hc, r⟩ := h
    have kept (ho : s.ptInput1.On) : s.ptInput1.contact = some c :=
      (v.kept ho).trans hc
    have timely (hw : s.ptInput1.Window) (h : s.ptInput1.contact = some c) :=
      v.timely hw (h.trans hc.symm)
    have act : Obs.active 0 ⟨d, s, s₁, w⟩ = c.active (d 0) := by simp [Obs.active, hc]
    have falls (ho : s.ptInput1.On) (hw : s.ptInput1.Window) (he : s.expired) : ¬c.active (d 0) :=
      act ▸ v.falls ho hw he
    have al : Alarms s₁ := r.alarms ⟨i.alarms.on, i.alarms.off⟩ kept falls
    have hu (h : Obs.sets 0 ⟨d, s, s₁, w⟩) : s.delayIn 0 = 0 :=
      (i.alarms.off <| r.idle_of_mem <| by simpa [Obs.sets] using h).2
    cases ha : c.active (d 0) <;> rw [ha] at r act falls
    case false =>
      have ⟨hw, hd⟩ := i.offSince rfl
      have ⟨hs, hr⟩ := r.off hw hd timely
      exact Inv.of_inactive (by simp [act]) al (r.timer_le i.timer) hu rfl hs hr
    case true =>
      have ⟨hs, hr⟩ := r.on i.onSince kept (falls · · · rfl) timely fun hl => ?_
      · exact Inv.of_active act al (r.timer_le i.timer) hu rfl hs hr
      · have ⟨hp, he⟩ := v.prompt _ (onset_concat_pos act) hl
        exact ⟨hp.trans hc, he⟩

theorem saveInput_alarm : ((saveInput s j enable type delay).dinput i).alarm = (s.dinput i).alarm := by
  by_cases h : i = j
  case pos => simp [saveInput, h]
  case neg => simp [saveInput, h]

theorem ptAlarmDelay_delayIn (h : s.delayIn i = 0) : (ptAlarmDelay s).delayIn i = 0 := by
  simp [ptAlarmDelay, Wapp.delayTurn, h]

theorem Inv.step (i : Inv t s ∧ DebounceLaw 0 t) (hs : device.step s e = some (s₁, o))
    (v : Served (t ++ o)) : Inv (t ++ o) s₁ ∧ DebounceLaw 0 (t ++ o) := by
  have ⟨⟨al, timer, on, off, idle⟩, law⟩ := i
  cases e with
  | elapse ticks =>
    cases hs
    rw [List.append_nil]
    exact ⟨⟨⟨al.on, al.off⟩, Nat.le_add_right_of_le timer, on, fun h => ⟨(off h).wait, (off h).timer⟩,
      idle⟩, law⟩
  | scan d =>
    cases hs
    have ⟨i, h⟩ := i.1.scan rfl <| v t _ [] rfl
    exact ⟨i, law.concat h⟩
  | alarmDelay =>
    cases hs
    rw [List.append_nil]
    exact ⟨⟨⟨al.on, fun ho => ⟨(al.off ho).1, ptAlarmDelay_delayIn (al.off ho).2⟩⟩, timer, on,
      fun h => ⟨(off h).wait, (off h).timer⟩, idle⟩, law⟩
  | post j enable type delay =>
    cases hs
    rw [List.append_nil]
    refine ⟨⟨⟨fun ho => ?_, fun ho => ⟨?_, (al.off ho).2⟩⟩, timer, on,
      fun h => ⟨(off h).wait, (off h).timer⟩, idle⟩, law⟩
    · exact saveInput_alarm.trans <| al.on ho
    · exact saveInput_alarm.trans (al.off ho).1

-- The boot of the device, with no delay left over in the NVRAM
structure Boot (s : State) : Prop where
  start : s.ptInput1 = .start
  timer : s.input1Timer = 0
  calm  : ∀ i, (s.dinput i).alarm = 0 ∧ s.delayIn i = 0

theorem Boot.inv (h : Boot s) : Inv [] s where
  alarms := ⟨fun ho => by simp [h.start] at ho, fun _ => h.calm 0⟩
  timer  := h.timer ▸ Nat.zero_le _
  on     := by simp
  off    := by simp
  idle   := by simp [h.start]

-- An input without a thread never gets an alarm or a delay.
def Dormant (i : Fin 3) (s : State) : Prop :=
  (s.dinput i).alarm = 0 ∧ s.delayIn i = 0

theorem Resumed.frame (r : Resumed c active s s₁ w) (hi : i ≠ 0) :
    s₁.dinput i = s.dinput i ∧ s₁.delayIn i = s.delayIn i := by
  cases r with
  | raise => simp [State.goto, State.setAlarm, hi]
  | release => simp [State.goto, State.setAlarm, hi]
  | _ => exact ⟨rfl, rfl⟩

theorem Dormant.scan (h : Dormant i s) (hi : i ≠ 0) (hs : scanInputs s d = (s₁, w)) :
    Dormant i s₁ := by
  cases scanInputs_cases hs
  case inl hs => exact hs.2.1 ▸ h
  case inr hs =>
    have ⟨c, _, r⟩ := hs
    have ⟨hd, hw⟩ := r.frame hi
    exact ⟨congrArg DInput.alarm hd |>.trans h.1, hw.trans h.2⟩

theorem Dormant.step (h : Dormant i s ∧ Always (fun _ x => Dormant i x.before ∧ Dormant i x.after) t)
    (hi : i ≠ 0) (hs : device.step s e = some (s₁, o)) :
    Dormant i s₁ ∧ Always (fun _ x => Dormant i x.before ∧ Dormant i x.after) (t ++ o) := by
  have ⟨h, ht⟩ := h
  cases e with
  | elapse ticks =>
    cases hs
    exact ⟨h, by simpa using ht⟩
  | scan d =>
    cases hs
    have h₁ := h.scan hi (show scanInputs s d = (_, _) from rfl)
    exact ⟨h₁, ht.concat ⟨h, h₁⟩⟩
  | alarmDelay =>
    cases hs
    exact ⟨⟨h.1, ptAlarmDelay_delayIn h.2⟩, by simpa using ht⟩
  | post j enable type delay =>
    cases hs
    exact ⟨⟨saveInput_alarm.trans h.1, h.2⟩, by simpa using ht⟩

theorem dormant_law (h : Always (fun _ x => Dormant i x.before ∧ Dormant i x.after) t) :
    DebounceLaw i t ↔ Unused i t := by
  constructor
  case mp =>
    intro law t₁ x t₂ ht a ha
    refine Nat.le_of_not_lt fun hl => ?_
    have := (law t₁ x t₂ ht).raised a ha hl |>.1
    simp [(h t₁ x t₂ ht).2.1] at this
  case mpr =>
    intro unused t₁ x t₂ ht
    have ⟨before, after⟩ := h t₁ x t₂ ht
    exact ⟨fun a ha hl => absurd hl <| Nat.not_lt_of_le <| unused t₁ x t₂ ht a ha,
      fun _ _ _ => after, fun _ hw => absurd before.2 hw⟩

-- In every run from a boot, the first input is debounced as it should be if all scans serve it, and
-- the others exactly if they are never active for more than two windows.
theorem debounce_law (h : Boot s) (hr : device.run s es = some (s₁, t)) :
    (Served t → DebounceLaw 0 t) ∧ ∀ i, i ≠ 0 → (DebounceLaw i t ↔ Unused i t) := by
  constructor
  case left =>
    refine fun v => (Machine.run_history (t := [])
      (I := fun t s => Served t → Inv t s ∧ DebounceLaw 0 t)
      (fun hi _ hs v => Inv.step (hi <| Always.of_append v) hs v)
      (fun _ => ⟨h.inv, Always.nil⟩) Machine.Guarded.trivial hr v).2
  case right =>
    intro i hi
    have := Machine.run_history (t := [])
      (I := fun t s => Dormant i s ∧ Always (fun _ x => Dormant i x.before ∧ Dormant i x.after) t)
      (fun h _ hs => Dormant.step h hi hs) ⟨h.calm i, Always.nil⟩ Machine.Guarded.trivial hr
    exact dormant_law this.2

-- Input 0 is normally open, and input 1 normally closed.
def booted : State where
  timex       := 0
  dinput      := fun i => ⟨1, if i = 0 then 2 else 1, 0, 0, 60⟩
  delayIn     := fun _ => 0
  ptInput1    := .start
  input1Timer := 0

theorem boot_booted : Boot booted :=
  ⟨rfl, rfl, fun _ => ⟨rfl, rfl⟩⟩

def scans (n : Nat) (din : Fin 3 → UInt8) : List Event :=
  (List.replicate n [Event.elapse 40, .scan din]).flatten

-- Input 0 is active for 280 ticks and then inactive, and the other inputs are never active.
def pressed : List Event :=
  scans 8 (fun _ => 1) ++ [Event.alarmDelay] ++ scans 8 (fun i => if i = 0 then 0 else 1)

instance : Decidable (Serves t x) :=
  decidable_of_iff ((x.before.ptInput1.On → x.before.Polled) ∧
      (x.before.ptInput1.On → x.before.ptInput1.Window → x.before.expired → ¬x.active 0) ∧
      (x.before.ptInput1.Window → x.before.Polled →
        x.before.timex < x.before.input1Timer + 2 ^ 31) ∧
      ∀ a ∈ onset (Obs.active 0) Obs.time (t ++ [x]), a + debounce < x.time →
        x.before.Polled ∧ ¬x.before.ptInput1.Early)
    ⟨fun ⟨h₁, h₂, h₃, h₄⟩ => ⟨h₁, h₂, h₃, h₄⟩, fun ⟨h₁, h₂, h₃, h₄⟩ => ⟨h₁, h₂, h₃, h₄⟩⟩

instance : Decidable (Served t) :=
  inferInstanceAs <| Decidable (Always _ t)

instance : Decidable (Unused i t) :=
  inferInstanceAs <| Decidable (Always _ t)

theorem debounce_law_pressed : ∃ s₁ t, device.run booted pressed = some (s₁, t) ∧
    (s₁.dinput 0).alarm = 0 ∧ (∃ x ∈ t, (x.after.dinput 0).alarm = 1) ∧ ∀ i, DebounceLaw i t := by
  have : (device.run booted pressed).any (fun (s₁, t) => (s₁.dinput 0).alarm = 0 ∧
      (∃ x ∈ t, (x.after.dinput 0).alarm = 1) ∧ Served t ∧ Unused 1 t ∧ Unused 2 t) := by
    decide +kernel
  have ⟨(s₁, t), hr, ht⟩ := Option.any_eq_true _ _ |>.mp this
  have ⟨ha, hx, served, unused₁, unused₂⟩ := of_decide_eq_true ht
  have ⟨law, rest⟩ := debounce_law boot_booted hr
  refine ⟨s₁, t, hr, ha, hx, fun i => ?_⟩
  match i with
  | 0 => exact law served
  | 1 => exact rest 1 (by simp) |>.mpr unused₁
  | 2 => exact rest 2 (by simp) |>.mpr unused₂

theorem DebounceLaw.raised (h : DebounceLaw i t) : Always (Raised i) t :=
  fun _ _ _ ht => (h _ _ _ ht).raised

instance : Decidable (Raised i t x) :=
  inferInstanceAs <| Decidable (∀ a ∈ onset _ _ _, _ → _)

-- Input 1 is active for 280 ticks.
theorem input_not_polled :
    ¬∀ s es s₁ t i, Boot s → device.run s es = some (s₁, t) → DebounceLaw i t := by
  intro h
  have : (device.run booted (scans 8 fun _ => 0)).any (fun (_, t) => ¬Always (Raised 1) t) := by
    decide +kernel
  have ⟨(s₁, t), hr, ht⟩ := Option.any_eq_true _ _ |>.mp this
  exact of_decide_eq_true ht (h _ _ _ _ 1 boot_booted hr).raised

end Input
