import Webtermo.Library.Obligation
import Webtermo.Execution.Wapp.Theorems.Send

namespace Wapp

variable {s s₁ : State}

-- Recipient `n` is switched on and `ptWapp` has not come to it yet.
def Pending (s : State) (n : Fin 5) : Prop :=
  s.wAppflag ∧ s.wapp.enable n ∧ n ∈ s.ptWapp.ahead

instance : Decidable (Pending s n) :=
  inferInstanceAs <| Decidable (_ ∧ _ ∧ _)

-- Every expiry has to see its text handed over for each flagged recipient before the next expiry
-- overwrites the text and before `ptWapp` takes the flag back.
def notification : Obligation Obs (Fin 5 × Bytes) where
  opens
    | .expired flagged text, r => r.1 ∈ flagged ∧ r.2 = text
    | _,                     _ => False
  answers
    | .handed num text, r => r = (num, text)
    | _,                _ => False
  closes
    | .handed .. => False
    | _          => True

namespace Slot

def text (s : State) : Slot → Option Bytes
  | sen cnt => SendWApp.text s cnt
  | inp cnt => SendWAppInput.text s cnt

-- The SMS text is put together after the WhatsApp text and depends on the `rBuf` left by it.
def smsText (s : State) : Slot → Option Bytes
  | sen cnt => do SendSMS.text (← sendWApp s cnt).1 cnt
  | inp cnt => do SendSMS.textInput (← sendWAppInput s cnt).1 cnt

-- A delay runs out only when nothing is left to send, for recipients that `ptWapp` still comes to,
-- and with texts that fit into their arrays.
def Ok (s : State) (slot : Slot) : Prop :=
  (slot.turn s).2 →
    (∀ n, ¬Pending s n) ∧ (∀ n, slot.flags s n → n ∈ s.ptWapp.ahead) ∧
    Fits 128 (slot.text (slot.store s 0)) ∧ Fits 160 (slot.smsText (slot.store s 0))

instance : Decidable (Ok s slot) :=
  inferInstanceAs <| Decidable (_ → _)

end Slot

def State.next (s : State) : Option (Fin 5) :=
  s.ptWapp.ahead.find? (s.wapp.enable ·)

namespace Event

def Ok (s : State) : Event → Prop
  | alarmDelay         => delayLoop.Guarded Slot.Ok s slots
  | poll _             => ∀ n ∈ s.next, Fits 200 (do callmebotUrl s n (← s.wapp.msg.text 0))
  | receive i | result i => i < s.requests.length
  | others _           => True
  | testWApp _         => ∀ n, ¬Pending s n

instance : Decidable (Ok s e) := by
  cases e <;> unfold Ok <;> infer_instance

end Event

-- The observations `t` so far and the state: what has not been handed over is still pending, with
-- its text in place.
structure Inv (t : List Obs) (s : State) : Prop where
  met  : notification.Met t
  owed : ∀ {n m}, notification.Unmet t (n, m) → Pending s n ∧ s.wapp.msg.text 0 = some m
  text : ∃ m, s.wapp.msg.text 0 = some m

theorem Inv.init : Inv [] (State.init env) where
  met     := Always.nil
  owed hu := absurd hu Obligation.not_unmet_nil
  text    := ⟨[], rfl⟩

theorem Inv.no_unmet (i : Inv t s) (h : ∀ n, ¬Pending s n) (r) : ¬notification.Unmet t r :=
  fun hu => h r.1 (i.owed hu).1

-- Steps that neither observe anything nor touch what the invariant is about keep it.
theorem Inv.same (i : Inv t s) (hp : ∀ n, Pending s n → Pending s₁ n)
    (hm : s₁.wapp.msg = s.wapp.msg) : Inv t s₁ where
  met     := i.met
  owed hu := have ⟨h, ht⟩ := i.owed hu; ⟨hp _ h, hm ▸ ht⟩
  text    := hm ▸ i.text

theorem Inv.expired (i : Inv t s) (h : ∀ n, ¬Pending s n) (ha : ∀ n, flags n → n ∈ s.ptWapp.ahead)
    (a : Armed s s₁ flags m) : Inv (t ++ [Obs.expired (SendWApp.flagged flags) m]) s₁ where
  met  := i.met.concat fun _ => i.no_unmet h
  owed {n m₁} hu := by
    cases Obligation.unmet_concat hu
    case inl ho =>
      have ⟨hf, hm⟩ := ho
      have hf : flags n = true := by simpa [SendWApp.flagged] using hf
      have hm : m₁ = m := hm
      refine ⟨⟨?_, ?_, ?_⟩, hm ▸ a.msg⟩
      · exact a.wAppflag ▸ List.any_eq_true.mpr ⟨n, List.mem_finRange n, hf⟩
      · simp [a.enable, hf]
      · exact a.ptWapp ▸ ha _ hf
    case inr hu => exact absurd trivial hu.2.1
  text := ⟨m, a.msg⟩

namespace Slot

variable {slot : Slot}

theorem turn_expired (h : (slot.turn s).2) : (slot.turn s).1 = 0 := by
  cases slot <;> simp only [turn, delayTurn] at h ⊢ <;> grind

theorem send_spec (ht : Fits 128 (slot.text s)) (hs : Fits 160 (slot.smsText s)) :
    ∃ s₁ m, slot.send s = some (s₁, [.expired (SendWApp.flagged <| slot.flags s) m]) ∧
      Armed s s₁ (slot.flags s) m := by
  obtain ⟨m, ht, hl⟩ := ht
  cases slot with
  | sen cnt =>
    obtain ⟨s₁, h₁, armed⟩ := sendWApp_spec ht hl
    have hs : Fits 160 (SendSMS.text s₁ cnt) := by simpa [smsText, h₁] using hs
    obtain ⟨s₂, h₂, aside⟩ := sendSMS_spec hs
    exact ⟨s₂, m, by simp [send, h₁, h₂], armed.aside aside⟩
  | inp cnt =>
    obtain ⟨s₁, h₁, armed⟩ := sendWAppInput_spec ht hl
    have hs : Fits 160 (SendSMS.textInput s₁ cnt) := by simpa [smsText, h₁] using hs
    obtain ⟨s₂, h₂, aside⟩ := sendSMSInput_spec hs
    exact ⟨s₂, m, by simp [send, h₁, h₂], armed.aside aside⟩

theorem pending_store : Pending (slot.store s w) n ↔ Pending s n := by
  cases slot <;> rfl

theorem msg_store : (slot.store s w).wapp.msg = s.wapp.msg := by
  cases slot <;> rfl

theorem flags_store : slot.flags (slot.store s w) = slot.flags s := by
  cases slot <;> rfl

theorem ptWapp_store : (slot.store s w).ptWapp = s.ptWapp := by
  cases slot <;> rfl

theorem step_inv (i : Inv t s) (ok : slot.Ok s) :
    ∃ s₁ o, slot.step s = some (s₁, o) ∧ Inv (t ++ o) s₁ := by
  cases he : (slot.turn s).2 with
  | false =>
    refine ⟨slot.store s (slot.turn s).1, [], by simp [step, he], ?_⟩
    simpa using i.same (fun _ => pending_store.mpr) msg_store
  | true =>
    have ⟨hp, ha, ht, hs⟩ := ok he
    have ⟨s₁, m, h₁, armed⟩ := send_spec ht hs
    have i' : Inv t (slot.store s 0) := i.same (fun _ => pending_store.mpr) msg_store
    refine ⟨s₁, _, by simp [step, he, turn_expired he, h₁]; rfl, ?_⟩
    refine i'.expired (fun n => pending_store.not.mpr <| hp n) ?_ armed
    simpa [flags_store, ptWapp_store] using ha

end Slot

theorem ptAlarmDelay_inv (i : Inv t s) (ok : delayLoop.Guarded Slot.Ok s slots) :
    ∃ s₁ o, ptAlarmDelay s = some (s₁, o) ∧ Inv (t ++ o) s₁ :=
  Machine.run_total (M := delayLoop) (I := Inv) Slot.step_inv i ok

theorem Inv.skip (i : Inv t (s.before (n :: rest))) (h : ¬s.wapp.enable n) :
    Inv t (s.before rest) := by
  refine i.same (fun k ⟨hf, he, ha⟩ => ⟨hf, he, ?_⟩) rfl
  have ha : k = n ∨ k ∈ rest := by simpa [State.before, PtWapp.ahead] using ha
  cases ha with
  | inl hk => exact absurd (hk ▸ he) h
  | inr ha => exact ha

-- Handing over the text leaves nothing unmet for recipient `n`, and `ptWapp` goes past it.
theorem Inv.handed (i : Inv t (s.before (n :: rest))) (hm : s.wapp.msg.text 0 = some m)
    (hs : s₁.toEnv = s.toEnv ∧ s₁.wapp = s.wapp ∧ s₁.wAppflag = s.wAppflag) :
    Inv (t ++ [Obs.handed n m]) (s₁.before rest) where
  met := i.met.concat False.elim
  owed {k m₁} hu := by
    cases Obligation.unmet_concat hu
    case inl ho => exact ho.elim
    case inr hu =>
      have ⟨hu, _, ha⟩ := hu
      have ⟨⟨hf, he, hk⟩, ht⟩ := i.owed hu
      have hm₁ : m₁ = m := Option.some.inj <| ht.symm.trans hm
      have hn : k ≠ n := fun hn => ha (hn ▸ hm₁ ▸ rfl)
      have hk : k = n ∨ k ∈ rest := by simpa [State.before, PtWapp.ahead] using hk
      refine ⟨⟨?_, ?_, hk.resolve_left hn⟩, ?_⟩
      · simpa [State.before, hs.2.2] using hf
      · simpa [State.before, hs.2.1] using he
      · simpa [State.before, hs.2.1] using ht
  text := ⟨m, by simpa [State.before, hs.2.1] using hm⟩

theorem Inv.done (i : Inv t (s.before [])) :
    Inv (t ++ [Obs.done]) { s with wAppflag := false, ptWapp := .start } where
  met := i.met.concat fun _ => i.no_unmet fun _ h => List.not_mem_nil h.2.2
  owed hu := by
    cases Obligation.unmet_concat hu
    case inl ho => exact ho.elim
    case inr hu => exact absurd trivial hu.2.1
  text := i.text

theorem ptWappFrom_inv (i : Inv t (s.before rest))
    (ok : ∀ n ∈ rest.find? (s.wapp.enable ·), Fits 200 (do callmebotUrl s n (← s.wapp.msg.text 0))) :
    ∃ s₁ o, ptWappFrom s a rest = some (s₁, o) ∧ Inv (t ++ o) s₁ := by
  induction rest with
  | nil =>
    cases hb : s.wAppStatus with
    | free => exact ⟨_, _, by simp [ptWappFrom, hb], i.done⟩
    | busy => exact ⟨s.before [], [], by simp [ptWappFrom, hb, State.before], by simpa using i⟩
  | cons n rest ih =>
    cases hb : s.wAppStatus with
    | busy =>
      exact ⟨s.before (n :: rest), [], by simp [ptWappFrom, hb, State.before], by simpa using i⟩
    | free =>
      cases he : s.wapp.enable n with
      | false =>
        obtain ⟨s₁, o, h₁, i₁⟩ := ih (i.skip (by simp [he])) (by simpa [he] using ok)
        exact ⟨s₁, o, by simpa [ptWappFrom, hb, he] using h₁, i₁⟩
      | true =>
        obtain ⟨m, hm⟩ : ∃ m, s.wapp.msg.text 0 = some m := i.text
        have hu : Fits 200 (callmebotUrl s n m) := by simpa [he, hm] using ok
        obtain ⟨s₁, h₁, sent⟩ := sendWhatsappMessage_spec (s := s.setBusy) (a := a) hu
        have i₁ := i.handed hm ⟨sent.env, sent.wapp, sent.wAppflag⟩
        refine ⟨s₁.before rest, [.handed n m], ?_, i₁⟩
        simp [ptWappFrom, hb, he, hm, h₁, ptWappFrom_busy sent.status]

theorem Inv.before (i : Inv t s) : Inv t (s.before s.ptWapp.ahead) :=
  i.same (fun _ h => h) rfl

theorem ptWapp_eq (h : s.ptWapp ≠ .start) : ptWapp s a = ptWappFrom s a s.ptWapp.ahead := by
  cases hp : s.ptWapp <;> simp_all [ptWapp, PtWapp.ahead]

theorem loggerAlarmPoll_inv (i : Inv t s) (ok : (Event.poll a).Ok s) :
    ∃ s₁ o, loggerAlarmPoll s a = some (s₁, o) ∧ Inv (t ++ o) s₁ := by
  cases hf : s.wAppflag with
  | false => exact ⟨s, [], by simp [loggerAlarmPoll, hf], by simpa using i⟩
  | true =>
    by_cases hp : s.ptWapp = .start
    case pos =>
      refine ⟨{ s with ptWapp := .yielded }, [], by simp [loggerAlarmPoll, ptWapp, hf, hp], ?_⟩
      rw [List.append_nil]
      exact i.same (fun _ ⟨hf, he, ha⟩ => ⟨hf, he, by rw [hp] at ha; exact ha⟩) rfl
    case neg =>
      have ⟨s₁, o, h₁, i₁⟩ := ptWappFrom_inv (a := a) i.before ok
      exact ⟨s₁, o, by simpa [loggerAlarmPoll, hf, ptWapp_eq hp] using h₁, i₁⟩

theorem testText_spec : ∀ n, 0 ∉ testText n ∧ (testText n).length < 128 := by
  decide

theorem testWApp_inv (i : Inv t s) (ok : (Event.testWApp n).Ok s) :
    ∃ s₁, testWApp s n = some s₁ ∧ Inv t s₁ := by
  have ⟨hs, hl⟩ := testText_spec n
  have ⟨msg, hm, ht⟩ := Buffer.strcpy_spec (b := s.wapp.msg) hs hl
  simp only [testWApp, hm, Option.bind_eq_bind, Option.bind_some]
  exact ⟨_, rfl, i.met, fun hu => absurd hu <| i.no_unmet ok _, _, ht⟩

theorem step_inv (i : Inv t s) (ok : Event.Ok s e) :
    ∃ s₁ o, step s e = some (s₁, o) ∧ Inv (t ++ o) s₁ := by
  cases e with
  | alarmDelay => exact ptAlarmDelay_inv i ok
  | poll a => exact loggerAlarmPoll_inv i ok
  | receive j =>
    refine ⟨wappReceive s j, [], if_pos ok, ?_⟩
    rw [List.append_nil]
    exact i.same (fun _ h => h) rfl
  | result j =>
    refine ⟨wappResult s j, [], if_pos ok, ?_⟩
    rw [List.append_nil]
    exact i.same (fun _ h => h) rfl
  | others env =>
    refine ⟨{ s with toEnv := env }, [], rfl, ?_⟩
    rw [List.append_nil]
    exact i.same (fun _ h => h) rfl
  | testWApp n =>
    have ⟨s₁, h₁, i₁⟩ := testWApp_inv i ok
    exact ⟨s₁, [], by simp [step, h₁], by simpa using i₁⟩

-- In a run in which every delay runs out undisturbed, every text is handed to all the recipients
-- flagged for it before anything overwrites or cancels it.
theorem notifications_delivered (g : device.Guarded Event.Ok (State.init env) es) :
    ∃ s t, device.run (State.init env) es = some (s, t) ∧ notification.Met t := by
  have ⟨s, t, hr, i⟩ := Machine.run_total (M := device) (I := Inv) step_inv Inv.init g
  exact ⟨s, t, hr, i.met⟩

-- Sensors 1 and 2, named A and B, flag the first and the second recipient. They are too warm, and
-- the delays of the given sensors run out at the next pass.
def tooWarm (sensors : List (Fin 8)) : Env where
  eeprom    := fun a =>
    if a = 0x210 ∨ a = 0x311 then 1 else if a = 0x240 then 65 else if a = 0x340 then 66 else 0
  rBuf      := Buffer.zero 1024
  temp      := fun _ => 30
  senzor    := fun _ => { (default : Sensor) with highLimit := 8, enble := 1, delay := 1 }
  senzor255 := default
  dinput    := fun _ => default
  delaySen  := fun k => if k ∈ sensors then 1 else 0
  delayIn   := fun _ => 0
  infobip   := { poruka := Buffer.zero 160, gsmEnable := fun _ => false, active := false }

def oneAfterTheOther : List Event :=
  [.alarmDelay, .poll true, .poll true, .receive 0, .result 0, .poll true,
    .others (tooWarm [2]), .alarmDelay, .poll true, .poll true, .receive 0, .result 0, .poll true]

theorem notifications_delivered_one_after_the_other :
    device.Guarded Event.Ok (State.init <| tooWarm [1]) oneAfterTheOther ∧
    ∃ s t, device.run (State.init <| tooWarm [1]) oneAfterTheOther = some (s, t) ∧
      notification.Met t :=
  have g : device.Guarded Event.Ok (State.init <| tooWarm [1]) oneAfterTheOther := by
    decide +kernel
  ⟨g, notifications_delivered g⟩

-- When two delays run out in one pass, the text of the first one is gone before anybody gets it.
theorem notification_overwritten :
    ¬∀ env es s t, device.run (State.init env) es = some (s, t) → notification.Met t := by
  intro h
  let o₁ := Obs.expired [0] (ascii "\nA\n ALARM VISOKE TEMPERATURE \r30.00 C\n")
  let o₂ := Obs.expired [1] (ascii "\nB\n ALARM VISOKE TEMPERATURE \r30.00 C\n")
  have ho : (device.run (State.init <| tooWarm [1, 2]) [.alarmDelay]).map (·.2) = some [o₁, o₂] := by
    decide +kernel
  have ⟨⟨s, t⟩, hr, ht⟩ := Option.map_eq_some_iff.mp ho
  have m : notification.Met [o₁, o₂] := ht ▸ h _ _ _ _ hr
  refine m [o₁] o₂ [] rfl trivial (0, ascii "\nA\n ALARM VISOKE TEMPERATURE \r30.00 C\n") ?_
  exact ⟨[], o₁, [], rfl, ⟨by simp, rfl⟩, by simp⟩

end Wapp
