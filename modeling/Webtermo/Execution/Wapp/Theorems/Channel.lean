import Webtermo.Execution.Wapp.Theorems.Delivery

namespace Wapp

variable {s s₁ s₂ : State}

-- The state of the channel and the requests under way, which only `ptWapp` and the callbacks of the
-- HTTP client change
structure SameChannel (s s₁ : State) : Prop where
  status   : s₁.wAppStatus = s.wAppStatus
  requests : s₁.requests = s.requests

theorem SameChannel.refl : SameChannel s s :=
  ⟨rfl, rfl⟩

theorem SameChannel.trans (a : SameChannel s s₁) (b : SameChannel s₁ s₂) : SameChannel s s₂ :=
  ⟨b.status.trans a.status, b.requests.trans a.requests⟩

theorem eeRead_channel (h : eeRead s addr n = some s₁) : SameChannel s s₁ := by
  have ⟨_, _, h⟩ := Option.map_eq_some_iff.mp h
  exact h ▸ ⟨rfl, rfl⟩

theorem sendWApp_channel (h : sendWApp s sen = some (s₁, o)) : SameChannel s s₁ := by
  simp only [sendWApp, Option.bind_eq_bind, Option.bind_eq_some_iff, Option.some.injEq] at h
  obtain ⟨_, h₁, _, _, _, _, _, _, _, h₂, _, _, _, _, _, _, _, _, _, _, h⟩ := h
  have ha : _ = s₁ := congrArg Prod.fst h
  exact eeRead_channel h₁ |>.trans (eeRead_channel h₂) |>.trans <| ha ▸ ⟨rfl, rfl⟩

theorem sendWAppInput_channel (h : sendWAppInput s inp = some (s₁, o)) : SameChannel s s₁ := by
  simp only [sendWAppInput, Option.bind_eq_bind, Option.bind_eq_some_iff, Option.some.injEq] at h
  obtain ⟨_, h₁, _, _, _, _, _, _, _, h₂, _, _, _, _, _, _, _, _, _, h₃, h⟩ := h
  have ha : _ = s₁ := congrArg Prod.fst h
  exact eeRead_channel h₁ |>.trans (eeRead_channel h₂) |>.trans (eeRead_channel h₃) |>.trans <|
    ha ▸ ⟨rfl, rfl⟩

theorem sendSMS_channel (h : sendSMS s sen = some s₁) : SameChannel s s₁ := by
  simp only [sendSMS, Option.bind_eq_bind, Option.bind_eq_some_iff, Option.some.injEq] at h
  obtain ⟨_, h₁, _, _, _, _, _, _, _, _, _, _, _, h₂, h⟩ := h
  have h₂ := eeRead_channel h₂
  exact eeRead_channel h₁ |>.trans <| h ▸ ⟨h₂.status, h₂.requests⟩

theorem sendSMSInput_channel (h : sendSMSInput s inp = some s₁) : SameChannel s s₁ := by
  simp only [sendSMSInput, Option.bind_eq_bind, Option.bind_eq_some_iff, Option.some.injEq] at h
  obtain ⟨_, h₁, _, _, _, _, _, _, _, h₂, h⟩ := h
  have h₂ := eeRead_channel h₂
  exact eeRead_channel h₁ |>.trans <| h ▸ ⟨h₂.status, h₂.requests⟩

namespace Slot

variable {slot : Slot}

theorem store_channel : SameChannel s (slot.store s w) := by
  cases slot <;> exact ⟨rfl, rfl⟩

theorem send_channel (h : slot.send s = some (s₁, o)) : SameChannel s s₁ := by
  cases slot with
  | sen cnt =>
    simp only [send, Option.bind_eq_bind, Option.bind_eq_some_iff, Option.some.injEq,
      Prod.mk.injEq] at h
    obtain ⟨_, h₁, _, h₂, h, _⟩ := h
    exact sendWApp_channel h₁ |>.trans <| sendSMS_channel (h ▸ h₂)
  | inp cnt =>
    simp only [send, Option.bind_eq_bind, Option.bind_eq_some_iff, Option.some.injEq,
      Prod.mk.injEq] at h
    obtain ⟨_, h₁, _, h₂, h, _⟩ := h
    exact sendWAppInput_channel h₁ |>.trans <| sendSMSInput_channel (h ▸ h₂)

theorem step_channel (h : slot.step s = some (s₁, o)) : SameChannel s s₁ := by
  simp only [step] at h
  split at h
  case isTrue => exact store_channel.trans <| send_channel h
  case isFalse =>
    have h := (Prod.mk.inj <| Option.some.inj h).1
    exact h ▸ store_channel

end Slot

theorem ptAlarmDelay_channel (h : ptAlarmDelay s = some (s₁, o)) : SameChannel s s₁ :=
  Machine.run_invariant (M := delayLoop) (I := SameChannel s)
    (fun i _ h => i.trans <| Slot.step_channel h) .refl .trivial h

theorem testWApp_channel (h : step s (.testWApp n) = some (s₁, o)) : SameChannel s s₁ := by
  simp only [step, Option.map_eq_some_iff, testWApp, Option.bind_eq_bind, Option.bind_eq_some_iff,
    Prod.mk.injEq, Option.some.injEq] at h
  obtain ⟨_, ⟨_, _, h⟩, hs, _⟩ := h
  exact hs ▸ h ▸ ⟨rfl, rfl⟩

-- A busy channel waits for the first part of a response that is still to come.
def Awaited (s : State) : Prop :=
  s.wAppStatus = .busy → ∃ r ∈ s.requests, ¬r.received

-- The client accepts the requests handed to it, and it calls the receive callback at least once
-- before it calls the result callback.
def Event.Answered (s : State) : Event → Prop
  | poll accepted => accepted
  | result i      => ∃ r ∈ s.requests[i]?, r.received
  | _             => True

instance : Decidable (Event.Answered s e) :=
  match e with
  | .poll accepted => inferInstanceAs <| Decidable (accepted = true)
  | .result i      => inferInstanceAs <| Decidable (∃ r ∈ s.requests[i]?, r.received)
  | .alarmDelay | .receive _ | .others _ | .testWApp _ => inferInstanceAs <| Decidable True

theorem Awaited.same (a : Awaited s) (h : SameChannel s s₁) : Awaited s₁ := by
  simpa [Awaited, h.status, h.requests] using a

theorem Awaited.of_free (h : s.wAppStatus = .free) : Awaited s :=
  fun hb => by simp [h] at hb

-- The call has handed the text to one recipient.
def Hands (s s₁ : State) (a : Bool) (o : List Obs) : Prop :=
  s.wAppStatus = .free ∧ ∃ n m s₂ rest, sendWhatsappMessage s.setBusy n m a = some s₂ ∧
    s₁ = s₂.before rest ∧ o = [.handed n m]

-- What a resumption of `ptWapp` can do: wait or finish, or hand the text to one recipient.
theorem ptWappFrom_cases (h : ptWappFrom s a rest = some (s₁, o)) :
    SameChannel s s₁ ∨ Hands s s₁ a o := by
  induction rest with
  | nil =>
    simp only [ptWappFrom] at h
    split at h <;> simp only [Option.some.injEq, Prod.mk.injEq] at h
    all_goals exact .inl <| h.1 ▸ ⟨rfl, rfl⟩
  | cons n rest ih =>
    cases hs : s.wAppStatus with
    | busy =>
      rw [ptWappFrom_busy hs] at h
      simp only [Option.some.injEq, Prod.mk.injEq] at h
      exact .inl <| h.1 ▸ ⟨rfl, rfl⟩
    | free =>
      cases he : s.wapp.enable n with
      | false => exact ih <| by simpa [ptWappFrom, hs, he] using h
      | true =>
        simp only [ptWappFrom, hs, he, reduceCtorEq, if_false, if_true, Option.bind_eq_bind,
          Option.bind_eq_some_iff] at h
        obtain ⟨m, _, s₂, h₂, _, hr, h⟩ := h
        rw [ptWappFrom_busy (sendWhatsappMessage_sent h₂).status] at hr
        simp only [Option.some.injEq] at hr
        simp only [← hr, Option.some.injEq, Prod.mk.injEq] at h
        exact .inr ⟨hs, n, m, s₂, rest, h₂, h.1.symm, h.2.symm⟩

theorem loggerAlarmPoll_cases (h : loggerAlarmPoll s a = some (s₁, o)) :
    SameChannel s s₁ ∨ Hands s s₁ a o := by
  simp only [loggerAlarmPoll, ptWapp] at h
  split at h
  case isFalse =>
    have h := (Prod.mk.inj <| Option.some.inj h).1
    exact .inl <| h ▸ .refl
  case isTrue =>
    split at h
    case h_1 =>
      have h := (Prod.mk.inj <| Option.some.inj h).1
      exact .inl <| h ▸ ⟨rfl, rfl⟩
    case h_2 => exact ptWappFrom_cases h
    case h_3 => exact ptWappFrom_cases h

theorem Hands.awaited : Hands s s₁ true o → Awaited s₁
  | ⟨_, _, _, _, _, h, hb, _⟩ => by
    have ⟨num, url, hr⟩ := (sendWhatsappMessage_sent h).requests
    exact fun _ => ⟨⟨num, url, false⟩, by simp [hb, State.before, hr], by simp⟩

-- A finished request has been answered, so another one keeps a busy channel waiting.
theorem wappResult_awaited (i : Awaited s) (ok : (Event.result j).Answered s) :
    Awaited (wappResult s j) := by
  intro hb
  have ⟨r, hr, hn⟩ := i hb
  have ⟨r₁, hr₁, hn₁⟩ := ok
  have ⟨k, hk, hkr⟩ := List.getElem_of_mem hr
  have hne : k ≠ j := by
    intro he
    simp [← he, hk, hkr] at hr₁
    exact hn (hr₁ ▸ hn₁)
  exact ⟨r, List.mem_eraseIdx_iff_getElem?.mpr ⟨k, hne, by simp [hk, hkr]⟩, hn⟩

theorem step_awaited (i : Awaited s) (ok : e.Answered s) (h : step s e = some (s₁, o)) :
    Awaited s₁ := by
  cases e with
  | alarmDelay => exact i.same <| ptAlarmDelay_channel h
  | poll a =>
    cases loggerAlarmPoll_cases h with
    | inl hc => exact i.same hc
    | inr hh => exact Hands.awaited <| (show a = true from ok) ▸ hh
  | receive j =>
    simp only [step] at h
    split at h <;> simp only [Option.some.injEq, Prod.mk.injEq, reduceCtorEq] at h
    exact h.1 ▸ .of_free rfl
  | result j =>
    simp only [step] at h
    split at h <;> simp only [Option.some.injEq, Prod.mk.injEq, reduceCtorEq] at h
    exact h.1 ▸ wappResult_awaited i ok
  | others env =>
    have h := (Prod.mk.inj <| Option.some.inj h).1
    exact i.same <| h ▸ ⟨rfl, rfl⟩
  | testWApp n => exact i.same <| testWApp_channel h

-- If the client accepts every request and delivers a part of every response, then the channel is
-- busy only while a request is outstanding.
theorem busy_outstanding (g : device.Guarded Event.Answered (State.init env) es)
    (hr : device.run (State.init env) es = some (s, t)) : s.wAppStatus = .busy → s.requests ≠ [] := by
  have h₀ : Awaited (State.init env) := .of_free rfl
  have a := Machine.run_invariant (M := device) (I := Awaited) step_awaited h₀ g hr
  intro hb
  have ⟨_, h, _⟩ := a hb
  exact List.ne_nil_of_mem h

theorem busy_outstanding_after_response :
    let es := [.alarmDelay, .poll true, .poll true, .receive 0, .result 0]
    device.Guarded Event.Answered (State.init <| tooWarm [1]) es ∧
    ∃ s t, device.run (State.init <| tooWarm [1]) es = some (s, t) ∧
      (s.wAppStatus = .busy → s.requests ≠ []) := by
  intro es
  have g : device.Guarded Event.Answered (State.init <| tooWarm [1]) es := by decide +kernel
  have hd : (device.run (State.init <| tooWarm [1]) es).isSome := by decide +kernel
  have ⟨⟨s, t⟩, hr⟩ := Option.isSome_iff_exists.mp hd
  exact ⟨g, s, t, hr, busy_outstanding g hr⟩

-- When the client refuses the request, then the channel is busy with nothing under way.
theorem busy_without_request :
    ¬∀ env es s t, device.run (State.init env) es = some (s, t) →
      s.wAppStatus = .busy → s.requests ≠ [] := by
  intro h
  have hd : (device.run (State.init <| tooWarm [1]) [.alarmDelay, .poll true, .poll false]).map
      (fun r => (r.1.wAppStatus, r.1.requests.length)) = some (.busy, 0) := by
    decide +kernel
  have ⟨⟨s, t⟩, hr, hs⟩ := Option.map_eq_some_iff.mp hd
  simp only [Prod.mk.injEq, List.length_eq_zero_iff] at hs
  exact h _ _ _ _ hr hs.1 hs.2

-- The channel is busy, but no callback will ever free it.
structure Stuck (s : State) : Prop where
  busy : s.wAppStatus = .busy
  none : s.requests = []

theorem Stuck.same (i : Stuck s) (h : SameChannel s s₁) : Stuck s₁ :=
  ⟨h.status.trans i.busy, h.requests.trans i.none⟩

theorem Stuck.refused (h : s.requests = []) (hh : Hands s s₁ false o) : Stuck s₁ := by
  have ⟨_, _, _, _, _, hs, hb, _⟩ := hh
  have sent := sendWhatsappMessage_sent hs
  have ⟨_, _, hr⟩ := sent.requests
  exact ⟨by simp [hb, State.before, sent.status, State.setBusy],
    by simp [hb, State.before, hr, State.setBusy, h]⟩

theorem Stuck.unanswered (hb : s.wAppStatus = .busy) (h : s.requests = [r]) :
    Stuck (wappResult s 0) :=
  ⟨hb, by simp [wappResult, h]⟩

theorem Stuck.step (i : Stuck s) (h : step s e = some (s₁, o)) : Stuck s₁ := by
  cases e with
  | alarmDelay => exact i.same <| ptAlarmDelay_channel h
  | poll a =>
    cases loggerAlarmPoll_cases h with
    | inl hc => exact i.same hc
    | inr hh => exact absurd (hh.1.symm.trans i.busy) (by simp)
  | receive j => simp [Wapp.step, i.none] at h
  | result j => simp [Wapp.step, i.none] at h
  | others env =>
    have h := (Prod.mk.inj <| Option.some.inj h).1
    exact i.same <| h ▸ ⟨rfl, rfl⟩
  | testWApp n => exact i.same <| testWApp_channel h

theorem Stuck.forever (i : Stuck s) (hr : device.run s es = some (s₁, t)) : Stuck s₁ :=
  Machine.run_invariant (M := device) (I := Stuck) (fun i _ h => i.step h) i .trivial hr

end Wapp
