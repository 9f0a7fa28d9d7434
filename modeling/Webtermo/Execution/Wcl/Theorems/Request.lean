import Webtermo.Library.Trace
import Webtermo.Execution.Wcl.Theorems.Resume

namespace Wcl

def Obs.built? : Obs → Option Wapp.State
  | xml .wcl dev _ => some dev
  | _              => none

def Obs.header? : Obs → Option Bytes
  | call .wcl (.write .wtxBuf header) _ => some header
  | _                                   => none

-- The state in which `ptWCL` has last built a header, and the header that it has last sent
def lastBuilt (t : List Obs) : Option Wapp.State :=
  (t.filterMap Obs.built?).getLast?

def lastHeader (t : List Obs) : Option Bytes :=
  (t.filterMap Obs.header?).getLast?

-- A body is the encoded document of the message and the numbers that the header was built for, and the
-- header has its length. A buffer does not change while data of it are in flight.
def Intact (t : List Obs) : Obs → Prop
  | .call .wcl (.write .infobip body) _ => ∃ dev ∈ lastBuilt t,
    (∃ text ∈ document dev dev.infobip.gsmEnable, body = encoded text) ∧
    lastHeader t = some (postHeader body.length).flatten
  | .rebuilt _ inFlight changed         => ¬(inFlight ∧ changed)
  | _                                   => True

def RequestLaw : List Obs → Prop :=
  Always Intact

-- `ptWCL` has built a message that it has not sent yet.
def State.Prepared (s : State) : Prop :=
  s.pt .wcl = .connecting ∨ s.pt .wcl = .headerSent

instance : Decidable (State.Prepared s) :=
  inferInstanceAs <| Decidable (_ ∨ _)

-- A thread builds its texts only when no data of its buffers are in flight, and the one for the credit
-- not while a message is prepared.
def Event.Alone (s : State) : Event → Prop
  | resume c _ => s.active c → s.pt c = .yielded →
    ¬s.inFlight .infobip ∧ ¬s.inFlight c.buf ∧ (c = .credit → ¬s.Prepared)
  | _          => True

instance : Decidable (Event.Alone s e) := by
  cases e <;> unfold Event.Alone <;> infer_instance

-- What has been built is still in the buffers.
structure Ready (t : List Obs) (s : State) (dev : Wapp.State) (text : Bytes) : Prop where
  built    : lastBuilt t = some dev
  document : document dev dev.infobip.gsmEnable = some text
  infobip  : (s.buf .infobip).bytes = encoded text
  wtxBuf   : s.pt .wcl = .connecting →
    (s.buf .wtxBuf).bytes = (postHeader (encoded text).length).flatten
  header   : s.pt .wcl = .headerSent → lastHeader t = some (postHeader (encoded text).length).flatten

structure RequestInv (t : List Obs) (s : State) : Prop where
  law   : RequestLaw t
  ready : s.Prepared → ∃ dev text, Ready t s dev text

variable {s s₁ : State} {t o : List Obs} {x : Obs} {c : Client}

-- Observations that are not about the texts of `ptWCL`
def Obs.Aside : Obs → Prop
  | xml .wcl _ _ | call .wcl (.write _ _) _ => False
  | rebuilt _ inFlight changed              => ¬(inFlight ∧ changed)
  | _                                       => True

theorem Obs.Aside.built (h : x.Aside) : x.built? = none := by
  unfold built?
  split
  case h_1 => exact absurd h id
  case h_2 => rfl

theorem Obs.Aside.header (h : x.Aside) : x.header? = none := by
  unfold header?
  split
  case h_1 => exact absurd h id
  case h_2 => rfl

theorem Obs.Aside.intact (h : x.Aside) : Intact t x := by
  unfold Intact
  split
  case h_1 => exact absurd h id
  case h_2 => exact h
  case h_3 => trivial

theorem lastBuilt_append (h : ∀ x ∈ o, x.built? = none) : lastBuilt (t ++ o) = lastBuilt t := by
  rw [lastBuilt, List.filterMap_append, List.filterMap_eq_nil_iff.mpr h, List.append_nil, lastBuilt]

theorem lastHeader_append (h : ∀ x ∈ o, x.header? = none) : lastHeader (t ++ o) = lastHeader t := by
  rw [lastHeader, List.filterMap_append, List.filterMap_eq_nil_iff.mpr h, List.append_nil, lastHeader]

theorem Obs.Message.aside (h : x.Message) : x.Aside := by
  unfold Obs.Aside
  split
  case h_1 | h_2 => exact absurd h id
  case h_3 => exact absurd h id
  case h_4 => trivial

namespace RequestInv

theorem aside (i : RequestInv t s) (ho : ∀ x ∈ o, x.Aside) (hb : s₁.buf = s.buf)
    (hp : s₁.pt .wcl = s.pt .wcl) : RequestInv (t ++ o) s₁ where
  law     := i.law.append fun _ x _ he => (ho x <| by simp [he]).intact
  ready h := by
    have ⟨dev, text, r⟩ := i.ready <| by simpa only [State.Prepared, hp] using h
    refine ⟨dev, text, ?_, r.document, hb ▸ r.infobip, ?_, ?_⟩
    · rw [lastBuilt_append fun x hx => (ho x hx).built, r.built]
    · exact fun h => hb ▸ r.wtxBuf (hp ▸ h)
    · intro h
      rw [lastHeader_append fun x hx => (ho x hx).header, r.header <| hp ▸ h]

-- No message is prepared any more.
theorem done (i : RequestInv t s) (ho : ∀ x ∈ o, x.Aside) (hp : ¬s₁.Prepared) :
    RequestInv (t ++ o) s₁ where
  law     := i.law.append fun _ x _ he => (ho x <| by simp [he]).intact
  ready h := absurd h hp

theorem build (i : RequestInv t s) (b : Built s c s₁ text o)
    (hf : ¬s.inFlight .infobip ∧ ¬s.inFlight c.buf ∧ (c = .credit → ¬s.Prepared)) :
    RequestInv (t ++ (o ++ (connect s₁ c a).2)) (connect s₁ c a).1 := by
  have ⟨rBuf, xmlBuf, infobip, buf, infobiplen, hs⟩ := b.other
  have ⟨h₁, h₂, h₃⟩ := hf
  have rest : ∀ x ∈ o.tail ++ (connect s₁ c a).2, x.Aside := by
    simp [b.obs, connect, Obs.Aside, h₁, h₂]
  have ho : o = .xml c s.dev text :: o.tail := by rw [b.obs]; rfl
  cases c with
  | credit =>
    refine i.done (fun x hx => ?_) ?_
    · rw [ho] at hx
      exact (List.mem_cons.mp hx).elim (· ▸ trivial) (rest x)
    · have hp := h₃ rfl
      cases a <;> simpa [connect, State.Prepared, State.setGsm, hs] using hp
  | wcl =>
    have hc : lastBuilt (t ++ (o ++ (connect s₁ .wcl a).2)) = some s.dev := by
      rw [ho, List.cons_append, List.append_cons, lastBuilt_append fun x hx => (rest x hx).built]
      simp [lastBuilt, List.filterMap_append, Obs.built?]
    refine ⟨i.law.append fun o₁ x o₂ he => ?_, fun _ => ⟨s.dev, text, hc, b.document, ?_, ?_, ?_⟩⟩
    · rw [ho, List.cons_append] at he
      cases o₁ with
      | nil => exact (List.cons.inj he).1 ▸ trivial
      | cons y o₁ => exact (rest x <| by simp [(List.cons.inj he).2]).intact
    · cases a <;> exact b.infobip
    · intro _
      cases a <;> exact b.header rfl
    · intro h
      simp [connect] at h

-- The header is sent.
theorem request (i : RequestInv t s) (hp : s.pt .wcl = .connecting) :
    RequestInv (t ++ (write (s.setGsm .wcl .waiting) .wcl .wtxBuf a).2)
      ((write (s.setGsm .wcl .waiting) .wcl .wtxBuf a).1.goto .wcl .headerSent) := by
  have ⟨dev, text, r⟩ := i.ready <| .inl hp
  refine ⟨i.law.append fun o₁ x o₂ he => ?_, fun _ => ⟨dev, text, ?_, r.document, r.infobip, ?_, ?_⟩⟩
  · have hx : x ∈ (write (s.setGsm .wcl .waiting) .wcl .wtxBuf a).2 := by simp [he]
    simp only [write, List.mem_cons, List.not_mem_nil, or_false] at hx
    cases hx with
    | inl hx => exact hx ▸ trivial
    | inr hx => exact hx ▸ trivial
  · rw [lastBuilt_append <| by simp [write, Obs.built?], r.built]
  · simp
  · intro _
    rw [← r.wtxBuf hp, write, List.append_cons, lastHeader_append <| by simp; rfl]
    simp [lastHeader, List.filterMap_append, Obs.header?, State.setGsm]

-- The body is sent.
theorem body (i : RequestInv t s) (hp : s.pt .wcl = .headerSent) :
    RequestInv (t ++ (write s .wcl .infobip a).2)
      ((write s .wcl .infobip a).1.goto .wcl .awaiting) := by
  have ⟨dev, text, r⟩ := i.ready <| .inr hp
  refine ⟨i.law.append fun o₁ x o₂ he => ?_, fun h => ?_⟩
  · cases o₁ with
    | nil =>
      refine (List.cons.inj he).1 ▸ ⟨dev, ?_, ⟨text, r.document, r.infobip⟩, ?_⟩
      · rw [List.append_nil, r.built]
        rfl
      · rw [List.append_nil, r.header hp, r.infobip]
    | cons y o₁ =>
      have hx : x ∈ [Obs.call .wcl .output (s.pcb .wcl)] := by
        rw [(List.cons.inj he).2]
        simp
      exact List.mem_singleton.mp hx ▸ trivial
  · simp [State.Prepared] at h

theorem resume (i : RequestInv t s) (h : Wcl.resume s c a = some (s₁, o))
    (ok : Event.Alone s (.resume c a)) : RequestInv (t ++ o) s₁ := by
  by_cases ha : s.active c
  case neg =>
    simp only [Wcl.resume, ha, Bool.false_eq_true, if_false, Option.some.injEq, Prod.mk.injEq] at h
    exact h.1 ▸ h.2 ▸ i.aside (by simp) rfl rfl
  cases resume_resumed h with
  | stay => exact i.aside (by simp) rfl rfl
  | yield hp =>
    cases c with
    | wcl => exact i.done (by simp) <| by simp [State.Prepared]
    | credit => exact i.aside (by simp) rfl <| by simp
  | build hp b => exact i.build b <| ok ha hp
  | request hp =>
    cases c with
    | wcl => exact i.request hp
    | credit => exact i.aside (by simp [write, Obs.Aside]) rfl <| by simp [write, State.setGsm]
  | body hp => exact i.body hp
  | last hp =>
    rw [← List.append_assoc]
    exact (i.body hp).done (by simp [close, Obs.Aside]) <| by simp [close, State.Prepared]
  | close hp =>
    cases c with
    | wcl => exact i.done (by simp [close, Obs.Aside]) <| by simp [close, State.Prepared]
    | credit => exact i.aside (by simp [close, Obs.Aside]) rfl <| by simp [close, State.deactivate]

theorem step (i : RequestInv t s) (ok : Event.Alone s e) (hs : device.step s e = some (s₁, o)) :
    RequestInv (t ++ o) s₁ := by
  obtain ⟨c, a, he, hs⟩ | ⟨pcb, he, hs⟩ | h := step_cases hs
  · exact i.resume hs <| he ▸ ok
  · simp only [free] at hs
    split_ifs at hs
    cases hs
    exact i.aside (by simp [Obs.Aside]) rfl rfl
  · exact i.aside (fun x hx => (h.obs x hx).aside) h.buf (congrFun h.pt _)

end RequestInv

-- In every run from the start of the device whose threads build alone, the header, the body and the
-- buffers of a request stay together.
theorem request_law (g : device.Guarded Event.Alone (State.init env) es)
    (hr : device.run (State.init env) es = some (s, t)) : RequestLaw t :=
  (Machine.run_history (I := RequestInv) (t := []) (fun i ok hs => i.step ok hs)
    ⟨Always.nil, by simp [State.Prepared, State.init]⟩ g hr).law

instance : DecidablePred (Intact t)
  | .call .wcl (.write .infobip body) _ => inferInstanceAs <| Decidable (∃ dev ∈ lastBuilt t,
    (∃ text ∈ document dev dev.infobip.gsmEnable, body = encoded text) ∧
    lastHeader t = some (postHeader body.length).flatten)
  | .rebuilt _ inFlight changed => inferInstanceAs <| Decidable (¬(inFlight ∧ changed))
  | .alarm _ _ _ _ | .sms _ | .testWApp _ _ _ | .xml _ _ _ | .new _ _ | .ended _ | .freed _
  | .call .credit _ _ | .call .wcl .arg _ | .call .wcl .sent _ | .call .wcl .recv _
  | .call .wcl .output _ | .call .wcl .close _ | .call .wcl (.write .wtxBuf _) _
  | .call .wcl (.write .crBuf _) _ => isTrue trivial

instance : Decidable (RequestLaw t) :=
  inferInstanceAs <| Decidable (Always _ t)

theorem request_law_sent_message : ∃ s t, device.run blank sentMessage = some (s, t) ∧
    lastHeader t ≠ none ∧ RequestLaw t := by
  have g : device.Guarded Event.Alone blank sentMessage := by decide +kernel
  have : (device.run blank sentMessage).any (fun x => lastHeader x.2 ≠ none) := by decide +kernel
  obtain ⟨⟨s, t⟩, hr, ht⟩ := Option.any_eq_true _ _ |>.mp this
  exact ⟨s, t, hr, of_decide_eq_true ht, request_law g hr⟩

-- The credit is asked for while a message is prepared, and another message has been left in between.
def mixed : List Event :=
  let resume (c : Client) (expired : Bool) := Event.resume c ⟨expired, true, true, []⟩
  [.testSms 4, resume .wcl false, resume .wcl false, .testSms 0, .getCredit, resume .credit false,
    resume .credit false, .connected .wcl, resume .wcl false, resume .wcl true]

theorem body_replaced :
    ¬∀ env es s t, device.run (State.init env) es = some (s, t) → RequestLaw t := by
  intro h
  have : (device.run blank mixed).any (fun x => ¬RequestLaw x.2) := by
    decide +kernel
  obtain ⟨⟨s, t⟩, hr, ht⟩ := Option.any_eq_true _ _ |>.mp this
  exact of_decide_eq_true ht <| h _ _ _ _ hr

end Wcl
