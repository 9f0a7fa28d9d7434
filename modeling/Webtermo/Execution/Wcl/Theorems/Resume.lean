import Webtermo.Execution.Wcl.Theorems.Document

open Define

namespace Wcl

-- The buffer that a client connects to send, and where it is once that is sent
def Client.buf : Client → Buf
  | wcl    => .wtxBuf
  | credit => .crBuf

def Client.sent : Client → Pt
  | wcl    => .headerSent
  | credit => .awaiting

-- The thread holds a pcb.
@[simp] def Pt.Holds : Pt → Prop
  | start | yielded => False
  | _               => True

-- What a thread puts together before it connects: the text of the message in `infobip`, and its
-- header or its request.
structure Built (s : State) (c : Client) (s₁ : State) (text : Bytes) (o : List Obs) : Prop where
  document : document s.dev s.dev.infobip.gsmEnable = some text
  infobip  : (s₁.buf .infobip).bytes = encoded text
  header   : c = .wcl → (s₁.buf .wtxBuf).bytes = (postHeader (encoded text).length).flatten
  other    : ∃ rBuf xmlBuf infobip buf infobiplen, s₁ = { s with
    dev := s.dev.setRBuf rBuf, xmlBuf, infobiplen,
    buf := Function.update (Function.update s.buf .infobip infobip) c.buf buf }
  obs      : o = [.xml c s.dev text,
    .rebuilt .infobip (s.inFlight .infobip) (s.buf .infobip ≠ s₁.buf .infobip),
    .rebuilt c.buf (s.inFlight c.buf) (s.buf c.buf ≠ s₁.buf c.buf)]

-- Everything that a resumption of a thread can do
inductive Resumed (s : State) : Client → State → List Obs → Prop
  | stay    : Resumed s c s []
  | yield   : s.pt c = .start → Resumed s c (s.goto c .yielded) []
  | build   : s.pt c = .yielded → Built s c s₁ text o →
    Resumed s c (connect s₁ c allocated).1 (o ++ (connect s₁ c allocated).2)
  | request : s.pt c = .connecting → Resumed s c
    ((write (s.setGsm c .waiting) c c.buf accepted).1.goto c c.sent)
    (write (s.setGsm c .waiting) c c.buf accepted).2
  | body    : s.pt .wcl = .headerSent → Resumed s .wcl
    ((write s .wcl .infobip accepted).1.goto .wcl .awaiting) (write s .wcl .infobip accepted).2
  | last    : s.pt .wcl = .headerSent → Resumed s .wcl
    (close ((write s .wcl .infobip accepted).1.goto .wcl .awaiting) .wcl).1
    ((write s .wcl .infobip accepted).2 ++
      (close ((write s .wcl .infobip accepted).1.goto .wcl .awaiting) .wcl).2)
  | close   : (s.pt c).Holds → Resumed s c (close s c).1 (close s c).2

variable {s s₁ : State} {c : Client} {o : List Obs}

theorem setHeader_built (hc : Crated s s₁ text) (h : setHeader s₁ = some (s₂, o)) :
    Built s .wcl s₂ text ([Obs.xml .wcl s.dev text,
      .rebuilt .infobip (s.inFlight .infobip) (s.buf .infobip ≠ s₁.buf .infobip)] ++ o) := by
  simp only [setHeader, Option.bind_eq_bind, Option.bind_eq_some_iff] at h
  have ⟨x, hx, x₁, hx₁, w, hw, h⟩ := h
  cases h
  have ⟨rBuf, xmlBuf, infobip, infobiplen, hs⟩ := hc.other
  have hb : w.bytes = (postHeader (encoded text).length).flatten := by
    rw [CString.strcpy_bytes hw, CString.strcats_bytes hx₁, CString.strcpy_bytes hx, hc.infobiplen]
    rfl
  refine ⟨hc.document, ?_, fun _ => by simpa [State.setBuf] using hb, ?_, ?_⟩
  · simpa [State.setBuf] using hc.infobip
  · subst hs
    exact ⟨rBuf, x₁, infobip, w, infobiplen, rfl⟩
  · subst hs
    simp [Client.buf]
    rfl

theorem setRequest_built (hc : Crated s s₁ text) (h : setRequest s₁ tbuf = some (s₂, o)) :
    Built s .credit s₂ text ([Obs.xml .credit s.dev text,
      .rebuilt .infobip (s.inFlight .infobip) (s.buf .infobip ≠ s₁.buf .infobip)] ++ o) := by
  simp only [setRequest, Option.bind_eq_bind, Option.bind_eq_some_iff] at h
  have ⟨x, _, d₁, hd₁, _, _, _, _, _, _, _, _, d₂, hd₂, _, _, _, _, w, _, h⟩ := h
  cases h
  have ⟨rBuf, xmlBuf, infobip, infobiplen, hs⟩ := hc.other
  have ⟨r₁, e₁, _⟩ := Wapp.eeRead_bytes hd₁
  have ⟨r₂, e₂, _⟩ := Wapp.eeRead_bytes hd₂
  subst e₁ e₂ hs
  refine ⟨hc.document, ?_, nofun, ⟨r₂, x, infobip, w, infobiplen, rfl⟩, ?_⟩
  · simpa [State.setBuf] using hc.infobip
  · simp [Client.buf]
    rfl

theorem awaitAnswer_cases (h : awaitAnswer s c expired = (s₁, o)) :
    (s₁ = s ∧ o = []) ∨ (s₁ = (close s c).1 ∧ o = (close s c).2) := by
  simp only [awaitAnswer] at h
  split at h
  case isTrue => exact .inr <| h ▸ ⟨rfl, rfl⟩
  case isFalse => exact .inl <| by cases h; exact ⟨rfl, rfl⟩

theorem ptWCL_resumed (h : ptWCL s a = some (s₁, o)) : Resumed s .wcl s₁ o := by
  unfold ptWCL at h
  split at h
  case h_1 hp =>
    cases h
    exact .yield hp
  case h_2 hp =>
    simp only [Option.bind_eq_bind, Option.bind_eq_some_iff] at h
    have ⟨⟨s₂, o₁⟩, hx, ⟨s₃, o₂⟩, hh, h⟩ := h
    have ⟨text, hc, ho⟩ := crateInfobipXMLString_crated hx
    cases h
    subst ho
    exact .build hp <| setHeader_built hc hh
  case h_3 hp =>
    split_ifs at h <;> cases h
    · exact .close <| by simp [hp]
    · exact .request hp
    · exact .stay
  case h_4 hp =>
    split_ifs at h
    · cases ha : awaitAnswer ((write s .wcl .infobip a.accepted).1.goto .wcl .awaiting) .wcl false
      simp only [ha, Option.some.injEq, Prod.mk.injEq] at h
      have ⟨hs, ho⟩ := h
      subst hs ho
      cases awaitAnswer_cases ha
      case inl ha =>
        have ⟨hs, ho⟩ := ha
        subst hs ho
        rw [List.append_nil]
        exact .body hp
      case inr ha =>
        have ⟨hs, ho⟩ := ha
        subst hs ho
        exact .last hp
    · cases h
      exact .stay
  case h_5 hp =>
    cases ha : awaitAnswer s .wcl a.expired
    rw [ha] at h
    cases h
    obtain ⟨hs, ho⟩ | ⟨hs, ho⟩ := awaitAnswer_cases ha <;> subst hs ho
    · exact .stay
    · exact .close <| by simp [hp]

theorem ptWCLcredit_resumed (h : ptWCLcredit s a = some (s₁, o)) : Resumed s .credit s₁ o := by
  unfold ptWCLcredit at h
  split at h
  case h_1 hp =>
    cases h
    exact .yield hp
  case h_2 hp =>
    simp only [Option.bind_eq_bind, Option.bind_eq_some_iff] at h
    have ⟨⟨s₂, o₁⟩, hx, ⟨s₃, o₂⟩, hr, h⟩ := h
    have ⟨text, hc, ho⟩ := crateInfobipXMLString_crated hx
    cases h
    subst ho
    exact .build hp <| setRequest_built hc hr
  case h_3 hp =>
    split_ifs at h <;> cases h
    · exact .close <| by simp [hp]
    · exact .request hp
    · exact .stay
  case h_4 hs hy hc =>
    cases ha : awaitAnswer s .credit a.expired
    rw [ha] at h
    cases h
    obtain ⟨hs, ho⟩ | ⟨hs, ho⟩ := awaitAnswer_cases ha <;> subst hs ho
    · exact .stay
    · exact .close <| by cases hp : s.pt .credit <;> simp_all

theorem resume_resumed (h : resume s c a = some (s₁, o)) : Resumed s c s₁ o := by
  unfold resume at h
  split_ifs at h
  · cases c with
    | wcl => exact ptWCL_resumed h
    | credit => exact ptWCLcredit_resumed h
  · cases h
    exact .stay

theorem callback_cases (h : callback s c g = some (s₁, o)) :
    s₁ = s.setGsm c g ∧ o = [] ∧ (s.pt c).Holds := by
  simp only [callback] at h
  split at h
  case h_4 hs hy _ pcb _ =>
    split_ifs at h
    cases h
    exact ⟨rfl, rfl, by cases hp : s.pt c <;> simp_all⟩
  all_goals cases h

-- The observations of messages on their way to the two channels
def Obs.Message : Obs → Prop
  | alarm _ _ _ _ | sms _ | testWApp _ _ _ => True
  | _                                      => False

-- What only the threads of the clients and lwIP change
structure Apart (s s₁ : State) (o : List Obs) : Prop where
  buf  : s₁.buf = s.buf
  pt   : s₁.pt = s.pt
  pcb  : s₁.pcb = s.pcb
  next : s₁.next = s.next
  live : s₁.live = s.live
  obs  : ∀ x ∈ o, x.Message

-- A step resumes a thread, or lwIP frees a pcb, or it is apart from the connections.
theorem step_cases (h : step s e = some (s₁, o)) :
    (∃ c a, e = .resume c a ∧ resume s c a = some (s₁, o)) ∨
    (∃ pcb, e = .freed pcb ∧ free s pcb = some (s₁, o)) ∨ Apart s s₁ o := by
  cases e with
  | resume c a => exact .inl ⟨c, a, rfl, h⟩
  | freed pcb => exact .inr <| .inl ⟨pcb, rfl, h⟩
  | slot slot =>
    simp only [step, Sms.slot, Option.bind_eq_bind, Option.bind_eq_some_iff] at h
    have ⟨_, _, h⟩ := h
    cases h
    refine .inr <| .inr ⟨rfl, rfl, rfl, rfl, rfl, ?_⟩
    split <;> simp [Obs.Message]
  | testSms n =>
    simp only [step, Sms.test, Option.bind_eq_bind, Option.bind_eq_some_iff] at h
    have ⟨_, _, h⟩ := h
    cases h
    exact .inr <| .inr ⟨rfl, rfl, rfl, rfl, rfl, by simp [Obs.Message]⟩
  | smsStatus =>
    simp only [step, Sms.status, Option.bind_eq_bind, Option.bind_eq_some_iff] at h
    have ⟨_, _, _, _, _, _, h⟩ := h
    cases h
    exact .inr <| .inr ⟨rfl, rfl, rfl, rfl, rfl, by simp [Obs.Message]⟩
  | testWApp n =>
    simp only [step, Option.bind_eq_bind, Option.bind_eq_some_iff] at h
    have ⟨_, _, h⟩ := h
    cases h
    exact .inr <| .inr ⟨rfl, rfl, rfl, rfl, rfl, by simp [Obs.Message]⟩
  | poll a =>
    simp only [step, Option.bind_eq_bind, Option.bind_eq_some_iff] at h
    have ⟨_, _, h⟩ := h
    cases h
    exact .inr <| .inr ⟨rfl, rfl, rfl, rfl, rfl, by simp⟩
  | connected c | answer c =>
    have ⟨hs, ho, _⟩ := callback_cases h
    subst hs ho
    exact .inr <| .inr ⟨rfl, rfl, rfl, rfl, rfl, by simp⟩
  | _ =>
    cases h
    exact .inr <| .inr ⟨rfl, rfl, rfl, rfl, rfl, by simp⟩

-- An SMS is sent and answered, and the pcb is freed in the end.
def sentMessage : List Event :=
  let resume (expired : Bool) := Event.resume .wcl ⟨expired, true, true, []⟩
  [.testSms 4, resume false, resume false, .connected .wcl, resume false, resume true, .answer .wcl,
    resume false, .freed 0]

end Wcl
