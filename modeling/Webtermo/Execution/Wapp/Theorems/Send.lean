import Webtermo.Execution.Wapp.Step

open Define

namespace Wapp

-- The text is there and fits with its NUL into an array of `cap` bytes.
def Fits (cap : Nat) (text : Option Bytes) : Prop :=
  ∃ t, text = some t ∧ t.length < cap

instance : Decidable (Fits cap text) :=
  match text with
  | none   => isFalse (by simp [Fits])
  | some t => if h : t.length < cap then isTrue ⟨t, rfl, h⟩ else isFalse (by simpa [Fits] using h)

theorem strcats_spec {b : Buffer cap} (hb : b.text 0 = some t) (hs : ∀ x ∈ ts, 0 ∉ x)
    (hl : (t ++ ts.flatten).length < cap) :
    ∃ b₁, strcats b ts = some b₁ ∧ b₁.text 0 = some (t ++ ts.flatten) := by
  induction ts generalizing b t with
  | nil => exact ⟨b, rfl, by simpa using hb⟩
  | cons x ts ih =>
    have hl' : ((t ++ x) ++ ts.flatten).length < cap := by simpa using hl
    have ⟨b₁, h₁, ht₁⟩ := Buffer.strcat_spec hb (hs x (by simp)) (by simp at hl'; omega)
    have ⟨b₂, h₂, ht₂⟩ := ih ht₁ (fun y hy => hs y (by simp [hy])) hl'
    exact ⟨b₂, by simpa [strcats, h₁] using h₂, by simpa using ht₂⟩

theorem strcats_text {b b₁ : Buffer n} (h : strcats b ts = some b₁) (hb : b.text 0 = some x)
    (hs : ∀ y ∈ ts, 0 ∉ y) : b₁.text 0 = some (x ++ ts.flatten) := by
  induction ts generalizing b x with
  | nil =>
    cases h
    simpa using hb
  | cons y ts ih =>
    simp only [strcats, List.foldlM_cons, Option.bind_eq_bind, Option.bind_eq_some_iff] at h
    have ⟨b₂, h₂, h⟩ := h
    have h₂ := Buffer.strcat_text (hs y (by simp)) hb h₂
    simpa using ih h h₂ fun z hz => hs z (by simp [hz])

theorem eeRead_bytes {w w₁ : State} (h : eeRead w addr n = some w₁) : ∃ rBuf, w₁ = w.setRBuf rBuf ∧
    rBuf.bytes = w.eeprom.read addr n ++ w.rBuf.bytes.drop n := by
  simp only [eeRead, Option.map_eq_some_iff] at h
  have ⟨rBuf, hr, h⟩ := h
  exact ⟨rBuf, h.symm, by simpa using Buffer.write_bytes hr⟩

theorem eeRead_spec (s : State) (addr n : Nat) (h : n ≤ 1024) :
    ∃ rBuf, eeRead s addr n = some (s.setRBuf rBuf) ∧
      ∀ i < n, rBuf.get i = s.eeprom (addr + i) := by
  have hl : 0 + (s.eeprom.read addr n).length ≤ 1024 := by simpa using h
  have ⟨rBuf, hr⟩ := Buffer.write_eq_some (b := s.rBuf) hl
  refine ⟨rBuf, by simp [eeRead, hr], fun i hi => ?_⟩
  simpa [Memory.read] using Buffer.get_write hr (i := i) (by simpa using hi)

theorem tempToAscii_nul_not_mem (h : tempToAscii t = some a) : 0 ∉ a := by
  simp only [tempToAscii, Option.bind_eq_bind, Option.bind_eq_some_iff] at h
  have ⟨_, _, h⟩ := h
  exact cstr_nul_not_mem h

theorem SendWApp.alarmLines_nul_not_mem (h : alarmLines type t = some ls) : ∀ l ∈ ls, 0 ∉ l := by
  simp only [alarmLines, Option.bind_eq_bind] at h
  split at h
  case isTrue =>
    simp only [Option.bind_eq_some_iff, Option.some.injEq] at h
    have ⟨a, ha, h⟩ := h
    have := tempToAscii_nul_not_mem ha
    simpa [← h, this] using by decide
  case isFalse =>
    split at h
    case isTrue =>
      simp only [Option.bind_eq_some_iff, Option.some.injEq] at h
      have ⟨a, ha, h⟩ := h
      have := tempToAscii_nul_not_mem ha
      simpa [← h, this] using by decide
    case isFalse =>
      have h : ls = [] := by simpa using h.symm
      simp [h]

-- What the expiry of a delay leaves for `ptWapp`, and all that it leaves alone
structure Armed (s s₁ : State) (flags : Fin 5 → Bool) (text : Bytes) : Prop where
  msg      : s₁.wapp.msg.text 0 = some text
  enable   : s₁.wapp.enable = flags
  wAppflag : s₁.wAppflag = (List.finRange 5).any (flags ·)
  ptWapp   : s₁.ptWapp = s.ptWapp
  status   : s₁.wAppStatus = s.wAppStatus
  requests : s₁.requests = s.requests

namespace SendWApp

-- The text that `SendWApp` puts together
def text (s : State) (sen : Fin 8) : Option Bytes := do
  let s₁     ← eeRead s eeObjectName 64
  let objekt ← s₁.rBuf.text 0
  let s₂     ← eeRead s₁ ((sen + 1) * 0x100) 256
  let senzor ← s₂.rBuf.text eeSensorName
  let lines  ← alarmLines (alarmType (s.temp sen) (s.senzor sen)) (s.temp sen)
  some (objekt ++ ascii "\n" ++ senzor ++ ascii "\n" ++ lines.flatten)

end SendWApp

-- The recipients that the EEPROM flags for a sensor or for the inputs
def Slot.flags (s : State) : Slot → Fin 5 → Bool
  | sen cnt, n => s.eeprom ((cnt + 1) * 0x100 + (eeWapp1On + n)) ≠ 0
  | inp _,   n => s.eeprom (eeInputWapp1 + n) ≠ 0

theorem arm_spec (hm : s.wapp.msg.text 0 = some t) (hf : SendWApp.flags s.rBuf pos = flags) :
    ∃ s₁, SendWApp.arm s pos = (s₁, [.expired (SendWApp.flagged flags) t]) ∧
      Armed s s₁ flags t := by
  refine ⟨(SendWApp.arm s pos).1, ?_, ?_⟩
  case refine_1 => simp [SendWApp.arm, hf, hm]
  case refine_2 => constructor <;> simp [SendWApp.arm, hf, hm]

open SendWApp in
theorem sendWApp_spec (ht : text s sen = some t) (hl : t.length < 128) :
    ∃ s₁, sendWApp s sen = some (s₁, [.expired (flagged <| Slot.flags s (.sen sen)) t]) ∧
      Armed s s₁ (Slot.flags s (.sen sen)) t := by
  have ⟨rBuf₁, hr₁, _⟩ := eeRead_spec s eeObjectName 64 (by decide)
  have ⟨rBuf₂, hr₂, hf⟩ := eeRead_spec (s.setRBuf rBuf₁) ((sen + 1) * 0x100) 256 (by decide)
  simp only [text, hr₁, hr₂, Option.bind_eq_bind, Option.bind_some, Option.bind_eq_some_iff,
    Option.some.injEq, State.setRBuf_rBuf] at ht
  have ⟨objekt, ho, senzor, hn, lines, hls, ht⟩ := ht
  have hl' := ht ▸ hl
  simp only [List.length_append] at hl'
  have ⟨msg₁, h₁, t₁⟩ := Buffer.strcpy_spec (b := s.wapp.msg) (Buffer.text_nul_not_mem ho) (by omega)
  have ⟨msg₂, h₂, t₂⟩ := Buffer.strcat_spec t₁ (s := ascii "\n") (by decide) (by omega)
  have ⟨msg₃, h₃, t₃⟩ := Buffer.strcat_spec t₂ (Buffer.text_nul_not_mem hn)
    (by simp only [List.length_append]; omega)
  have ⟨msg₄, h₄, t₄⟩ := Buffer.strcat_spec t₃ (s := ascii "\n") (by decide)
    (by simp only [List.length_append]; omega)
  have ⟨msg₅, h₅, t₅⟩ := strcats_spec t₄ (alarmLines_nul_not_mem hls)
    (by simp only [List.length_append]; omega)
  have t₅ := ht ▸ t₅
  have hf : flags rBuf₂ eeWapp1On = Slot.flags s (.sen sen) := by
    funext n
    have := hf (eeWapp1On + n) (by simp only [eeWapp1On]; omega)
    simp [flags, Slot.flags, this]
  have ⟨s₁, ha, armed⟩ := arm_spec (s := ((s.setRBuf rBuf₁).setRBuf rBuf₂).setMsg msg₅) t₅ hf
  refine ⟨s₁, ?_, { armed with }⟩
  simp [sendWApp, hr₁, hr₂, ho, hn, hls, h₁, h₂, h₃, h₄, h₅, ha]

namespace SendWAppInput

-- The text that `SendWAppInput` puts together
def text (s : State) (inp : Fin 3) : Option Bytes := do
  let s₁     ← eeRead s eeObjectName 64
  let objekt ← s₁.rBuf.text 0
  let s₂     ← eeRead s₁ (eeInputName1 + inp * 0x20) 30
  let ulaz   ← s₂.rBuf.text 0
  some (objekt ++ ascii "\n" ++ ulaz ++ ascii "\n" ++ ascii " ALARM  \r")

end SendWAppInput

open SendWApp in
theorem sendWAppInput_spec (ht : SendWAppInput.text s inp = some t) (hl : t.length < 128) :
    ∃ s₁, sendWAppInput s inp = some (s₁, [.expired (flagged <| Slot.flags s (.inp inp)) t]) ∧
      Armed s s₁ (Slot.flags s (.inp inp)) t := by
  have ⟨rBuf₁, hr₁, _⟩ := eeRead_spec s eeObjectName 64 (by decide)
  have ⟨rBuf₂, hr₂, _⟩ := eeRead_spec (s.setRBuf rBuf₁) (eeInputName1 + inp * 0x20) 30 (by decide)
  have ⟨rBuf₃, hr₃, hf⟩ :=
    eeRead_spec ((s.setRBuf rBuf₁).setRBuf rBuf₂) eeInputWapp1 5 (by decide)
  simp only [SendWAppInput.text, hr₁, hr₂, Option.bind_eq_bind, Option.bind_some,
    Option.bind_eq_some_iff, Option.some.injEq, State.setRBuf_rBuf] at ht
  have ⟨objekt, ho, ulaz, hn, ht⟩ := ht
  have hl' := ht ▸ hl
  simp only [List.length_append] at hl'
  have ⟨msg₁, h₁, t₁⟩ := Buffer.strcpy_spec (b := s.wapp.msg) (Buffer.text_nul_not_mem ho) (by omega)
  have ⟨msg₂, h₂, t₂⟩ := Buffer.strcat_spec t₁ (s := ascii "\n") (by decide) (by omega)
  have ⟨msg₃, h₃, t₃⟩ := Buffer.strcat_spec t₂ (Buffer.text_nul_not_mem hn)
    (by simp only [List.length_append]; omega)
  have ⟨msg₄, h₄, t₄⟩ := Buffer.strcat_spec t₃ (s := ascii "\n") (by decide)
    (by simp only [List.length_append]; omega)
  have ⟨msg₅, h₅, t₅⟩ := Buffer.strcat_spec t₄ (s := ascii " ALARM  \r") (by decide)
    (by simp only [List.length_append]; omega)
  have t₅ := ht ▸ t₅
  have hf : flags rBuf₃ 0 = Slot.flags s (.inp inp) := by
    funext n
    simp [flags, Slot.flags, hf n (by omega)]
  have ⟨s₁, ha, armed⟩ :=
    arm_spec (s := (((s.setRBuf rBuf₁).setRBuf rBuf₂).setRBuf rBuf₃).setMsg msg₅) t₅ hf
  refine ⟨s₁, ?_, { armed with }⟩
  simp [sendWAppInput, hr₁, hr₂, hr₃, ho, hn, h₁, h₂, h₃, h₄, h₅, ha]

-- What the SMS client does not share with the WhatsApp channel
structure Aside (s s₁ : State) : Prop where
  wapp     : s₁.wapp = s.wapp
  wAppflag : s₁.wAppflag = s.wAppflag
  ptWapp   : s₁.ptWapp = s.ptWapp
  status   : s₁.wAppStatus = s.wAppStatus
  requests : s₁.requests = s.requests

theorem Armed.aside (a : Armed s s₁ flags text) (b : Aside s₁ s₂) : Armed s s₂ flags text where
  msg      := b.wapp ▸ a.msg
  enable   := b.wapp ▸ a.enable
  wAppflag := b.wAppflag ▸ a.wAppflag
  ptWapp   := b.ptWapp ▸ a.ptWapp
  status   := b.status ▸ a.status
  requests := b.requests ▸ a.requests

theorem sendInfobip_aside {s : State} :
    Aside s (sendInfobip (((s.setRBuf b₁).setPoruka p).setRBuf b₂) sms) := by
  constructor <;> rfl

theorem SendSMS.alarmLines_nul_not_mem (h : alarmLines type t = some ls) : ∀ l ∈ ls, 0 ∉ l := by
  unfold alarmLines at h
  split at h
  case isTrue =>
    simp only [Option.bind_eq_bind, Option.bind_eq_some_iff, Option.some.injEq] at h
    have ⟨a, ha, h⟩ := h
    have := tempToAscii_nul_not_mem ha
    simpa [← h, this] using by decide
  case isFalse =>
    split at h
    case isTrue =>
      simp only [Option.bind_eq_bind, Option.bind_eq_some_iff, Option.some.injEq] at h
      have ⟨a, ha, h⟩ := h
      have := tempToAscii_nul_not_mem ha
      simpa [← h, this] using by decide
    case isFalse =>
      split at h <;> simp only [Option.some.injEq] at h <;> simp [← h]
      decide

namespace SendSMS

-- The texts that `SendSMS` puts together
def text (s : State) (sen : Fin 8) : Option Bytes := do
  let s₁    ← eeRead s (0x100 * (sen + 1) + eeSensorName) 16
  let ime   ← s₁.rBuf.text 0
  let lines ← alarmLines (alarmType (s.temp sen) (limits s sen)) (s.temp sen)
  some (ime ++ ascii "\r\n" ++ lines.flatten)

def textInput (s : State) (inp : Fin 3) : Option Bytes := do
  let s₁  ← eeRead s (eeInputName1 + inp * 0x20) 30
  let ime ← s₁.rBuf.text 0
  some (ime ++ [ascii "\r\n", ascii " ALARM ", ascii "\r\n"].flatten)

end SendSMS

open SendSMS in
theorem sendSMS_spec (h : Fits 160 (text s sen)) : ∃ s₁, sendSMS s sen = some s₁ ∧ Aside s s₁ := by
  have ⟨t, ht, hl⟩ := h
  have ⟨rBuf₁, hr₁, _⟩ := eeRead_spec s (0x100 * (sen + 1) + eeSensorName) 16 (by decide)
  have hm : limits (s.setRBuf rBuf₁) sen = limits s sen := rfl
  simp only [text, hr₁, Option.bind_eq_bind, Option.bind_some, Option.bind_eq_some_iff,
    Option.some.injEq, State.setRBuf_rBuf] at ht
  have ⟨ime, hn, lines, hls, ht⟩ := ht
  have hl' := ht ▸ hl
  simp only [List.length_append] at hl'
  have ⟨p₁, h₁, t₁⟩ := Buffer.strcpy_spec (b := s.infobip.poruka) (Buffer.text_nul_not_mem hn)
    (by omega)
  have ⟨p₂, h₂, t₂⟩ := Buffer.strcat_spec t₁ (s := ascii "\r\n") (by decide) (by omega)
  have ⟨p₃, h₃, _⟩ := strcats_spec t₂ (alarmLines_nul_not_mem hls)
    (by simp only [List.length_append]; omega)
  have ⟨rBuf₂, hr₂, _⟩ :=
    eeRead_spec ((s.setRBuf rBuf₁).setPoruka p₃) (0x100 * (sen + 1) + eeSms1) 5 (by decide)
  let s₂ := ((s.setRBuf rBuf₁).setPoruka p₃).setRBuf rBuf₂
  refine ⟨sendInfobip s₂ (SendWApp.flags rBuf₂ 0), ?_, sendInfobip_aside⟩
  simp [s₂, sendSMS, hr₁, hr₂, hm, hn, hls, h₁, h₂, h₃]

open SendSMS in
theorem sendSMSInput_spec (h : Fits 160 (textInput s inp)) :
    ∃ s₁, sendSMSInput s inp = some s₁ ∧ Aside s s₁ := by
  have ⟨t, ht, hl⟩ := h
  have ⟨rBuf₁, hr₁, _⟩ := eeRead_spec s (eeInputName1 + inp * 0x20) 30 (by decide)
  simp only [textInput, hr₁, Option.bind_eq_bind, Option.bind_some, Option.bind_eq_some_iff,
    Option.some.injEq, State.setRBuf_rBuf] at ht
  have ⟨ime, hn, ht⟩ := ht
  have hl' := ht ▸ hl
  simp only [List.length_append] at hl'
  have ⟨p₁, h₁, t₁⟩ := Buffer.strcpy_spec (b := s.infobip.poruka) (Buffer.text_nul_not_mem hn)
    (by omega)
  have ⟨p₂, h₂, _⟩ := strcats_spec t₁ (by decide : ∀ x ∈ [ascii "\r\n", ascii " ALARM ", ascii "\r\n"], 0 ∉ x)
    (by simp only [List.length_append]; omega)
  have ⟨rBuf₂, hr₂, _⟩ := eeRead_spec ((s.setRBuf rBuf₁).setPoruka p₂) eeInputSms1 5 (by decide)
  let s₂ := ((s.setRBuf rBuf₁).setPoruka p₂).setRBuf rBuf₂
  refine ⟨sendInfobip s₂ (SendWApp.flags rBuf₂ 0), ?_, sendInfobip_aside⟩
  simp [s₂, sendSMSInput, hr₁, hr₂, hn, h₁, h₂]

-- What `send_whatsapp_message` changes is the `URL` and, unless the client refuses, the requests.
structure Sent (s s₁ : State) (accepted : Bool) : Prop where
  env      : s₁.toEnv = s.toEnv
  wapp     : s₁.wapp = s.wapp
  wAppflag : s₁.wAppflag = s.wAppflag
  status   : s₁.wAppStatus = s.wAppStatus
  requests : ∃ num url,
    s₁.requests = s.requests ++ if accepted then [⟨num, url, false⟩] else []

theorem sendWhatsappMessage_sent (h : sendWhatsappMessage s n m a = some s₁) : Sent s s₁ a := by
  simp only [sendWhatsappMessage, Option.bind_eq_bind, Option.bind_eq_some_iff,
    Option.some.injEq] at h
  have ⟨text, _, _, _, h⟩ := h
  exact h ▸ ⟨rfl, rfl, rfl, rfl, n, text, rfl⟩

theorem sendWhatsappMessage_spec (h : Fits 200 (callmebotUrl s n m)) :
    ∃ s₁, sendWhatsappMessage s n m a = some s₁ ∧ Sent s s₁ a := by
  have ⟨text, ht, hl⟩ := h
  have ⟨url, hu⟩ := Buffer.strcpy_eq_some (b := s.url) hl
  have ⟨s₁, h₁⟩ : ∃ s₁, sendWhatsappMessage s n m a = some s₁ := by
    simp [sendWhatsappMessage, ht, hu]
  exact ⟨s₁, h₁, sendWhatsappMessage_sent h₁⟩

theorem ptWappFrom_busy (h : s.wAppStatus = .busy) :
    ptWappFrom s a rest = some (s.before rest, []) := by
  cases rest <;> simp [ptWappFrom, h]

end Wapp
