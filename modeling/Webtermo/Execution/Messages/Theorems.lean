import Webtermo.Execution.Config.Theorems.Coherence
import Webtermo.Execution.Messages.Fits
import Webtermo.Execution.Wapp.Theorems.Send

open Define

namespace Messages

open Wapp (State Fits alarmType eeRead strcats)

variable {s s₁ : State} {sen : Fin 8} {inp : Fin 3} {m : Memory} {r : Bytes} {t : ℚ}

theorem load_load (h : k ≤ n) : load m a n (load m b k r) = load m a n r := by
  rw [load, load, load, List.drop_append, List.drop_of_length_le (by simpa using h), List.nil_append,
    Memory.read_length, List.drop_drop, Nat.add_sub_cancel' h]

theorem eeRead_load (s : State) (addr n : Nat) (h : n ≤ 1024) : ∃ rBuf, eeRead s addr n = some (s.setRBuf rBuf) ∧
    rBuf.bytes = load s.eeprom addr n s.rBuf.bytes := by
  obtain ⟨rBuf, hr, _⟩ := Wapp.eeRead_spec s addr n h
  obtain ⟨rBuf₁, he, hb⟩ := Wapp.eeRead_bytes hr
  have : rBuf = rBuf₁ := congrArg (·.rBuf) he
  exact ⟨rBuf, hr, this ▸ hb⟩

section Texts

theorem wapp_text : Wapp.SendWApp.text s sen = (do
    let o ← objekt s
    let n ← senzor s sen
    let ls ← Wapp.SendWApp.alarmLines (alarmType (s.temp sen) (s.senzor sen)) (s.temp sen)
    some (o ++ ascii "\n" ++ n ++ ascii "\n" ++ ls.flatten)) := by
  obtain ⟨rBuf₁, h₁, b₁⟩ := eeRead_load s eeObjectName 64 (by decide)
  obtain ⟨rBuf₂, h₂, b₂⟩ := eeRead_load (s.setRBuf rBuf₁) ((sen + 1) * 0x100) 256 (by decide)
  rw [State.setRBuf_eeprom, State.setRBuf_rBuf, b₁, load_load (by decide)] at b₂
  simp [Wapp.SendWApp.text, h₁, h₂, Buffer.text, b₁, b₂, objekt, senzor]

theorem wappInput_text : Wapp.SendWAppInput.text s inp = (do
    let o ← objekt s
    let n ← ulaz s inp
    some (o ++ ascii "\n" ++ n ++ ascii "\n" ++ ascii " ALARM  \r")) := by
  obtain ⟨rBuf₁, h₁, b₁⟩ := eeRead_load s eeObjectName 64 (by decide)
  obtain ⟨rBuf₂, h₂, b₂⟩ := eeRead_load (s.setRBuf rBuf₁) (eeInputName1 + inp * 0x20) 30
    (by decide)
  rw [State.setRBuf_eeprom, State.setRBuf_rBuf, b₁] at b₂
  simp [Wapp.SendWAppInput.text, h₁, h₂, Buffer.text, b₁, b₂, objekt, ulaz]

theorem sms_text : Wapp.SendSMS.text s sen = (do
    let n ← smsSenzor s sen
    let ls ← Wapp.SendSMS.alarmLines (alarmType (s.temp sen) (Wapp.SendSMS.limits s sen)) (s.temp sen)
    some (n ++ ascii "\r\n" ++ ls.flatten)) := by
  obtain ⟨rBuf₁, h₁, b₁⟩ := eeRead_load s (0x100 * (sen + 1) + eeSensorName) 16 (by decide)
  simp [Wapp.SendSMS.text, h₁, Buffer.text, b₁, smsSenzor]

theorem smsInput_text : Wapp.SendSMS.textInput s inp = (do
    let n ← smsUlaz s inp
    some (n ++ [ascii "\r\n", ascii " ALARM ", ascii "\r\n"].flatten)) := by
  obtain ⟨rBuf₁, h₁, b₁⟩ := eeRead_load s (eeInputName1 + inp * 0x20) 30 (by decide)
  simp [Wapp.SendSMS.textInput, h₁, Buffer.text, b₁, smsUlaz]

end Texts

section Lengths

theorem alarmType_cases (t : ℚ) (sen : Sensor) :
    alarmType t sen = Alarm.hi ∨ alarmType t sen = Alarm.low ∨ alarmType t sen = Alarm.no := by
  unfold alarmType
  split
  case isTrue => exact .inl rfl
  case isFalse =>
    split
    case isTrue => exact .inr <| .inl rfl
    case isFalse => exact .inr <| .inr rfl

theorem tempLength_eq : (tempToAscii t).map List.length = tempLength t := by
  rw [Temperature.tempToAscii_eq, tempLength]
  split <;> rfl

theorem wapp_lines : (Wapp.SendWApp.alarmLines (alarmType t x) t).map (·.flatten.length) =
    lines 30 29 (alarmType t x) t := by
  have hi : (ascii " ALARM VISOKE TEMPERATURE \r").length = 27 := rfl
  have low : (ascii " ALARM NISKE TEMPERATURE \r").length = 26 := rfl
  have c : (ascii " C\n").length = 3 := rfl
  obtain h | h | h := alarmType_cases t x
  all_goals
    rw [h, lines, ← tempLength_eq]
    cases ht : tempToAscii t <;> simp [Wapp.SendWApp.alarmLines, ht, hi, low, c]
  all_goals omega

theorem sms_lines : (Wapp.SendSMS.alarmLines (alarmType t x) t).map (·.flatten.length) =
    lines 30 31 (alarmType t x) t := by
  have hi : (ascii " ALARM VISOKE TEMPERATURE ").length = 26 := rfl
  have low : (ascii " ALARM NISKE TEMPERATURE \r\n").length = 27 := rfl
  have c : (ascii " C\r\n").length = 4 := rfl
  obtain h | h | h := alarmType_cases t x
  all_goals
    rw [h, lines, ← tempLength_eq]
    cases ht : tempToAscii t <;> simp [Wapp.SendSMS.alarmLines, ht, hi, low, c]
  all_goals omega

theorem wapp_fits : Fits 128 (Wapp.SendWApp.text s sen) ↔ WAppRoom s sen := by
  have nl : (ascii "\n").length = 1 := rfl
  simp only [Fits, WAppRoom, wapp_text, ← wapp_lines, Option.bind_eq_bind, Option.bind_eq_some_iff,
    Option.some.injEq, Option.mem_def, Option.map_eq_some_iff]
  constructor
  case mp =>
    rintro ⟨_, ⟨o, ho, n, hn, ls, hl, rfl⟩, h⟩
    simp only [List.length_append, nl] at h
    exact ⟨o, ho, n, hn, _, ⟨ls, hl, rfl⟩, by omega⟩
  case mpr =>
    rintro ⟨o, ho, n, hn, _, ⟨ls, hl, rfl⟩, h⟩
    refine ⟨_, ⟨o, ho, n, hn, ls, hl, rfl⟩, ?_⟩
    simp only [List.length_append, nl]
    omega

theorem wappInput_fits : Fits 128 (Wapp.SendWAppInput.text s inp) ↔ WAppInputRoom s inp := by
  have nl : (ascii "\n").length = 1 := rfl
  have alarm : (ascii " ALARM  \r").length = 9 := rfl
  simp only [Fits, WAppInputRoom, wappInput_text, Option.bind_eq_bind, Option.bind_eq_some_iff,
    Option.some.injEq, Option.mem_def]
  constructor
  case mp =>
    rintro ⟨_, ⟨o, ho, n, hn, rfl⟩, h⟩
    simp only [List.length_append, nl, alarm] at h
    exact ⟨o, ho, n, hn, by omega⟩
  case mpr =>
    rintro ⟨o, ho, n, hn, h⟩
    refine ⟨_, ⟨o, ho, n, hn, rfl⟩, ?_⟩
    simp only [List.length_append, nl, alarm]
    omega

theorem sms_fits : Fits 160 (Wapp.SendSMS.text s sen) ↔ SmsRoom s sen := by
  have nl : (ascii "\r\n").length = 2 := rfl
  simp only [Fits, SmsRoom, sms_text, ← sms_lines, Option.bind_eq_bind, Option.bind_eq_some_iff,
    Option.some.injEq, Option.mem_def, Option.map_eq_some_iff]
  constructor
  case mp =>
    rintro ⟨_, ⟨n, hn, ls, hl, rfl⟩, h⟩
    simp only [List.length_append, nl] at h
    exact ⟨n, hn, _, ⟨ls, hl, rfl⟩, by omega⟩
  case mpr =>
    rintro ⟨n, hn, _, ⟨ls, hl, rfl⟩, h⟩
    refine ⟨_, ⟨n, hn, ls, hl, rfl⟩, ?_⟩
    simp only [List.length_append, nl]
    omega

theorem smsInput_fits : Fits 160 (Wapp.SendSMS.textInput s inp) ↔ SmsInputRoom s inp := by
  have alarm : [ascii "\r\n", ascii " ALARM ", ascii "\r\n"].flatten.length = 11 := rfl
  simp only [Fits, SmsInputRoom, smsInput_text, Option.bind_eq_bind, Option.bind_eq_some_iff,
    Option.some.injEq, Option.mem_def]
  constructor
  case mp =>
    rintro ⟨_, ⟨n, hn, rfl⟩, h⟩
    rw [List.length_append, alarm] at h
    exact ⟨n, hn, h⟩
  case mpr =>
    rintro ⟨n, hn, h⟩
    refine ⟨_, ⟨n, hn, rfl⟩, ?_⟩
    rwa [List.length_append, alarm]

end Lengths

section Built

theorem wapp_built : Built ((Wapp.sendWApp s sen).map (·.1.wapp.msg)) (Wapp.SendWApp.text s sen) ↔
    WAppRoom s sen := by
  rw [← wapp_fits]
  constructor
  case mp =>
    rintro ⟨_, _, t, ht, hb⟩
    exact ⟨t, ht, Buffer.text_length hb⟩
  case mpr =>
    rintro ⟨t, ht, hl⟩
    obtain ⟨s₁, h, armed⟩ := Wapp.sendWApp_spec ht hl
    exact ⟨s₁.wapp.msg, by simp [h], t, ht, armed.msg⟩

theorem wappInput_built : Built ((Wapp.sendWAppInput s inp).map (·.1.wapp.msg))
    (Wapp.SendWAppInput.text s inp) ↔ WAppInputRoom s inp := by
  rw [← wappInput_fits]
  constructor
  case mp =>
    rintro ⟨_, _, t, ht, hb⟩
    exact ⟨t, ht, Buffer.text_length hb⟩
  case mpr =>
    rintro ⟨t, ht, hl⟩
    obtain ⟨s₁, h, armed⟩ := Wapp.sendWAppInput_spec ht hl
    exact ⟨s₁.wapp.msg, by simp [h], t, ht, armed.msg⟩

theorem sms_poruka (h : Wapp.sendSMS s sen = some s₁) (ht : Wapp.SendSMS.text s sen = some x) :
    s₁.infobip.poruka.text 0 = some x := by
  simp only [Wapp.SendSMS.text, Option.bind_eq_bind, Option.bind_eq_some_iff, Option.some.injEq] at ht
  obtain ⟨s₂, hr, n, hn, ls, hls, rfl⟩ := ht
  obtain ⟨rBuf, he, _⟩ := Wapp.eeRead_bytes hr
  have hls₂ : Wapp.SendSMS.alarmLines (alarmType (s₂.temp sen) (Wapp.SendSMS.limits s₂ sen))
      (s₂.temp sen) = some ls := he ▸ hls
  simp only [Wapp.sendSMS, hr, hn, hls₂, Option.bind_eq_bind, Option.bind_some,
    Option.bind_eq_some_iff, Option.some.injEq] at h
  obtain ⟨p₁, h₁, p₂, h₂, p₃, h₃, s₃, hr₃, rfl⟩ := h
  obtain ⟨rBuf₃, rfl, _⟩ := Wapp.eeRead_bytes hr₃
  have t₁ := Buffer.strcpy_text (Buffer.text_nul_not_mem hn) h₁
  have t₂ := Buffer.strcat_text (by decide) t₁ h₂
  exact Wapp.strcats_text h₃ t₂ <| Wapp.SendSMS.alarmLines_nul_not_mem hls

theorem smsInput_poruka (h : Wapp.sendSMSInput s inp = some s₁)
    (ht : Wapp.SendSMS.textInput s inp = some x) : s₁.infobip.poruka.text 0 = some x := by
  simp only [Wapp.SendSMS.textInput, Option.bind_eq_bind, Option.bind_eq_some_iff,
    Option.some.injEq] at ht
  obtain ⟨s₂, hr, n, hn, rfl⟩ := ht
  simp only [Wapp.sendSMSInput, hr, hn, Option.bind_eq_bind, Option.bind_some,
    Option.bind_eq_some_iff, Option.some.injEq] at h
  obtain ⟨p₁, h₁, p₂, h₂, s₃, hr₃, rfl⟩ := h
  obtain ⟨rBuf₃, rfl, _⟩ := Wapp.eeRead_bytes hr₃
  have t₁ := Buffer.strcpy_text (Buffer.text_nul_not_mem hn) h₁
  exact Wapp.strcats_text h₂ t₁ <| by decide

theorem sms_built : Built ((Wapp.sendSMS s sen).map (·.infobip.poruka)) (Wapp.SendSMS.text s sen) ↔
    SmsRoom s sen := by
  rw [← sms_fits]
  constructor
  case mp =>
    rintro ⟨_, _, t, ht, hb⟩
    exact ⟨t, ht, Buffer.text_length hb⟩
  case mpr =>
    intro hf
    obtain ⟨s₁, h, _⟩ := Wapp.sendSMS_spec hf
    obtain ⟨t, ht, _⟩ := hf
    exact ⟨s₁.infobip.poruka, by simp [h], t, ht, sms_poruka h ht⟩

theorem smsInput_built : Built ((Wapp.sendSMSInput s inp).map (·.infobip.poruka))
    (Wapp.SendSMS.textInput s inp) ↔ SmsInputRoom s inp := by
  rw [← smsInput_fits]
  constructor
  case mp =>
    rintro ⟨_, _, t, ht, hb⟩
    exact ⟨t, ht, Buffer.text_length hb⟩
  case mpr =>
    intro hf
    obtain ⟨s₁, h, _⟩ := Wapp.sendSMSInput_spec hf
    obtain ⟨t, ht, _⟩ := hf
    exact ⟨s₁.infobip.poruka, by simp [h], t, ht, smsInput_poruka h ht⟩

end Built

section Status

-- The line of a sensor whose name and temperature fit
def line (s : State) (k : Fin 8) : Bytes :=
  (s.rBuf.text 0x20 |>.getD []).take 8 ++ ascii " " ++ myFtoa (s.temp k) 2 ++ ascii " C\r\n"

def LineFits (s : State) (k : Fin 8) : Prop :=
  (∃ n ∈ s.rBuf.text 0x20, n.length < 32) ∧ Temperature.Fits (s.temp k)

theorem statusLine_eq_some_iff :
    Wcl.Sms.statusLine s k = some x ↔ LineFits s k ∧ x = line s k := by
  simp only [Wcl.Sms.statusLine, Option.bind_eq_bind, Option.bind_eq_some_iff, Option.some.injEq,
    Temperature.tempToAscii_eq, Option.ite_none_right_eq_some]
  constructor
  case mp =>
    rintro ⟨n, hn, b, hb, n₁, hn₁, _, ⟨hf, rfl⟩, rfl⟩
    have h₁ := Buffer.strcpy_text (Buffer.text_nul_not_mem hn) hb
    cases h₁.symm.trans hn₁
    exact ⟨⟨⟨n, hn, Buffer.text_length h₁⟩, hf⟩, by simp [line, hn]⟩
  case mpr =>
    rintro ⟨⟨⟨n, hn, hl⟩, hf⟩, rfl⟩
    obtain ⟨b, hb, ht⟩ := Buffer.strcpy_spec (b := .zero 32) (Buffer.text_nul_not_mem hn) hl
    exact ⟨n, hn, b, hb, n, ht, _, ⟨hf, rfl⟩, by simp [line, Option.mem_def.mp hn]⟩

theorem mapM_eq_some_iff {f : α → Option β} {g : α → β} {P : α → Prop} {l : List α}
    (h : ∀ k x, f k = some x ↔ P k ∧ x = g k) :
    l.mapM f = some ys ↔ (∀ k ∈ l, P k) ∧ ys = l.map g := by
  induction l generalizing ys with
  | nil => simp [eq_comm]
  | cons k l ih =>
    simp only [List.mapM_cons, Option.bind_eq_bind, Option.bind_eq_some_iff, Option.pure_def,
      Option.some.injEq, h, ih, List.forall_mem_cons, List.map_cons]
    constructor
    case mp =>
      rintro ⟨_, ⟨hk, rfl⟩, _, ⟨hl, rfl⟩, rfl⟩
      exact ⟨⟨hk, hl⟩, rfl⟩
    case mpr =>
      rintro ⟨⟨hk, hl⟩, rfl⟩
      exact ⟨_, ⟨hk, rfl⟩, _, ⟨hl, rfl⟩, rfl⟩

theorem statusText_eq_some_iff : statusText s = some x ↔
    (∀ k ∈ enabled s, LineFits s k) ∧ x = ((enabled s).map (line s)).flatten := by
  simp only [statusText, Option.map_eq_some_iff, mapM_eq_some_iff fun _ _ => statusLine_eq_some_iff]
  constructor
  case mp =>
    rintro ⟨_, ⟨h, rfl⟩, rfl⟩
    exact ⟨h, rfl⟩
  case mpr =>
    rintro ⟨h, rfl⟩
    exact ⟨_, ⟨h, rfl⟩, rfl⟩

theorem line_length {l : List (Fin 8)} (hn : s.rBuf.text 0x20 = some n) :
    ((l.map (line s)).flatten).length = (l.map fun k => min 8 n.length + (myFtoa (s.temp k) 2).length + 5).sum := by
  have c : (ascii " C\r\n").length = 4 := rfl
  have sp : (ascii " ").length = 1 := rfl
  induction l with
  | nil => rfl
  | cons k l ih =>
    simp only [List.map_cons, List.flatten_cons, List.length_append, ih, List.sum_cons, line, hn,
      Option.getD_some, List.length_take, c, sp]
    omega

theorem line_nul_not_mem (h : LineFits s k) : 0 ∉ line s k := by
  obtain ⟨⟨n, hn, _⟩, _⟩ := h
  have name : 0 ∉ n.take 8 := fun h => Buffer.text_nul_not_mem hn <| List.mem_of_mem_take h
  have temp : 0 ∉ myFtoa (s.temp k) 2 := fun h => absurd (Temperature.mem_myFtoa h) (by decide)
  have sp : 0 ∉ ascii " " := by decide
  have c : 0 ∉ ascii " C\r\n" := by decide
  simp [line, Option.mem_def.mp hn, name, temp, sp, c]

theorem status_fits : Fits 160 (statusText s) ↔ StatusRoom s := by
  simp only [Fits, statusText_eq_some_iff, StatusRoom]
  constructor
  case mp =>
    rintro ⟨_, ⟨h, rfl⟩, hl⟩ he
    obtain ⟨k, hk⟩ := List.exists_mem_of_ne_nil _ he
    obtain ⟨n, hn, h₃⟩ := (h k hk).1
    exact ⟨n, hn, h₃, fun k hk => (h k hk).2, line_length hn ▸ hl⟩
  case mpr =>
    intro h
    by_cases he : enabled s = []
    case pos => exact ⟨_, ⟨by simp [he], rfl⟩, by simp [he]⟩
    case neg =>
      obtain ⟨n, hn, h₃, hf, hl⟩ := h he
      exact ⟨_, ⟨fun k hk => ⟨⟨n, hn, h₃⟩, hf k hk⟩, rfl⟩, line_length hn ▸ hl⟩

theorem status_built {w : Wcl.State} : Built ((Wcl.Sms.status w).map (·.1.dev.infobip.poruka))
    (statusText w.dev) ↔ StatusRoom w.dev := by
  rw [← status_fits]
  constructor
  case mp =>
    rintro ⟨_, _, t, ht, hb⟩
    exact ⟨t, ht, Buffer.text_length hb⟩
  case mpr =>
    rintro ⟨t, ht, hl⟩
    have ⟨hf, hx⟩ := statusText_eq_some_iff.mp ht
    have hm := mapM_eq_some_iff (fun _ _ => statusLine_eq_some_iff) |>.mpr ⟨hf, rfl⟩
    have nul : ∀ x ∈ (enabled w.dev).map (line w.dev), 0 ∉ x := by
      intro x hx
      obtain ⟨k, hk, rfl⟩ := List.mem_map.mp hx
      exact line_nul_not_mem <| hf k hk
    obtain ⟨p, hp, t₁⟩ := Buffer.strcpy_spec (b := w.dev.infobip.poruka) (s := [])
      List.not_mem_nil (by decide)
    obtain ⟨p₁, hp₁, t₂⟩ := Wapp.strcats_spec t₁ nul <| by rwa [List.nil_append, ← hx]
    refine ⟨p₁, ?_, t, ht, by rw [t₂, hx, List.nil_append]⟩
    rw [enabled] at hm hp₁
    simp only [Wcl.Sms.status, Option.bind_eq_bind, hp, hm, hp₁, Option.bind_some, Option.map_some,
      Option.mem_def]
    rfl

end Status

section Url

theorem digits : Percent.Digits Wapp.UrlEncode.hex :=
  .of_nibbles <| by decide

theorem unreserved_of_plain : ∀ c, Wapp.UrlEncode.plain c → Unreserved c := by
  unfold Unreserved
  exact forall_byte <| by decide +kernel

theorem urlEncode_eq : Wapp.urlEncode x =
    Percent.encode Wapp.UrlEncode.hex (!Wapp.UrlEncode.plain ·) x := by
  have percent : ascii "%" = [37] := rfl
  rw [Wapp.urlEncode, Percent.encode, percent]
  congr
  funext c
  rw [Percent.code]
  cases Wapp.UrlEncode.plain c <;> rfl

theorem decode_urlEncode : Percent.decode (Wapp.urlEncode x) = x := by
  rw [urlEncode_eq]
  exact Percent.decode_encode digits <| by decide

theorem urlEncode_escaped : Percent.Escaped Unreserved (Wapp.urlEncode x) := by
  rw [urlEncode_eq]
  exact Percent.escaped_encode digits fun c _ hc => unreserved_of_plain c <| by simpa using hc

theorem urlEncode_length : (Wapp.urlEncode x).length =
    x.length + 2 * x.countP (!Wapp.UrlEncode.plain ·) := by
  rw [urlEncode_eq, Percent.encode_length]

theorem stored_nul_not_mem : 0 ∉ stored s addr := by
  intro h
  simpa using List.mem_takeWhile_imp h

theorem readKey_eq : Wapp.readKey s addr = some (stored s addr) := by
  obtain ⟨key, hk⟩ : ∃ key, (Buffer.zero 34).write 0 (s.eeprom.read addr 32) = some key :=
    Buffer.write_eq_some <| by simp
  have hb : key.bytes = s.eeprom.read addr 32 ++ 0 :: [0] := by
    rw [Buffer.write_bytes hk]
    simp [Buffer.zero]
  rw [Wapp.readKey, hk]
  simp only [Option.bind_eq_bind, Option.bind_some, Buffer.text, List.drop_zero, hb]
  exact cstr_nul

-- The request that is printed, with the text encoded
def url (s : State) (snum : Fin 5) (x : Bytes) : Bytes :=
  ascii "/whatsapp.php?phone=" ++ stored s (eeWapp1Num + snum * 0x80) ++ ascii "&text=" ++
    Wapp.urlEncode x ++ ascii "&apikey=" ++ stored s (eeWapp1Key + snum * 0x80)

theorem callmebotUrl_eq : Wapp.callmebotUrl s snum x = some (url s snum x) := by
  simp [Wapp.callmebotUrl, readKey_eq, url]

theorem url_length : (url s snum x).length < 200 ↔ UrlRoom s snum x := by
  have phone : (ascii "/whatsapp.php?phone=").length = 20 := rfl
  have text : (ascii "&text=").length = 6 := rfl
  have apikey : (ascii "&apikey=").length = 8 := rfl
  simp only [url, UrlRoom, List.length_append, urlEncode_length, phone, text, apikey]
  omega

theorem url_nul_not_mem : 0 ∉ url s snum x := by
  have phone : 0 ∉ ascii "/whatsapp.php?phone=" := by decide
  have text : 0 ∉ ascii "&text=" := by decide
  have apikey : 0 ∉ ascii "&apikey=" := by decide
  have encoded : 0 ∉ Wapp.urlEncode x := urlEncode_escaped.nul_not_mem <| by
    unfold Unreserved
    decide
  simp [url, phone, text, apikey, encoded, stored_nul_not_mem]

theorem requested : Requested s snum x accepted ↔ UrlRoom s snum x := by
  rw [← url_length]
  constructor
  case mp =>
    rintro ⟨s₁, h, _⟩
    simp only [Option.mem_def, Wapp.sendWhatsappMessage, callmebotUrl_eq, Option.bind_eq_bind,
      Option.bind_some, Option.bind_eq_some_iff] at h
    obtain ⟨b, hb, _⟩ := h
    exact Buffer.strcpy_isSome_iff.mp <| Option.isSome_of_mem hb
  case mpr =>
    intro hl
    obtain ⟨b, hb, ht⟩ := Buffer.strcpy_spec (b := s.url) (url_nul_not_mem (x := x)) hl
    refine ⟨_, by simp [Wapp.sendWhatsappMessage, callmebotUrl_eq, hb]; rfl, _, _, ht, rfl, ?_, ?_⟩
    · exact decode_urlEncode
    · exact urlEncode_escaped

end Url

-- The texts of all messages are put together inside of their buffers exactly if there is room for the
-- names, for the temperature and for the encoded text.
theorem buffers_law (s : State) (sen inp w snum x accepted) :
    (Built ((Wapp.sendWApp s sen).map (·.1.wapp.msg)) (Wapp.SendWApp.text s sen) ↔
      WAppRoom s sen) ∧
    (Built ((Wapp.sendWAppInput s inp).map (·.1.wapp.msg)) (Wapp.SendWAppInput.text s inp) ↔
      WAppInputRoom s inp) ∧
    (Built ((Wapp.sendSMS s sen).map (·.infobip.poruka)) (Wapp.SendSMS.text s sen) ↔
      SmsRoom s sen) ∧
    (Built ((Wapp.sendSMSInput s inp).map (·.infobip.poruka)) (Wapp.SendSMS.textInput s inp) ↔
      SmsInputRoom s inp) ∧
    (Built ((Wcl.Sms.status w).map (·.1.dev.infobip.poruka)) (statusText w.dev) ↔
      StatusRoom w.dev) ∧
    (Requested s snum x accepted ↔ UrlRoom s snum x) :=
  ⟨wapp_built, wappInput_built, sms_built, smsInput_built, status_built, requested⟩

-- A page that a browser posts to one of the save handlers
def page (handler : Config.Handler) (body : String) : Config.Post where
  handler
  body    := Config.posted body
  tb      := .zero 130
  pb      := .zero 40
  rBuf    := .zero 1024
  flags _ := fun _ => 0

-- A name of 31 characters for the object, and one of 63 characters for the first sensor
def longNames : List Config.Post := [
  page .saveNet <| "<IP>192.168.1.10</IP><SUB>255.255.255.0</SUB><ROUT>192.168.1.1</ROUT>" ++
    "<DNS>8.8.8.8</DNS><HTTP>80</HTTP><NAZIV>Hladnjaca Zagreb Zitnjak istok1</NAZIV>" ++
    "<ALARMPORT>80</ALARMPORT><ALARMIP>10.0.0.1</ALARMIP>",
  page (.sensor 0) <|
    "<NAME>Komora za duboko smrzavanje mesa i ribe u prizemlju istok br 12</NAME>" ++
    "<SERIALNUM>28FF000000000001</SERIALNUM><LOWLIMIT>0</LOWLIMIT><HIGHLIMIT>8</HIGHLIMIT>" ++
    "<HIST>1</HIST><DELAY>60</DELAY><KALIB>0</KALIB><ENABLE>ON</ENABLE><MTYPE>AVG</MTYPE>" ++
    "<WAPP1>ON</WAPP1><WAPP2>OFF</WAPP2><WAPP3>OFF</WAPP3><WAPP4>OFF</WAPP4><WAPP5>OFF</WAPP5>" ++
    "<KANAL>1</KANAL><SMS1>OFF</SMS1><SMS2>OFF</SMS2><SMS3>OFF</SMS3><SMS4>OFF</SMS4><SMS5>OFF</SMS5>"]

-- All sensors have 30 degrees, and their limit is eight degrees.
def warm (eeprom : Memory) : State := .init {
  eeprom
  rBuf        := .zero 1024
  temp _      := 30
  senzor _    := { (default : Sensor) with highLimit := 8 }
  senzor255   := default
  dinput _    := default
  delaySen _  := 0
  delayIn _   := 0
  infobip     := ⟨.zero 160, fun _ => false, false⟩
}

-- The text of the first sensor takes 131 characters and runs over the end of `wapp.Msg`.
theorem msg_overflows : ∃ s₀ s t, Config.initParam false (.reset fun _ => 0xFF) = some s₀ ∧
    (Config.server fun _ => 0).run s₀ longNames = some (s, t) ∧
    ¬Built ((Wapp.sendWApp (warm s.eeprom) 0).map (·.1.wapp.msg))
      (Wapp.SendWApp.text (warm s.eeprom) 0) := by
  have hd : (Config.initParam false (.reset fun _ => 0xFF)).any fun s₀ =>
      ((Config.server fun _ => 0).run s₀ longNames).any fun x =>
        (Wapp.sendWApp (warm x.1.eeprom) 0).isNone := by
    decide +kernel
  obtain ⟨s₀, h₀, hd⟩ := (Option.any_eq_true ..).mp hd
  obtain ⟨⟨s, t⟩, hr, hn⟩ := (Option.any_eq_true ..).mp hd
  refine ⟨s₀, s, t, h₀, hr, ?_⟩
  rw [Option.isNone_iff_eq_none.mp hn]
  rintro ⟨_, hb, _⟩
  cases hb

end Messages
