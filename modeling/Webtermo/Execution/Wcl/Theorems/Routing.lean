import Webtermo.Library.Trace
import Webtermo.Execution.Wcl.Theorems.Resume

open Define

namespace Wcl

variable {s s₁ : State} {t o : List Obs} {x : Obs} {dev dev₁ : Wapp.State} {slot : Wapp.Slot}
  {args : Fin 5 → Bool}

-- The numbers that the EEPROM flags for the SMS of a sensor or of the inputs
def smsFlags (dev : Wapp.State) : Wapp.Slot → Fin 5 → Bool
  | .sen k, n => dev.eeprom (0x100 * (k + 1) + eeSms1 + n) ≠ 0
  | .inp _, n => dev.eeprom (eeInputSms1 + n) ≠ 0

def Obs.args? : Obs → Option (Fin 5 → Bool)
  | sms args => some args
  | _        => none

-- The arguments of the last call of `send_infobip`
def lastCall (t : List Obs) : Option (Fin 5 → Bool) :=
  (t.filterMap Obs.args?).getLast?

-- Before the first call no number is asked for.
def asked (l : Option (Fin 5 → Bool)) : Fin 5 → Bool :=
  l.getD fun _ => false

-- An alarm goes to the recipients that are stored for it over both channels, an SMS to the numbers
-- that `send_infobip` was called for, and a test to the one recipient that it names.
def Routed (t : List Obs) : Obs → Prop
  | .alarm slot dev wapp sms => wapp = slot.flags dev ∧ sms = smsFlags dev slot
  | .xml _ dev text          => document dev (asked <| lastCall t) = some text
  | .testWApp n _ after      => ∀ m, after m ↔ m = n
  | _                        => True

def RoutingLaw : List Obs → Prop :=
  Always Routed

-- A document is put together after a call with its fifth argument set or before the first one, and a
-- test finds no flag of another recipient.
def Unmixed (t : List Obs) : Obs → Prop
  | .xml _ _ _           => ∀ args ∈ lastCall t, args 4
  | .testWApp n before _ => ∀ m, before m → m = n
  | _                    => True

def RoutesApart : List Obs → Prop :=
  Always Unmixed

def Obs.Routes : Obs → Prop
  | alarm _ _ _ _ | sms _ | testWApp _ _ _ | xml _ _ _ => True
  | _                                                  => False

theorem routed_iff_of_not_routes (h : ¬x.Routes) : Routed t x ↔ Unmixed t x := by
  cases x <;> simp_all [Obs.Routes, Routed, Unmixed]

theorem lastCall_silent (h : ∀ x ∈ o, x.args? = none) : lastCall (t ++ o) = lastCall t := by
  rw [lastCall, List.filterMap_append, List.filterMap_eq_nil_iff.mpr h, List.append_nil, lastCall]

theorem lastCall_sms : lastCall (t ++ [Obs.sms args]) = some args := by
  simp [lastCall, List.filterMap_append, Obs.args?]

theorem args?_of_not_routes (h : ¬x.Routes) : x.args? = none := by
  cases x <;> simp_all [Obs.Routes, Obs.args?]

-- What `send_infobip` switches on for its arguments
def enabled : Option (Fin 5 → Bool) → Fin 5 → Bool
  | none      => fun _ => false
  | some args => fun n => n = 4 || args n

theorem gsmParts_enabled (h : ¬args 4) : gsmParts (enabled (some args)) =
    gsmParts args ++ [Part.stored (ascii "gsm") (eeGsm1Num + 4 * 0x20) 32, .crlf] := by
  have hf : List.finRange 5 = [0, 1, 2, 3] ++ [4] := by decide
  have he : [0, 1, 2, 3].filter (enabled (some args) ·) = [0, 1, 2, 3].filter (args ·) :=
    List.filter_congr fun n hn => by
      have : n ≠ 4 := by
        rintro rfl
        simp at hn
      simp [enabled, this]
  have h₄ : [4].filter (enabled (some args) ·) = [4] := by simp [enabled]
  have h₅ : [4].filter (args ·) = [] := by simp [h]
  rw [gsmParts, gsmParts, hf, List.filter_append, List.filter_append, he, h₄, h₅, List.append_nil,
    List.flatMap_append]
  rfl

theorem partsText_crlf_ne {ps ps₁ ps₂ : List Part} {p : Part}
    (h : partsText dev (ps ++ (ps₁ ++ [p, .crlf]) ++ ps₂) = some text) :
    partsText dev (ps ++ ps₁ ++ ps₂) ≠ some text := by
  intro h₁
  simp only [partsText_append, Option.bind_eq_some_iff, Option.map_eq_some_iff] at h h₁
  obtain ⟨_, ⟨a, ha, _, ⟨b, hb, c, hc, h₄⟩, h₃⟩, d, hd, h₂⟩ := h
  obtain ⟨_, ⟨a₁, ha₁, b₁, hb₁, h₆⟩, d₁, hd₁, h₅⟩ := h₁
  have hl : c.length ≥ 2 := by
    simp only [partsText, Option.bind_eq_bind, Option.bind_eq_some_iff, Option.some.injEq] at hc
    obtain ⟨u, _, _, ⟨v, hv, _, _, he₁⟩, he⟩ := hc
    cases hv
    subst he he₁
    have : crlf.length = 2 := by decide
    simp only [List.length_append, this]
    omega
  cases ha.symm.trans ha₁
  cases hb.symm.trans hb₁
  cases hd.symm.trans hd₁
  have := congrArg List.length <| h₂.trans h₅.symm
  subst h₃ h₄ h₆
  simp only [List.length_append] at this
  omega

theorem document_iff {l : Option (Fin 5 → Bool)} (h : document dev (enabled l) = some text) :
    document dev (asked l) = some text ↔ ∀ args ∈ l, args 4 := by
  cases l with
  | none => exact ⟨fun _ => nofun, fun _ => h⟩
  | some args =>
    by_cases h₄ : args 4
    case pos =>
      have he : enabled (some args) = args := by
        funext n
        by_cases hn : n = 4 <;> simp [enabled, hn, h₄]
      exact ⟨fun _ _ ha => by cases ha; exact h₄, fun _ => he ▸ h⟩
    case neg =>
      refine iff_of_false (fun ha => ?_) fun ha => h₄ <| ha args rfl
      rw [document, parts, gsmParts_enabled h₄] at h
      exact partsText_crlf_ne h ha

-- The flags that stand in `rBuf` after a read of the EEPROM
theorem flags_read {r : Buffer 1024} (hb : r.bytes = dev.eeprom.read addr n ++ l)
    (h : p + 5 ≤ n) : Wapp.SendWApp.flags r p i = decide (dev.eeprom (addr + (p + i)) ≠ 0) := by
  have hi : p + i.val < n := by omega
  simp [Wapp.SendWApp.flags, Buffer.get, hb, Memory.read, List.getElem?_append, hi]

theorem sendWApp_routed (h : Wapp.sendWApp dev k = some (dev₁, u)) :
    dev₁.wapp.enable = Wapp.Slot.flags dev (.sen k) ∧ dev₁.eeprom = dev.eeprom ∧
    dev₁.infobip = dev.infobip := by
  simp only [Wapp.sendWApp, Option.bind_eq_bind, Option.bind_eq_some_iff, Option.some.injEq] at h
  obtain ⟨d₁, h₁, _, _, _, _, _, _, d₂, h₂, _, _, _, _, _, _, _, _, _, _, h⟩ := h
  obtain ⟨r₁, e₁, _⟩ := Wapp.eeRead_bytes h₁
  obtain ⟨r₂, e₂, b₂⟩ := Wapp.eeRead_bytes h₂
  subst e₁ e₂
  cases h
  exact ⟨funext fun i => flags_read b₂ (p := eeWapp1On) (by decide), rfl, rfl⟩

theorem sendWAppInput_routed (h : Wapp.sendWAppInput dev i = some (dev₁, u)) :
    dev₁.wapp.enable = Wapp.Slot.flags dev (.inp i) ∧ dev₁.eeprom = dev.eeprom ∧
    dev₁.infobip = dev.infobip := by
  simp only [Wapp.sendWAppInput, Option.bind_eq_bind, Option.bind_eq_some_iff, Option.some.injEq] at h
  obtain ⟨d₁, h₁, _, _, _, _, _, _, d₂, h₂, _, _, _, _, _, _, _, _, d₃, h₃, h⟩ := h
  obtain ⟨r₁, e₁, _⟩ := Wapp.eeRead_bytes h₁
  obtain ⟨r₂, e₂, _⟩ := Wapp.eeRead_bytes h₂
  obtain ⟨r₃, e₃, b₃⟩ := Wapp.eeRead_bytes h₃
  subst e₁ e₂ e₃
  cases h
  refine ⟨funext fun n => ?_, rfl, rfl⟩
  simpa [Wapp.Slot.flags] using flags_read b₃ (i := n) (Nat.le_refl 5)

theorem sendSMS_routed (h : Wapp.sendSMS dev k = some dev₁) :
    Wapp.SendWApp.flags dev₁.rBuf 0 = smsFlags dev (.sen k) ∧ dev₁.wapp = dev.wapp ∧
    dev₁.infobip.gsmEnable = enabled (some <| Wapp.SendWApp.flags dev₁.rBuf 0) := by
  simp only [Wapp.sendSMS, Option.bind_eq_bind, Option.bind_eq_some_iff, Option.some.injEq] at h
  obtain ⟨d₁, h₁, _, _, _, _, _, _, _, _, _, _, d₂, h₂, h⟩ := h
  obtain ⟨r₁, e₁, _⟩ := Wapp.eeRead_bytes h₁
  obtain ⟨r₂, e₂, b₂⟩ := Wapp.eeRead_bytes h₂
  subst e₁ e₂
  cases h
  refine ⟨funext fun n => ?_, rfl, rfl⟩
  simpa [Wapp.sendInfobip, smsFlags] using flags_read b₂ (i := n) (Nat.le_refl 5)

theorem sendSMSInput_routed (h : Wapp.sendSMSInput dev i = some dev₁) :
    Wapp.SendWApp.flags dev₁.rBuf 0 = smsFlags dev (.inp i) ∧ dev₁.wapp = dev.wapp ∧
    dev₁.infobip.gsmEnable = enabled (some <| Wapp.SendWApp.flags dev₁.rBuf 0) := by
  simp only [Wapp.sendSMSInput, Option.bind_eq_bind, Option.bind_eq_some_iff,
    Option.some.injEq] at h
  obtain ⟨d₁, h₁, _, _, _, _, _, _, d₂, h₂, h⟩ := h
  obtain ⟨r₁, e₁, _⟩ := Wapp.eeRead_bytes h₁
  obtain ⟨r₂, e₂, b₂⟩ := Wapp.eeRead_bytes h₂
  subst e₁ e₂
  cases h
  refine ⟨funext fun n => ?_, rfl, rfl⟩
  simpa [Wapp.sendInfobip, smsFlags] using flags_read b₂ (i := n) (Nat.le_refl 5)

theorem ptWappFrom_infobip (h : Wapp.ptWappFrom dev a rest = some (dev₁, u)) :
    dev₁.infobip = dev.infobip := by
  induction rest generalizing dev dev₁ u with
  | nil =>
    simp only [Wapp.ptWappFrom] at h
    split_ifs at h <;> cases h <;> rfl
  | cons n rest ih =>
    simp only [Wapp.ptWappFrom] at h
    split_ifs at h
    · cases h
      rfl
    · simp only [Option.bind_eq_bind, Option.bind_eq_some_iff, Option.some.injEq] at h
      obtain ⟨m, _, d₂, hs, ⟨d₃, v⟩, hw, h⟩ := h
      cases h
      refine (ih hw).trans ?_
      simp only [Wapp.sendWhatsappMessage, Option.bind_eq_bind, Option.bind_eq_some_iff,
        Option.some.injEq] at hs
      obtain ⟨_, _, _, _, hs⟩ := hs
      exact hs ▸ rfl
    · exact ih h

theorem loggerAlarmPoll_infobip (h : Wapp.loggerAlarmPoll dev a = some (dev₁, u)) :
    dev₁.infobip = dev.infobip := by
  simp only [Wapp.loggerAlarmPoll, Wapp.ptWapp] at h
  split_ifs at h
  · split at h
    · cases h
      rfl
    · exact ptWappFrom_infobip h
    · exact ptWappFrom_infobip h
  · cases h
    rfl

theorem smsFlags_eq (h : dev₁.eeprom = dev.eeprom) : smsFlags dev₁ slot = smsFlags dev slot := by
  funext n
  cases slot <;> simp [smsFlags, h]

theorem send_routed (h : slot.send dev = some (dev₁, u)) :
    dev₁.wapp.enable = slot.flags dev ∧ Wapp.SendWApp.flags dev₁.rBuf 0 = smsFlags dev slot ∧
    dev₁.infobip.gsmEnable = enabled (some <| Wapp.SendWApp.flags dev₁.rBuf 0) := by
  cases slot with
  | sen k =>
    simp only [Wapp.Slot.send, Option.bind_eq_bind, Option.bind_eq_some_iff, Option.some.injEq] at h
    have ⟨⟨d, v⟩, hw, d₁, hs, h⟩ := h
    cases h
    have ⟨he, hm, _⟩ := sendWApp_routed hw
    have ⟨hf, hd, hg⟩ := sendSMS_routed hs
    exact ⟨congrArg Whatsapp.enable hd |>.trans he, hf.trans <| smsFlags_eq hm, hg⟩
  | inp i =>
    simp only [Wapp.Slot.send, Option.bind_eq_bind, Option.bind_eq_some_iff, Option.some.injEq] at h
    have ⟨⟨d, v⟩, hw, d₁, hs, h⟩ := h
    cases h
    have ⟨he, hm, _⟩ := sendWAppInput_routed hw
    have ⟨hf, hd, hg⟩ := sendSMSInput_routed hs
    exact ⟨congrArg Whatsapp.enable hd |>.trans he, hf.trans <| smsFlags_eq hm, hg⟩

-- The flags of the numbers are those of the last call, and so far the recipients are as they should
-- be exactly under the condition.
structure RoutingInv (t : List Obs) (s : State) : Prop where
  gsm : s.dev.infobip.gsmEnable = enabled (lastCall t)
  iff : Always (fun t x => Routed t x ↔ Unmixed t x) t

-- A step that is not about recipients
theorem RoutingInv.silent (i : RoutingInv t s) (h : s₁.dev.infobip.gsmEnable = s.dev.infobip.gsmEnable)
    (ho : ∀ x ∈ o, ¬x.Routes) : RoutingInv (t ++ o) s₁ where
  gsm := by rw [h, i.gsm, lastCall_silent fun x hx => args?_of_not_routes <| ho x hx]
  iff := i.iff.append fun _ x _ he => routed_iff_of_not_routes <| ho x <| by simp [he]

theorem RoutingInv.call (i : RoutingInv t s) (h : s₁.dev.infobip.gsmEnable = enabled (some args)) :
    RoutingInv (t ++ [Obs.sms args]) s₁ where
  gsm := by rw [h, lastCall_sms]
  iff := i.iff.concat Iff.rfl

theorem RoutingInv.xml (i : RoutingInv t s) (h : document s.dev s.dev.infobip.gsmEnable = some text) :
    RoutingInv (t ++ [Obs.xml c s.dev text]) s where
  gsm := by rw [i.gsm, lastCall_silent <| by simp [Obs.args?]]
  iff := i.iff.concat <| document_iff <| i.gsm ▸ h

theorem RoutingInv.turn (i : RoutingInv t s) (h : Sms.slot s slot = some (s₁, o)) :
    RoutingInv (t ++ o) s₁ := by
  simp only [Sms.slot, Wapp.Slot.step, Option.bind_eq_bind, Option.bind_eq_some_iff] at h
  obtain ⟨⟨dev, u⟩, hd, h⟩ := h
  cases h
  split_ifs at hd ⊢ with ht
  · have hf : slot.flags (slot.store s.dev (slot.turn s.dev).1) = slot.flags s.dev := by
      funext n
      cases slot <;> rfl
    have hm : smsFlags (slot.store s.dev (slot.turn s.dev).1) slot = smsFlags s.dev slot :=
      smsFlags_eq <| by cases slot <;> rfl
    obtain ⟨he, hs, hg⟩ := send_routed hd
    refine List.append_cons .. ▸ RoutingInv.call (s := s) ⟨?_, ?_⟩ hg
    · rw [i.gsm, lastCall_silent <| by simp [Obs.args?]]
    · exact i.iff.concat <| iff_of_true ⟨he.trans hf, hs.trans hm⟩ trivial
  · cases hd
    refine i.silent ?_ <| by simp
    cases slot <;> rfl

theorem connect_gsmEnable : (connect s c a).1.dev = s.dev := by
  simp only [connect]
  split <;> rfl

theorem deactivate_gsmEnable :
    (s.deactivate c).dev.infobip.gsmEnable = s.dev.infobip.gsmEnable := by
  cases c <;> rfl

theorem RoutingInv.resume (i : RoutingInv t s) (h : Wcl.resume s c a = some (s₁, o)) :
    RoutingInv (t ++ o) s₁ := by
  cases resume_resumed h with
  | stay => exact i.silent rfl <| by simp
  | yield => exact i.silent rfl <| by simp
  | build _ b =>
    have ⟨rBuf, xmlBuf, infobip, buf, infobiplen, hs⟩ := b.other
    rw [b.obs, List.cons_append, List.append_cons]
    refine (i.xml b.document).silent ?_ <| by simp [connect, Obs.Routes]
    rw [connect_gsmEnable, hs]
    rfl
  | request => exact i.silent rfl <| by simp [write, Obs.Routes]
  | body => exact i.silent rfl <| by simp [write, Obs.Routes]
  | last => exact i.silent rfl <| by simp [write, close, Obs.Routes]
  | close => exact i.silent deactivate_gsmEnable <| by simp [close, Obs.Routes]

theorem testWApp_iff (h : Wapp.testWApp dev n = some dev₁) :
    (∀ m, dev₁.wapp.enable m ↔ m = n) ↔ ∀ m, dev.wapp.enable m → m = n := by
  simp only [Wapp.testWApp, Option.bind_eq_bind, Option.bind_eq_some_iff, Option.some.injEq] at h
  have ⟨_, _, h⟩ := h
  subst h
  constructor
  case mp =>
    intro h m hm
    refine (h m).mp ?_
    by_cases hn : m = n <;> simp [hn, hm]
  case mpr =>
    intro h m
    by_cases hn : m = n
    case pos => simp [hn]
    case neg => simpa [hn] using mt (h m) hn

theorem RoutingInv.step (i : RoutingInv t s) (hs : device.step s e = some (s₁, o)) :
    RoutingInv (t ++ o) s₁ := by
  cases e with
  | slot slot => exact i.turn hs
  | testSms n =>
    simp only [device, Wcl.step, Sms.test, Option.bind_eq_bind, Option.bind_eq_some_iff] at hs
    obtain ⟨poruka, _, hs⟩ := hs
    cases hs
    exact i.call rfl
  | smsStatus =>
    simp only [device, Wcl.step, Sms.status, Option.bind_eq_bind, Option.bind_eq_some_iff] at hs
    obtain ⟨_, _, _, _, _, _, hs⟩ := hs
    cases hs
    exact i.call rfl
  | testWApp n =>
    simp only [device, Wcl.step, Option.bind_eq_bind, Option.bind_eq_some_iff] at hs
    obtain ⟨dev, hd, hs⟩ := hs
    cases hs
    refine ⟨?_, i.iff.concat <| testWApp_iff hd⟩
    rw [lastCall_silent <| by simp [Obs.args?], ← i.gsm]
    simp only [Wapp.testWApp, Option.bind_eq_bind, Option.bind_eq_some_iff, Option.some.injEq] at hd
    obtain ⟨_, _, hd⟩ := hd
    exact hd ▸ rfl
  | poll a =>
    simp only [device, Wcl.step, Option.bind_eq_bind, Option.bind_eq_some_iff] at hs
    obtain ⟨⟨dev, u⟩, hd, hs⟩ := hs
    cases hs
    exact i.silent (congrArg Wapp.Infobip.gsmEnable <| loggerAlarmPoll_infobip hd) <| by simp
  | resume c a => exact i.resume hs
  | connected c =>
    obtain ⟨hs, ho, _⟩ := callback_cases hs
    subst hs ho
    exact i.silent rfl <| by simp
  | answer c =>
    obtain ⟨hs, ho, _⟩ := callback_cases hs
    subst hs ho
    exact i.silent rfl <| by simp
  | freed pcb =>
    simp only [device, Wcl.step, free] at hs
    split_ifs at hs
    cases hs
    exact i.silent rfl <| by simp [Obs.Routes]
  | _ =>
    cases hs
    exact i.silent rfl <| by simp

-- In every run from the start of the device, all messages go to the recipients that they are meant for
-- exactly if none is put together with the fifth number left out or with flags left over.
theorem routing_law (hr : device.run (State.init env) es = some (s, t)) :
    RoutingLaw t ↔ RoutesApart t := by
  have i : RoutingInv t s := Machine.run_history (t := []) (fun i _ hs => RoutingInv.step i hs)
    ⟨rfl, Always.nil⟩ Machine.Guarded.trivial hr
  constructor
  case mp => exact fun h t₁ x t₂ ht => (i.iff t₁ x t₂ ht).mp <| h t₁ x t₂ ht
  case mpr => exact fun h t₁ x t₂ ht => (i.iff t₁ x t₂ ht).mpr <| h t₁ x t₂ ht

instance : DecidablePred (Routed t)
  | .alarm slot dev wapp sms => decidable_of_iff
    ((∀ n, wapp n = slot.flags dev n) ∧ ∀ n, sms n = smsFlags dev slot n) <|
    and_congr funext_iff.symm funext_iff.symm
  | .xml _ _ _               => inferInstanceAs <| Decidable (document _ _ = some _)
  | .testWApp n _ after      => inferInstanceAs <| Decidable (∀ m, after m ↔ m = n)
  | .sms _ | .rebuilt _ _ _ | .new _ _ | .call _ _ _ | .ended _ | .freed _ => isTrue trivial

instance : DecidablePred (Unmixed t)
  | .xml _ _ _           => inferInstanceAs <| Decidable (∀ args ∈ lastCall t, args 4)
  | .testWApp n before _ => inferInstanceAs <| Decidable (∀ m, before m → m = n)
  | .alarm _ _ _ _ | .sms _ | .rebuilt _ _ _ | .new _ _ | .call _ _ _ | .ended _ | .freed _ =>
    isTrue trivial

instance : Decidable (RoutingLaw t) :=
  inferInstanceAs <| Decidable (Always _ t)

instance : Decidable (RoutesApart t) :=
  inferInstanceAs <| Decidable (Always _ t)

def working : Answers :=
  ⟨false, true, true, []⟩

-- A test message is put together for number `n`.
def testMessage (n : Fin 5) : List Event :=
  [.testSms n, .resume .wcl working, .resume .wcl working]

def Obs.isWclXml : Obs → Bool
  | .xml .wcl _ _ => true
  | _             => false

theorem routing_law_fifth_number : ∃ s t, device.run blank (testMessage 4 ++ [Event.testWApp 2]) =
    some (s, t) ∧ (∃ dev text, .xml .wcl dev text ∈ t) ∧ RoutingLaw t := by
  have : (device.run blank (testMessage 4 ++ [Event.testWApp 2])).any (fun x =>
      x.2.any (·.isWclXml) ∧ RoutesApart x.2) := by
    decide +kernel
  obtain ⟨⟨s, t⟩, hr, ht⟩ := Option.any_eq_true _ _ |>.mp this
  obtain ⟨hx, apart⟩ := of_decide_eq_true ht
  refine ⟨s, t, hr, ?_, (routing_law hr).mpr apart⟩
  obtain ⟨x, hm, hx⟩ := List.any_eq_true.mp hx
  unfold Obs.isWclXml at hx
  split at hx
  · exact ⟨_, _, hm⟩
  · cases hx

-- The SMS that is meant for the first number goes to the fifth one as well.
theorem fifth_number_added :
    ¬∀ env es s t, device.run (State.init env) es = some (s, t) → RoutingLaw t := by
  intro h
  have : (device.run blank (testMessage 0)).any (fun x => ¬RoutingLaw x.2) := by
    decide +kernel
  obtain ⟨⟨s, t⟩, hr, ht⟩ := Option.any_eq_true _ _ |>.mp this
  exact of_decide_eq_true ht <| h _ _ _ _ hr

end Wcl
