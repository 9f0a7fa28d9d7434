import Webtermo.Execution.Auth.Theorems.CheckAuth
import Webtermo.Execution.Config.Theorems.Boot
import Webtermo.Execution.Login.State

open Define
open Auth (amp colon)

namespace Base64

theorem not_mem_encode (h : c ∈ [0, amp, 60]) : c ∉ encode s := by
  have ha : ∀ d ∈ [0, amp, 60], d ≠ pad ∧ ∀ x, x < 64 → d ≠ char x := by
    have hc : ∀ x, x < 64 → ∀ d ∈ [0, amp, 60], d ≠ char x := forall_byte <| by decide +kernel
    exact fun d hd => ⟨(show ∀ d ∈ [0, amp, 60], d ≠ pad by decide +kernel) d hd, fun x hx => hc x hx d hd⟩
  intro hm
  obtain hp | ⟨x, hx, hc⟩ := mem_encode hm
  · exact (ha c h).1 hp
  · exact (ha c h).2 x hx hc

theorem encode_ne_nil (h : s ≠ []) : encode s ≠ [] := by
  have := List.length_pos_iff.mpr h
  have := @encode_length s
  intro he
  rw [he, List.length_nil] at this
  omega

end Base64

namespace Login

variable {a : Account} {b : Pair} {ram : Config.Ram} {s s₁ : Config.State} {m : Memory}

-- The login

theorem Pair.decode_text :
    Auth.decode (Base64.encode b.text) = b.username ++ colon :: b.password := by
  rw [Auth.decode, Base64.sextets_encode, Base64.decode_groups]
  rfl

theorem Pair.colon_not_mem : colon ∉ b.username :=
  fun h => (b.username_chars _ h).2 rfl

theorem Pair.credentials : Auth.Credentials (Base64.encode b.text) := by
  have hl : Auth.leftover (Base64.encode b.text) = if 3 ∣ b.text.length then [] else [0] := by
    rw [Auth.leftover, Base64.sextets_encode, Base64.leftover_groups]
  have hl₁ : (Auth.leftover (Base64.encode b.text)).length ≤ 1 := Base64.leftover_length_le
  have hw := takeWhile_separator (b := b.password) b.colon_not_mem
  have hr := dropWhile_separator (b := b.password) b.colon_not_mem
  refine ⟨?_, ?_, ?_, ?_, ?_⟩
  · simp [b.decode_text]
  · rw [b.decode_text, List.mem_append, List.mem_cons]
    rintro (h | h | h)
    · exact (b.username_chars _ h).1 rfl
    · exact absurd h (by decide)
    · exact b.password_chars _ h rfl
  · rw [hl]
    split <;> simp
  · rw [b.decode_text, hw]
    exact b.username_length
  · have := b.password_length
    rw [b.decode_text, hr, List.length_cons]
    omega

-- The login compares the two texts that are in RAM with those of the URI.
theorem checkAuth_uri (hu : ram.username.text 0 = some u) (hp : ram.password.text 0 = some p)
    (h₀ : page ≠ []) (ha : amp ∉ page) (ht : authenUri.text 0 = some (b.uri page query)) :
    Auth.State.checkAuth ⟨authenUri, ram.username, ram.password⟩ r =
      some (decide (b.username = u ∧ b.password = p)) := by
  have hl := Buffer.text_length ht
  have ⟨t, hm, _⟩ := cstr_eq_some_iff.mp ht
  have hm : authenUri.bytes = b.uri page query ++ 0 :: t := hm
  simp only [Pair.uri, List.length_append, List.length_cons] at hl
  rw [Auth.State.checkAuth, hm, Pair.uri]
  simp only [List.append_assoc, List.cons_append]
  rw [Auth.checkAuth_segment hu hp h₀ ha (by omega) (Base64.not_mem_encode (by decide)) (by omega)
    b.credentials, b.decode_text, decide_eq_decide.mpr <| Auth.credentials_iff b.colon_not_mem]

theorem Account.text_length : a.text.length ≤ 31 := by
  have := a.username_size.2
  have := a.password_size.2
  simp only [Pair.text, List.length_append, List.length_cons]
  omega

theorem admits_iff (hu : ram.username.text 0 = some u) (hp : ram.password.text 0 = some p) :
    Admits ram a.toPair ↔ u = a.username ∧ p = a.password := by
  constructor
  case mp =>
    intro h
    have hb : 0 ∉ a.toPair.uri [47] [] := by
      simp only [Pair.uri, List.mem_append, List.mem_cons, not_or]
      exact ⟨by decide, by decide, Base64.not_mem_encode (by decide), by decide⟩
    have hl : (a.toPair.uri [47] []).length < 100 := by
      have := a.text_length
      simp only [Pair.uri, List.length_append, List.length_cons, Base64.encode_length, List.length_nil]
      omega
    have ⟨authenUri, _, ht⟩ := Buffer.strcpy_spec (b := .zero 100) hb hl
    have r : Auth.Request := ⟨⟨[], by simp⟩, .zero 156, .zero 80⟩
    have hc := h a.toPair [47] [] authenUri r (by simp) (by decide) ht
    rw [checkAuth_uri hu hp (by simp) (by decide) ht] at hc
    have ⟨hn, hq⟩ : a.username = u ∧ a.password = p := by simpa using hc
    exact ⟨hn.symm, hq.symm⟩
  case mpr =>
    intro ⟨hn, hq⟩ b page query authenUri r h₀ ha ht
    rw [checkAuth_uri hu hp h₀ ha ht, hn, hq, decide_eq_decide.mpr Pair.ext_iff.symm]

-- The texts that a start finds

-- A text that is longer than its field goes on at the start of the page.
theorem loginText_eq {t : Bytes} (ha : addr = eePass ∨ addr = eeUsername) (hn : 0 ∉ t)
    (hl : t.length < 64) :
    Config.loginText (m.writePage 64 addr (t ++ [0])) addr = some (t.take 16) := by
  by_cases hs : t.length < 16
  case pos => rw [Config.loginText_write ha hn hs, List.take_of_length_le <| Nat.le_of_lt hs]
  case neg =>
    have hp : Memory.InPage 64 addr 16 := by
      cases ha <;> subst addr <;> decide
    have hl : (t ++ [0]).length ≤ 64 := by
      rw [List.length_append, List.length_singleton]
      exact hl
    have hr : (m.writePage 64 addr (t ++ [0])).read addr 16 = t.take 16 := by
      refine List.ext_getElem (by simp; omega) fun i hi ht => ?_
      simp only [Memory.read_length] at hi
      have hg := @Memory.writePage_get_pageAddr m 64 addr i _ hl (by simp; omega)
      rw [Memory.pageAddr_eq hp hi] at hg
      simpa [Memory.read, List.getElem_append_left (show i < t.length by omega)] using hg
    rw [Config.loginText, hr]
    exact cstr_append_nul (r := List.replicate 8 0) fun h => hn <| List.mem_of_mem_take h

-- One of the two commands

-- What `Base64Decode` puts behind a text
def fill (x : Bytes) : Bytes :=
  if 3 ∣ x.length then [] else [0]

theorem fill_length_le : (fill x).length ≤ 1 := by
  unfold fill
  split <;> simp

theorem base64Decode_encode (hl : x.length ≤ 15) :
    base64Decode (Base64.encode x) 30 = x ++ fill x := by
  have := @fill_length_le x
  have hd : Base64.decode (Base64.sextets (Base64.encode x)) = x := by
    rw [Base64.sextets_encode, Base64.decode_groups]
  have hf : Base64.leftover (Base64.sextets (Base64.encode x)) = fill x := by
    rw [Base64.sextets_encode, Base64.leftover_groups, fill]
  rw [base64Decode_eq (by rw [hd, hf]; omega), hd, hf]

theorem base64_exec {body : Body}
    (hb : body.bytes = front ++ (tag ++ (Base64.encode x ++ 60 :: back)))
    (hc : Clash tag front) (ht : tag ≠ [] ∧ tag.length ≤ 30) (hx : x ≠ [] ∧ x.length ≤ 15) :
    ∃ tb pb, s.pb.write 0 (x ++ fill x) = some pb ∧
      (Config.Cmd.base64 tag addr).exec atof body s = { s with tb, pb }.saveText addr pb := by
  have hf := @fill_length_le x
  have hel := @Base64.encode_length x
  have ⟨tb, htb⟩ : ∃ tb, s.tb.strcpy (Base64.encode x) = some tb :=
    Buffer.strcpy_eq_some (by omega)
  have ⟨pb, hpb⟩ : ∃ pb, s.pb.write 0 (x ++ fill x) = some pb :=
    Buffer.write_eq_some (by rw [List.length_append]; omega)
  refine ⟨tb, pb, hpb, ?_⟩
  have hm : xmlParser tag body s.tb = some ((Base64.encode x).length, tb) := by
    rw [xmlParser_eq hb hc ht.2 ht.1 (Base64.not_mem_encode (by decide)), htb]
    rfl
  have hn : (Base64.encode x).length ≠ 0 := by
    simpa using Base64.encode_ne_nil hx.1
  have hv : tb.bytes.take (Base64.encode x).length = Base64.encode x := by
    have hp := congrArg (List.take (Base64.encode x).length) (Buffer.take_write_append htb)
    simpa [List.take_take] using hp
  have hg : ¬(130 < (Base64.encode x).length ∧ (Base64.sextets tb.bytes).length ≤ 40) := by omega
  have hp : (Config.Cmd.base64 tag addr).parse atof (Base64.encode x).length { s with tb } =
      { s with tb, pb }.saveText addr pb := by
    simp only [Config.Cmd.parse, if_neg hg, hv, base64Decode_encode hx.2, hpb]
    rfl
  have hr : (Config.Cmd.base64 tag addr).receive atof body s = { s with tb, pb }.saveText addr pb := by
    simp only [Config.Cmd.receive, Config.Cmd.tag, hm]
    exact if_neg hn |>.trans hp
  rw [Config.Cmd.exec, hr]
  cases { s with tb, pb }.saveText addr pb with
  | none => rfl
  | some r => simp [Config.Cmd.finish]

theorem cstr_cons_iff (hn : 0 ∉ x) : cstr (x ++ c :: r) = some x ↔ c = 0 := by
  constructor
  case mp =>
    intro h
    have ⟨r₁, hr, _⟩ := cstr_eq_some_iff.mp h
    exact (List.cons.inj <| List.append_cancel_left hr).1
  case mpr =>
    rintro rfl
    exact cstr_append_nul hn

theorem cstr_prefix (hn : 0 ∉ x) (h : cstr (x ++ r) = some t) : x <+: t := by
  have ⟨r₁, hr, _⟩ := cstr_eq_some_iff.mp h
  obtain ⟨y, hy, _⟩ | ⟨y, hy, hr⟩ := List.append_eq_append_iff.mp hr
  · exact ⟨y, hy.symm⟩
  · cases y with
    | nil => exact ⟨[], by simp [hy]⟩
    | cons c y =>
      cases (List.cons.inj hr).1
      exact absurd (hy ▸ List.mem_append_right t List.mem_cons_self) hn

-- The text in `pb` ends behind what has been decoded only with a NUL there.
theorem text_filled {pb : Buffer 40} (hn : 0 ∉ x) (hl : x.length < 40)
    (hw : pb.write 0 (x ++ fill x) = some pb₁) :
    pb₁.text 0 = some x ↔ (3 ∣ x.length → pb.get x.length = 0) := by
  have hb := Buffer.write_bytes hw
  have hlen := pb.length_eq
  by_cases h3 : 3 ∣ x.length
  case neg =>
    have ht : pb₁.text 0 = some x := by
      simp [Buffer.text, hb, fill, h3, cstr_append_nul hn]
    simp [ht, h3]
  case pos =>
    have hd : pb.bytes.drop x.length = pb.get x.length :: pb.bytes.drop (x.length + 1) := by
      rw [List.drop_eq_getElem_cons (by omega), Buffer.get, ← List.getElem_eq_getD]
    have hb : pb₁.bytes = x ++ pb.get x.length :: pb.bytes.drop (x.length + 1) := by
      simpa [fill, h3, hd] using hb
    simp only [Buffer.text, List.drop_zero, hb, cstr_cons_iff hn, h3, true_implies]

theorem text_prefix {pb : Buffer 40} (hn : 0 ∉ x) (hw : pb.write 0 (x ++ fill x) = some pb₁)
    (ht : pb₁.text 0 = some t) : x <+: t := by
  have hb := Buffer.write_bytes hw
  simp only [List.take_zero, List.nil_append, List.append_assoc] at hb
  exact cstr_prefix hn <| by simpa [Buffer.text, hb] using ht

theorem base64_run {body : Body}
    (hb : body.bytes = front ++ (tag ++ (Base64.encode x ++ 60 :: back)))
    (hc : Clash tag front) (ht : tag ≠ [] ∧ tag.length ≤ 30) (hx : x ≠ [] ∧ x.length ≤ 15)
    (he : (Config.Cmd.base64 tag addr).exec atof body s = some (s₁, o)) :
    ∃ t, s.pb.write 0 (x ++ fill x) = some s₁.pb ∧ s₁.pb.text 0 = some t ∧
      s₁.eeprom = s.eeprom.writePage 64 addr (t ++ [0]) := by
  obtain ⟨tb, pb, hw, hs⟩ : ∃ tb pb, s.pb.write 0 (x ++ fill x) = some pb ∧
      (Config.Cmd.base64 tag addr).exec atof body s = { s with tb, pb }.saveText addr pb :=
    base64_exec hb hc ht hx
  simp only [hs, Config.State.saveText, Option.bind_eq_bind, Option.bind_eq_some_iff] at he
  obtain ⟨t, hp, he⟩ := he
  cases he
  exact ⟨t, hw, hp, rfl⟩

theorem base64_some {body : Body}
    (hb : body.bytes = front ++ (tag ++ (Base64.encode x ++ 60 :: back)))
    (hc : Clash tag front) (ht : tag ≠ [] ∧ tag.length ≤ 30) (hx : x ≠ [] ∧ x.length ≤ 15)
    (hn : 0 ∉ x) (hz : 3 ∣ x.length → s.pb.get x.length = 0) :
    ∃ s₁ o, (Config.Cmd.base64 tag addr).exec atof body s = some (s₁, o) ∧
      s.pb.write 0 (x ++ fill x) = some s₁.pb := by
  have ⟨tb, pb, hw, hs⟩ : ∃ tb pb, s.pb.write 0 (x ++ fill x) = some pb ∧
      (Config.Cmd.base64 tag addr).exec atof body s = { s with tb, pb }.saveText addr pb :=
    base64_exec hb hc ht hx
  have hp := text_filled hn (by omega) hw |>.mpr hz
  exact ⟨_, _, hs.trans <| by simp only [Config.State.saveText, hp]; rfl, hw⟩

theorem get_filled {pb : Buffer 40} (hw : pb.write 0 (x ++ fill x) = some pb₁)
    (hi : x.length + (fill x).length ≤ i) : pb₁.get i = pb.get i := by
  have hd := congrArg List.head? <| Buffer.drop_write hw (n := i) (by simpa using hi)
  simpa [Buffer.get] using congrArg (Option.getD · 0) hd

-- The user name is decoded to where the password has been.
theorem username_terminated {pb : Buffer 40} (hw : pb.write 0 (a.password ++ fill a.password) = some pb₁) :
    (3 ∣ a.username.length → pb₁.get a.username.length = 0) ↔
    (3 ∣ a.username.length →
      a.password.length ≤ a.username.length ∧ pb.get a.username.length = 0) := by
  refine imp_congr_right fun h3 => ?_
  by_cases hl : a.password.length ≤ a.username.length
  case pos =>
    have hf : a.password.length + (fill a.password).length ≤ a.username.length := by
      have := @fill_length_le a.password
      by_cases he : a.password.length = a.username.length
      case pos =>
        have : fill a.password = [] := if_pos <| he ▸ h3
        simp [this, hl]
      case neg => omega
    simp only [get_filled hw hf, hl, true_and]
  case neg =>
    have hl : a.username.length < a.password.length := Nat.lt_of_not_le hl
    have hg := Buffer.get_write hw (i := a.username.length)
      (by rw [List.length_append]; omega)
    rw [Nat.zero_add, List.getElem_append_left hl] at hg
    have hc := a.password_chars _ <| List.getElem_mem hl
    simp [hg, hc, hl]

-- The document

theorem document_pass : ∃ front back, a.document =
    front ++ (Config.xmlTag "PASS" ++ (Base64.encode a.password ++ 60 :: back)) ∧
    Clash (Config.xmlTag "PASS") front := by
  refine ⟨ascii "<?xml version='1.0' encoding='iso-8859-1'?>" ++ ascii "<LOGIN>",
    ascii "/PASS>" ++ (ascii "<UNAME>" ++ Base64.encode a.username ++ ascii "</UNAME>" ++
      ascii "</LOGIN>"), ?_, by decide +kernel⟩
  have ht : Config.xmlTag "PASS" = ascii "<PASS>" := by decide +kernel
  have hc : ascii "</PASS>" = 60 :: ascii "/PASS>" := by decide +kernel
  simp only [Account.document, ht, hc, List.append_assoc, List.cons_append]

theorem document_uname : ∃ front back, a.document =
    front ++ (Config.xmlTag "UNAME" ++ (Base64.encode a.username ++ 60 :: back)) ∧
    Clash (Config.xmlTag "UNAME") front := by
  have hn : 60 ∉ Base64.encode a.password := Base64.not_mem_encode (by decide)
  have hk : Config.xmlTag "UNAME" = 60 :: ascii "UNAME>" := by decide +kernel
  have h₁ : Clash (Config.xmlTag "UNAME") (ascii "<?xml version='1.0' encoding='iso-8859-1'?>" ++
      ascii "<LOGIN>" ++ ascii "<PASS>") := by decide +kernel
  have h₂ : Clash (Config.xmlTag "UNAME") (Base64.encode a.password) := hk ▸ clash_of_not_mem hn
  have h₃ : Clash (Config.xmlTag "UNAME") (ascii "</PASS>") := by decide +kernel
  refine ⟨_, ascii "/UNAME>" ++ ascii "</LOGIN>", ?_, (h₁.append h₂).append h₃⟩
  have ht : Config.xmlTag "UNAME" = ascii "<UNAME>" := by decide +kernel
  have hc : ascii "</UNAME>" = 60 :: ascii "/UNAME>" := by decide +kernel
  simp only [Account.document, ht, hc, List.append_assoc, List.cons_append]

-- The two commands

theorem Account.username_nul : 0 ∉ a.username :=
  fun h => (a.username_chars _ h).1 rfl

theorem Account.password_nul : 0 ∉ a.password :=
  fun h => a.password_chars _ h rfl

-- What `Pass` leaves behind: the texts that `pb` has held after each of the two commands
structure Passed (a : Account) (s : Config.State) (m : Memory) (p u : Bytes) : Prop where
  eeprom          : m = (s.eeprom.writePage 64 eePass (p ++ [0])).writePage 64 eeUsername (u ++ [0])
  password        : p = a.password ↔ (3 ∣ a.password.length → s.pb.get a.password.length = 0)
  username        : u = a.username ↔ (3 ∣ a.username.length →
    a.password.length ≤ a.username.length ∧ s.pb.get a.username.length = 0)
  password_prefix : a.password <+: p
  username_prefix : a.username <+: u
  password_text   : 0 ∉ p ∧ p.length < 40
  username_text   : 0 ∉ u ∧ u.length < 40

theorem pass_run (hr : (Config.handler atof ⟨a.document, behind⟩).run s Config.pass = some (s₁, t)) :
    ∃ p u, Passed a s s₁.eeprom p u := by
  have ⟨_, _, hp, hcp⟩ := document_pass (a := a)
  have ⟨_, _, hu, hcu⟩ := document_uname (a := a)
  have ⟨s₂, _, _, h₁, hr, _⟩ := Machine.run_cons hr
  have h₂ := Machine.run_singleton.symm.trans hr
  have ⟨p, hwp, htp, hep⟩ := base64_run hp hcp (by decide +kernel) a.password_size h₁
  have ⟨u, hwu, htu, heu⟩ := base64_run hu hcu (by decide +kernel) a.username_size h₂
  have hpl : a.password.length < 40 := Nat.lt_of_lt_of_le a.password_length (by decide)
  refine ⟨p, u, {
    eeprom          := hep ▸ heu
    password        := ?_
    username        := ?_
    password_prefix := text_prefix a.password_nul hwp htp
    username_prefix := text_prefix a.username_nul hwu htu
    password_text   := ⟨Buffer.text_nul_not_mem htp, Buffer.text_length htp⟩
    username_text   := ⟨Buffer.text_nul_not_mem htu, Buffer.text_length htu⟩
  }⟩
  · rw [← text_filled a.password_nul hpl hwp, htp, Option.some.injEq]
  · rw [← username_terminated hwp, ← text_filled a.username_nul a.username_length hwu, htu,
      Option.some.injEq]

theorem pass_some (ht : Terminated a s.pb) : ∃ s₁ t,
    (Config.handler atof ⟨a.document, behind⟩).run s Config.pass = some (s₁, t) := by
  have ⟨_, _, hp, hcp⟩ := document_pass (a := a)
  have ⟨_, _, hu, hcu⟩ := document_uname (a := a)
  have ⟨s₂, o₁, h₁, hw⟩ := @base64_some s _ _ _ _ eePass atof ⟨a.document, behind⟩ hp hcp
    (by decide +kernel) a.password_size a.password_nul ht.password
  have ⟨s₁, o₂, h₂, _⟩ := @base64_some s₂ _ _ _ _ eeUsername atof ⟨a.document, behind⟩ hu hcu
    (by decide +kernel) a.username_size a.username_nul <| username_terminated hw |>.mpr ht.username
  have h₂ : (Config.handler atof ⟨a.document, behind⟩).run s₂ [_] = some (s₁, o₂) :=
    Machine.run_singleton.trans h₂
  refine ⟨s₁, o₁ ++ o₂, Machine.run_cons_of_step h₁ |>.trans ?_⟩
  rw [h₂]
  rfl

-- A text that fits keeps inside of its field.
theorem inPage_username : Memory.InPage 64 eeUsername (a.username ++ [0]).length := by
  have := a.username_size.2
  simp only [Memory.InPage, List.length_append, List.length_singleton, eeUsername]
  omega

theorem inPage_password : Memory.InPage 64 eePass (a.password ++ [0]).length := by
  have := a.password_size.2
  simp only [Memory.InPage, List.length_append, List.length_singleton, eePass]
  omega

theorem Passed.password_login (hp : Passed a s m p a.username) :
    Config.loginText m eePass = some (p.take 16) := by
  have hr : m.read eePass 16 = (s.eeprom.writePage 64 eePass (p ++ [0])).read eePass 16 := by
    have := a.username_size.2
    rw [hp.eeprom]
    refine Memory.read_writePage_of_disjoint inPage_username (.inr ?_)
    simp only [List.length_append, List.length_singleton, eeUsername, eePass]
    omega
  rw [Config.loginText, hr]
  exact loginText_eq (.inl rfl) hp.password_text.1 (Nat.lt_trans hp.password_text.2 (by decide))

theorem Passed.username_login (hp : Passed a s m p u) :
    Config.loginText m eeUsername = some (u.take 16) := by
  rw [hp.eeprom]
  exact loginText_eq (.inr rfl) hp.username_text.1 (Nat.lt_trans hp.username_text.2 (by decide))

theorem Passed.magic (hp : Passed a s m a.password a.username) :
    Config.eeRead16 m eeInit = Config.eeRead16 s.eeprom eeInit := by
  have hx : ∀ x < eeUsername, m x = s.eeprom x := by
    intro x hx
    rw [hp.eeprom, Memory.writePage_frame_of_inPage inPage_username (.inl hx),
      Memory.writePage_frame_of_inPage inPage_password (.inl <| Nat.lt_trans hx (by decide))]
  rw [Config.eeRead16, Config.eeRead16, hx _ (by decide), hx _ (by decide)]

theorem loginText_some : ∃ t, Config.loginText m addr = some t :=
  cstr_of_nul_mem <| by simp

-- The text of a field is the one that has been stored.
theorem take_eq (hp : x <+: t) (hl : x.length ≤ 15) (ht : t.take 16 = x) : t = x := by
  have hs := congrArg List.length ht
  rw [List.length_take] at hs
  have := hp.length_le
  rw [← ht, List.take_of_length_le (by omega)]

theorem take_account {x : Bytes} (hl : x.length ≤ 15) : some (x.take 16) = some x := by
  rw [List.take_of_length_le (by omega)]

-- The text that is the default needs no NUL of its own.
theorem default_terminated (hu : a.username = ascii "s") (hp : a.password = ascii "s") :
    Terminated a s.pb := by
  have hl : (ascii "s").length = 1 := by decide +kernel
  exact ⟨by simp [hp, hl], by simp [hu, hl]⟩

theorem Passed.eq (hp : Passed a s m p u) (ht : Terminated a s.pb) :
    p = a.password ∧ u = a.username :=
  ⟨hp.password.mpr ht.password, hp.username.mpr ht.username⟩

-- The user and the password that `Pass` has been given are those that are admitted after the next start,
-- exactly if both texts have been terminated. Without the magic that start makes the defaults.
theorem changed_law : Changed atof a behind s ↔
    if Config.eeRead16 s.eeprom eeInit = 0x55AA then Terminated a s.pb
    else a.username = ascii "s" ∧ a.password = ascii "s" := by
  constructor
  case mp =>
    intro ⟨s₁, t, r, hr, hi, had⟩
    have ⟨p, u, hp⟩ := pass_run hr
    by_cases hm : Config.eeRead16 s₁.eeprom eeInit = 0x55AA
    case pos =>
      have ⟨r₁, hl, _, _, hu₁, hp₁⟩ := Config.loadParam_reset (m := s₁.eeprom)
      cases hl.symm.trans <| (if_pos hm).symm.trans hi
      have ⟨q, hq⟩ := @loginText_some s₁.eeprom eePass
      have ⟨hu, hq₁⟩ := admits_iff (hu₁.trans hp.username_login) (hp₁.trans hq) |>.mp had
      have hu := take_eq hp.username_prefix a.username_size.2 hu
      subst hu
      rw [hp.password_login, Option.some.injEq] at hq
      have hq := take_eq hp.password_prefix a.password_size.2 (hq.trans hq₁)
      subst hq
      rw [if_pos <| hp.magic.symm.trans hm]
      exact ⟨hp.password.mp rfl, hp.username.mp rfl⟩
    case neg =>
      have ⟨r₁, hi₁, _, hu₁, hp₁⟩ := Config.initParam_new (j := false) hm
      cases hi₁.symm.trans hi
      have ⟨hu, hq⟩ := admits_iff hu₁ hp₁ |>.mp had
      have ⟨hq₁, hu₂⟩ := hp.eq <| default_terminated hu.symm hq.symm
      subst hq₁
      subst hu₂
      rw [if_neg <| hp.magic ▸ hm]
      exact ⟨hu.symm, hq.symm⟩
  case mpr =>
    intro h
    have ht : Terminated a s.pb := by
      split at h
      case isTrue => exact h
      case isFalse => exact default_terminated h.1 h.2
    have ⟨s₁, t, hr⟩ := @pass_some a s atof behind ht
    have ⟨p, u, hp⟩ := pass_run hr
    have ⟨hp₁, hu₁⟩ := hp.eq ht
    subst hp₁
    subst hu₁
    by_cases hm : Config.eeRead16 s.eeprom eeInit = 0x55AA
    case pos =>
      have ⟨r, hl, _, _, hu₁, hp₁⟩ := Config.loadParam_reset (m := s₁.eeprom)
      have hu₁ := hu₁.trans <| hp.username_login.trans <| take_account a.username_size.2
      have hp₁ := hp₁.trans <| hp.password_login.trans <| take_account a.password_size.2
      exact ⟨s₁, t, r, hr, if_pos (hp.magic.trans hm) |>.trans hl, admits_iff hu₁ hp₁ |>.mpr ⟨rfl, rfl⟩⟩
    case neg =>
      rw [if_neg hm] at h
      have hm : Config.eeRead16 s₁.eeprom eeInit ≠ 0x55AA := by rwa [hp.magic]
      have ⟨r, hi, _, hu₁, hp₁⟩ := Config.initParam_new (j := false) hm
      exact ⟨s₁, t, r, hr, hi, admits_iff hu₁ hp₁ |>.mpr ⟨h.1.symm, h.2.symm⟩⟩

-- A `pb` in which the name of a time server is left
def served : Config.State :=
  { Config.State.reset Config.magicOnly with
    pb := ⟨ascii "hr.pool.ntp.org" ++ List.replicate 25 0, by decide +kernel⟩ }

def short : Account where
  username           := ascii "s"
  password           := ascii "abc"
  username_length    := by decide +kernel
  password_length    := by decide +kernel
  username_chars     := by decide +kernel
  password_chars     := by decide +kernel
  username_size      := by decide +kernel
  password_size      := by decide +kernel
  username_printable := by decide +kernel
  password_printable := by decide +kernel

-- The password that is stored is abcpool.ntp.org.
theorem password_with_tail : ¬∀ atof a behind s, Config.eeRead16 s.eeprom eeInit = 0x55AA →
    Changed atof a behind s := by
  intro h
  obtain ⟨s₁, t, r, hr, hi, had⟩ := h (fun _ => 0) short [] served (by decide +kernel)
  have hd : ((Config.handler (fun _ => 0) ⟨short.document, []⟩).run served Config.pass).any fun x =>
      (Config.initParam false (.reset x.1.eeprom)).any fun r =>
        r.ram.username.text 0 = some (ascii "s") ∧
          r.ram.password.text 0 = some (ascii "abcpool.ntp.org") := by
    decide +kernel
  simp only [hr, hi, Option.any_some] at hd
  obtain ⟨hu, hp⟩ := of_decide_eq_true hd
  obtain ⟨_, hn⟩ := admits_iff hu hp |>.mp had
  exact absurd hn (by decide +kernel)

end Login
