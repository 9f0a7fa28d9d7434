import Webtermo.Execution.Config.Theorems.Absent

open Define

namespace Config

variable {atof : Bytes → UInt32} {b : Body} {c c₁ : Cmd} {h : Handler} {s s₁ s₂ s₃ : State}
variable {m m₁ : Memory} {v w : Var}

-- The settings in RAM are those that a restart would find in the EEPROM.
def Coherent (s : State) : Prop :=
  ∃ r, initParam false (.reset s.eeprom) = some r ∧ s.ram.vars = r.ram.vars ∧
    s.ram.username.text 0 = r.ram.username.text 0 ∧ s.ram.password.text 0 = r.ram.password.text 0

-- A POST to a save handler, and what other requests have left in the buffers before it
structure Post where
  handler : Handler
  body    : Body
  tb      : Tb
  pb      : Buffer 40
  rBuf    : Buffer 1024
  flags   : Flags → Fin 5 → UInt8

def Post.enter (p : Post) (s : State) : State :=
  { s with tb := p.tb, pb := p.pb, rBuf := p.rBuf, flags := p.flags }

def server (atof : Bytes → UInt32) : Machine State Post Write where
  step s p := (handler atof p.body).run (p.enter s) p.handler.cmds

-- The value of a command is valid. The delay of the third input is also that of the second, and is in
-- force already. A password and a user are those that are in force.
structure Cmd.Agrees (b : Body) (s : State) (c : Cmd) : Prop where
  fits     : c.Fits b s
  number   : ∀ t a v, c = .int16 t a v → (number? t b s.tb).isSome
  other    : ∀ t a v, c = .int16 t a v → ∀ w, a = (Var.u16 w).home → v ≠ w →
    ∀ x ∈ number? t b s.tb, s.ram.vars (.u16 v) = x ∧ s.ram.vars (.u16 w) = x
  password : c.addr = some eePass → ∀ t ∈ c.stored b s, s.ram.password.text 0 = some t
  username : c.addr = some eeUsername → ∀ t ∈ c.stored b s, s.ram.username.text 0 = some t

def Post.Agrees (atof : Bytes → UInt32) (s : State) (p : Post) : Prop :=
  (Config.handler atof p.body).Guarded (fun s c => c.Agrees p.body s) (p.enter s) p.handler.cmds

-- What a restart reads

def Var.all : List Var :=
  (List.finRange 8).flatMap (fun k => [.u8 (.lowLimit k), .u8 (.highLimit k), .u8 (.his k),
    .u8 (.enble k), .u8 (.kanal k), .u16 (.delay k), .kalibracija k, .code k]) ++
  (List.finRange 3).flatMap (fun i => [.u8 (.enable i), .u8 (.type i), .u16 (.inputDelay i)]) ++
  [.u8 .dston, .u8 .sntpon, .u16 .scansetup]

theorem Var.mem_all : v ∈ all := by
  match v with
  | u8 v | u16 v => cases v <;> simp [all]
  | kalibracija k | code k => simp [all]

def Var.size : Var → Nat
  | u8 _          => 1
  | u16 _         => 2
  | kalibracija _ => 4
  | code _        => 8

theorem Var.encode_length {x : v.Val} : (v.encode x).length = v.size := by
  match v, x with
  | u8 _, _ | u16 _, _ | kalibracija _, _ => rfl
  | code _, x => exact x.length_eq

theorem Var.holds : v.home ∈ Eeprom.fields ∧
    Slots.Holds Eeprom.fields Eeprom.size Eeprom.page v.home v.size := by
  have : ∀ v ∈ all, v.home ∈ Eeprom.fields ∧
      Slots.fits Eeprom.fields Eeprom.size Eeprom.page v.home v.size := by decide +kernel
  have ⟨hf, hs⟩ := this v mem_all
  exact ⟨hf, Slots.holds_iff (by decide) |>.mpr <| Slots.le_room hs⟩

theorem Var.load_congr (h : ∀ x, Eeprom.In v.home x → m₁ x = m x) : v.load m₁ = v.load m := by
  have h : ∀ i < v.size, m₁ (v.home + i) = m (v.home + i) := by
    intro i hi
    have hh := v.holds.2
    exact h _ <| Memory.pageAddr_eq hh.inPage hi ▸ hh.inSlot i hi
  cases v with
  | u8 v => exact h 0 Nat.zero_lt_one
  | u16 v =>
    have ⟨h₀, h₁⟩ : _ ∧ _ := ⟨h 0 Nat.zero_lt_two, h 1 Nat.one_lt_two⟩
    simp only [Nat.add_zero] at h₀
    simp only [load, eeRead16, h₀, h₁]
  | kalibracija k =>
    have hs : (kalibracija k).size = 4 := rfl
    have h₀ := h 0 (by omega)
    simp only [Nat.add_zero] at h₀
    simp only [load, eeRead32, h₀, h 1 (by omega), h 2 (by omega), h 3 (by omega)]
  | code k =>
    have hr : m₁.read (code k).home 8 = m.read (code k).home 8 := Memory.read_congr h
    simp only [load, hr]

theorem Var.load_write {x : v.Val} : v.load (m.writePage 64 v.home (v.encode x)) = x := by
  refine load_eq <| Memory.read_writePage ?_
  rw [encode_length]
  exact v.holds.2.inPage

-- The text that a restart finds for the user or the password
def loginText (m : Memory) (addr : Nat) : Option Bytes :=
  cstr (m.read addr 16 ++ List.replicate 9 0)

theorem loginText_congr (ha : addr = eePass ∨ addr = eeUsername)
    (h : ∀ x, Eeprom.In addr x → n x = m x) : loginText n addr = loginText m addr := by
  have hi : ∀ i < 16, Eeprom.In addr (addr + i) := by
    cases ha with
    | inl ha =>
      subst ha
      decide +kernel
    | inr ha =>
      subst ha
      decide +kernel
  simp only [loginText, Memory.read_congr fun i hl => h _ <| hi i hl]

theorem loginText_write {t : Bytes} (ha : addr = eePass ∨ addr = eeUsername) (hn : 0 ∉ t)
    (hl : t.length < 16) : loginText (m.writePage 64 addr (t ++ [0])) addr = some t := by
  have hp : Memory.InPage 64 addr 16 := by
    cases ha with
    | inl ha =>
      subst ha
      decide
    | inr ha =>
      subst ha
      decide
  have hp : Memory.InPage 64 addr (t ++ [0]).length := by
    simp only [Memory.InPage, List.length_append, List.length_singleton] at hp ⊢
    omega
  obtain ⟨r, hr⟩ : ∃ r, (m.writePage 64 addr (t ++ [0])).read addr 16 = (t ++ [0]) ++ r := by
    obtain ⟨k, hk⟩ : ∃ k, 16 = (t ++ [0]).length + k := ⟨15 - t.length, by simp; omega⟩
    rw [hk, Memory.read_add, Memory.read_writePage hp]
    exact ⟨_, rfl⟩
  rw [loginText, hr, List.append_assoc, List.append_assoc, List.singleton_append]
  exact cstr_append_nul hn

theorem loadParam_reset : ∃ r, loadParam false (.reset m) = some r ∧
    r.eeprom = m ∧ r.ram.vars = (fun v => v.load m) ∧ r.ram.username.text 0 =
      loginText m eeUsername ∧ r.ram.password.text 0 = loginText m eePass := by
  obtain ⟨rBuf, hb⟩ : ∃ b, (Buffer.zero 1024).write 0 (m.read (sensorBlock 7) 0x30) = some b :=
    Buffer.write_eq_some (by simp)
  have login (addr : Nat) : ∃ l : Buffer 25, (Buffer.zero 25).write 0 (m.read addr 16) = some l ∧
      l.text 0 = loginText m addr := by
    obtain ⟨l, hl⟩ : ∃ b, (Buffer.zero 25).write 0 (m.read addr 16) = some b :=
      Buffer.write_eq_some (by simp)
    exact ⟨l, hl, by simp [Buffer.text, Buffer.write_bytes hl, loginText, Buffer.zero]⟩
  obtain ⟨p, hp, hpt⟩ := login eePass
  obtain ⟨u, hu, hut⟩ := login eeUsername
  have hr : loadParam false (.reset m) = some { State.reset m with rBuf, ram := {
      vars := fun v => v.load m, username := u, password := p } } := by
    simp [loadParam, State.reset, hb, hp, hu]
  exact ⟨_, hr, rfl, rfl, hut, hpt⟩

-- A state in which the map has its magic and RAM holds what a restart would load
structure Loaded (s : State) : Prop where
  magic    : eeRead16 s.eeprom eeInit = 0x55AA
  vars     : ∀ v, s.ram.vars v = v.load s.eeprom
  username : s.ram.username.text 0 = loginText s.eeprom eeUsername
  password : s.ram.password.text 0 = loginText s.eeprom eePass

theorem Loaded.coherent (h : Loaded s) : Coherent s := by
  have ⟨r, hr, _, hv, hu, hp⟩ := loadParam_reset (m := s.eeprom)
  refine ⟨r, ?_, ?_, hu ▸ h.username, hp ▸ h.password⟩
  · exact if_pos h.magic |>.trans hr
  · exact hv ▸ funext h.vars

theorem loaded_of_initParam (hm : eeRead16 m eeInit = 0x55AA)
    (h : initParam false (.reset m) = some s) : Loaded s := by
  have ⟨r, hr, he, hv, hu, hp⟩ := loadParam_reset (m := m)
  cases hr.symm.trans <| (if_pos hm).symm.trans h
  exact ⟨he ▸ hm, fun v => he ▸ congrFun hv v, he ▸ hu, he ▸ hp⟩

-- More about how the commands of a handler share the map and the variables

-- `SaveInput` saves the third delay and sets no variable to it.
structure Cmd.Owned (cs : List Cmd) (c : Cmd) : Prop where
  not_eeInit : c.addr ≠ some eeInit
  owner      : ∀ v ∈ c.var, ∃ c₁ ∈ cs, c₁.addr = some v.home
  var        : ∀ a ∈ c.addr, ∀ v ∈ Var.all, Nat.beq v.home a →
    c.var = some v ∨ (c.isInt16 ∧ v = .u16 (.inputDelay 2) ∧ ∀ c₁ ∈ cs, c₁.var ≠ some v)
  login      : ∀ a ∈ c.addr, a = eePass ∨ a = eeUsername →
    c.size = none ∧ c.var = none ∧ Eeprom.room a = 16 ∧ ∀ t ∈ c.tag, c ≠ .naziv t a

instance : Decidable (Cmd.Owned cs c) :=
  decidable_of_iff (c.addr ≠ some eeInit ∧ (∀ v ∈ c.var, ∃ c₁ ∈ cs, c₁.addr = some v.home) ∧
      (∀ a ∈ c.addr, ∀ v ∈ Var.all, Nat.beq v.home a →
        c.var = some v ∨ (c.isInt16 ∧ v = .u16 (.inputDelay 2) ∧ ∀ c₁ ∈ cs, c₁.var ≠ some v)) ∧
      (∀ a ∈ c.addr, a = eePass ∨ a = eeUsername →
        c.size = none ∧ c.var = none ∧ Eeprom.room a = 16 ∧ ∀ t ∈ c.tag, c ≠ .naziv t a))
    ⟨fun ⟨i, o, v, l⟩ => ⟨i, o, v, l⟩, fun ⟨i, o, v, l⟩ => ⟨i, o, v, l⟩⟩

-- Only the third delay is put into a variable that has been set before.
theorem Handler.homes : ∀ h ∈ handlers, (∀ c ∈ h.cmds, c.Owned h.cmds) ∧
    h.cmds.Pairwise fun c c₁ => ∀ v ∈ c.var, c.addr = some v.home → c₁.var = some v →
      c₁.addr = some (Var.u16 (.inputDelay 2)).home ∧ v = .u16 (.inputDelay 1) := by
  decide +kernel

theorem Handler.owned (hc : c ∈ h.cmds) : c.Owned h.cmds :=
  (homes h <| mem_handlers h).1 c hc

theorem Handler.not_eeInit (hc : c ∈ h.cmds) : c.addr ≠ some eeInit :=
  (owned hc).not_eeInit

-- The home of a variable that a handler sets is saved by the same handler.
theorem Handler.owner (hc : c ∈ h.cmds) (hv : c.var = some v) :
    ∃ c₁ ∈ h.cmds, c₁.addr = some v.home :=
  (owned hc).owner v hv

theorem Handler.owner_var (hc : c ∈ h.cmds) (ha : c.addr = some v.home) : c.var = some v ∨
    (c.isInt16 ∧ v = .u16 (.inputDelay 2) ∧ ∀ c₁ ∈ h.cmds, c₁.var ≠ some v) :=
  (owned hc).var _ ha v Var.mem_all (Nat.beq_refl _)

theorem Handler.var_after : h.cmds.Pairwise fun c c₁ => ∀ v ∈ c.var, c.addr = some v.home →
    c₁.var = some v → c₁.addr = some (Var.u16 (.inputDelay 2)).home ∧ v = .u16 (.inputDelay 1) :=
  (homes h <| mem_handlers h).2

theorem Handler.login_addr (hc : c ∈ h.cmds) (ha : c.addr = some a)
    (hl : a = eePass ∨ a = eeUsername) : c.size = none ∧ c.var = none ∧ Eeprom.room a = 16 ∧
      ∀ t ∈ c.tag, c ≠ .naziv t a :=
  (owned hc).login a ha hl

-- The commands of a handler, for a body with values that agree

section

variable (hr : (handler atof b).run s h.cmds = some (s₁, t))
variable (g : (handler atof b).Guarded (fun s c => c.Agrees b s) s h.cmds)

include g in
theorem agrees_fits : (handler atof b).Guarded (fun s c => c.Fits b s) s h.cmds :=
  Machine.Guarded.mono (fun _ _ ha => ha.fits) g

include hr g in
theorem around (hc : c ∈ h.cmds) : ∃ p q s₂ s₃, Around atof b h s s₁ p c q s₂ s₃ ∧
    c.Agrees b s₂ ∧ (handler atof b).Guarded (fun s c => c.Agrees b s) s₃ q := by
  have ⟨p, q, hc⟩ := List.append_of_mem hc
  have ⟨s₂, s₃, m⟩ := Around.of_run hr (agrees_fits g) hc
  have ⟨_, hp, _⟩ := m.before
  have ⟨_, he, _⟩ := m.exec
  have ⟨_, g⟩ := Machine.Guarded.append (hc ▸ g) hp
  exact ⟨p, q, s₂, s₃, m, g.head, g.tail he⟩

include hr g in
theorem untouched (hf : a ∈ Eeprom.fields) (hn : ∀ c ∈ h.cmds, c.addr ≠ some a)
    (hx : Eeprom.In a x) : s₁.eeprom x = s.eeprom x :=
  run_eeprom_frame (List.Subset.refl _) (agrees_fits g) hr hf hn hx

include hr g in
theorem magic_kept : eeRead16 s₁.eeprom eeInit = eeRead16 s.eeprom eeInit := by
  have hx {x} (hx : Eeprom.In eeInit x) : s₁.eeprom x = s.eeprom x :=
    untouched hr g (by decide +kernel) (fun c hc => h.not_eeInit hc) hx
  have h₀ := hx (x := eeInit) (by decide +kernel)
  have h₁ := hx (x := eeInit + 1) (by decide +kernel)
  simp only [eeRead16, h₀, h₁]

-- After its own command a variable is only set to what it is.
theorem var_kept_after (m : Around atof b h s s₁ p c q s₂ s₃) (ha : c.addr = some v.home)
    (hv : c.var = some v) (g : (handler atof b).Guarded (fun s c => c.Agrees b s) s₃ q) :
    s₁.ram.vars v = s₃.ram.vars v := by
  have ⟨_, hq, _⟩ := m.after
  refine Machine.run_invariant (I := fun s₁ => s₁.ram.vars v = s₃.ram.vars v)
    (fun {s₄ c₁ s₅ o} hi hm he => ?_) rfl g.mem hq
  rw [← hi]
  by_cases hv₁ : c₁.var = some v
  case neg => exact exec_ram he hv₁
  case pos =>
    have hp := h.var_after
    rw [m.cmds, List.pairwise_append, List.pairwise_cons] at hp
    have ⟨ha₁, hv₂⟩ := hp.2.1.1 c₁ hm.1 v hv ha hv₁
    have hi₁ : c₁.isInt16 := by
      refine (h.var_home (m.after_subset hm.1) hv₁).resolve_left fun hn => ?_
      rw [ha₁, hv₂] at hn
      exact absurd hn (by decide)
    cases c₁ with
    | int16 t a w =>
      cases hv₁
      cases ha₁
      rw [exec_number_var he]
      cases hx : number? t b s₄.tb with
      | none => rfl
      | some x =>
        have hw : w ≠ .inputDelay 2 := by
          intro hw
          cases hv₂
          exact absurd hw (by decide)
        exact (hm.2.other t _ w rfl _ rfl hw x hx).1.symm
    | _ => cases hi₁

-- A variable that its own command sets
theorem var_loaded (m : Around atof b h s s₁ p c q s₂ s₃) (ha : c.addr = some v.home)
    (hv : c.var = some v) (hg : c.Agrees b s₂) (hl : s.ram.vars v = v.load s.eeprom) :
    s₃.ram.vars v = v.load s₃.eeprom := by
  have ⟨_, he, _⟩ := m.exec
  cases hi : c.isInt16 with
  | true =>
    cases c with
    | int16 t a w =>
      cases hv
      cases ha
      have ⟨x, hx⟩ := Option.isSome_iff_exists.mp <| hg.number _ _ _ rfl
      have hw := exec_number he
      simp only [hx] at hw
      rw [hw.1, hw.2, Ram.set_self]
      exact (Var.load_write (v := .u16 w)).symm
    | _ => cases hi
  | false =>
    have hp : s₂.ram.vars v = s.ram.vars v := by
      have ⟨_, hp, _⟩ := m.before
      refine run_ram_frame m.before_subset hp fun c₁ hc₁ hv₁ => ?_
      obtain hn | ⟨_, hn⟩ | ⟨ha₁, _⟩ := h.var_inj m.mem (m.before_subset hc₁) hv hv₁
      · exact absurd hc₁ (hn ▸ m.others.1)
      · simp [hi] at hn
      · exact absurd hc₁ <| h.addr_inj m.mem (m.before_subset hc₁) ha ha₁ ▸ m.others.1
    cases exec_output he with
    | nothing _ hm hr | flag _ _ _ _ hm hr =>
      rw [hm, hr, hp, hl]
      exact Var.load_congr fun x hx => (m.eeprom ha hx).1.symm
    | fixed _ _ hn | text _ _ hn => simp [hn] at hv
    | naziv _ _ _ hn => simp [hn, Cmd.var] at hv
    | var w x hw ha₁ hm hr =>
      cases hv.symm.trans hw
      cases ha.symm.trans ha₁
      rw [hm, hr, Ram.set_self, Var.load_write]

include hr g in
theorem vars_kept (hl : ∀ v, s.ram.vars v = v.load s.eeprom) :
    s₁.ram.vars v = v.load s₁.eeprom := by
  have quiet {w} (hn : ∀ c ∈ h.cmds, c.var ≠ some w) : s₁.ram.vars w = s.ram.vars w :=
    run_ram_frame (List.Subset.refl _) hr fun c hc hv => absurd hv (hn c hc)
  by_cases ho : ∃ c ∈ h.cmds, c.addr = some v.home
  case neg =>
    have hn : ∀ c ∈ h.cmds, c.addr ≠ some v.home := fun c hc ha => ho ⟨c, hc, ha⟩
    rw [quiet fun c hc hv => ho <| h.owner hc hv, hl]
    exact Var.load_congr fun x hx => (untouched hr g v.holds.1 hn hx).symm
  case pos =>
    have ⟨c, hc, ha⟩ := ho
    have ⟨p, q, s₂, s₃, m, hg, gq⟩ := around hr g hc
    have hload : v.load s₁.eeprom = v.load s₃.eeprom :=
      Var.load_congr fun x hx => (m.eeprom ha hx).2
    cases h.owner_var hc ha with
    | inl hv =>
      rw [var_kept_after m ha hv gq, hload]
      exact var_loaded m ha hv hg (hl v)
    | inr hv =>
      have ⟨hi, hd, hn⟩ := hv
      cases c with
      | int16 t a w =>
        cases ha
        have ⟨_, he, _⟩ := m.exec
        have ⟨x, hx⟩ := Option.isSome_iff_exists.mp <| hg.number _ _ _ rfl
        have he := exec_number he
        simp only [hx] at he
        have hw : w ≠ .inputDelay 2 := fun hw => hn _ hc <| hw ▸ hd ▸ rfl
        have ⟨_, hs⟩ := hg.other t _ w rfl (.inputDelay 2) (hd ▸ rfl) hw x hx
        have h₂ : s₂.ram.vars v = s.ram.vars v := by
          have ⟨_, hp, _⟩ := m.before
          exact run_ram_frame m.before_subset hp fun c hc hv => absurd hv (hn c (m.before_subset hc))
        rw [quiet hn, hload, he.1, ← h₂]
        subst hd
        rw [hs]
        exact (Var.load_write (v := .u16 (.inputDelay 2))).symm
      | _ => cases hi

-- A password or a user that is saved is the one in force.
include hr g in
theorem login_kept (ha : a = eePass ∨ a = eeUsername) {f : Ram → Buffer 25}
    (hf : f = Ram.password ∧ a = eePass ∨ f = Ram.username ∧ a = eeUsername)
    (hl : (f s.ram).text 0 = loginText s.eeprom a) : (f s₁.ram).text 0 = loginText s₁.eeprom a := by
  have same {cs s s₁ t} (hr : (handler atof b).run s cs = some (s₁, t)) : f s₁.ram = f s.ram := by
    have ⟨hu, hp⟩ := run_login hr
    obtain ⟨hf, _⟩ | ⟨hf, _⟩ := hf <;> subst hf
    · exact hp
    · exact hu
  rw [same hr, hl]
  by_cases ho : ∃ c ∈ h.cmds, c.addr = some a
  case neg =>
    have hn : ∀ c ∈ h.cmds, c.addr ≠ some a := fun c hc ha => ho ⟨c, hc, ha⟩
    have hx : a ∈ Eeprom.fields := by
      cases ha <;> subst a <;> decide +kernel
    exact loginText_congr ha fun x hi => (untouched hr g hx hn hi).symm
  case pos =>
    have ⟨c, hc, hca⟩ := ho
    have ⟨p, q, s₂, s₃, m, hg, _⟩ := around hr g hc
    have ⟨_, hp, _⟩ := m.before
    have ⟨_, he, _⟩ := m.exec
    have before : loginText s₂.eeprom a = loginText s.eeprom a :=
      loginText_congr ha fun x hx => (m.eeprom hca hx).1
    rw [loginText_congr (n := s₁.eeprom) ha fun x hx => (m.eeprom hca hx).2, ← before]
    have ⟨hs, hv, hroom, hz⟩ := h.login_addr hc hca ha
    cases exec_output he with
    | nothing _ hm | flag _ _ _ _ hm => rw [hm]
    | fixed _ hn => simp [hs] at hn
    | var _ _ hn => simp [hv] at hn
    | naziv t r _ hn =>
      subst hn
      cases hca
      exact absurd rfl (hz _ rfl)
    | text t hst _ ha₁ hm =>
      cases hca.symm.trans ha₁
      have ht : (f s₂.ram).text 0 = some t := by
        obtain ⟨hf, ha⟩ | ⟨hf, ha⟩ := hf <;> subst hf <;> subst ha
        · exact hg.password hca t hst
        · exact hg.username hca t hst
      have hl₂ : loginText s₂.eeprom a = some t := by rw [before, ← hl, ← same hp, ht]
      rw [hm, hl₂]
      exact (loginText_write ha (Buffer.text_nul_not_mem ht) <| hroom ▸ hg.fits a hca t hst).symm

include hr g in
theorem handler_loaded (hl : Loaded s) : Loaded s₁ where
  magic    := (magic_kept hr g).trans hl.magic
  vars     _ := vars_kept hr g hl.vars
  username := login_kept hr g (.inr rfl) (.inr ⟨rfl, rfl⟩) hl.username
  password := login_kept hr g (.inl rfl) (.inl ⟨rfl, rfl⟩) hl.password

end

theorem Loaded.enter {p : Post} (h : Loaded s) : Loaded (p.enter s) :=
  ⟨h.magic, h.vars, h.username, h.password⟩

-- As long as the EEPROM is not new at the start and the values of all POSTs agree, what is set in RAM
-- is what a restart would load.
theorem coherence_law (hm : eeRead16 m eeInit = 0x55AA) (hi : initParam false (.reset m) = some s)
    (g : (server atof).Guarded (Post.Agrees atof) s ps)
    (hr : (server atof).run s ps = some (s₁, t)) : Coherent s₁ := by
  refine Loaded.coherent <| Machine.run_invariant (I := Loaded) (fun hl hp hs => ?_)
    (loaded_of_initParam hm hi) g hr
  exact handler_loaded hs hp hl.enter

-- A map with nothing but its magic
def magicOnly : Memory :=
  fun x => if x = 0 then 0x55 else if x = 1 then 0xAA else 0

def sntpPost : Post where
  handler := .saveSNTP
  body    := sntpPage
  tb      := .zero 130
  pb      := .zero 40
  rBuf    := .zero 1024
  flags _ := fun _ => 0

theorem coherence_law_sntp : ∃ s s₁ t, initParam false (.reset magicOnly) = some s ∧
    (server fun _ => 0).run s [sntpPost] = some (s₁, t) ∧ Coherent s₁ := by
  have hd : (initParam false (.reset magicOnly)).any fun s =>
      ((server fun _ => 0).run s [sntpPost]).isSome ∧
        (handler (fun _ => 0) sntpPage).Guarded (fun s c => c.Fits sntpPage s) (sntpPost.enter s)
          saveSNTP := by
    decide +kernel
  have ⟨s, hi, hd⟩ := (Option.any_eq_true ..).mp hd
  have ⟨hr, g⟩ := of_decide_eq_true hd
  have ⟨⟨s₁, t⟩, hr⟩ := Option.isSome_iff_exists.mp hr
  have hc : ∀ c ∈ saveSNTP, c.isInt16 = false ∧ c.addr ≠ some eePass ∧ c.addr ≠ some eeUsername := by
    decide +kernel
  have agrees : sntpPost.Agrees (fun _ => 0) s := by
    refine Machine.Guarded.mono (fun s c hm => ?_) g.mem
    have ⟨hi, hp, hu⟩ := hc c hm.1
    exact {
      fits     := hm.2
      number   := fun t a v hn => absurd hi (hn ▸ nofun)
      other    := fun t a v hn => absurd hi (hn ▸ nofun)
      password := fun hn => absurd hn hp
      username := fun hn => absurd hn hu
    }
  have g : (server fun _ => 0).Guarded (Post.Agrees fun _ => 0) s [sntpPost] := by
    refine ⟨agrees, ?_⟩
    split <;> trivial
  exact ⟨s, s₁, t, hi, hr, coherence_law (by decide +kernel) hi g hr⟩

-- The first start leaves the limits of the sensors out of RAM.
theorem incoherent_after_first_start :
    ¬∀ m s, initParam false (.reset m) = some s → Coherent s := by
  intro h
  have hd : (initParam false (.reset fun _ => 0xFF)).map (fun s => (eeRead16 s.eeprom eeInit,
      s.ram.vars (.u8 (.highLimit 0)), (Var.u8 (.highLimit 0)).load s.eeprom)) =
      some (0x55AA, 0, 40) := by
    decide +kernel
  have ⟨s, hi, hd⟩ := Option.map_eq_some_iff.mp hd
  have ⟨hm, hd⟩ := Prod.mk.inj hd
  have ⟨h₀, h₁⟩ := Prod.mk.inj hd
  have ⟨r, hr, hv, _⟩ := h _ s hi
  have ⟨r₁, hr₁, _, hv₁, _⟩ := loadParam_reset (m := s.eeprom)
  cases hr.symm.trans <| (if_pos hm).trans hr₁
  have := congrFun (hv.trans hv₁) (.u8 (.highLimit 0))
  rw [h₀, h₁] at this
  exact absurd this (by decide)

end Config
