import Webtermo.Execution.Config.Theorems.Frame

open Define

namespace Config

variable {atof : Bytes → UInt32} {b : Body} {c c₁ : Cmd} {h : Handler} {s s₁ s₂ s₃ : State}

-- The bytes that hold the setting of a command
def Handler.Covers (h : Handler) (c : Cmd) (x : Nat) : Prop :=
  match c with
  | .flag _ f i => ∃ a, .flush f a ∈ h.cmds ∧ x = a + i.val
  | c           => ∃ a, c.addr = some a ∧ Eeprom.In a x

-- The setting of a command has the same value in both states.
structure Framed (h : Handler) (c : Cmd) (s s₁ : State) : Prop where
  eeprom : ∀ x, h.Covers c x → s₁.eeprom x = s.eeprom x
  ram    : ∀ v : Var, c.addr = some v.home → s₁.ram.vars v = s.ram.vars v
  login  : s₁.ram.username = s.ram.username ∧ s₁.ram.password = s.ram.password

-- The tag of the setting at an address is missing.
def Handler.Missing (h : Handler) (b : Body) (a : Nat) : Prop :=
  ∃ c ∈ h.cmds, c.addr = some a ∧ c.Absent b

-- The number that the value of a tag stands for
def number? (tag : Bytes) (b : Body) (tb : Tb) : Option UInt16 := do
  let (varlen, tb) ← xmlParser tag b tb
  if varlen = 0 then none
  else do
    let (x, y) ← (← intToFile varlen tb)
    some (x.toUInt16 * 256 + y.toUInt16)

-- The buffers of a command with a missing tag hold what is set already, and no number is put into the
-- variable of a setting whose tag is missing unless it is there already.
structure Cmd.Kept (atof : Bytes → UInt32) (b : Body) (h : Handler) (s : State) (c : Cmd) : Prop where
  stale : c.Absent b → ∀ a ∈ c.addr, ∀ d ∈ c.stale atof s,
    s.eeprom.read a d.length = d ∧ ∀ v ∈ c.var, v.encode (s.ram.vars v) = d
  flag  : c.Absent b → ∀ t f i, c = .flag t f i → ∀ a, .flush f a ∈ h.cmds →
    s.eeprom (a + i.val) = if s.tb.isText on then 1 else 0
  other : ∀ t a v, c = .int16 t a v → a ≠ (Var.u16 v).home → h.Missing b (Var.u16 v).home →
    ∀ x ∈ number? t b s.tb, s.ram.vars (.u16 v) = x

-- How the commands of a handler share the map and the variables

def Cmd.isInt16 : Cmd → Bool
  | .int16 .. => true
  | _         => false

def Cmd.flag? : Cmd → Option (Flags × Fin 5)
  | .flag _ f i => some (f, i)
  | _           => none

def Cmd.flush? : Cmd → Option Flags
  | .flush f _ => some f
  | _          => none

-- Two commands of a handler have nothing in common, apart from a variable that a number is put into at the
-- home of the variable.
structure Cmd.Apart (c c₁ : Cmd) : Prop where
  addr : ∀ a ∈ c.addr, c₁.addr = some a → c = c₁
  var  : ∀ v ∈ c.var, c₁.var = some v →
    c = c₁ ∨ (c.addr = some v.home ∧ c.isInt16) ∨ (c₁.addr = some v.home ∧ c₁.isInt16)
  flag : ∀ x ∈ c.flag?, c₁.flag? = some x → c = c₁

instance : Decidable (Cmd.Apart c c₁) :=
  decidable_of_iff ((∀ a ∈ c.addr, c₁.addr = some a → c = c₁) ∧
      (∀ v ∈ c.var, c₁.var = some v →
        c = c₁ ∨ (c.addr = some v.home ∧ c.isInt16) ∨ (c₁.addr = some v.home ∧ c₁.isInt16)) ∧
      (∀ x ∈ c.flag?, c₁.flag? = some x → c = c₁))
    ⟨fun ⟨a, v, f⟩ => ⟨a, v, f⟩, fun ⟨a, v, f⟩ => ⟨a, v, f⟩⟩

-- Flags are saved after all of them have been read.
theorem Handler.table : ∀ h ∈ handlers, (∀ c ∈ h.cmds, ∀ c₁ ∈ h.cmds, c.Apart c₁) ∧
    (h.cmds.Pairwise fun c c₁ => c ≠ c₁ ∧ ∀ f ∈ c.flush?, ∀ x ∈ c₁.flag?, x.1 ≠ f) ∧
    ∀ c ∈ h.cmds, ∀ v ∈ c.var, c.addr = some v.home ∨ c.isInt16 := by
  decide +kernel

theorem Handler.apart (hc : c ∈ h.cmds) (hc₁ : c₁ ∈ h.cmds) : c.Apart c₁ :=
  (table h <| mem_handlers h).1 c hc c₁ hc₁

theorem Handler.nodup : h.cmds.Nodup :=
  (table h <| mem_handlers h).2.1.imp And.left

theorem Handler.addr_inj (hc : c ∈ h.cmds) (hc₁ : c₁ ∈ h.cmds) (ha : c.addr = some a)
    (ha₁ : c₁.addr = some a) : c = c₁ :=
  (apart hc hc₁).addr a ha ha₁

theorem Handler.var_inj (hc : c ∈ h.cmds) (hc₁ : c₁ ∈ h.cmds) (hv : c.var = some v)
    (hv₁ : c₁.var = some v) :
    c = c₁ ∨ (c.addr = some v.home ∧ c.isInt16) ∨ (c₁.addr = some v.home ∧ c₁.isInt16) :=
  (apart hc hc₁).var v hv hv₁

theorem Handler.var_home (hc : c ∈ h.cmds) (hv : c.var = some v) :
    c.addr = some v.home ∨ c.isInt16 :=
  (table h <| mem_handlers h).2.2 c hc v hv

theorem Handler.flag_inj (hc : c ∈ h.cmds) (hc₁ : c₁ ∈ h.cmds) (hf : c.flag? = some (f, i))
    (hf₁ : c₁.flag? = some (f, i)) : c = c₁ :=
  (apart hc hc₁).flag (f, i) hf hf₁

theorem Handler.flush_last : h.cmds.Pairwise fun c c₁ => ∀ f ∈ c.flush?, ∀ x ∈ c₁.flag?, x.1 ≠ f :=
  (table h <| mem_handlers h).2.1.imp And.right

theorem number_absent (hc : c ∈ h.cmds) (ht : c.tag = some t) (hb : ¬b.Has t) :
    number? t b tb = none := by
  simp only [number?, xmlParser_absent hc ht hb, Option.bind_eq_bind, Option.bind_some]
  match hi : intToFile 255 tb with
  | none          => rfl
  | some none     => rfl
  | some (some x) => exact absurd hi intToFile_absent

theorem exec_number (he : (Cmd.int16 t a v).exec atof b s = some (s₁, o)) :
    match number? t b s.tb with
    | none   => s₁.eeprom = s.eeprom ∧ s₁.ram = s.ram
    | some x => s₁.eeprom = s.eeprom.writePage 64 a (bytes16 x) ∧ s₁.ram = s.ram.set (.u16 v) x := by
  obtain ⟨s₂, o₁, o₂, hr, hf, _⟩ := exec_cases he
  rw [finish_eq (by simp) rfl] at hf
  cases hf
  obtain ⟨varlen, tb, hx, hr⟩ := receive_cases (t := t) rfl hr
  simp only [number?, hx, Option.bind_eq_bind, Option.bind_some]
  cases hr with
  | inl hr =>
    obtain ⟨hv, hs, _⟩ := hr
    simp [hv, hs]
  | inr hr =>
    obtain ⟨hv, hr⟩ := hr
    simp only [Cmd.parse, Option.bind_eq_bind, Option.bind_eq_some_iff] at hr
    obtain ⟨x, hi, hr⟩ := hr
    simp only [hv, if_false, hi, Option.bind_some]
    cases x with
    | none =>
      cases hr
      exact ⟨rfl, rfl⟩
    | some x =>
      simp only [Option.bind_eq_some_iff] at hr
      obtain ⟨pb, _, hr⟩ := hr
      cases hr
      exact ⟨rfl, rfl⟩

-- The variable keeps its value exactly if the number, if there is one, is that value.
theorem exec_number_var (he : (Cmd.int16 t a v).exec atof b s = some (s₁, o)) :
    s₁.ram.vars (.u16 v) = (number? t b s.tb).getD (s.ram.vars (.u16 v)) := by
  have := exec_number he
  split at this <;> simp [*]

theorem exec_silent (he : c.exec atof b s = some (s₁, [])) : s₁.eeprom = s.eeprom ∧ s₁.ram = s.ram := by
  cases exec_output he with
  | nothing _ he hr | flag _ _ _ _ he hr => exact ⟨he, hr⟩

-- A command with a missing tag keeps its setting exactly if the setting is what the buffers hold.
theorem stale_kept_iff (hc : c ∈ h.cmds) (ha : c.addr = some a) (hb : c.Absent b) (hf : c.Fits b s)
    (he : c.exec atof b s = some (s₁, o)) :
    ((∀ x, Eeprom.In a x → s₁.eeprom x = s.eeprom x) ∧
      ∀ v ∈ c.var, s₁.ram.vars v = s.ram.vars v) ↔
    ∀ d ∈ c.stale atof s, s.eeprom.read a d.length = d ∧ ∀ v ∈ c.var, v.encode (s.ram.vars v) = d := by
  have ho := parse_stale (exec_absent hc hb he) ha
  cases hd : c.stale atof s with
  | none =>
    rw [hd] at ho
    cases ho
    have ⟨hm, hr⟩ := exec_silent he
    simp [hm, hr]
  | some d =>
    rw [hd] at ho
    cases ho
    have hi : Isolated ⟨a, d⟩ := exec_isolated_iff hc he |>.mpr hf _ List.mem_cons_self
    have hm : s₁.eeprom = s.eeprom.writePage Eeprom.page a d := exec_eeprom he
    have heeprom : (∀ x, Eeprom.In a x → s₁.eeprom x = s.eeprom x) ↔ s.eeprom.read a d.length = d := by
      rw [hm, ← Memory.writePage_eq_iff hi.holds.inPage]
      refine ⟨fun h => funext fun x => ?_, fun h x _ => congrFun h x⟩
      by_cases hx : Eeprom.In a x
      case pos => exact h x hx
      case neg => exact hi.holds.frame hx
    have hram : ∀ v ∈ c.var, s₁.ram.vars v = s.ram.vars v ↔ v.encode (s.ram.vars v) = d := by
      intro v hv
      cases exec_output he with
      | fixed _ _ hn | text _ _ hn => simp [hn] at hv
      | naziv _ _ _ hn => simp [hn, Cmd.var] at hv
      | var w x hw _ _ hr =>
        cases hv.symm.trans hw
        rw [hr, Ram.set_self]
        exact ⟨fun h => h ▸ rfl, fun h => (Var.encode_inj h).symm⟩
    simp only [heeprom, Option.mem_some_iff, forall_eq']
    exact and_congr_right fun _ => forall₂_congr hram

-- A command in a run of its handler, with the states around it
structure Around (atof : Bytes → UInt32) (b : Body) (h : Handler) (s s₁ : State) (p : List Cmd)
    (c : Cmd) (q : List Cmd) (s₂ s₃ : State) : Prop where
  cmds   : h.cmds = p ++ c :: q
  before : ∃ o, (handler atof b).run s p = some (s₂, o) ∧
    (handler atof b).Guarded (fun s c => c.Fits b s) s p
  exec   : ∃ o, c.exec atof b s₂ = some (s₃, o) ∧ c.Fits b s₂
  after  : ∃ o, (handler atof b).run s₃ q = some (s₁, o) ∧
    (handler atof b).Guarded (fun s c => c.Fits b s) s₃ q

namespace Around

theorem of_run (hr : (handler atof b).run s h.cmds = some (s₁, t))
    (g : (handler atof b).Guarded (fun s c => c.Fits b s) s h.cmds) (hc : h.cmds = p ++ c :: q) :
    ∃ s₂ s₃, Around atof b h s s₁ p c q s₂ s₃ := by
  rw [hc] at hr g
  have ⟨s₂, s₃, o₁, o₂, o₃, h₁, h₂, h₃⟩ := Machine.run_split hr
  have ⟨g₁, g₂⟩ := g.append h₁
  exact ⟨s₂, s₃, hc, ⟨o₁, h₁, g₁⟩, ⟨o₂, h₂, g₂.head⟩, ⟨o₃, h₃, g₂.tail h₂⟩⟩

variable (m : Around atof b h s s₁ p c q s₂ s₃)
include m

theorem mem : c ∈ h.cmds := by
  simp [m.cmds]

theorem others : c ∉ p ∧ c ∉ q := by
  have hn := h.nodup
  rw [m.cmds, List.nodup_append, List.nodup_cons] at hn
  exact ⟨fun hp => hn.2.2 c hp c List.mem_cons_self rfl, hn.2.1.1⟩

theorem before_subset : p ⊆ h.cmds := by
  simp [m.cmds]

theorem after_subset : q ⊆ h.cmds := by
  intro c hc
  simp [m.cmds, hc]

-- The field of a command is written to by this command only.
theorem eeprom (ha : c.addr = some a) (hx : Eeprom.In a x) :
    s₂.eeprom x = s.eeprom x ∧ s₁.eeprom x = s₃.eeprom x := by
  have hf : a ∈ Eeprom.fields := h.placed m.mem ha |>.field
  have ⟨_, h₁, g₁⟩ := m.before
  have ⟨_, h₃, g₃⟩ := m.after
  refine ⟨run_eeprom_frame m.before_subset g₁ h₁ hf (fun c₁ hc hn => ?_) hx,
    run_eeprom_frame m.after_subset g₃ h₃ hf (fun c₁ hc hn => ?_) hx⟩
  · exact m.others.1 <| h.addr_inj m.mem (m.before_subset hc) ha hn ▸ hc
  · exact m.others.2 <| h.addr_inj m.mem (m.after_subset hc) ha hn ▸ hc

-- The variable of a missing setting is set by one command at most.
theorem ram (hv : c.var = some v) (hq : ¬c.Quiet b) (hm : h.Missing b v.home) :
    s₂.ram.vars v = s.ram.vars v ∧ s₁.ram.vars v = s₃.ram.vars v := by
  have quiet {c₁} (hc₁ : c₁ ∈ h.cmds) (ha : c₁.addr = some v.home) (hi : c₁.isInt16) :
      c₁.Quiet b := by
    have ⟨c₂, hc₂, ha₂, hb⟩ := hm
    refine ⟨h.addr_inj hc₂ hc₁ ha₂ ha ▸ hb, ?_⟩
    cases c₁ with
    | int16 t a w => exact ⟨t, a, w, rfl⟩
    | _ => cases hi
  have other {c₁} (hc₁ : c₁ ∈ h.cmds) (hn : c ≠ c₁) (hv₁ : c₁.var = some v) : c₁.Quiet b := by
    obtain hn₁ | ⟨ha, hi⟩ | ⟨ha, hi⟩ := h.var_inj m.mem hc₁ hv hv₁
    · exact absurd hn₁ hn
    · exact absurd (quiet m.mem ha hi) hq
    · exact quiet hc₁ ha hi
  have ⟨_, h₁, _⟩ := m.before
  have ⟨_, h₃, _⟩ := m.after
  refine ⟨run_ram_frame m.before_subset h₁ fun c₁ hc => ?_,
    run_ram_frame m.after_subset h₃ fun c₁ hc => ?_⟩
  · exact other (m.before_subset hc) fun hn => m.others.1 <| hn ▸ hc
  · exact other (m.after_subset hc) fun hn => m.others.2 <| hn ▸ hc

end Around

theorem exec_flush (he : (Cmd.flush f a).exec atof b s = some (s₁, o)) :
    s₁.eeprom = s.eeprom.writePage 64 a (List.ofFn (s.flags f)) := by
  obtain ⟨s₂, o₁, o₂, hr, hf, _⟩ := exec_cases he
  cases hr
  simp only [Cmd.finish, Option.bind_eq_bind, Option.bind_eq_some_iff] at hf
  obtain ⟨rBuf, _, hf⟩ := hf
  cases hf
  rfl

theorem exec_absent_flag (hc : Cmd.flag t f i ∈ h.cmds) (hb : ¬b.Has t)
    (he : (Cmd.flag t f i).exec atof b s = some (s₁, o)) :
    s₁.flags f i = if s.tb.isText on then 1 else 0 := by
  have hp := exec_absent hc ⟨t, rfl, hb⟩ he
  cases hp
  exact congrFun (Function.update_self ..) i |>.trans <| Function.update_self ..

-- The five flags lie in the field that they are saved to.
theorem flush_holds (ha : .flush f a ∈ h.cmds) :
    Slots.Holds Eeprom.fields Eeprom.size Eeprom.page a 5 :=
  Slots.holds_iff (by decide) |>.mpr <| (h.placed ha rfl).fixed 5 rfl |>.1

-- A flag that is missing becomes what the buffers stand for.
theorem flag_result (m : Around atof b h s s₁ p (.flag t f i) q s₂ s₃) (ha : .flush f a ∈ h.cmds)
    (hb : ¬b.Has t) :
    s₂.eeprom (a + i.val) = s.eeprom (a + i.val) ∧
      s₁.eeprom (a + i.val) = if s₂.tb.isText on then 1 else 0 := by
  have hh := flush_holds ha
  have hi : Eeprom.In a (a + i.val) := Memory.pageAddr_eq hh.inPage i.isLt ▸ hh.inSlot i.val i.isLt
  have hf : a ∈ Eeprom.fields := h.placed ha rfl |>.field
  have hp : Cmd.flush f a ∉ p := by
    intro hp
    have := h.flush_last
    rw [m.cmds, List.pairwise_append] at this
    exact this.2.2 _ hp _ List.mem_cons_self f rfl (f, i) rfl rfl
  have hq : Cmd.flush f a ∈ q := by
    have := m.cmds ▸ ha
    simpa [hp] using this
  have ⟨_, h₁, g₁⟩ := m.before
  have ⟨_, he, _⟩ := m.exec
  have ⟨_, h₃, g₃⟩ := m.after
  have ⟨q₁, q₂, hq⟩ := List.append_of_mem hq
  rw [hq] at h₃ g₃
  have ⟨s₄, s₅, _, _, _, h₄, he₅, h₅⟩ := Machine.run_split h₃
  have g₅ := (g₃.append h₄).2.tail he₅
  have hs : q₁ ⊆ h.cmds := fun c hc => by simp [m.cmds, hq, hc]
  have hs₂ : q₂ ⊆ h.cmds := fun c hc => by simp [m.cmds, hq, hc]
  have hn : Cmd.flush f a ∉ q₂ := by
    have := h.nodup
    rw [m.cmds, hq] at this
    simp only [List.nodup_append, List.nodup_cons] at this
    exact this.2.1.2.2.1.1
  have hflags : s₄.flags f i = s₃.flags f i := by
    refine run_flags_frame h₄ fun c₁ hc t₁ hn => ?_
    have hc₁ : c₁ = .flag t f i := h.flag_inj (hs hc) m.mem (hn ▸ rfl) rfl
    exact m.others.2 <| hq ▸ List.mem_append_left _ (hc₁ ▸ hc)
  refine ⟨run_eeprom_frame m.before_subset g₁ h₁ hf (fun c hc hn => ?_) hi, ?_⟩
  · exact hp <| h.addr_inj ha (m.before_subset hc) rfl hn ▸ hc
  · rw [run_eeprom_frame hs₂ g₅ h₅ hf (fun c hc hm => ?_) hi, exec_flush he₅,
      Memory.writePage_get (List.length_ofFn ▸ hh.inPage) (by simp), List.getElem_ofFn, Fin.eta, hflags,
      exec_absent_flag m.mem hb he]
    exact hn <| h.addr_inj ha (hs₂ hc) rfl hm ▸ hc

namespace Around

variable (m : Around atof b h s s₁ p c q s₂ s₃)
include m

theorem eeprom_iff (ha : c.addr = some a) : (∀ x, Eeprom.In a x → s₁.eeprom x = s.eeprom x) ↔
    ∀ x, Eeprom.In a x → s₃.eeprom x = s₂.eeprom x := by
  refine forall₂_congr fun x hx => ?_
  have ⟨h₁, h₂⟩ := m.eeprom ha hx
  rw [h₁, h₂]

theorem ram_iff (hv : c.var = some v) (hq : ¬c.Quiet b) (hm : h.Missing b v.home) :
    s₁.ram.vars v = s.ram.vars v ↔ s₃.ram.vars v = s₂.ram.vars v := by
  have ⟨h₁, h₂⟩ := m.ram hv hq hm
  rw [h₁, h₂]

-- If the settings of all missing tags are the same at the end, then each command has kept its own.
theorem kept_of_framed (hk : ∀ c ∈ h.cmds, c.Absent b → Framed h c s s₁) :
    c.Kept atof b h s₂ := by
  obtain ⟨_, he, hf⟩ := m.exec
  constructor
  case stale =>
    intro hb a ha d hd
    have hc := hk c m.mem hb
    refine stale_kept_iff m.mem ha hb hf he |>.mp ⟨?_, fun v hv => ?_⟩ d hd
    · refine m.eeprom_iff ha |>.mp fun x hx => hc.eeprom x ?_
      cases c with
      | flag => cases ha
      | _ => exact ⟨a, ha, hx⟩
    · have hq : ¬c.Quiet b := by
        rintro ⟨_, t, a, w, hq⟩
        simp [hq, Cmd.stale] at hd
      cases h.var_home m.mem hv with
      | inl hv₁ => exact m.ram_iff hv hq ⟨c, m.mem, hv₁, hb⟩ |>.mp <| hc.ram v hv₁
      | inr hi =>
        cases c with
        | int16 => simp [Cmd.stale] at hd
        | _ => cases hi
  case flag =>
    intro hb t f i hc a ha
    subst hc
    obtain ⟨_, ht, hb₁⟩ := id hb
    cases ht
    obtain ⟨h₁, h₂⟩ := flag_result m ha hb₁
    rw [h₁, ← h₂, (hk _ m.mem hb).eeprom _ ⟨a, ha, rfl⟩]
  case other =>
    intro t a v hc ha hm x hx
    subst hc
    obtain ⟨c₁, hc₁, ha₁, hb₁⟩ := id hm
    have hq : ¬(Cmd.int16 t a v).Quiet b := by
      rintro ⟨⟨_, ht, hb⟩, _⟩
      cases ht
      simp [number_absent m.mem rfl hb] at hx
    have := m.ram_iff rfl hq hm |>.mp <| (hk c₁ hc₁ hb₁).ram _ ha₁
    rw [← this, exec_number_var he, hx, Option.getD_some]

theorem framed_of_kept (ha : c.addr = some a) (hb : c.Absent b) (hk : c.Kept atof b h s₂) :
    ∀ x, Eeprom.In a x → s₁.eeprom x = s.eeprom x := by
  have ⟨_, he, hf⟩ := m.exec
  exact m.eeprom_iff ha |>.mpr (stale_kept_iff m.mem ha hb hf he |>.mpr (hk.stale hb a ha)).1

-- No command that keeps the missing settings changes a variable of one.
theorem ram_of_kept (hv : c.var = some v) (hq : ¬c.Quiet b) (hm : h.Missing b v.home)
    (hk : c.Kept atof b h s₂) : s₁.ram.vars v = s.ram.vars v := by
  have ⟨_, he, hf⟩ := m.exec
  refine m.ram_iff hv hq hm |>.mpr ?_
  have ⟨c₁, hc₁, ha₁, hb₁⟩ := hm
  by_cases ha : c.addr = some v.home
  case pos =>
    have hb : c.Absent b := h.addr_inj hc₁ m.mem ha₁ ha ▸ hb₁
    exact stale_kept_iff m.mem ha hb hf he |>.mpr (hk.stale hb _ ha) |>.2 v hv
  case neg =>
    have hi := (h.var_home m.mem hv).resolve_left ha
    cases c with
    | int16 t a w =>
      cases hv
      rw [exec_number_var he]
      cases hx : number? t b s₂.tb with
      | none => rfl
      | some x => exact (hk.other t a w rfl (fun hn => ha <| hn ▸ rfl) hm x hx).symm
    | _ => cases hi

end Around

-- Whenever all stored texts fit into their fields, a handler keeps the settings of all missing tags
-- exactly if it runs to its end and what the buffers hold at each missing tag is what is set already.
theorem frame_law (g : (handler atof b).Guarded (fun s c => c.Fits b s) s h.cmds) :
    (∃ s₁ t, (handler atof b).run s h.cmds = some (s₁, t) ∧
      ∀ c ∈ h.cmds, c.Absent b → Framed h c s s₁) ↔
    ((handler atof b).run s h.cmds).isSome ∧
      (handler atof b).Guarded (fun s c => c.Kept atof b h s) s h.cmds := by
  constructor
  case mp =>
    intro ⟨s₁, t, hr, hk⟩
    refine ⟨hr ▸ rfl, Machine.guarded_iff.mpr fun p c q s₂ o hc hp => ?_⟩
    have ⟨s₄, s₃, m⟩ := Around.of_run hr g hc
    have ⟨_, hp₁, _⟩ := m.before
    cases hp.symm.trans hp₁
    exact m.kept_of_framed hk
  case mpr =>
    intro ⟨hr, hk⟩
    have ⟨⟨s₁, t⟩, hr⟩ := Option.isSome_iff_exists.mp hr
    have around {c} (hc : c ∈ h.cmds) :
        ∃ p q s₂ s₃, Around atof b h s s₁ p c q s₂ s₃ ∧ c.Kept atof b h s₂ := by
      have ⟨p, q, hc⟩ := List.append_of_mem hc
      have ⟨s₂, s₃, m⟩ := Around.of_run hr g hc
      have ⟨_, hp, _⟩ := m.before
      exact ⟨p, q, s₂, s₃, m, Machine.guarded_iff.mp hk _ _ _ _ _ hc hp⟩
    refine ⟨s₁, t, hr, fun c hc hb => ⟨fun x hx => ?_, fun v hv => ?_, run_login hr⟩⟩
    · have ⟨p, q, s₂, s₃, m, hk⟩ := around hc
      cases c with
      | flag t f i =>
        have ⟨a, ha, hx⟩ := hx
        have ⟨_, ht, hb₁⟩ := hb
        cases ht
        have ⟨h₁, h₂⟩ := flag_result m ha hb₁
        rw [hx, h₂, ← h₁, hk.flag hb t f i rfl a ha]
      | _ =>
        have ⟨a, ha, hx⟩ := hx
        exact m.framed_of_kept ha hb hk x hx
    · by_cases hs : ∃ c₁ ∈ h.cmds, c₁.var = some v ∧ ¬c₁.Quiet b
      case pos =>
        have ⟨c₁, hc₁, hv₁, hq⟩ := hs
        have ⟨p, q, s₂, s₃, m, hk⟩ := around hc₁
        exact m.ram_of_kept hv₁ hq ⟨c, hc, hv, hb⟩ hk
      case neg =>
        refine run_ram_frame (List.Subset.refl _) hr fun c₁ hc₁ hv₁ => ?_
        by_contra hq
        exact hs ⟨c₁, hc₁, hv₁, hq⟩

-- A page with the name of the object and no other tag
def onlyName : Body :=
  posted "<NAZIV>Hladnjak</NAZIV>"

theorem frame_law_net :
    ∃ s₁ t, (handler (fun _ => 0) onlyName).run .blank Handler.saveNet.cmds = some (s₁, t) ∧
      ∀ c ∈ Handler.saveNet.cmds, c.Absent onlyName → Framed .saveNet c .blank s₁ := by
  refine frame_law (by decide +kernel) |>.mpr ⟨by decide +kernel, ?_⟩
  refine Machine.Guarded.mono (fun s c hc => ?_) Machine.Guarded.trivial.mem
  have hs : ∀ c ∈ saveNet, c.stale (fun _ => 0) s = none := by simp [saveNet, Cmd.stale]
  have hn : ∀ c ∈ saveNet, c.flag? = none ∧ c.isInt16 = false := by decide +kernel
  obtain ⟨hf, hi⟩ := hn c hc.1
  constructor
  case stale => simp [hs c hc.1]
  case flag =>
    rintro _ t f i rfl
    simp [Cmd.flag?] at hf
  case other =>
    rintro t a v rfl
    simp [Cmd.isInt16] at hi

-- The last tag of the page is missing.
def sntpWithoutDst : Body :=
  posted "<SNTP1>a.b</SNTP1><SNTP2>c</SNTP2><ZONA>1</ZONA><SENAB>ON</SENAB>"

theorem dst_switched_on :
    ¬∀ atof b (h : Handler) s s₁ t, (handler atof b).run s h.cmds = some (s₁, t) →
      ∀ c ∈ h.cmds, c.Absent b → Framed h c s s₁ := by
  intro h
  have hd : ((handler (fun _ => 0) sntpWithoutDst).run (.reset fun _ => 0) saveSNTP).map
      (fun x => x.1.eeprom eeDstState) = some 1 := by
    decide +kernel
  obtain ⟨⟨s₁, t⟩, hr, h₁⟩ := Option.map_eq_some_iff.mp hd
  have hc : Cmd.switch (xmlTag "DST") eeDstState on 1 0 (some .dston) ∈ saveSNTP := by simp [saveSNTP]
  have hf := h (fun _ => 0) sntpWithoutDst .saveSNTP _ s₁ t hr _ hc ⟨_, rfl, by decide +kernel⟩
  have hk : s₁.eeprom eeDstState = 0 := hf.eeprom eeDstState ⟨eeDstState, rfl, by decide +kernel⟩
  simp only [hk] at h₁
  exact absurd h₁ (by decide)

end Config
