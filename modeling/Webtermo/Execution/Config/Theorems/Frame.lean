import Webtermo.Execution.Config.Theorems.Isolation

open Define

namespace Config

variable {atof : Bytes → UInt32} {b : Body} {c : Cmd} {h : Handler} {s s₁ s₂ s₃ : State}

def Cmd.Absent (b : Body) (c : Cmd) : Prop :=
  ∃ tag, c.tag = some tag ∧ ¬b.Has tag

theorem Handler.tag_fits (hc : c ∈ h.cmds) (ht : c.tag = some tag) : tag.length ≤ 30 ∧ tag ≠ [] := by
  have : ∀ h ∈ handlers, ∀ c ∈ h.cmds, ∀ t ∈ c.tag, t.length ≤ 30 ∧ t ≠ [] := by decide +kernel
  exact this h (mem_handlers h) c hc tag ht

theorem xmlParser_absent (hc : c ∈ h.cmds) (ht : c.tag = some tag) (hb : ¬b.Has tag) :
    xmlParser tag b tb = some (255, tb) := by
  obtain ⟨hl, hn⟩ := h.tag_fits hc ht
  rw [xmlParser, if_pos <| bufsearch_eq_neg_one_iff hl hn |>.mpr hb]

-- The 255 characters that a missing tag seems to have are more than `tb` has.

theorem ipToFile_loop_le (h : ipToFile.loop dots n l = some (octets, true)) : n ≤ 6 * dots + 5 := by
  induction dots generalizing n l octets with
  | zero =>
    simp only [ipToFile.loop] at h
    split at h
    case isTrue => cases h
    case isFalse =>
      split at h
      case isTrue => split at h <;> cases h
      case isFalse => omega
  | succ dots ih =>
    simp only [ipToFile.loop] at h
    split at h
    case isTrue => cases h
    case isFalse hd =>
      split at h
      case h_1 | h_3 => cases h
      case h_2 =>
        split at h
        case isTrue => cases h
        case isFalse =>
          have ⟨⟨octets, ok⟩, hl, h⟩ := Option.map_eq_some_iff.mp h
          cases h
          have := ih hl
          omega

theorem stringToFile_loop_le (h : stringToFile.loop n l = some t) : n ≤ l.length + 1 := by
  fun_induction stringToFile.loop n l generalizing t with
  | case1 => omega
  | case2 | case5 | case8 => cases h
  | case3 n c l hc ih | case4 n a b l hp ih =>
    obtain ⟨_, ht, _⟩ := Option.map_eq_some_iff.mp h
    have := ih ht
    simp only [List.length_cons]
    omega
  | case6 n c hc hp d l ih =>
    have := ih h
    simp only [List.length_cons]
    omega
  | case7 =>
    simp only [List.length_cons, List.length_nil]
    omega

theorem getTemp_loop_le (h : getTemp.loop n l digits minus = some (d, m, true)) : n ≤ l.length := by
  fun_induction getTemp.loop n l digits minus with
  | case1 => omega
  | case3 n digits minus c l hd ih | case6 n digits minus c l hc hd ih =>
    have := ih h
    simp only [List.length_cons]
    omega
  | _ => cases h

theorem code_loop_le (h : ds18b20CodeToArray.loop n l = some d) : n ≤ l.length := by
  fun_induction ds18b20CodeToArray.loop n l generalizing d with
  | case1 => omega
  | case2 n a b l ih =>
    have ⟨_, hd, _⟩ := Option.map_eq_some_iff.mp h
    have := ih hd
    simp only [List.length_cons]
    omega
  | case3 => cases h

theorem stringToFile_absent : stringToFile 255 tb = none := by
  cases h : stringToFile.loop 255 tb.bytes with
  | none => simp [stringToFile, h]
  | some t =>
    have := stringToFile_loop_le h
    have := tb.length_eq
    omega

theorem intToFile_absent : intToFile 255 tb ≠ some (some x) := by
  intro h
  simp only [intToFile] at h
  split at h
  case isTrue => cases h
  case isFalse =>
    have : ((tb.bytes.take 255).takeWhile isDigit).length < 255 := by omega
    rw [if_pos this] at h
    cases h

-- What a command writes for a missing tag is made of the buffers.
def Cmd.stale (atof : Bytes → UInt32) (s : State) : Cmd → Option Bytes
  | .temp ..               => some [0]
  | .kalib ..              => some (bytes32 (atof <| s.tb.bytes.takeWhile (· ≠ 0)))
  | .switch _ _ on yes no _ => some [if s.tb.isText on then yes else no]
  | .zona ..               => some [(atoi s.tb.bytes % 256).toNat.toUInt8]
  | .number t a            => ((Cmd.number t a).parsedText 255 s).map (· ++ [0])
  | .base64 t a            => ((Cmd.base64 t a).parsedText 255 s).map (· ++ [0])
  | _                      => none

theorem saveText_writes {buf : Buffer cap} (h : s.saveText a buf = some (s₁, o)) :
    o = ((buf.text 0).map (⟨a, · ++ [0]⟩)).toList := by
  simp only [State.saveText, Option.bind_eq_bind, Option.bind_eq_some_iff] at h
  obtain ⟨t, ht, h⟩ := h
  cases h
  simp [ht]

theorem save8_writes (h : s.save8 a v x = (s₁, o)) : o = [⟨a, [x]⟩] := by
  cases v <;> cases h <;> rfl

theorem parse_stale (h : c.parse atof 255 s = some (s₁, o)) (ha : c.addr = some a) :
    o = ((c.stale atof s).map (⟨a, ·⟩)).toList := by
  cases c with
  | mark | flag => cases ha
  | flush =>
    cases h
    rfl
  | ip tag addr =>
    simp only [Cmd.parse, Option.bind_eq_bind, Option.bind_eq_some_iff] at h
    obtain ⟨⟨octets, ok⟩, hi, _, _, h⟩ := h
    cases ok
    case false =>
      cases h
      rfl
    case true =>
      have := ipToFile_loop_le hi
      omega
  | int tag addr | int16 tag addr =>
    simp only [Cmd.parse, Option.bind_eq_bind, Option.bind_eq_some_iff] at h
    obtain ⟨x, hi, h⟩ := h
    cases x with
    | none =>
      cases h
      rfl
    | some x => exact absurd hi intToFile_absent
  | string | naziv | text => simp [Cmd.parse, stringToFile_absent] at h
  | number tag addr =>
    cases ha
    simp only [Cmd.parse, Option.bind_eq_bind, Option.bind_eq_some_iff] at h
    obtain ⟨t, ht, pb, hp, h⟩ := h
    rw [saveText_writes h]
    simp only [Cmd.stale, Cmd.parsedText, ht, Option.bind_eq_bind, Option.bind_some]
    split at hp
    case isTrue hn =>
      cases hp
      simp [hn, Function.comp_def]
    case isFalse hn => simp [hn, Buffer.strcpy_text (Buffer.text_nul_not_mem ht) hp]
  | code tag addr k =>
    simp only [Cmd.parse, Option.bind_eq_bind, Option.bind_eq_some_iff] at h
    obtain ⟨x, hx, h⟩ := h
    simp only [ds18b20CodeToArray, Option.bind_eq_bind, Option.bind_eq_some_iff] at hx
    obtain ⟨d, hd, _⟩ := hx
    have := code_loop_le hd
    have := s.tb.length_eq
    omega
  | temp tag addr v =>
    cases ha
    simp only [Cmd.parse, Option.bind_eq_bind, Option.bind_eq_some_iff] at h
    obtain ⟨⟨x, tb⟩, hx, h⟩ := h
    rw [save8_writes <| Option.some.inj h]
    simp only [getTemp, Option.bind_eq_bind, Option.bind_eq_some_iff] at hx
    obtain ⟨⟨d, m, atEnd⟩, hl, hx⟩ := hx
    cases atEnd
    case true =>
      have := getTemp_loop_le hl
      have := s.tb.length_eq
      omega
    case false =>
      simp only [Bool.false_eq_true, if_false, Option.bind_eq_some_iff] at hx
      obtain ⟨_, _, hx⟩ := hx
      cases hx
      rfl
  | kalib | zona =>
    cases ha
    cases h
    rfl
  | switch =>
    cases ha
    exact save8_writes <| Option.some.inj h
  | base64 tag addr =>
    cases ha
    simp only [Cmd.parse] at h
    split at h
    case isTrue => cases h
    case isFalse =>
      simp only [Option.bind_eq_bind, Option.bind_eq_some_iff] at h
      obtain ⟨pb, hp, h⟩ := h
      simp [saveText_writes h, Cmd.stale, Cmd.parsedText, hp, Function.comp_def]

theorem exec_absent (hc : c ∈ h.cmds) (ha : c.Absent b) (he : c.exec atof b s = some (s₁, o)) :
    c.parse atof 255 s = some (s₁, o) := by
  obtain ⟨tag, ht, hb⟩ := ha
  obtain ⟨s₂, o₁, o₂, hr, hf, ho⟩ := exec_cases he
  have hx : xmlParser tag b s.tb = some (255, s.tb) := xmlParser_absent hc ht hb
  simp only [Cmd.receive, ht, hx, Option.bind_eq_bind, Option.bind_some] at hr
  by_cases hn : ∃ t a, c = .text t a
  case pos =>
    obtain ⟨t, a, hn⟩ := hn
    simp [hn, Cmd.parse, stringToFile_absent] at hr
  case neg =>
    rw [finish_eq (fun t a h => hn ⟨t, a, h⟩) ht] at hf
    cases hf
    simpa [ho] using hr

-- A missing text has no defined outcome.
theorem exec_absent_text (hc : c ∈ h.cmds) (ha : c.Absent b)
    (hn : (∃ t a, c = .string t a) ∨ (∃ t a, c = .naziv t a) ∨ ∃ t a, c = .text t a) :
    c.exec atof b s = none := by
  cases he : c.exec atof b s with
  | none => rfl
  | some r =>
    have hp := exec_absent hc ha he
    obtain ⟨_, _, hn⟩ | ⟨_, _, hn⟩ | ⟨_, _, hn⟩ := hn <;>
      simp [hn, Cmd.parse, stringToFile_absent] at hp

-- Frame rules: what a run of commands does not change

theorem exec_addr (h : c.exec atof b s = some (s₁, o)) (hw : w ∈ o) : c.addr = some w.addr := by
  cases exec_output h with
  | nothing | flag => cases hw
  | fixed _ _ _ ha | var _ _ _ ha | text _ _ _ ha => exact List.mem_singleton.mp hw ▸ ha
  | naziv _ _ _ hc => exact List.mem_singleton.mp hw ▸ hc ▸ rfl

theorem run_eeprom_frame (hs : cs ⊆ h.cmds)
    (g : (handler atof b).Guarded (fun s c => c.Fits b s) s cs)
    (hr : (handler atof b).run s cs = some (s₁, t)) (hf : f ∈ Eeprom.fields)
    (hn : ∀ c ∈ cs, c.addr ≠ some f) (hx : Eeprom.In f x) : s₁.eeprom x = s.eeprom x := by
  have hi := Machine.run_emits_iff (P := Isolated)
    (fun hm he => exec_isolated_iff (hs hm) he) hr |>.mpr g
  have ha : ∀ w ∈ t, w.addr ≠ f :=
    Machine.run_emits_iff (P := (·.addr ≠ f))
      (fun hm he => iff_true_intro fun w hw hf => hn _ hm <| hf ▸ exec_addr he hw) hr |>.mpr
      Machine.Guarded.trivial
  exact run_eeprom hr ▸ foldl_apply_frame hi hf ha hx

theorem exec_ram (h : c.exec atof b s = some (s₁, o)) (hv : c.var ≠ some v) :
    s₁.ram.vars v = s.ram.vars v := by
  cases exec_output h with
  | nothing _ _ hr | flag _ _ _ _ _ hr | fixed _ _ _ _ _ _ hr | text _ _ _ _ _ hr
  | naziv _ _ _ _ _ _ _ hr => rw [hr]
  | var v₁ x hv₁ _ _ hr =>
    rw [hr]
    have hn : v ≠ v₁ := fun hn => hv <| hn ▸ hv₁
    exact Ram.set_of_ne hn

theorem exec_login (h : c.exec atof b s = some (s₁, o)) :
    s₁.ram.username = s.ram.username ∧ s₁.ram.password = s.ram.password := by
  cases exec_output h with
  | nothing _ _ hr | flag _ _ _ _ _ hr | fixed _ _ _ _ _ _ hr | text _ _ _ _ _ hr
  | naziv _ _ _ _ _ _ _ hr | var _ _ _ _ _ hr => exact hr ▸ ⟨rfl, rfl⟩

theorem exec_flags (h : c.exec atof b s = some (s₁, o)) (hc : ∀ t, c ≠ .flag t f i) :
    s₁.flags f i = s.flags f i := by
  cases exec_output h with
  | nothing _ _ _ hf | fixed _ _ _ _ _ _ _ hf | text _ _ _ _ _ _ hf | naziv _ _ _ _ _ _ _ _ hf
  | var _ _ _ _ _ _ hf => rw [hf]
  | @flag g j t x hc₁ _ _ _ hf =>
    rw [hf]
    by_cases hg : g = f
    case neg => rw [Function.update_of_ne (Ne.symm hg)]
    case pos =>
      have hj : j ≠ i := fun hj => hc t <| hg ▸ hj ▸ hc₁
      simp [hg, Function.update_of_ne hj.symm]

-- A missing number leaves everything as it is.
def Cmd.Quiet (b : Body) (c : Cmd) : Prop :=
  c.Absent b ∧ ∃ t a v, c = .int16 t a v

theorem exec_quiet (hc : c ∈ h.cmds) (hq : c.Quiet b) (he : c.exec atof b s = some (s₁, o)) :
    s₁.ram = s.ram := by
  have ⟨ha, t, a, v, hv⟩ := hq
  have ho := parse_stale (exec_absent hc ha he) (hv ▸ rfl : c.addr = some a)
  cases exec_output he with
  | nothing _ _ hr | flag _ _ _ _ _ hr | fixed _ _ _ _ _ _ hr | text _ _ _ _ _ hr
  | naziv _ _ _ _ _ _ _ hr => exact hr
  | var => simp [hv, Cmd.stale] at ho

theorem run_ram_frame (hs : cs ⊆ h.cmds) (hr : (handler atof b).run s cs = some (s₁, t))
    (hv : ∀ c ∈ cs, c.var = some v → c.Quiet b) : s₁.ram.vars v = s.ram.vars v := by
  refine Machine.run_invariant (I := fun s₁ => s₁.ram.vars v = s.ram.vars v)
    (fun {_ c _ _} hi hm he => ?_) rfl (Machine.Guarded.trivial.mem) hr
  rw [← hi]
  by_cases hc : c.var = some v
  case pos => rw [exec_quiet (hs hm.1) (hv c hm.1 hc) he]
  case neg => exact exec_ram he hc

theorem run_login (hr : (handler atof b).run s cs = some (s₁, t)) :
    s₁.ram.username = s.ram.username ∧ s₁.ram.password = s.ram.password := by
  refine Machine.run_invariant (I := fun s₁ => s₁.ram.username = s.ram.username ∧
    s₁.ram.password = s.ram.password) (fun hi _ he => ?_) ⟨rfl, rfl⟩ Machine.Guarded.trivial hr
  have ⟨hu, hp⟩ := exec_login he
  exact ⟨hu.trans hi.1, hp.trans hi.2⟩

theorem run_flags_frame (hr : (handler atof b).run s cs = some (s₁, t))
    (hn : ∀ c ∈ cs, ∀ t, c ≠ .flag t f i) : s₁.flags f i = s.flags f i := by
  refine Machine.run_invariant (I := fun s₁ => s₁.flags f i = s.flags f i)
    (fun hi hm he => ?_) rfl (Machine.Guarded.trivial.mem) hr
  exact hi ▸ exec_flags he (hn _ hm.1)

end Config
