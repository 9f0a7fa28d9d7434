import Webtermo.Objects.Eeprom
import Webtermo.Execution.Config.Handlers

namespace Config

variable {atof : Bytes → UInt32} {b : Body} {c : Cmd} {s s₁ : State} {o : List Write}

-- How many bytes a command writes, unless it writes a text
def Cmd.size : Cmd → Option Nat
  | .ip ..                                       => some 4
  | .int .. | .int16 ..                          => some 2
  | .code ..                                     => some 8
  | .temp .. | .switch .. | .zona ..             => some 1
  | .kalib ..                                    => some 4
  | .flush ..                                    => some 5
  | .mark | .flag ..                             => some 0
  | .string .. | .naziv .. | .number .. | .text .. | .base64 .. => none

-- The text that a command stores, for a `varlen` that is not 0
def Cmd.parsedText (varlen : Nat) (s : State) : Cmd → Option Bytes
  | .string .. | .naziv .. => do
    let (t, _) ← stringToFile varlen s.tb
    if t = [] then none else some t
  | .number .. => do
    let t ← s.tb.text 0
    if t = [] then s.pb.text 0 else some t
  | .text .. => do
    let (t, _) ← stringToFile varlen s.tb
    some t
  | .base64 .. => do
    let pb ← s.pb.write 0 (base64Decode (s.tb.bytes.take varlen) 30)
    pb.text 0
  | _ => none

def Cmd.stored (b : Body) (s : State) (c : Cmd) : Option Bytes :=
  match c.tag with
  | none     => none
  | some tag => do
    let (varlen, tb) ← xmlParser tag b s.tb
    if varlen = 0 then match c with
      | .text .. => s.rBuf.text 0
      | _        => none
    else
      c.parsedText varlen { s with tb }

theorem exec_cases (h : c.exec atof b s = some (s₁, o)) :
    ∃ s₂ o₁ o₂, c.receive atof b s = some (s₂, o₁) ∧ c.finish s₂ = some (s₁, o₂) ∧
      o = o₁ ++ o₂ := by
  simp only [Cmd.exec, Option.bind_eq_bind, Option.bind_eq_some_iff] at h
  have ⟨⟨s₂, o₁⟩, hr, ⟨s₃, o₂⟩, hf, h⟩ := h
  cases h
  exact ⟨s₂, o₁, o₂, hr, hf, rfl⟩

theorem receive_cases (ht : c.tag = some t) (h : c.receive atof b s = some (s₁, o)) :
    ∃ varlen tb, xmlParser t b s.tb = some (varlen, tb) ∧
      ((varlen = 0 ∧ s₁ = { s with tb } ∧ o = []) ∨
        (varlen ≠ 0 ∧ c.parse atof varlen { s with tb } = some (s₁, o))) := by
  simp only [Cmd.receive, ht, Option.bind_eq_bind, Option.bind_eq_some_iff] at h
  have ⟨⟨varlen, tb⟩, hx, h⟩ := h
  refine ⟨varlen, tb, hx, ?_⟩
  by_cases hv : varlen = 0
  case pos =>
    simp only [hv, if_true, Option.some.injEq, Prod.mk.injEq] at h
    exact .inl ⟨hv, h.1.symm, h.2.symm⟩
  case neg => exact .inr ⟨hv, by simpa [hv] using h⟩

-- The characters that `StringToFile` copies are no NULs.
theorem inString_ne_nul {x : UInt8} (h : inString x) : x ≠ 0 := by
  intro hx
  rw [hx] at h
  revert h
  decide

theorem stringToFile_loop_nul_not_mem (h : stringToFile.loop n l = some t) : 0 ∉ t := by
  fun_induction stringToFile.loop n l generalizing t with
  | case1 =>
    cases h
    exact List.not_mem_nil
  | case2 | case5 | case8 => cases h
  | case3 n c l hc ih =>
    have ⟨t, ht, h⟩ := Option.map_eq_some_iff.mp h
    simp [← h, ih ht, (inString_ne_nul hc).symm]
  | case4 n a b l hp ih =>
    have ⟨t, ht, h⟩ := Option.map_eq_some_iff.mp h
    split at h <;> simp [← h, ih ht]
  | case6 n c hc hp _ l ih => exact ih h
  | case7 =>
    cases h
    exact List.not_mem_nil

theorem stringToFile_nul_not_mem (h : stringToFile n tb = some (t, tb₁)) : 0 ∉ t := by
  simp only [stringToFile, Option.bind_eq_bind, Option.bind_eq_some_iff] at h
  have ⟨t, ht, _, _, h⟩ := h
  cases h
  exact stringToFile_loop_nul_not_mem ht

-- All that a command can do
inductive Output (c : Cmd) (stored : Option Bytes) (s s₁ : State) : List Write → Prop
  | nothing (h : stored = none) (he : s₁.eeprom = s.eeprom) (hr : s₁.ram = s.ram)
    (hf : s₁.flags = s.flags) : Output c stored s s₁ []
  | flag (t : Bytes) (x : UInt8) (hc : c = .flag t f i) (h : stored = none)
    (he : s₁.eeprom = s.eeprom) (hr : s₁.ram = s.ram)
    (hf : s₁.flags = Function.update s.flags f (Function.update (s.flags f) i x)) :
    Output c stored s s₁ []
  | fixed (n : Nat) (h : c.size = some n) (hv : c.var = none) (ha : c.addr = some a)
    (hl : d.length = n) (he : s₁.eeprom = s.eeprom.writePage 64 a d) (hr : s₁.ram = s.ram)
    (hf : s₁.flags = s.flags) : Output c stored s s₁ [⟨a, d⟩]
  | var (v : Var) (x : v.Val) (hv : c.var = some v) (ha : c.addr = some a)
    (he : s₁.eeprom = s.eeprom.writePage 64 a (v.encode x)) (hr : s₁.ram = s.ram.set v x)
    (hf : s₁.flags = s.flags) : Output c stored s s₁ [⟨a, v.encode x⟩]
  | text (t : Bytes) (h : stored = some t) (hv : c.var = none) (ha : c.addr = some a)
    (he : s₁.eeprom = s.eeprom.writePage 64 a (t ++ [0])) (hr : s₁.ram = s.ram)
    (hf : s₁.flags = s.flags) : Output c stored s s₁ [⟨a, t ++ [0]⟩]
  | naziv (t r : Bytes) (h : stored = some t) (hc : c = .naziv g a)
    (hn : 0 ∉ t) (hl : t.length + r.length = 39)
    (he : s₁.eeprom = s.eeprom.writePage 64 a ((t ++ 0 :: r).take 32)) (hr : s₁.ram = s.ram)
    (hf : s₁.flags = s.flags) : Output c stored s s₁ [⟨a, (t ++ 0 :: r).take 32⟩]

-- The parsers change nothing but buffers before they save what they have found.
structure Buffers (s s₁ : State) : Prop where
  eeprom : s₁.eeprom = s.eeprom
  ram    : s₁.ram = s.ram
  flags  : s₁.flags = s.flags

theorem Output.of_buffers (h : Output c stored s₂ s₁ o) (b : Buffers s s₂) :
    Output c stored s s₁ o := by
  cases h with
  | nothing h he hr hf => exact .nothing h (b.eeprom ▸ he) (b.ram ▸ hr) (b.flags ▸ hf)
  | flag t x hc h he hr hf =>
    exact .flag t x hc h (b.eeprom ▸ he) (b.ram ▸ hr) (b.flags ▸ hf)
  | fixed n h hv ha hl he hr hf =>
    exact .fixed n h hv ha hl (b.eeprom ▸ he) (b.ram ▸ hr) (b.flags ▸ hf)
  | var v x hv ha he hr hf => exact .var v x hv ha (b.eeprom ▸ he) (b.ram ▸ hr) (b.flags ▸ hf)
  | text t h hv ha he hr hf => exact .text t h hv ha (b.eeprom ▸ he) (b.ram ▸ hr) (b.flags ▸ hf)
  | naziv t r h hc hn hl he hr hf =>
    exact .naziv t r h hc hn hl (b.eeprom ▸ he) (b.ram ▸ hr) (b.flags ▸ hf)

theorem save8_output (h : s.save8 a v x = (s₁, o)) (hs : c.size = some 1) (ha : c.addr = some a)
    (hv : c.var = v.map .u8) : Output c stored s s₁ o := by
  cases v with
  | none =>
    cases h
    exact .fixed 1 hs hv ha rfl rfl rfl rfl
  | some v =>
    cases h
    exact .var (.u8 v) x hv ha rfl rfl rfl

theorem saveText_output {buf : Buffer cap} (h : s.saveText a buf = some (s₁, o))
    (hs : buf.text 0 = stored) (ha : c.addr = some a) (hv : c.var = none) :
    Output c stored s s₁ o := by
  simp only [State.saveText, Option.bind_eq_bind, Option.bind_eq_some_iff] at h
  have ⟨t, ht, h⟩ := h
  cases h
  exact .text t (hs ▸ ht) hv ha rfl rfl rfl

theorem parse_output (h : c.parse atof v s = some (s₁, o)) (ht : ∀ t a, c ≠ .text t a) :
    Output c (c.parsedText v s) s s₁ o := by
  cases c with
  | mark | flush =>
    cases h
    exact .nothing rfl rfl rfl rfl
  | ip tag addr =>
    simp only [Cmd.parse, Option.bind_eq_bind, Option.bind_eq_some_iff] at h
    have ⟨⟨octets, ok⟩, _, pb, _, h⟩ := h
    cases ok
    case false =>
      cases h
      exact .nothing rfl rfl rfl rfl
    case true =>
      cases h
      exact .fixed 4 rfl rfl rfl (by simp [pb.length_eq]) rfl rfl rfl
  | int tag addr =>
    simp only [Cmd.parse, Option.bind_eq_bind, Option.bind_eq_some_iff] at h
    have ⟨x, _, h⟩ := h
    cases x with
    | none =>
      cases h
      exact .nothing rfl rfl rfl rfl
    | some x =>
      simp only [Option.bind_eq_some_iff] at h
      have ⟨pb, _, h⟩ := h
      cases h
      exact .fixed 2 rfl rfl rfl rfl rfl rfl rfl
  | int16 tag addr v =>
    simp only [Cmd.parse, Option.bind_eq_bind, Option.bind_eq_some_iff] at h
    have ⟨x, _, h⟩ := h
    cases x with
    | none =>
      cases h
      exact .nothing rfl rfl rfl rfl
    | some x =>
      simp only [Option.bind_eq_some_iff] at h
      have ⟨pb, _, h⟩ := h
      cases h
      exact .var (.u16 v) _ rfl rfl rfl rfl rfl
  | string tag addr =>
    simp only [Cmd.parse, Option.bind_eq_bind, Option.bind_eq_some_iff] at h
    have ⟨⟨t, tb⟩, ht, pb, hp, h⟩ := h
    simp only [Cmd.parsedText, ht, Option.bind_eq_bind, Option.bind_some]
    split at h
    case isTrue hn =>
      cases h
      exact .nothing (if_pos hn) rfl rfl rfl
    case isFalse hn =>
      rw [if_neg hn]
      have hs := Buffer.strcpy_text (stringToFile_nul_not_mem ht) hp
      exact (saveText_output h hs rfl rfl).of_buffers ⟨rfl, rfl, rfl⟩
  | naziv tag addr =>
    simp only [Cmd.parse, Option.bind_eq_bind, Option.bind_eq_some_iff] at h
    have ⟨⟨t, tb⟩, ht, pb, hp, h⟩ := h
    simp only [Cmd.parsedText, ht, Option.bind_eq_bind, Option.bind_some]
    split at h
    case isTrue hn =>
      cases h
      exact .nothing (if_pos hn) rfl rfl rfl
    case isFalse hn =>
      cases h
      rw [if_neg hn]
      have hl : 0 + (t ++ [0]).length ≤ 40 := Buffer.write_fits hp
      have hb : pb.bytes = t ++ 0 :: s.pb.bytes.drop (t.length + 1) := by
        simp [Buffer.write_bytes hp]
      have hr : t.length + (s.pb.bytes.drop (t.length + 1)).length = 39 := by
        simp only [List.length_append, List.length_singleton] at hl
        simp only [List.length_drop, s.pb.length_eq]
        omega
      rw [hb]
      exact .naziv t _ rfl rfl (stringToFile_nul_not_mem ht) hr rfl rfl rfl
  | number tag addr =>
    simp only [Cmd.parse, Option.bind_eq_bind, Option.bind_eq_some_iff] at h
    have ⟨t, ht, pb, hp, h⟩ := h
    refine (saveText_output h ?_ rfl rfl).of_buffers ⟨rfl, rfl, rfl⟩
    simp only [Cmd.parsedText, ht, Option.bind_eq_bind, Option.bind_some]
    split at hp
    case isTrue ht =>
      cases hp
      simp [ht]
    case isFalse hn =>
      simp only [hn, if_false]
      exact Buffer.strcpy_text (Buffer.text_nul_not_mem ht) hp
  | text tag addr => exact absurd rfl (ht tag addr)
  | code tag addr k =>
    simp only [Cmd.parse, Option.bind_eq_bind, Option.bind_eq_some_iff] at h
    have ⟨x, _, h⟩ := h
    cases h
    exact .var (.code k) x rfl rfl rfl rfl rfl
  | temp tag addr v =>
    simp only [Cmd.parse, Option.bind_eq_bind, Option.bind_eq_some_iff] at h
    have ⟨⟨x, tb⟩, _, h⟩ := h
    refine (save8_output (Option.some.inj h) rfl rfl ?_).of_buffers ⟨rfl, rfl, rfl⟩
    cases v <;> rfl
  | kalib tag addr k =>
    cases h
    exact .var (.kalibracija k) _ rfl rfl rfl rfl rfl
  | switch tag addr on yes no v =>
    refine save8_output (Option.some.inj h) rfl rfl ?_
    cases v <;> rfl
  | flag tag f i =>
    cases h
    exact .flag tag _ rfl rfl rfl rfl rfl
  | zona tag addr =>
    cases h
    exact .fixed 1 rfl rfl rfl rfl rfl rfl rfl
  | base64 tag addr =>
    simp only [Cmd.parse] at h
    split at h
    case isTrue => cases h
    case isFalse =>
      simp only [Option.bind_eq_bind, Option.bind_eq_some_iff] at h
      have ⟨pb, hp, h⟩ := h
      refine (saveText_output h ?_ rfl rfl).of_buffers ⟨rfl, rfl, rfl⟩
      simp [Cmd.parsedText, hp]

theorem finish_eq (hc : ∀ t a, c ≠ .text t a) (ht : c.tag = some tag) :
    c.finish s = some (s, []) := by
  cases c with
  | mark | flush => cases ht
  | text t a => exact absurd rfl (hc t a)
  | _ => rfl

theorem exec_untagged (ht : c.tag = none) (h : c.exec atof b s = some (s₁, o)) :
    Output c (c.stored b s) s s₁ o := by
  have ⟨s₂, o₁, o₂, hr, hf, ho⟩ := exec_cases h
  simp only [Cmd.receive, ht, Option.some.injEq, Prod.mk.injEq] at hr
  rw [ho, ← hr.2, List.nil_append]
  rw [← hr.1] at hf
  have hs : c.stored b s = none := by simp [Cmd.stored, ht]
  cases c with
  | mark =>
    simp only [Cmd.finish, Option.bind_eq_bind, Option.bind_eq_some_iff] at hf
    have ⟨rBuf, _, hf⟩ := hf
    cases hf
    exact .nothing hs rfl rfl rfl
  | flush f addr =>
    simp only [Cmd.finish, Option.bind_eq_bind, Option.bind_eq_some_iff] at hf
    have ⟨rBuf, _, hf⟩ := hf
    cases hf
    exact .fixed 5 rfl rfl rfl List.length_ofFn rfl rfl rfl
  | _ => cases ht

theorem exec_text (h : (Cmd.text t a).exec atof b s = some (s₁, o)) :
    Output (.text t a) ((Cmd.text t a).stored b s) s s₁ o := by
  have ⟨s₂, o₁, o₂, hr, hf, ho⟩ := exec_cases h
  have ⟨varlen, tb, hx, hr⟩ := receive_cases (c := .text t a) rfl hr
  rw [ho]
  cases hr with
  | inl hr =>
    have ⟨hv, hs, ho⟩ := hr
    rw [ho, List.nil_append]
    refine (saveText_output hf ?_ rfl rfl).of_buffers (hs ▸ ⟨rfl, rfl, rfl⟩)
    simp [Cmd.stored, Cmd.tag, hx, hv, hs]
  | inr hr =>
    have ⟨hv, hr⟩ := hr
    simp only [Cmd.parse, Option.bind_eq_bind, Option.bind_eq_some_iff] at hr
    have ⟨⟨x, tb₁⟩, ht, rBuf, hb, hr⟩ := hr
    cases hr
    refine (saveText_output hf ?_ rfl rfl).of_buffers ⟨rfl, rfl, rfl⟩
    rw [Buffer.strcpy_text (stringToFile_nul_not_mem ht) hb]
    simp [Cmd.stored, Cmd.tag, hx, hv, Cmd.parsedText, ht]

theorem stored_of_tag (ht : c.tag = some tag) (hc : ∀ t a, c ≠ .text t a)
    (hx : xmlParser tag b s.tb = some (varlen, tb)) :
    c.stored b s = if varlen = 0 then none else c.parsedText varlen { s with tb } := by
  cases c with
  | text t a => exact absurd rfl (hc t a)
  | _ => simp only [Cmd.stored, ht, hx, Option.bind_eq_bind, Option.bind_some]

theorem exec_output (h : c.exec atof b s = some (s₁, o)) : Output c (c.stored b s) s s₁ o := by
  by_cases ht : ∃ t a, c = .text t a
  case pos =>
    have ⟨t, a, ht⟩ := ht
    exact ht ▸ exec_text (ht ▸ h)
  case neg =>
    have ht : ∀ t a, c ≠ .text t a := fun t a h => ht ⟨t, a, h⟩
    cases hg : c.tag with
    | none => exact exec_untagged hg h
    | some tag =>
      have ⟨s₂, o₁, o₂, hr, hf, ho⟩ := exec_cases h
      have ⟨varlen, tb, hx, hr⟩ := receive_cases hg hr
      rw [finish_eq ht hg] at hf
      cases hf
      rw [ho, List.append_nil, stored_of_tag hg ht hx]
      cases hr with
      | inl hr =>
        have ⟨hv, hs, ho⟩ := hr
        rw [hs, ho]
        exact .nothing (if_pos hv) rfl rfl rfl
      | inr hr =>
        have ⟨hv, hr⟩ := hr
        rw [if_neg hv]
        exact (parse_output hr ht).of_buffers ⟨rfl, rfl, rfl⟩

end Config
