import Webtermo.Execution.Config.Boot
import Webtermo.Execution.Config.Theorems.Output

open Define

namespace Config

variable {atof : Bytes → UInt32} {b : Body} {c : Cmd} {h : Handler} {s s₁ : State} {m : Memory}

def Write.apply (m : Memory) (w : Write) : Memory :=
  m.writePage Eeprom.page w.addr w.data

-- The write is made to a field, stays inside of it and of its page, and leaves the field with a NUL if it
-- holds a text.
structure Isolated (w : Write) : Prop where
  field : w.addr ∈ Eeprom.fields
  holds : Slots.Holds Eeprom.fields Eeprom.size Eeprom.page w.addr w.data.length
  nul   : w.addr ∈ Eeprom.textFields → ∀ m, ∃ x, Eeprom.In w.addr x ∧ w.apply m x = 0

theorem Write.nul_iff {w : Write}
    (h : Slots.Holds Eeprom.fields Eeprom.size Eeprom.page w.addr w.data.length) :
    (∀ m, ∃ x, Eeprom.In w.addr x ∧ w.apply m x = 0) ↔ 0 ∈ w.data := by
  constructor
  case mp =>
    intro hn
    have ⟨x, _, hx⟩ := hn fun _ => 1
    exact Memory.exists_writePage_iff h.inPage (by decide) |>.mpr ⟨x, hx⟩
  case mpr =>
    intro hn m
    have ⟨i, hi, hn⟩ := List.mem_iff_getElem.mp hn
    refine ⟨w.addr + i, ?_, hn ▸ Memory.writePage_get h.inPage hi⟩
    exact Memory.pageAddr_eq h.inPage hi ▸ h.inSlot i hi

theorem isolated_iff {w : Write} : Isolated w ↔ w.addr ∈ Eeprom.fields ∧
    w.data.length ≤ Eeprom.room w.addr ∧ (w.addr ∈ Eeprom.textFields → 0 ∈ w.data) := by
  have hp : 0 < Eeprom.page := by decide
  constructor
  case mp => exact fun ⟨hf, hh, hn⟩ => ⟨hf, Slots.holds_iff hp |>.mp hh, (Write.nul_iff hh |>.mp <| hn ·)⟩
  case mpr =>
    intro ⟨hf, hl, hn⟩
    have hh := Slots.holds_iff hp |>.mpr hl
    exact ⟨hf, hh, fun ht => Write.nul_iff hh |>.mpr <| hn ht⟩

-- What the map provides for a command. `SaveNet` writes 32 bytes for a name, whatever its length.
structure Cmd.Placed (c : Cmd) (a : Nat) : Prop where
  field : a ∈ Eeprom.fields
  fixed : ∀ n ∈ c.size, n ≤ Eeprom.room a ∧ a ∉ Eeprom.textFields
  text  : c.size = none → a ∈ Eeprom.textFields
  naziv : (∃ t ∈ c.tag, c = .naziv t a) → Eeprom.room a = 32

theorem Handler.placed (hc : c ∈ h.cmds) (ha : c.addr = some a) : c.Placed a := by
  have : ∀ h ∈ handlers, ∀ c ∈ h.cmds, ∀ a ∈ c.addr, a ∈ Eeprom.fields ∧
      (∀ n ∈ c.size, Slots.fits Eeprom.fields Eeprom.size Eeprom.page a n ∧ a ∉ Eeprom.textFields) ∧
      (c.size = none → a ∈ Eeprom.textFields) ∧
      ((∃ t ∈ c.tag, c = .naziv t a) → Eeprom.room a = 32) := by
    decide +kernel
  have ⟨hf, hn, ht, hr⟩ := this h (mem_handlers h) c hc a ha
  exact ⟨hf, fun n hc => ⟨Slots.le_room (hn n hc).1, (hn n hc).2⟩, ht, hr⟩

-- A text that a command stores is shorter than the room of its field.
def Cmd.Fits (b : Body) (s : State) (c : Cmd) : Prop :=
  ∀ a ∈ c.addr, ∀ t ∈ c.stored b s, t.length < Eeprom.room a

instance : Decidable (c.Fits b s) :=
  inferInstanceAs <| Decidable (∀ a ∈ c.addr, ∀ t ∈ c.stored b s, t.length < Eeprom.room a)

theorem stored_eq_none (h : c.size = some n) : c.stored b s = none := by
  cases c with
  | string | naziv | number | text | base64 => cases h
  | mark | flush => rfl
  | _ =>
    simp only [Cmd.stored, Cmd.tag, Cmd.parsedText, Option.bind_eq_bind, ite_self]
    cases xmlParser _ b s.tb <;> rfl

theorem var_size (h : c.var = some v) : c.size = some (v.encode x).length := by
  cases c with
  | int16 | kalib =>
    cases h
    rfl
  | code t a k =>
    cases h
    exact congrArg some x.length_eq.symm
  | temp t a w | switch t a on y n w =>
    cases w with
    | none => cases h
    | some w =>
      cases h
      rfl
  | _ => cases h

theorem fits_of_size (h : c.size = some n) : c.Fits b s := by
  intro _ _ t ht
  rw [stored_eq_none h] at ht
  cases ht

theorem isolated_of_size (hp : c.Placed a) (h : c.size = some n) (hd : d.length = n) :
    Isolated ⟨a, d⟩ :=
  have ⟨hl, ht⟩ := hp.fixed n h
  isolated_iff.mpr ⟨hp.field, hd ▸ hl, fun h => absurd h ht⟩

theorem isolated_text_iff (hp : c.Placed a) :
    Isolated ⟨a, t ++ [0]⟩ ↔ t.length < Eeprom.room a := by
  rw [isolated_iff, List.length_append, List.length_singleton]
  constructor
  case mp  => exact fun ⟨_, hl, _⟩ => hl
  case mpr => exact fun hl => ⟨hp.field, hl, fun _ => List.mem_append_right _ List.mem_cons_self⟩

theorem isolated_naziv_iff {t r : Bytes} (hp : (Cmd.naziv g a).Placed a) (hn : 0 ∉ t)
    (hl : t.length + r.length = 39) :
    Isolated ⟨a, (t ++ 0 :: r).take 32⟩ ↔ t.length < Eeprom.room a := by
  have hr : Eeprom.room a = 32 := hp.naziv ⟨g, rfl, rfl⟩
  have hd : ((t ++ 0 :: r).take 32).length ≤ 32 := List.length_take_le ..
  simp only [isolated_iff, hp.field, hp.text rfl, hr, hd, true_and, true_implies]
  constructor
  case mp =>
    intro h
    by_contra hc
    rw [List.take_append_of_le_length <| by omega] at h
    exact hn <| List.mem_of_mem_take h
  case mpr =>
    intro h
    exact List.mem_take_iff_getElem.mpr ⟨t.length, by simp; omega, by simp⟩

-- What a command writes is isolated exactly if its text fits.
theorem exec_isolated_iff (hc : c ∈ h.cmds) (he : c.exec atof b s = some (s₁, o)) :
    (∀ w ∈ o, Isolated w) ↔ c.Fits b s := by
  cases exec_output he with
  | nothing hn | flag _ _ _ hn => simp [Cmd.Fits, hn]
  | fixed n hn _ ha hl =>
    simp [isolated_of_size (h.placed hc ha) hn hl, fits_of_size hn]
  | var v x hv ha =>
    have hn := var_size (x := x) hv
    simp [isolated_of_size (h.placed hc ha) hn rfl, fits_of_size hn]
  | text t hs _ ha => simp [isolated_text_iff (h.placed hc ha), Cmd.Fits, ha, hs]
  | naziv t r hs hc₁ hn hl =>
    subst hc₁
    simp [isolated_naziv_iff (h.placed hc rfl) hn hl, Cmd.Fits, hs, Cmd.addr]

theorem exec_eeprom (h : c.exec atof b s = some (s₁, o)) :
    s₁.eeprom = o.foldl Write.apply s.eeprom := by
  cases exec_output h with
  | nothing _ he | flag _ _ _ _ he | fixed _ _ _ _ _ he | var _ _ _ _ he | text _ _ _ _ he
  | naziv _ _ _ _ _ _ he => exact he

-- The memory after a run is made of the writes that it has emitted.
theorem run_eeprom (hr : (handler atof b).run s cs = some (s₁, t)) :
    s₁.eeprom = t.foldl Write.apply s.eeprom := by
  refine Machine.run_history (t := []) (I := fun t s₁ => s₁.eeprom = t.foldl Write.apply s.eeprom)
    (fun hi _ hs => ?_) rfl Machine.Guarded.trivial hr
  rw [List.foldl_append, ← hi]
  exact exec_eeprom hs

-- Isolated writes leave all fields alone that none of them is made to.
theorem foldl_apply_frame {t : List Write} (hi : ∀ w ∈ t, Isolated w) (hf : f ∈ Eeprom.fields)
    (hn : ∀ w ∈ t, w.addr ≠ f) (hx : Eeprom.In f x) : t.foldl Write.apply m x = m x := by
  induction t generalizing m with
  | nil => rfl
  | cons w t ih =>
    have ⟨hw, hi⟩ := List.forall_mem_cons.mp hi
    have ⟨ha, hn⟩ := List.forall_mem_cons.mp hn
    rw [List.foldl_cons, ih hi hn]
    exact hw.holds.frame_slot hw.field hf ha hx

-- A handler that has run up to any of its tags has written to the fields of its tags only, and each
-- text with its NUL, exactly if all texts that it has stored fit into their fields.
theorem isolation_law (hc : cs <+: h.cmds) (hr : (handler atof b).run s cs = some (s₁, t)) :
    ((∀ w ∈ t, Isolated w) ∧ ∀ f ∈ Eeprom.fields, (∀ w ∈ t, w.addr ≠ f) →
      ∀ x, Eeprom.In f x → s₁.eeprom x = s.eeprom x) ↔
    (handler atof b).Guarded (fun s c => c.Fits b s) s cs := by
  have hi := Machine.run_emits_iff (P := Isolated)
    (fun hm hs => exec_isolated_iff (hc.subset hm) hs) hr
  constructor
  case mp => exact fun ⟨hw, _⟩ => hi.mp hw
  case mpr =>
    intro g
    have hw := hi.mpr g
    refine ⟨hw, fun f hf hn x hx => ?_⟩
    rw [run_eeprom hr]
    exact foldl_apply_frame hw hf hn hx

-- The state and bodies of the runs below
def State.blank : State :=
  .reset fun _ => 0xFF

def posted (s : String) : Body where
  bytes := ascii s
  rest  := []

def sntpPage : Body :=
  posted "<SNTP1>a.b</SNTP1><SNTP2>c</SNTP2><ZONA>1</ZONA><SENAB>ON</SENAB><DST>ON</DST>"

theorem isolation_law_sntp : ∃ s₁ t,
    (handler (fun _ => 0) sntpPage).run .blank saveSNTP = some (s₁, t) ∧
    ((∀ w ∈ t, Isolated w) ∧ ∀ f ∈ Eeprom.fields, (∀ w ∈ t, w.addr ≠ f) →
      ∀ x, Eeprom.In f x → s₁.eeprom x = State.blank.eeprom x) := by
  have hr : ((handler (fun _ => 0) sntpPage).run .blank saveSNTP).isSome := by decide +kernel
  have ⟨⟨s₁, t⟩, hr⟩ := Option.isSome_iff_exists.mp hr
  exact ⟨s₁, t, hr, isolation_law (h := .saveSNTP) (List.prefix_refl _) hr |>.mpr (by decide +kernel)⟩

-- The magic at the start of the map is lost to a password of 17 characters.
def longPassword : Body :=
  posted "<PASS>MTIzNDU2Nzg5MDEyMzQ1Njc=</PASS>"

theorem password_into_magic :
    ¬∀ atof b (h : Handler) s cs s₁ t, cs <+: h.cmds → (handler atof b).run s cs = some (s₁, t) →
      (∀ w ∈ t, Isolated w) ∧ ∀ f ∈ Eeprom.fields, (∀ w ∈ t, w.addr ≠ f) →
        ∀ x, Eeprom.In f x → s₁.eeprom x = s.eeprom x := by
  intro h
  have hd : ((handler (fun _ => 0) longPassword).run .blank (pass.take 1)).map
      (fun x => (x.2.map (·.addr), x.1.eeprom eeInit)) = some ([eePass], 55) := by
    decide +kernel
  obtain ⟨⟨s₁, t⟩, hr, ht⟩ := Option.map_eq_some_iff.mp hd
  obtain ⟨ht, hx⟩ := Prod.mk.inj ht
  have hf := h (fun _ => 0) longPassword .pass .blank _ s₁ t (List.take_prefix 1 pass) hr |>.2
    eeInit (by decide)
  have hn : ∀ w ∈ t, w.addr ≠ eeInit := by
    intro w hw he
    have : w.addr ∈ t.map (·.addr) := List.mem_map_of_mem hw
    rw [ht, he] at this
    exact absurd this (by decide)
  have := hf hn eeInit (by decide +kernel)
  rw [hx] at this
  exact absurd this (by decide)

end Config
