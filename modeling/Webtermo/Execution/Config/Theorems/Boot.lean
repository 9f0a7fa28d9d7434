import Webtermo.Execution.Config.Theorems.Coherence

open Define

namespace Config

variable {s : State} {m m₁ : Memory}

-- The memory decides nothing about what the branch for a new EEPROM does.
theorem Default.exec_eeprom {d : Default} : d.exec { s with eeprom := m } =
    (d.exec s).map fun (s₁, o) => ({ s₁ with eeprom := o.foldl Write.apply m }, o) := by
  cases d with
  | byte | word | long => rfl
  | text a t n =>
    simp only [exec]
    cases s.rBuf.strcpy t <;> rfl
  | bytes a d =>
    simp only [exec]
    cases s.rBuf.write 0 d <;> rfl
  | credentials =>
    simp only [exec]
    cases s.ram.username.strcpy (ascii "s") with
    | none => rfl
    | some => cases s.ram.password.strcpy (ascii "s") <;> rfl
  | sensor a =>
    simp only [exec]
    cases s.rBuf.write 0 sensorDefaults <;> rfl

theorem boot_run_eeprom : boot.run { s with eeprom := m } ds =
    (boot.run s ds).map fun (s₁, o) => ({ s₁ with eeprom := o.foldl Write.apply m }, o) := by
  induction ds generalizing s m with
  | nil => rfl
  | cons d ds ih =>
    cases hd : d.exec s with
    | none => simp [Machine.run, boot, Default.exec_eeprom, hd]
    | some r =>
      have h₁ : boot.step s d = some (r.1, r.2) := hd
      have h₂ : boot.step { s with eeprom := m } d =
          some ({ r.1 with eeprom := r.2.foldl Write.apply m }, r.2) := by
        simp [boot, Default.exec_eeprom, hd]
      rw [Machine.run_cons_of_step h₁, Machine.run_cons_of_step h₂, ih]
      cases boot.run r.1 ds <;> simp

-- What the first `n` statements of the branch write
def written (n : Nat) : List Write :=
  (boot.run (.reset fun _ => 0) (defaults.take n)).elim [] (·.2)

def factory : List Write :=
  written defaults.length

def unwritten (n : Nat) : List Write :=
  factory.drop (written n).length

theorem boot_defaults : ∃ s, boot.run (.reset fun _ => 0) defaults = some (s, factory) ∧
    s.ram.username.text 0 = some (ascii "s") ∧ s.ram.password.text 0 = some (ascii "s") := by
  have hd : (boot.run (.reset fun _ => 0) defaults).any fun (s, _) =>
      s.ram.username.text 0 = some (ascii "s") ∧ s.ram.password.text 0 = some (ascii "s") := by
    decide +kernel
  have ⟨⟨s, o⟩, hr, hd⟩ := (Option.any_eq_true ..).mp hd
  refine ⟨s, ?_, of_decide_eq_true hd⟩
  simp [factory, written, hr]

theorem boot_take : ∃ s, boot.run (.reset fun _ => 0) (defaults.take n) = some (s, written n) ∧
    written n <+: factory := by
  have ⟨s, hr, _⟩ := boot_defaults
  rw [← List.take_append_drop n defaults, Machine.run_append, Option.bind_eq_some_iff] at hr
  have ⟨⟨s₁, o₁⟩, hr, hs⟩ := hr
  have ⟨⟨s₂, o₂⟩, _, hs⟩ := Option.map_eq_some_iff.mp hs
  have hw : written n = o₁ := by simp [written, hr]
  exact ⟨s₁, hw ▸ hr, o₂, hw ▸ (Prod.mk.inj hs).2⟩

theorem written_append : written n ++ unwritten n = factory :=
  have ⟨_, _, hp⟩ := boot_take (n := n)
  List.prefix_iff_eq_append.mp hp

theorem boot_run_take : ∃ s, boot.run (.reset m) (defaults.take n) = some (s, written n) ∧
    s.eeprom = (written n).foldl Write.apply m := by
  have ⟨s, hr, _⟩ := boot_take (n := n)
  have he := @boot_run_eeprom (.reset fun _ => 0) m (defaults.take n)
  rw [hr] at he
  exact ⟨_, he, rfl⟩

-- Without the magic, the branch is run to its end.
theorem initParam_new (h : eeRead16 m eeInit ≠ 0x55AA) : ∃ r, initParam j (.reset m) = some r ∧
    r.eeprom = factory.foldl Write.apply m ∧ r.ram.username.text 0 = some (ascii "s") ∧
    r.ram.password.text 0 = some (ascii "s") := by
  have ⟨s, hr, hu, hp⟩ := boot_defaults
  generalize factory = ws at hr ⊢
  have he := @boot_run_eeprom (.reset fun _ => 0) m defaults
  rw [hr] at he
  have he : boot.run (.reset m) defaults = some ({ s with eeprom := ws.foldl Write.apply m }, ws) := he
  refine ⟨{ s with eeprom := ws.foldl Write.apply m }, ?_, rfl, hu, hp⟩
  have h : eeRead16 (State.reset m).eeprom eeInit ≠ 0x55AA := h
  rw [initParam, if_neg h, he, Option.map_some]

theorem loadParam_eeprom : ∃ r, loadParam j (.reset m) = some r ∧ r.eeprom = m := by
  cases j with
  | false =>
    have ⟨r, hr, he, _⟩ := loadParam_reset (m := m)
    exact ⟨r, hr, he⟩
  | true =>
    have ⟨rBuf, hb⟩ : ∃ b, (Buffer.zero 1024).write 0 (m.read (sensorBlock 7) 0x30) = some b :=
      Buffer.write_eq_some (by simp)
    have ⟨l, hl⟩ : ∃ b, (Buffer.zero 25).strcpy (ascii "s") = some b :=
      Buffer.strcpy_eq_some (by decide +kernel)
    exact ⟨_, by simp only [loadParam, State.reset, hb, hl]; rfl, rfl⟩

-- The fields of the map that the branch fills in have their default values.
def Initialised (m : Memory) : Prop :=
  ∀ w ∈ factory, m.read w.addr w.data.length = w.data

-- The magic stands for defaults that are there.
def Vouched (m : Memory) : Prop :=
  eeRead16 m eeInit = 0x55AA → Initialised m

-- A reset behind the first `n` statements of the branch. `InitParam` writes nothing if it finds the magic.
def interrupted : Machine Memory Nat Write where
  step m n :=
    if eeRead16 m eeInit = 0x55AA then some (m, [])
    else (boot.run (.reset m) (defaults.take n)).map fun (s, o) => (s.eeprom, o)

-- The reset comes before the first write, or the memory holds already what is not written any more.
def Harmless (m : Memory) (n : Nat) : Prop :=
  eeRead16 m eeInit ≠ 0x55AA →
    written n = [] ∨ ∀ w ∈ unwritten n, m.read w.addr w.data.length = w.data

def Write.Apart (w w₁ : Write) : Prop :=
  w.addr + w.data.length ≤ w₁.addr ∨ w₁.addr + w₁.data.length ≤ w.addr

instance : Decidable (Write.Apart w w₁) :=
  inferInstanceAs <| Decidable (_ ∨ _)

theorem factory_inPage : ∀ w ∈ factory, Memory.InPage Eeprom.page w.addr w.data.length := by
  decide +kernel

theorem factory_apart : factory.Pairwise Write.Apart := by
  decide +kernel

-- Writes keep what lies apart from them, and leave their own data behind.
theorem read_foldl_apart {ws : List Write} (hp : ∀ w ∈ ws, Memory.InPage Eeprom.page w.addr w.data.length)
    (ha : ∀ w₁ ∈ ws, Write.Apart w w₁) :
    (ws.foldl Write.apply m).read w.addr w.data.length = m.read w.addr w.data.length := by
  induction ws generalizing m with
  | nil => rfl
  | cons w₁ ws ih =>
    have ⟨hp₁, hp⟩ := List.forall_mem_cons.mp hp
    have ⟨ha₁, ha⟩ := List.forall_mem_cons.mp ha
    rw [List.foldl_cons, ih hp ha]
    exact Memory.read_writePage_of_disjoint hp₁ ha₁

theorem read_foldl_mem {ws : List Write} (hp : ∀ w ∈ ws, Memory.InPage Eeprom.page w.addr w.data.length)
    (ha : ws.Pairwise Write.Apart) (hw : w ∈ ws) :
    (ws.foldl Write.apply m).read w.addr w.data.length = w.data := by
  induction ws generalizing m with
  | nil => nomatch hw
  | cons w₁ ws ih =>
    have ⟨hp₁, hps⟩ := List.forall_mem_cons.mp hp
    have ⟨ha₁, has⟩ := List.pairwise_cons.mp ha
    rw [List.foldl_cons]
    cases hw with
    | head =>
      rw [read_foldl_apart hps ha₁]
      exact Memory.read_writePage hp₁
    | tail _ hw => exact ih hps has hw

theorem initialised_factory : Initialised (factory.foldl Write.apply m) :=
  fun _ hw => read_foldl_mem factory_inPage factory_apart hw

-- What a reset leaves behind is complete exactly if the rest has been there before.
theorem initialised_written : Initialised ((written n).foldl Write.apply m) ↔
    ∀ w ∈ unwritten n, m.read w.addr w.data.length = w.data := by
  have hf := written_append (n := n)
  have hp : ∀ w ∈ written n, Memory.InPage Eeprom.page w.addr w.data.length :=
    fun w hw => factory_inPage w <| hf ▸ List.mem_append_left _ hw
  have ⟨ha, _, hd⟩ := List.pairwise_append.mp <| hf ▸ factory_apart
  have hs : ∀ w ∈ unwritten n, ((written n).foldl Write.apply m).read w.addr w.data.length =
      m.read w.addr w.data.length :=
    fun w hw => read_foldl_apart hp fun w₁ hw₁ => (hd w₁ hw₁ w hw).symm
  constructor
  case mp =>
    intro hi w hw
    rw [← hs w hw]
    exact hi w <| hf ▸ List.mem_append_right _ hw
  case mpr =>
    intro hu w hw
    obtain hw | hw := List.mem_append.mp <| hf ▸ hw
    · exact read_foldl_mem hp ha hw
    · rw [hs w hw, hu w hw]

theorem magic_of_read (h : m.read eeInit 2 = [0x55, 0xAA]) : eeRead16 m eeInit = 0x55AA := by
  have ⟨h₀, h₁⟩ : m eeInit = 0x55 ∧ m (eeInit + 1) = 0xAA := by
    simpa [Memory.read, List.range_succ] using h
  rw [eeRead16, h₀, h₁]
  rfl

-- The first of the writes is that of the magic.
theorem magic_written (h : written n ≠ []) :
    eeRead16 ((written n).foldl Write.apply m) eeInit = 0x55AA := by
  have hh : factory.head? = some ⟨eeInit, [0x55, 0xAA]⟩ := by decide +kernel
  have hw : ⟨eeInit, [0x55, 0xAA]⟩ ∈ written n := by
    have ⟨w, ws, hw⟩ := List.exists_cons_of_ne_nil h
    rw [← written_append (n := n), hw, List.cons_append, List.head?_cons, Option.some.injEq] at hh
    simp [hw, hh]
  have hf := written_append (n := n)
  have hp : ∀ w ∈ written n, Memory.InPage Eeprom.page w.addr w.data.length :=
    fun w hw => factory_inPage w <| hf ▸ List.mem_append_left _ hw
  have ⟨ha, _⟩ := List.pairwise_append.mp <| hf ▸ factory_apart
  exact magic_of_read <| read_foldl_mem (m := m) hp ha hw

-- One reset keeps the magic meaningful exactly if it is harmless.
theorem interrupted_vouched (hv : Vouched m) (hs : interrupted.step m n = some (m₁, o)) :
    Vouched m₁ ↔ Harmless m n := by
  by_cases hm : eeRead16 m eeInit = 0x55AA
  case pos =>
    simp only [interrupted, hm, if_true, Option.some.injEq, Prod.mk.injEq] at hs
    simp only [← hs.1, hv, Harmless, hm, ne_eq, not_true_eq_false, false_implies]
  case neg =>
    have ⟨s, hr, he⟩ := boot_run_take (m := m) (n := n)
    simp only [interrupted, hm, if_false, hr, Option.map_some, Option.some.injEq, Prod.mk.injEq,
      he] at hs
    rw [← hs.1]
    by_cases hw : written n = []
    case pos => simp [hw, Vouched, Harmless, hm]
    case neg =>
      simp only [Vouched, Harmless, magic_written hw, hm, hw, initialised_written, ne_eq,
        not_false_eq_true, true_implies, false_or]

theorem interrupted_total : ∃ m₁ o, interrupted.step m n = some (m₁, o) := by
  by_cases hm : eeRead16 m eeInit = 0x55AA
  case pos => exact ⟨m, [], if_pos hm⟩
  case neg =>
    have ⟨s, hr, _⟩ := boot_run_take (m := m) (n := n)
    exact ⟨s.eeprom, written n, by simp only [interrupted, if_neg hm, hr, Option.map_some]⟩

-- What an uninterrupted start leaves behind
theorem initParam_initialised : ∃ r, initParam j (.reset m) = some r ∧
    (Initialised r.eeprom ↔ Vouched m) := by
  by_cases hm : eeRead16 m eeInit = 0x55AA
  case pos =>
    have ⟨r, hr, he⟩ := loadParam_eeprom (j := j) (m := m)
    refine ⟨r, if_pos hm |>.trans hr, ?_⟩
    simp [he, Vouched, hm]
  case neg =>
    have ⟨r, hr, he, _⟩ := initParam_new (j := j) hm
    refine ⟨r, hr, ?_⟩
    simp only [he, initialised_factory, Vouched, hm, false_implies]

-- After any number of interrupted first starts, all starts that find the magic find the defaults, and the
-- first start that is not interrupted leaves them behind, exactly if every reset has come before the
-- magic was written or has left out nothing but what was there already.
theorem first_start_law (hm : eeRead16 m eeInit ≠ 0x55AA) : ∃ m₁ t r,
    interrupted.run m ns = some (m₁, t) ∧ initParam j (.reset m₁) = some r ∧
    ((interrupted.Guarded (fun m _ => Vouched m) m ns ∧ Vouched m₁ ∧ Initialised r.eeprom) ↔
      interrupted.Guarded Harmless m ns) := by
  have ⟨m₁, t, hr, _⟩ := interrupted.run_total (I := fun _ _ => True) (t := [])
    (fun _ _ => have ⟨m₁, o, hs⟩ := interrupted_total; ⟨m₁, o, hs, trivial⟩) trivial
    (@Machine.Guarded.trivial _ _ _ interrupted m ns)
  have ⟨r, hi, hv⟩ := initParam_initialised (j := j) (m := m₁)
  have hg := Machine.run_good_iff (fun hv hs => interrupted_vouched hv hs) hr
  have hm : Vouched m := fun h => absurd h hm
  refine ⟨m₁, t, r, hr, hi, ?_⟩
  simp only [hv, and_self, hg, hm, true_and]

instance : Decidable (Harmless m n) :=
  inferInstanceAs <| Decidable (_ → _ ∨ _)

-- An EEPROM with the defaults, of which only the magic has been cleared
def renewed : Memory :=
  factory.tail.foldl Write.apply fun _ => 0xFF

-- The second reset comes in the middle of the writes, which leave out nothing but what is there already.
theorem first_start_law_renewed : eeRead16 renewed eeInit ≠ 0x55AA ∧
    interrupted.Guarded Harmless renewed [0, 40, 3] ∧ ∃ m₁ t r,
    interrupted.run renewed [0, 40, 3] = some (m₁, t) ∧ initParam false (.reset m₁) = some r ∧
    ((interrupted.Guarded (fun m _ => Vouched m) renewed [0, 40, 3] ∧ Vouched m₁ ∧
        Initialised r.eeprom) ↔ interrupted.Guarded Harmless renewed [0, 40, 3]) :=
  have hm : eeRead16 renewed eeInit ≠ 0x55AA := by decide +kernel
  have g : interrupted.Guarded Harmless renewed [0, 40, 3] := by decide +kernel
  ⟨hm, g, first_start_law hm⟩

-- A reset right behind the magic: the next start loads an erased EEPROM.
theorem first_start_erased :
    ¬∀ m ns m₁ t r, eeRead16 m eeInit ≠ 0x55AA → interrupted.run m ns = some (m₁, t) →
      initParam false (.reset m₁) = some r → Initialised r.eeprom := by
  intro h
  have hd : (interrupted.run (fun _ => 0xFF) [1]).any fun (m, _) =>
      (initParam false (.reset m)).any fun r => ¬∀ w ∈ factory, r.eeprom.read w.addr w.data.length = w.data := by
    decide +kernel
  have ⟨⟨m, t⟩, hr, hd⟩ := (Option.any_eq_true ..).mp hd
  have ⟨r, hi, hd⟩ := (Option.any_eq_true ..).mp hd
  exact of_decide_eq_true hd <| h _ [1] m t r (by decide) hr hi

end Config
