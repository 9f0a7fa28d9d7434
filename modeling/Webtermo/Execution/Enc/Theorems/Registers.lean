import Webtermo.Execution.Enc.Registers

namespace Enc

-- The chip has taken the access for what it is, and outside a reset the bank has been the cached one.
structure Obs.Right (x : Obs) : Prop where
  reached  : x.reached = some (x.kind, .ofAddress x.address)
  coherent : ¬x.inReset → x.coherent

-- An access to a banked register that does not reset the chip behind the driver's back
def Access.Ordinary (x : Access) : Prop :=
  x.address < 0x80 ∧ ¬x.resets

instance {x : Access} : Decidable x.Ordinary :=
  inferInstanceAs <| Decidable (_ ∧ _)

def Event.Ordinary : Event → Prop
  | access x => x.Ordinary
  | _        => True

instance : (e : Event) → Decidable e.Ordinary
  | .access x => inferInstanceAs <| Decidable x.Ordinary
  | .sendSystemReset | .init | .next _ => inferInstanceAs <| Decidable True

def Task.Ordinary : Task → Prop
  | access x => x.Ordinary
  | mistat   => True
  | _        => False

variable {s s₁ : State} {x : Access} {a : Answer} {todo : List Task}

theorem bank_cases {address : u08} : address < 0x80 →
    address &&& 0xE0 = 0x00 ∨ address &&& 0xE0 = 0x20 ∨ address &&& 0xE0 = 0x40 ∨
      address &&& 0xE0 = 0x60 := by
  revert address
  decide +kernel

theorem decode_op {kind : Kind} {address : u08} :
    decode (kind.op ||| (address &&& 0x1F)) = some (kind, address &&& 0x1F) := by
  revert address
  cases kind <;> decide +kernel

-- What the head of the four functions leaves
structure Switched (s : State) (address : u08) (s₁ : State) : Prop where
  currentBank : s₁.currentBank = address &&& 0xE0
  bank        : s₁.bank = address &&& 0xE0
  eudast      : s₁.eudast = s.eudast
  todo        : s₁.todo = s.todo

-- The cached bank may only differ from the bank of the chip if it is not the one that is needed.
theorem changeBank_switched {address : u08} (ha : address < 0x80)
    (h : s.currentBank = address &&& 0xE0 → s.bank = s.currentBank) :
    Switched s address (changeBank s address) := by
  simp only [changeBank]
  split
  case isTrue hb => exact ⟨hb.symm, (h hb.symm).trans hb.symm, rfl, rfl⟩
  case isFalse =>
    obtain hb | hb | hb | hb := bank_cases ha
    all_goals
      rw [hb]
      exact ⟨hb.symm, hb.symm, rfl, rfl⟩

theorem Switched.at_eq {address : u08} (h : Switched s address s₁) :
    Reg.at s₁.bank (address &&& 0x1F) = .ofAddress address := by
  rw [h.bank]
  rfl

-- An access reaches its register if the chip has the bank that the register needs.
theorem access_eq (h : Reg.at (changeBank s x.address).bank (x.address &&& 0x1F) = .ofAddress x.address) :
    access s x a inReset =
      (if a.works then
        effect (changeBank s x.address) x.kind (.ofAddress x.address) x.data
      else
        changeBank s x.address,
      {
        kind     := x.kind
        address  := x.address
        reached  := some (x.kind, .ofAddress x.address)
        coherent := s.currentBank = s.bank ∧
          (changeBank s x.address).currentBank = (changeBank s x.address).bank
        inReset  := inReset
      },
      if Reg.ofAddress x.address = .ofAddress Enc.eudast then
        (changeBank s x.address).eudast
      else
        a.value) := by
  simp only [access, executeOp16, decode_op, h]

-- An access that does not reset the chip leaves the banks alone.
theorem effect_ordinary (h : ¬x.resets) :
    (effect s x.kind (.ofAddress x.address) x.data).bank = s.bank ∧
    (effect s x.kind (.ofAddress x.address) x.data).currentBank = s.currentBank ∧
    (effect s x.kind (.ofAddress x.address) x.data).todo = s.todo := by
  simp only [effect]
  split
  case isTrue  => exact ⟨rfl, rfl, rfl⟩
  case isFalse =>
    simp only [Access.resets] at h
    rw [if_neg h]
    exact ⟨rfl, rfl, rfl⟩

-- What an access does that starts with the right bank cached
theorem access_ordinary (ho : x.Ordinary) (hc : s.currentBank = s.bank)
    (h : access s x a inReset = (s₁, o, value)) :
    s₁.currentBank = s₁.bank ∧ s₁.todo = s.todo ∧ o.Right := by
  have sw := changeBank_switched ho.1 fun _ => hc.symm
  rw [access_eq sw.at_eq] at h
  cases h
  have hs := sw.currentBank.trans sw.bank.symm
  refine ⟨?_, ?_, rfl, fun _ => by simp [hc, hs]⟩
  all_goals
    have ⟨hb, hc, ht⟩ := effect_ordinary (s := changeBank s x.address) ho.2
    split
    case isTrue => simp only [hb, hc, ht, hs, sw.todo]
    case isFalse => simp only [hs, sw.todo]

-- What is known when a reset has so much left
inductive Phase (s : State) : List Task → Prop
  | finished (hc : s.currentBank = s.bank) : Phase s []
  | select : Phase s sendSystemReset
  | write (hb : s.bank = 0) : Phase s [.write, .verify, .reset, .force, .ready, .check]
  | verify (hc : s.currentBank = 0) (hb : s.bank = 0) :
    Phase s [.verify, .reset, .force, .ready, .check]
  | reset (hc : s.currentBank = 0) (hb : s.bank = 0) (he : s.eudast = 0x1234) :
    Phase s [.reset, .force, .ready, .check]
  -- The reset has selected bank 0 unless it has not taken effect.
  | force (he : s.eudast = 0 → s.bank = 0) : Phase s [.force, .ready, .check]
  | ready (hc : s.currentBank = 0) (he : s.eudast = 0 → s.bank = 0) : Phase s [.ready, .check]
  | check (hc : s.currentBank = 0) (he : s.eudast = 0 → s.bank = 0) : Phase s [.check]

structure Inv (t : List Obs) (s : State) : Prop where
  right : ∀ x ∈ t, x.Right
  phase : ∃ left todo, s.todo = left ++ todo ∧ (∀ task ∈ todo, task.Ordinary) ∧ Phase s left

-- A register that is visible in every bank is reached in any of them.
theorem access_common (hx : x = ⟨.rcr, Enc.eudast, 0⟩ ∨ x = ⟨.rcr, estat, 0⟩)
    (hc : s.currentBank = 0) (h : access s x a true = (s₁, o, value)) :
    s₁ = s ∧ o.Right ∧ (x.address = Enc.eudast → value = s.eudast) := by
  have hb : changeBank s x.address = s := by
    obtain rfl | rfl := hx
    all_goals exact if_pos hc.symm
  have hr : Reg.at s.bank (x.address &&& 0x1F) = .ofAddress x.address := by
    obtain rfl | rfl := hx
    all_goals rfl
  rw [access_eq (hb.symm ▸ hr), hb] at h
  cases h
  refine ⟨?_, ⟨rfl, nofun⟩, ?_⟩
  · obtain rfl | rfl := hx
    all_goals cases a.works <;> rfl
  · exact fun he => by rw [he, if_pos rfl]

-- The next step leads from one phase to another, and its access is right.
theorem Phase.next (p : Phase s (task :: left)) (ht : s.todo = left ++ todo)
    (h : Enc.next s a task = (s₁, o)) :
    (∀ x ∈ o, x.Right) ∧ ∃ left₁, s₁.todo = left₁ ++ todo ∧ Phase s₁ left₁ := by
  cases p with
  | select =>
    cases h
    exact ⟨nofun, _, ht, .write rfl⟩
  | write hb =>
    have sw : Switched s Enc.eudast (changeBank s Enc.eudast) :=
      changeBank_switched (by decide) fun hc => hb.trans hc.symm
    rw [Enc.next, access_eq sw.at_eq] at h
    cases h
    refine ⟨by simpa using ⟨rfl, nofun⟩, _, ?_, .verify ?_ ?_⟩
    all_goals split
    · exact sw.todo.trans ht
    · exact sw.todo.trans ht
    · exact sw.currentBank
    · exact sw.currentBank
    · exact sw.bank
    · exact sw.bank
  | verify hc hb =>
    cases hr : access s ⟨.rcr, Enc.eudast, 0⟩ a true with | mk s₂ r =>
    have ⟨hs, right, hv⟩ := access_common (.inl rfl) hc hr
    cases hs
    simp only [Enc.next, hr] at h
    split at h
    case isTrue =>
      cases h
      exact ⟨by simpa using right, _, congrArg (.write :: .verify :: ·) ht, .write hb⟩
    case isFalse he =>
      cases h
      exact ⟨by simpa using right, _, ht, .reset hc hb <| (hv rfl).symm.trans <| not_not.mp he⟩
  | reset hc hb he =>
    have sw : Switched s econ2 (changeBank s econ2) :=
      changeBank_switched (by decide) fun _ => hb.trans hc.symm
    rw [Enc.next, access_eq sw.at_eq] at h
    cases h
    refine ⟨by simpa using ⟨rfl, nofun⟩, _, ?_, .force fun he₁ => ?_⟩
    · split
      · exact sw.todo.trans ht
      · exact sw.todo.trans ht
    · split at he₁
      case isTrue hw =>
        rw [if_pos hw]
        rfl
      case isFalse => exact absurd (he₁.symm.trans <| sw.eudast.trans he) (by decide)
  | force he =>
    cases h
    exact ⟨nofun, _, ht, .ready rfl he⟩
  | ready hc he =>
    cases hr : access s ⟨.rcr, estat, 0⟩ a true with | mk s₂ r =>
    have ⟨hs, right, _⟩ := access_common (.inr rfl) hc hr
    cases hs
    simp only [Enc.next, hr] at h
    split at h
    all_goals
      cases h
      refine ⟨by simpa using right, ?_⟩
    · exact ⟨_, congrArg _ ht, .ready hc he⟩
    · exact ⟨_, ht, .check hc he⟩
  | check hc he =>
    cases hr : access s ⟨.rcr, Enc.eudast, 0⟩ a true with | mk s₂ r =>
    have ⟨hs, right, hv⟩ := access_common (.inl rfl) hc hr
    cases hs
    simp only [Enc.next, hr] at h
    split at h
    case isTrue =>
      cases h
      exact ⟨by simpa using right, _, congrArg (sendSystemReset ++ ·) ht, .select⟩
    case isFalse hz =>
      cases h
      refine ⟨by simpa using right, _, ht, .finished ?_⟩
      rw [hc, he ((hv rfl).symm.trans <| not_not.mp hz)]

theorem next_ordinary (ho : Task.Ordinary task) (hc : s.currentBank = s.bank)
    (h : Enc.next s a task = (s₁, o)) :
    s₁.currentBank = s₁.bank ∧ (s₁.todo = s.todo ∨ s₁.todo = task :: s.todo) ∧ ∀ x ∈ o, x.Right := by
  cases task with
  | access x =>
    cases hr : access s x a false with | mk s₂ r =>
    have ⟨hc, ht, right⟩ := access_ordinary ho hc hr
    rw [Enc.next, hr] at h
    cases h
    exact ⟨hc, .inl ht, by simpa using right⟩
  | mistat =>
    cases hr : access s ⟨.rcr, Enc.mistat, 0⟩ a false with | mk s₂ r =>
    have ⟨hc, ht, right⟩ := access_ordinary (by decide) hc hr
    simp only [Enc.next, hr] at h
    split at h
    all_goals cases h
    · exact ⟨hc, .inr <| congrArg _ ht, by simpa using right⟩
    · exact ⟨hc, .inl ht, by simpa using right⟩
  | select | write | verify | reset | force | ready | check => exact ho.elim

theorem initTasks_ordinary : ∀ task ∈ initTasks, task.Ordinary := by
  simp only [initTasks, List.mem_cons, List.not_mem_nil, or_false, forall_eq_or_imp, forall_eq,
    Task.Ordinary]
  decide

namespace Inv

variable {t : List Obs} {e : Event}

theorem next (i : Inv t s) (ht : s.todo = task :: todo)
    (h : Enc.next { s with todo } a task = (s₁, o)) : Inv (t ++ o) s₁ := by
  have ⟨left, rest, hs, ho, p⟩ := i.phase
  cases left with
  | nil =>
    cases p with | finished hc =>
    have hr : rest = task :: todo := hs.symm.trans ht
    cases hr
    have ⟨hc, ht, right⟩ := next_ordinary (s := { s with todo }) (ho task (by simp)) hc h
    refine ⟨List.forall_mem_append.mpr ⟨i.right, right⟩, [], s₁.todo, rfl, ?_, .finished hc⟩
    obtain ht | ht := ht
    · exact ht ▸ fun task hm => ho task <| List.mem_cons_of_mem _ hm
    · exact ht ▸ ho
  | cons task₁ left =>
    have ⟨h₁, h₂⟩ := List.cons.inj <| ht.symm.trans hs
    cases h₁
    have p : Phase { s with todo } (task :: left) := by
      cases p
      all_goals constructor <;> assumption
    have ⟨right, left₁, ht, p⟩ := p.next h₂ h
    exact ⟨List.forall_mem_append.mpr ⟨i.right, right⟩, left₁, rest, ht, ho, p⟩

theorem step (i : Inv t s) (ho : e.Ordinary) (h : bankDevice.step s e = some (s₁, o)) :
    Inv (t ++ o) s₁ := by
  -- A call begins when nothing is left of the last one.
  have idle (ht : s.todo = []) : s.currentBank = s.bank := by
    have ⟨left, rest, hs, _, p⟩ := i.phase
    have ⟨hl, _⟩ := List.append_eq_nil_iff.mp <| hs.symm.trans ht
    cases hl
    cases p
    assumption
  cases e with
  | access x =>
    simp only [bankDevice] at h
    split at h
    case isFalse => cases h
    case isTrue ht =>
      cases h
      exact ⟨by simpa using i.right, [], _, rfl, List.forall_mem_singleton.mpr ho, .finished <| idle ht⟩
  | sendSystemReset =>
    simp only [bankDevice] at h
    split at h
    case isFalse => cases h
    case isTrue ht =>
      cases h
      exact ⟨by simpa using i.right, _, [], (List.append_nil _).symm, nofun, .select⟩
  | init =>
    simp only [bankDevice] at h
    split at h
    case isFalse => cases h
    case isTrue ht =>
      cases h
      exact ⟨by simpa using i.right, _, _, rfl, initTasks_ordinary, .select⟩
  | next a =>
    simp only [bankDevice] at h
    split at h
    case h_1 => cases h
    case h_2 ht => exact i.next ht <| Option.some.inj h

end Inv

-- The driver begins with the bank of the chip cached, or with an initialisation.
def Starts (currentBank bank : u08) (es : List Event) : Prop :=
  currentBank = bank ∨ es.head? = some .init ∨ es.head? = some .sendSystemReset

theorem reset_inv {e : Event} (he : e = .init ∨ e = .sendSystemReset)
    (h : bankDevice.step s e = some (s₁, o)) : Inv o s₁ := by
  obtain rfl | rfl := he
  case inl =>
    simp only [bankDevice] at h
    split at h
    case isFalse => cases h
    case isTrue =>
      cases h
      exact ⟨nofun, _, _, rfl, initTasks_ordinary, .select⟩
  case inr =>
    simp only [bankDevice] at h
    split at h
    case isFalse => cases h
    case isTrue =>
      cases h
      exact ⟨nofun, _, [], (List.append_nil _).symm, nofun, .select⟩

-- In every sequence of accesses, initialisations and resets that may fail and are tried again, every
-- access reaches the register that was addressed, and outside a reset it finds the bank of the chip
-- in `currentBank`.
theorem bank_law (hs : Starts currentBank bank es)
    (g : bankDevice.Guarded (fun _ e => e.Ordinary) (.start currentBank bank value) es)
    (h : bankDevice.run (.start currentBank bank value) es = some (s, t)) : ∀ x ∈ t, x.Right := by
  obtain hc | he := hs
  case inl =>
    have i : Inv [] (.start currentBank bank value) := ⟨nofun, [], [], rfl, nofun, .finished hc⟩
    exact (bankDevice.run_history (I := Inv) (fun i ho => i.step ho) i g h).right
  case inr =>
    cases es with
    | nil => simp at he
    | cons e es =>
      have ⟨s₁, o₁, o₂, hs, hr, ho⟩ := bankDevice.run_cons h
      have i := reset_inv (by simpa using he) hs
      rw [ho]
      exact (bankDevice.run_history (I := Inv) (fun i ho => i.step ho) i (g.tail hs) hr).right

-- An initialisation with a reset that fails once and an access to a register of another bank
def failedReset : List Event :=
  let answer (works : Bool) := Event.next ⟨works, estatReady⟩
  .init :: List.replicate 3 (answer true) ++ List.replicate 4 (answer false) ++
    List.replicate 19 (.next ⟨true, estatReady⟩) ++ [Event.access ⟨.rcr, maadr1, 0⟩, .next ⟨true, 0⟩]

theorem bank_law_failed : ∃ s t,
    bankDevice.run (.start 0x40 0x20 7) failedReset = some (s, t) ∧ ∀ x ∈ t, x.Right := by
  have : (bankDevice.run (.start 0x40 0x20 7) failedReset).isSome := by
    decide +kernel
  have ⟨(s, t), hr⟩ := Option.isSome_iff_exists.mp this
  exact ⟨s, t, hr, bank_law (.inr <| .inl rfl) (by decide +kernel) hr⟩

end Enc
