import Webtermo.Library.Trace
import Webtermo.Execution.Wcl.Theorems.Resume

namespace Wcl

def Closed (t : List Obs) (pcb : Nat) : Prop :=
  ∃ c, .call c .close (some pcb) ∈ t

-- A call is made on a pcb that `tcp_new` has returned and that is neither closed nor freed, and a thread
-- that ends has closed its pcbs, if lwIP has not freed them.
def Proper (t : List Obs) : Obs → Prop
  | .call _ _ p => ∃ pcb, p = some pcb ∧ (∃ c, .new c (some pcb) ∈ t) ∧ ¬Closed t pcb ∧ .freed pcb ∉ t
  | .ended c    => ∀ pcb, .new c (some pcb) ∈ t → Closed t pcb ∨ .freed pcb ∈ t
  | _           => True

def PcbLaw : List Obs → Prop :=
  Always Proper

-- `tcp_new` always has a pcb left, and lwIP frees a pcb only once it is closed.
def Kept (t : List Obs) : Obs → Prop
  | .new _ p    => p ≠ none
  | .freed pcb  => Closed t pcb
  | _           => True

def PcbsKept : List Obs → Prop :=
  Always Kept

-- The pcb of a thread that holds one is open, and all others are closed or freed.
structure PcbInv (t : List Obs) (s : State) : Prop where
  held    : (s.pt c).Holds → ∃ pcb, s.pcb c = some pcb ∧ .new c (some pcb) ∈ t ∧ ¬Closed t pcb ∧
    .freed pcb ∉ t
  settled : .new c (some pcb) ∈ t →
    (Closed t pcb ∨ .freed pcb ∈ t) ∨ ((s.pt c).Holds ∧ s.pcb c = some pcb)
  named   : .new c (some pcb) ∈ t → pcb < s.next
  closed  : Closed t pcb → pcb < s.next
  freed   : .freed pcb ∈ t → pcb < s.next
  live    : pcb ∈ s.live → pcb < s.next
  owner   : .new c (some pcb) ∈ t → .new c₁ (some pcb) ∈ t → c = c₁
  law     : PcbLaw t

variable {s s₁ : State} {t o : List Obs} {x : Obs} {c c₁ : Client} {p : Option Nat} {pcb : Nat}

theorem closed_concat : Closed (t ++ [x]) pcb ↔
    Closed t pcb ∨ ∃ c, x = .call c .close (some pcb) := by
  simp [Closed, exists_or, eq_comm]

namespace PcbInv

-- Only these parts of the state matter.
theorem congr (i : PcbInv t s) (hp : ∀ c, (s₁.pt c).Holds ↔ (s.pt c).Holds) (hc : s₁.pcb = s.pcb)
    (hn : s₁.next = s.next) (hl : s₁.live = s.live) : PcbInv t s₁ where
  held h    := hc ▸ i.held ((hp _).mp h)
  settled h := (i.settled h).imp_right fun ⟨h, h₁⟩ => ⟨(hp _).mpr h, hc ▸ h₁⟩
  named h   := hn ▸ i.named h
  closed h  := hn ▸ i.closed h
  freed h   := hn ▸ i.freed h
  live h    := hn ▸ i.live (hl ▸ h)
  owner     := i.owner
  law       := i.law

-- An observation that is neither of a new or a freed pcb nor the end of a thread, and closes nothing
theorem concat (i : PcbInv t s) (hx : Proper t x) (hn : ∀ c pcb, x ≠ .new c pcb)
    (hc : ∀ c p, x ≠ .call c .close p) (hf : ∀ pcb, x ≠ .freed pcb) : PcbInv (t ++ [x]) s := by
  have new {c pcb} : .new c (some pcb) ∈ t ++ [x] ↔ .new c (some pcb) ∈ t := by
    simp [(hn c (some pcb)).symm]
  have closed {pcb} : Closed (t ++ [x]) pcb ↔ Closed t pcb := by
    simp [closed_concat, hc]
  have freed {pcb} : .freed pcb ∈ t ++ [x] ↔ .freed pcb ∈ t := by
    simp [(hf pcb).symm]
  constructor
  case held => exact fun h => by simpa only [new, closed, freed] using i.held h
  case settled => exact fun h => by simpa only [closed, freed] using i.settled (new.mp h)
  case named => exact fun h => i.named <| new.mp h
  case closed => exact fun h => i.closed <| closed.mp h
  case freed => exact fun h => i.freed <| freed.mp h
  case live => exact i.live
  case owner => exact fun h h₁ => i.owner (new.mp h) (new.mp h₁)
  case law => exact i.law.concat hx

-- A thread that holds its pcb calls something other than `tcp_close`.
theorem call (i : PcbInv t s) (hh : (s.pt c).Holds) (hf : f ≠ .close) :
    PcbInv (t ++ [Obs.call c f (s.pcb c)]) s := by
  have ⟨pcb, hp, hn, hc, hr⟩ := i.held hh
  exact i.concat ⟨pcb, hp, ⟨c, hn⟩, hc, hr⟩ nofun (fun _ _ h => hf <| by cases h; rfl) nofun

theorem close (i : PcbInv t s) (hh : (s.pt c).Holds) :
    PcbInv (t ++ [Obs.call c .close (s.pcb c)]) (s.goto c .start) := by
  have ⟨pcb, hp, hn, hc, hr⟩ := i.held hh
  have new {c₁ pcb₁} : .new c₁ (some pcb₁) ∈ t ++ [Obs.call c .close (s.pcb c)] ↔
      .new c₁ (some pcb₁) ∈ t := by simp
  have closed {pcb₁} : Closed (t ++ [Obs.call c .close (s.pcb c)]) pcb₁ ↔
      Closed t pcb₁ ∨ pcb₁ = pcb := by
    simp [closed_concat, hp, eq_comm]
  have freed {pcb₁} : .freed pcb₁ ∈ t ++ [Obs.call c .close (s.pcb c)] ↔ .freed pcb₁ ∈ t := by simp
  constructor
  case held =>
    intro c₁ h₁
    by_cases he : c₁ = c
    case pos => simp [State.goto, he] at h₁
    case neg =>
      have ⟨pcb₁, hp₁, hn₁, hc₁, hr₁⟩ := i.held (c := c₁) <| by simpa [State.goto, he] using h₁
      refine ⟨pcb₁, hp₁, new.mpr hn₁, ?_, freed.not.mpr hr₁⟩
      rw [closed]
      rintro (h | h)
      · exact hc₁ h
      · exact he <| i.owner (h ▸ hn₁) hn
  case settled =>
    intro pcb₁ c₁ h₁
    rw [closed, freed]
    obtain (h | h) | ⟨h, h₂⟩ := i.settled (new.mp h₁)
    · exact .inl <| .inl <| .inl h
    · exact .inl <| .inr h
    · by_cases he : c₁ = c
      case pos =>
        subst he
        exact .inl <| .inl <| .inr <| Option.some.inj <| h₂.symm.trans hp
      case neg => exact .inr ⟨by simpa [State.goto, he] using h, h₂⟩
  case named => exact fun h => i.named <| new.mp h
  case closed =>
    intro pcb₁ h
    rw [closed] at h
    exact h.elim i.closed (· ▸ i.named hn)
  case freed => exact fun h => i.freed <| freed.mp h
  case live => exact i.live
  case owner => exact fun h h₁ => i.owner (new.mp h) (new.mp h₁)
  case law => exact i.law.concat ⟨pcb, hp, ⟨c, hn⟩, hc, hr⟩

theorem ended (i : PcbInv t s) (hh : ¬(s.pt c).Holds) : PcbInv (t ++ [Obs.ended c]) s :=
  i.concat (fun _ h => (i.settled h).resolve_right fun h => hh h.1) nofun nofun nofun

theorem connect (i : PcbInv t s) (hh : ¬(s.pt c).Holds) :
    PcbInv (t ++ [Obs.new c (some s.next)]) (connect s c true).1 := by
  have new {c₁ pcb} : .new c₁ (some pcb) ∈ t ++ [Obs.new c (some s.next)] ↔
      .new c₁ (some pcb) ∈ t ∨ (c₁ = c ∧ pcb = s.next) := by simp
  have closed {pcb} : Closed (t ++ [Obs.new c (some s.next)]) pcb ↔ Closed t pcb := by
    simp [closed_concat]
  have freed {pcb} : .freed pcb ∈ t ++ [Obs.new c (some s.next)] ↔ .freed pcb ∈ t := by simp
  constructor
  case held =>
    intro c₁ h₁
    by_cases he : c₁ = c
    case pos =>
      subst he
      refine ⟨s.next, by simp [Wcl.connect, State.goto], new.mpr <| .inr ⟨rfl, rfl⟩, ?_, ?_⟩
      · exact fun h => absurd (i.closed <| closed.mp h) <| Nat.lt_irrefl _
      · exact fun h => absurd (i.freed <| freed.mp h) <| Nat.lt_irrefl _
    case neg =>
      obtain ⟨pcb, hp, hn, hc, hr⟩ := i.held (c := c₁) <| by
        simpa [Wcl.connect, State.goto, State.setGsm, he] using h₁
      refine ⟨pcb, ?_, new.mpr <| .inl hn, closed.not.mpr hc, freed.not.mpr hr⟩
      simpa [Wcl.connect, State.goto, State.setGsm, he] using hp
  case settled =>
    intro pcb c₁ h₁
    rw [closed, freed]
    obtain h | ⟨hc, hp⟩ := new.mp h₁
    · obtain h | ⟨h, h₂⟩ := i.settled h
      · exact .inl h
      · have he : c₁ ≠ c := fun he => hh <| he ▸ h
        refine .inr ⟨?_, ?_⟩
        · simpa [Wcl.connect, State.goto, State.setGsm, he] using h
        · simpa [Wcl.connect, State.goto, State.setGsm, he] using h₂
    · subst hc hp
      exact .inr <| by simp [Wcl.connect, State.goto]
  case named =>
    intro pcb c₁ h
    obtain h | ⟨_, hp⟩ := new.mp h
    · exact Nat.lt_succ_of_lt <| i.named h
    · exact hp ▸ Nat.lt_succ_self _
  case closed => exact fun h => Nat.lt_succ_of_lt <| i.closed <| closed.mp h
  case freed => exact fun h => Nat.lt_succ_of_lt <| i.freed <| freed.mp h
  case live =>
    intro pcb h
    have h : pcb = s.next ∨ pcb ∈ s.live := by
      simpa [Wcl.connect, State.goto, State.setGsm] using h
    exact h.elim (· ▸ Nat.lt_succ_self _) fun h => Nat.lt_succ_of_lt <| i.live h
  case owner =>
    intro pcb c₁ c₂ h₁ h₂
    obtain h₁ | ⟨hc₁, hp₁⟩ := new.mp h₁ <;> obtain h₂ | ⟨hc₂, hp₂⟩ := new.mp h₂
    · exact i.owner h₁ h₂
    · exact absurd (i.named h₁) <| hp₂ ▸ Nat.lt_irrefl _
    · exact absurd (i.named h₂) <| hp₁ ▸ Nat.lt_irrefl _
    · exact hc₁.trans hc₂.symm
  case law => exact i.law.concat trivial

theorem free (i : PcbInv t s) (hl : pcb ∈ s.live) (hc : Closed t pcb)
    (hs : ∀ p ∈ s₁.live, p ∈ s.live) (hp : s₁.pt = s.pt) (hb : s₁.pcb = s.pcb)
    (hn : s₁.next = s.next) : PcbInv (t ++ [Obs.freed pcb]) s₁ := by
  have new {c p} : .new c p ∈ t ++ [Obs.freed pcb] ↔ .new c p ∈ t := by simp
  have closed {p} : Closed (t ++ [Obs.freed pcb]) p ↔ Closed t p := by simp [closed_concat]
  have freed {p} : .freed p ∈ t ++ [Obs.freed pcb] ↔ .freed p ∈ t ∨ p = pcb := by simp
  constructor
  case held =>
    intro c h
    have ⟨p, hp, ho, hc₁, hr⟩ := i.held (c := c) <| hp ▸ h
    refine ⟨p, hb ▸ hp, new.mpr ho, closed.not.mpr hc₁, ?_⟩
    rw [freed]
    exact fun h => h.elim hr fun h => hc₁ <| h ▸ hc
  case settled =>
    intro p c h
    rw [closed, freed, hp, hb]
    exact (i.settled <| new.mp h).imp_left fun h => h.imp_right .inl
  case named => exact fun h => hn ▸ i.named (new.mp h)
  case closed => exact fun h => hn ▸ i.closed (closed.mp h)
  case freed => exact fun h => hn ▸ (freed.mp h).elim i.freed (· ▸ i.live hl)
  case live => exact fun h => hn ▸ i.live (hs _ h)
  case owner => exact fun h h₁ => i.owner (new.mp h) (new.mp h₁)
  case law => exact i.law.concat trivial

theorem goto (i : PcbInv t s) (h : pt.Holds ↔ (s.pt c).Holds) : PcbInv t (s.goto c pt) := by
  refine i.congr (fun c₁ => ?_) rfl rfl rfl
  by_cases he : c₁ = c
  case pos =>
    subst he
    rw [State.goto_pt_self]
    exact h
  case neg => rw [State.goto_pt_ne s he]

theorem write (i : PcbInv t s) (hh : (s.pt c).Holds) :
    PcbInv (t ++ (write s c b a).2) (write s c b a).1 := by
  have i := (i.call hh (f := .write b (s.buf b).bytes) nofun).call hh (f := .output) nofun
  rw [List.append_assoc] at i
  exact i.congr (fun _ => Iff.rfl) rfl rfl rfl

theorem closing (i : PcbInv t s) (hh : (s.pt c).Holds) :
    PcbInv (t ++ (Wcl.close s c).2) (Wcl.close s c).1 := by
  have i := ((i.call hh (f := .arg) nofun).call hh (f := .sent) nofun).call hh (f := .recv) nofun
  have i := (i.close hh).ended (c := c) <| by simp [State.goto]
  simp only [List.append_assoc, List.cons_append, List.nil_append] at i
  cases c <;> exact i.congr (fun _ => Iff.rfl) rfl rfl rfl

theorem build (i : PcbInv t s) (b : Built s c s₁ text o) : PcbInv (t ++ o) s₁ := by
  have ⟨rBuf, xmlBuf, infobip, buf, infobiplen, hs⟩ := b.other
  have i := i.concat (x := .xml c s.dev text) trivial nofun nofun nofun
  have i := i.concat (x := .rebuilt .infobip (s.inFlight .infobip)
    (s.buf .infobip ≠ s₁.buf .infobip)) trivial nofun nofun nofun
  have i := i.concat (x := .rebuilt c.buf (s.inFlight c.buf) (s.buf c.buf ≠ s₁.buf c.buf))
    trivial nofun nofun nofun
  rw [List.append_assoc, List.append_assoc] at i
  rw [b.obs]
  exact i.congr (fun _ => hs ▸ Iff.rfl) (hs ▸ rfl) (hs ▸ rfl) (hs ▸ rfl)

theorem resume (i : PcbInv t s) (h : Wcl.resume s c a = some (s₁, o)) (v : PcbsKept (t ++ o)) :
    PcbInv (t ++ o) s₁ := by
  cases resume_resumed h with
  | stay => simpa using i
  | yield hp => simpa using i.goto (c := c) <| by simp [hp]
  | @build _ s₂ _ o₁ b hp hb =>
    have hn : ¬(s₂.pt c).Holds := by
      have ⟨_, _, _, _, _, hs⟩ := hb.other
      simp [hs, hp]
    rw [← List.append_assoc] at v ⊢
    cases b with
    | true => exact (i.build hb).connect hn
    | false => exact absurd rfl <| v (t ++ o₁) _ [] rfl
  | request hp =>
    have i : PcbInv t (s.setGsm c .waiting) := i.congr (fun _ => Iff.rfl) rfl rfl rfl
    refine (i.write <| by simp [State.setGsm, hp]).goto ?_
    cases c <;> simp [Wcl.write, State.setGsm, Client.sent, hp]
  | body hp => exact (i.write <| by simp [hp]).goto <| by simp [Wcl.write, hp]
  | last hp =>
    have hw : (s.pt .wcl).Holds := by simp [hp]
    rw [← List.append_assoc]
    refine ((i.write hw).goto ?_).closing ?_
    · simp [Wcl.write, hp]
    · simp
  | close hp => exact i.closing hp

theorem messages (i : PcbInv t s) (ho : ∀ x ∈ o, x.Message) : PcbInv (t ++ o) s := by
  induction o generalizing t with
  | nil => simpa using i
  | cons x o ih =>
    have hx : x.Message := ho x <| by simp
    have i : PcbInv (t ++ [x]) s := by
      cases x with
      | alarm | sms | testWApp => exact i.concat trivial nofun nofun nofun
      | _ => exact absurd hx id
    exact List.append_cons .. ▸ ih i fun y hy => ho y <| by simp [hy]

theorem step (i : PcbInv t s) (hs : device.step s e = some (s₁, o)) (v : PcbsKept (t ++ o)) :
    PcbInv (t ++ o) s₁ := by
  obtain ⟨c, a, _, hs⟩ | ⟨pcb, _, hs⟩ | h := step_cases hs
  · exact i.resume hs v
  · simp only [Wcl.free] at hs
    split_ifs at hs with hl
    cases hs
    exact i.free hl (v t _ [] rfl) (fun _ h => List.mem_of_mem_erase h) rfl rfl rfl
  · exact (i.messages h.obs).congr (fun _ => h.pt ▸ Iff.rfl) h.pcb h.next h.live

theorem init : PcbInv [] (State.init env) where
  held h  := absurd h id
  settled := nofun
  named   := nofun
  closed  := by simp [Closed]
  freed   := nofun
  live    := nofun
  owner   := nofun
  law     := Always.nil

end PcbInv

-- In every run from the start of the device in which `tcp_new` never fails and lwIP frees no pcb that is
-- still held, all calls are made on open pcbs and every pcb is closed.
theorem pcb_law (hr : device.run (State.init env) es = some (s, t)) (v : PcbsKept t) : PcbLaw t :=
  (Machine.run_history (I := fun t s => PcbsKept t → PcbInv t s) (t := [])
    (fun i _ hs v => (i <| Always.of_append v).step hs v)
    (fun _ => PcbInv.init) Machine.Guarded.trivial hr v).law

instance : Decidable (Closed t pcb) :=
  decidable_of_iff (t.any fun | .call _ .close (some p) => p = pcb | _ => false) <| by
    simp only [List.any_eq_true, Closed]
    constructor
    case mp =>
      intro ⟨x, hx, h⟩
      split at h
      case h_1 c p => exact ⟨c, of_decide_eq_true h ▸ hx⟩
      case h_2 => cases h
    case mpr => exact fun ⟨c, h⟩ => ⟨_, h, by simp⟩

instance : Decidable (.freed pcb ∈ t) :=
  decidable_of_iff (t.any fun | .freed p => p = pcb | _ => false) <| by
    simp only [List.any_eq_true]
    constructor
    case mp =>
      intro ⟨x, hx, h⟩
      split at h
      case h_1 p => exact of_decide_eq_true h ▸ hx
      case h_2 => cases h
    case mpr => exact fun h => ⟨_, h, by simp⟩

instance : DecidablePred (Kept t)
  | .new _ p   => inferInstanceAs <| Decidable (p ≠ none)
  | .freed pcb => inferInstanceAs <| Decidable (Closed t pcb)
  | .alarm _ _ _ _ | .sms _ | .testWApp _ _ _ | .xml _ _ _ | .rebuilt _ _ _ | .call _ _ _ | .ended _ =>
    isTrue trivial

instance : Decidable (PcbsKept t) :=
  inferInstanceAs <| Decidable (Always _ t)

theorem pcb_law_sent_message : ∃ s t, device.run blank sentMessage = some (s, t) ∧
    Closed t 0 ∧ .freed 0 ∈ t ∧ PcbLaw t := by
  have : (device.run blank sentMessage).any (fun x => Closed x.2 0 ∧ .freed 0 ∈ x.2 ∧ PcbsKept x.2) := by
    decide +kernel
  obtain ⟨⟨s, t⟩, hr, ht⟩ := Option.any_eq_true _ _ |>.mp this
  obtain ⟨hc, hf, kept⟩ := of_decide_eq_true ht
  exact ⟨s, t, hr, hc, hf, pcb_law hr kept⟩

-- The server refuses the connection, and the thread closes the pcb when its timer expires.
def refused : List Event :=
  let resume (expired : Bool) := Event.resume .wcl ⟨expired, true, true, []⟩
  [.testSms 4, resume false, resume false, .freed 0, resume true]

def CallsLive (t : List Obs) : Obs → Prop
  | .call _ _ (some pcb) => .freed pcb ∉ t
  | _                    => True

theorem PcbLaw.callsLive (h : PcbLaw t) : Always CallsLive t := by
  intro t₁ x t₂ ht
  have := h t₁ x t₂ ht
  unfold CallsLive
  split
  case h_1 pcb =>
    have ⟨_, hp, _, _, hf⟩ := this
    exact Option.some.inj hp ▸ hf
  case h_2 => trivial

instance : DecidablePred (CallsLive t)
  | .call _ _ (some pcb) => inferInstanceAs <| Decidable (.freed pcb ∉ t)
  | .alarm _ _ _ _ | .sms _ | .testWApp _ _ _ | .xml _ _ _ | .rebuilt _ _ _ | .new _ _
  | .call _ _ none | .ended _ | .freed _ => isTrue trivial

theorem freed_pcb_closed :
    ¬∀ env es s t, device.run (State.init env) es = some (s, t) → PcbLaw t := by
  intro h
  have : (device.run blank refused).any (fun x => ¬Always CallsLive x.2) := by
    decide +kernel
  obtain ⟨⟨s, t⟩, hr, ht⟩ := Option.any_eq_true _ _ |>.mp this
  exact of_decide_eq_true ht (h _ _ _ _ hr).callsLive

end Wcl
