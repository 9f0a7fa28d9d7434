import Webtermo.Execution.Enc.Transmit

namespace Enc.Transmit

def Obs.output? : Obs → Option Bytes
  | output frame => frame
  | _            => none

def Obs.wire? : Obs → Option Bytes
  | wire frame => frame
  | _          => none

-- The observation changes the transmit memory or its length during a transmission.
def Obs.Tears : Obs → Prop
  | memory address old new txrts => txrts ∧ address < rxStart ∧ old ≠ new
  | etxlen old new txrts         => txrts ∧ old ≠ new
  | _                            => False

instance : (x : Obs) → Decidable x.Tears
  | .memory .. => inferInstanceAs <| Decidable (_ ∧ _)
  | .etxlen .. => inferInstanceAs <| Decidable (_ ∧ _)
  | .output _ | .packetSend _ | .wire _ => inferInstanceAs <| Decidable False

structure Law (t : List Obs) : Prop where
  quiet  : ∀ x ∈ t, ¬x.Tears
  window : ∀ p, .packetSend p ∈ t → p = txStart
  -- The frames on the wire are some of those that have been passed, in order.
  frames : (t.filterMap Obs.wire?).Sublist (t.filterMap Obs.output?)

-- A frame of at most 1514 bytes
def Event.Fits : Event → Prop
  | output chain => (chain.map (·.length)).sum ≤ 1514
  | _            => True

-- A frame is passed only when the transmission of the last one is over.
def Waits (s : State) : Event → Prop
  | .output _ => ¬s.txrts
  | _         => True

instance : (e : Event) → Decidable e.Fits
  | .output _ => inferInstanceAs <| Decidable (_ ≤ _)
  | .next | .send | .done | .abort | .link .. => inferInstanceAs <| Decidable True

instance : (e : Event) → Decidable (Waits s e)
  | .output _ => inferInstanceAs <| Decidable (¬_)
  | .next | .send | .done | .abort | .link .. => inferInstanceAs <| Decidable True

variable {s s₁ : State} {t : List Obs} {frames wires : List Bytes}

theorem copy_take {b b₁ : Buffer encTmpLen} (h : copy b l chain = some b₁) :
    b₁.bytes.take (l + chain.flatten.length) = b.bytes.take l ++ chain.flatten := by
  induction chain generalizing b l with
  | nil =>
    cases h
    simp
  | cons payload chain ih =>
    have ⟨b₂, hw, h⟩ := Option.bind_eq_some_iff.mp h
    have := ih h
    rw [Buffer.take_write_append hw] at this
    simpa [Nat.add_assoc] using this

-- The bytes that `low_level_output` sends are those of the chain.
theorem lowLevelOutput_eq (h : lowLevelOutput s chain = some (s₁, o)) :
    ∃ encBuf, s₁ = { s with encBuf, todo := packetSend chain.flatten } ∧
      o = [.output chain.flatten, .packetSend s.egpwrpt] := by
  have ⟨encBuf, hc, h⟩ := Option.bind_eq_some_iff.mp h
  have ⟨packet, hr, h⟩ := Option.bind_eq_some_iff.mp h
  cases h
  have hp : packet = chain.flatten := by
    have := copy_take hc
    simp only [Buffer.read] at hr
    split at hr
    case isFalse => cases hr
    case isTrue =>
      cases hr
      simpa [List.length_flatten] using this
  exact ⟨encBuf, by rw [hp], rfl⟩

-- What can be left of `enc424j600MACFlush`
inductive Flush : List Task → Prop
  | linkif : Flush [.linkif]
  | clear : Flush [.clear]
  | macon2 : Flush [.macon2]
  | phydpx : Flush [.phydpx w]
  | setMabbipg : Flush [.setMabbipg w₁, .setMacon2 w]
  | setMacon2 : Flush [.setMacon2 w]
  | phylnk : Flush [.phylnk]
  | txrts : Flush [.txrts]

-- The frame is in the transmit memory.
structure Loaded (packet : Bytes) (s : State) : Prop where
  ram     : s.ram.read txStart packet.length = packet
  egpwrpt : s.egpwrpt = txStart
  etxlen  : s.etxlen = packet.length

theorem Loaded.congr (l : Loaded packet s) (hr : s₁.ram = s.ram) (hp : s₁.egpwrpt = s.egpwrpt)
    (hl : s₁.etxlen = s.etxlen) : Loaded packet s₁ :=
  ⟨hr ▸ l.ram, hp ▸ l.egpwrpt, hl ▸ l.etxlen⟩

-- Where the driver and the controller are, after the frames that have been passed and sent
inductive Phase (frames wires : List Bytes) (s : State) : Prop
  | idle (hw : wires.Sublist frames) (hs : s.sending = none) (hp : s.egpwrpt = txStart)
    (ht : s.todo = [])
  | writing (hf : frames = before ++ [written ++ rest]) (hw : wires.Sublist before)
    (hs : s.sending = none) (hp : s.egpwrpt = txStart + written.length)
    (hr : s.ram.read txStart written.length = written) (hl : (written ++ rest).length ≤ 1514)
    (ht : s.todo = rest.map .byte ++ [Task.egpwrpt txStart, .etxlen (written ++ rest).length, .linkif])
  | written (hf : frames = before ++ [packet]) (hw : wires.Sublist before) (hs : s.sending = none)
    (hp : s.egpwrpt = txStart) (hr : s.ram.read txStart packet.length = packet)
    (ht : s.todo = [.etxlen packet.length, .linkif])
  | flushing (hf : frames = before ++ [packet]) (hw : wires.Sublist before) (hs : s.sending = none)
    (hl : Loaded packet s) (ht : Flush s.todo)
  | sending (hf : frames = before ++ [packet]) (hw : wires.Sublist before)
    (hs : s.sending = some (packet.take n)) (hl : Loaded packet s) (ht : s.todo = [])

structure Inv (t : List Obs) (s : State) : Prop where
  law   : Law t
  phase : Phase (t.filterMap Obs.output?) (t.filterMap Obs.wire?) s

theorem Law.append (l : Law t) (hq : ∀ x ∈ o, ¬x.Tears) (hw : ∀ p, .packetSend p ∈ o → p = txStart)
    (hf : ((t ++ o).filterMap Obs.wire?).Sublist ((t ++ o).filterMap Obs.output?)) :
    Law (t ++ o) where
  quiet x hx := (List.mem_append.mp hx).elim (l.quiet x) (hq x)
  window p hp := (List.mem_append.mp hp).elim (l.window p) (hw p)
  frames := hf

theorem Phase.sublist (p : Phase frames wires s) : wires.Sublist frames := by
  cases p with
  | idle hw => exact hw
  | writing hf hw | written hf hw | flushing hf hw | sending hf hw =>
    exact hf ▸ hw.trans (List.sublist_append_left ..)

-- A step that neither passes nor sends a frame keeps the law.
theorem Inv.quiet (i : Inv t s) (hn : ∀ x ∈ o, x.output? = none ∧ x.wire? = none ∧ ¬x.Tears)
    (hw : ∀ p, .packetSend p ∉ o)
    (p : Phase (t.filterMap Obs.output?) (t.filterMap Obs.wire?) s₁) : Inv (t ++ o) s₁ := by
  have ho : (t ++ o).filterMap Obs.output? = t.filterMap Obs.output? := by
    simpa using fun x hx => (hn x hx).1
  have hw₁ : (t ++ o).filterMap Obs.wire? = t.filterMap Obs.wire? := by
    simpa using fun x hx => (hn x hx).2.1
  refine ⟨i.law.append (fun x hx => (hn x hx).2.2) (fun p hp => absurd hp (hw p)) ?_, ?_⟩
  · exact ho ▸ hw₁ ▸ p.sublist
  · exact ho ▸ hw₁ ▸ p

-- A step of `enc424j600MACFlush` leaves the frame alone, and ends the call when it sets TXRTS.
theorem Flush.next (f : Flush (task :: todo)) (h : Transmit.next { s with todo } task = (s₁, o)) :
    o = [] ∧ s₁.ram = s.ram ∧ s₁.egpwrpt = s.egpwrpt ∧ s₁.etxlen = s.etxlen ∧
      (s₁.sending = s.sending ∧ (Flush s₁.todo ∨ s₁.todo = []) ∨
        s₁.sending = some (s.sending.getD []) ∧ s₁.todo = []) := by
  cases f
  case txrts =>
    cases h
    exact ⟨rfl, rfl, rfl, rfl, .inr ⟨rfl, rfl⟩⟩
  all_goals
    cases h
    refine ⟨rfl, rfl, rfl, rfl, .inl ⟨rfl, ?_⟩⟩
  case linkif => cases s.linkif <;> simp [Flush.clear, Flush.phylnk]
  case clear => exact .inl .macon2
  case macon2 => exact .inl .phydpx
  case phydpx => cases s.phydpx <;> simp [Flush.setMabbipg]
  case setMabbipg => exact .inl .setMacon2
  case setMacon2 => exact .inl .phylnk
  case phylnk => cases s.phylnk <;> simp [Flush.txrts]

namespace Inv

theorem output (i : Inv t s) (ht : s.todo = []) (hs : s.sending = none)
    (hl : (chain.map (·.length)).sum ≤ 1514) (h : lowLevelOutput s chain = some (s₁, o)) :
    Inv (t ++ o) s₁ := by
  have ⟨encBuf, he, ho⟩ := lowLevelOutput_eq h
  have hp : s.egpwrpt = txStart := by
    cases i.phase with
    | idle _ _ hp => exact hp
    | writing _ _ _ _ _ _ hn | written _ _ _ _ _ hn => simp [ht] at hn
    | flushing _ _ _ _ f => exact absurd (ht ▸ f) nofun
    | sending _ _ hn => simp [hs] at hn
  have hf : (t ++ o).filterMap Obs.output? = t.filterMap Obs.output? ++ [chain.flatten] := by
    simp [ho, Obs.output?]
  have hw : (t ++ o).filterMap Obs.wire? = t.filterMap Obs.wire? := by
    simp [ho, Obs.wire?]
  refine ⟨i.law.append ?_ ?_ ?_, ?_⟩
  · simp [ho, Obs.Tears]
  · simpa [ho] using hp
  · exact hf ▸ hw ▸ i.law.frames.trans (List.sublist_append_left ..)
  · rw [hf, hw, he]
    have hc : [chain.flatten] = [[] ++ chain.flatten] := rfl
    exact .writing (congrArg _ hc) i.law.frames hs hp rfl (by simpa [List.length_flatten]) rfl

theorem byte (i : Inv t s) (hf : t.filterMap Obs.output? = before ++ [written ++ b :: rest])
    (hw : (t.filterMap Obs.wire?).Sublist before) (hs : s.sending = none)
    (hp : s.egpwrpt = txStart + written.length)
    (hr : s.ram.read txStart written.length = written) (hl : (written ++ b :: rest).length ≤ 1514)
    (ht : todo = rest.map Task.byte ++
      [.egpwrpt txStart, .etxlen (written ++ b :: rest).length, .linkif])
    (h : Transmit.next { s with todo } (.byte b) = (s₁, o)) : Inv (t ++ o) s₁ := by
  cases h
  refine i.quiet (by simp [Obs.output?, Obs.wire?, Obs.Tears, State.txrts, hs]) (by simp) ?_
  have he : written ++ b :: rest = (written ++ [b]) ++ rest := by simp
  rw [he] at hf hl ht
  refine .writing hf hw hs ?_ ?_ hl ht
  · simp only [List.length_append, List.length_cons, List.length_nil] at hl ⊢
    simp only [hp, txStart, ramSize]
    omega
  · rw [hp, List.length_append, Memory.read_add]
    congr 1
    · rw [← hr, Memory.read_length]
      refine Memory.read_congr fun j hj => Function.update_of_ne (by omega) ..
    · simp [Memory.read]

theorem next (i : Inv t s) (ht : s.todo = task :: todo)
    (h : Transmit.next { s with todo } task = (s₁, o)) : Inv (t ++ o) s₁ := by
  cases i.phase with
  | idle _ _ _ hn | sending _ _ _ _ hn => simp [hn] at ht
  | @writing before written rest hf hw hs hp hr hl hn =>
    cases rest with
    | cons b rest =>
      cases hn.symm.trans ht
      exact i.byte hf hw hs hp hr hl rfl h
    | nil =>
      cases hn.symm.trans ht
      cases h
      rw [List.append_nil] at hf
      refine i.quiet (by simp) (by simp) <| .written hf hw hs rfl hr ?_
      simp
  | written hf hw hs hp hr hn =>
    cases hn.symm.trans ht
    cases h
    refine i.quiet (by simp [Obs.output?, Obs.wire?, Obs.Tears, State.txrts, hs]) (by simp) ?_
    exact .flushing hf hw hs ⟨hr, hp, rfl⟩ .linkif
  | flushing hf hw hs hl f =>
    have ⟨ho, hr, hp, hn, hd⟩ := (ht ▸ f).next h
    have hl := hl.congr hr hp hn
    cases ho
    refine i.quiet nofun nofun ?_
    obtain ⟨hs₁, f | hn⟩ | ⟨hs₁, hn⟩ := hd
    · exact .flushing hf hw (hs₁.trans hs) hl f
    · refine .idle ?_ (hs₁.trans hs) hl.egpwrpt hn
      exact hf ▸ hw.trans (List.sublist_append_left ..)
    · refine .sending (n := 0) hf hw ?_ hl hn
      simp [hs₁, hs]

theorem send (i : Inv t s) (hs : s.sending = some sent) (hn : sent.length < s.etxlen) :
    Inv t { s with sending := some <| sent ++ [s.ram (txStart + sent.length)] } := by
  refine ⟨i.law, ?_⟩
  cases i.phase with
  | idle _ he | writing _ _ he | written _ _ he | flushing _ _ he => simp [hs] at he
  | @sending before packet n hf hw he hl ht =>
    cases hs.symm.trans he
    rw [hl.etxlen] at hn
    simp only [List.length_take] at hn
    refine .sending (n := n + 1) hf hw ?_ (hl.congr rfl rfl rfl) ht
    have hn : n < packet.length := by omega
    have hb : s.ram (txStart + n) = packet[n] := by
      have := congrArg (·[n]?) hl.ram
      simpa [Memory.read, hn] using this
    have hm : min n packet.length = n := by omega
    rw [List.length_take, hm, hb, List.take_append_getElem]

-- The transmission is over, with its frame on the wire or given up.
theorem finish (i : Inv t s) (hs : s.sending = some sent)
    (ho : o = [] ∨ (o = [.wire sent] ∧ s.etxlen ≤ sent.length)) :
    Inv (t ++ o) { s with sending := none } := by
  cases i.phase with
  | idle _ he | writing _ _ he | written _ _ he | flushing _ _ he => simp [hs] at he
  | @sending before packet n hf hw he hl ht =>
    cases hs.symm.trans he
    obtain rfl | ⟨rfl, hn⟩ := ho
    · refine i.quiet nofun nofun <| .idle ?_ rfl hl.egpwrpt ht
      exact hf ▸ hw.trans (List.sublist_append_left ..)
    · have hp : packet.take n = packet := by
        rw [hl.etxlen, List.length_take] at hn
        exact List.take_of_length_le (by omega)
      have hf₁ : (t ++ [Obs.wire (packet.take n)]).filterMap Obs.output? = before ++ [packet] := by
        simp [Obs.output?, hf]
      have hw₁ : ((t ++ [Obs.wire (packet.take n)]).filterMap Obs.wire?).Sublist
          (before ++ [packet]) := by
        simpa [Obs.wire?, hp] using hw
      refine ⟨i.law.append (by simp [Obs.Tears]) (by simp) (hf₁ ▸ hw₁), ?_⟩
      exact hf₁ ▸ .idle (hf₁ ▸ hw₁) rfl hl.egpwrpt ht

theorem link (i : Inv t s) : Inv t { s with linkif := true, phylnk := up, phydpx := duplex } := by
  refine ⟨i.law, ?_⟩
  cases i.phase with
  | idle hw hs hp ht              => exact .idle hw hs hp ht
  | writing hf hw hs hp hr hl ht  => exact .writing hf hw hs hp hr hl ht
  | written hf hw hs hp hr ht     => exact .written hf hw hs hp hr ht
  | flushing hf hw hs hl ht       => exact .flushing hf hw hs (hl.congr rfl rfl rfl) ht
  | sending hf hw hs hl ht        => exact .sending hf hw hs (hl.congr rfl rfl rfl) ht

theorem step {e : Event} (i : Inv t s) (hw : e.Fits ∧ Waits s e)
    (h : device.step s e = some (s₁, o)) : Inv (t ++ o) s₁ := by
  cases e with
  | output chain =>
    simp only [device] at h
    split at h
    case isFalse => cases h
    case isTrue ht =>
      have hs : s.sending = none := by simpa [Waits, State.txrts] using hw.2
      exact i.output (List.isEmpty_iff.mp ht) hs hw.1 h
  | next =>
    simp only [device] at h
    split at h
    case h_1 => cases h
    case h_2 ht => exact i.next ht <| Option.some.inj h
  | send =>
    have ⟨sent, hs, h⟩ := Option.bind_eq_some_iff.mp h
    split at h
    case isFalse => cases h
    case isTrue hn =>
      cases h
      simpa using i.send hs hn
  | done =>
    have ⟨sent, hs, h⟩ := Option.bind_eq_some_iff.mp h
    split at h
    case isTrue => cases h
    case isFalse hn =>
      cases h
      exact i.finish hs <| .inr ⟨rfl, by omega⟩
  | abort =>
    simp only [device] at h
    split at h
    case isFalse => cases h
    case isTrue hs =>
      cases h
      have ⟨sent, hs⟩ := Option.isSome_iff_exists.mp hs
      exact i.finish hs <| .inl rfl
  | link up duplex =>
    cases h
    simpa using i.link

end Inv

-- In every run in which a frame is passed only when TXRTS is clear, the transmit memory and its
-- length do not change during a transmission, every frame is written from the start of the memory
-- on, and the frames on the wire are frames that have been passed, in order.
theorem transmit_law
    (g : device.Guarded (fun s e => e.Fits ∧ Waits s e) (.init ram etxlen macon2 mabbipg) es)
    (h : device.run (.init ram etxlen macon2 mabbipg) es = some (s, t)) : Law t := by
  have i : Inv [] (.init ram etxlen macon2 mabbipg) :=
    ⟨⟨nofun, nofun, .slnil⟩, .idle .slnil rfl rfl rfl⟩
  exact (device.run_history (I := Inv) (fun i hw => i.step hw) i g h).law

-- A frame in two payloads as soon as the link is up, the events `between`, and another frame
def twoFrames (between : List Event) : List Event :=
  [.link true true, .output [[1], [2, 3]]] ++ List.replicate 13 .next ++ between ++
    [.output [[4, 5]]] ++ List.replicate 6 .next

theorem transmit_law_twoFrames : ∃ s t,
    device.run (.init (fun _ => 0) 0 0 0) (twoFrames [.send, .send, .send, .done]) = some (s, t) ∧
      Law t := by
  have : (device.run (.init (fun _ => 0) 0 0 0) (twoFrames [.send, .send, .send, .done])).isSome := by
    decide +kernel
  have ⟨(s, t), hr⟩ := Option.isSome_iff_exists.mp this
  exact ⟨s, t, hr, transmit_law (by decide +kernel) hr⟩

-- The second frame is written into the first one.
theorem frame_torn :
    ¬∀ ram etxlen macon2 mabbipg es s t,
      device.Guarded (fun _ e => e.Fits) (.init ram etxlen macon2 mabbipg) es →
      device.run (.init ram etxlen macon2 mabbipg) es = some (s, t) → Law t := by
  intro h
  have : (device.run (.init (fun _ => 0) 0 0 0) (twoFrames [.send])).any fun (_, t) =>
      ∃ x ∈ t, x.Tears := by
    decide +kernel
  have ⟨(s, t), hr, ht⟩ := Option.any_eq_true _ _ |>.mp this
  have ⟨x, hx, hn⟩ := of_decide_eq_true ht
  exact (h _ _ _ _ _ _ _ (by decide +kernel) hr).quiet x hx hn

end Enc.Transmit
