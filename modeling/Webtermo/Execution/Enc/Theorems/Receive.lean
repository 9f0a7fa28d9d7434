import Webtermo.Execution.Enc.Receive
import Webtermo.Library.Trace

namespace Enc.Receive

def Obs.stored? : Obs → Option (Nat × Frame)
  | stored address f => (address, f)
  | _                => none

def Obs.isReceived : Obs → Bool
  | received .. => true
  | _           => false

-- The frames that have been stored and not been delivered, oldest first
def unread (t : List Obs) : List (Nat × Frame) :=
  (t.filterMap Obs.stored?).drop (t.countP Obs.isReceived)

-- A call delivers what it has asked for of the oldest unread frame if there is one.
def Delivers (past : List Obs) : Obs → Prop
  | .stored ..                    => True
  | .received len packet returned => ∃ p ∈ (unread past).head?,
    packet = p.2.data.take len ∧ returned = packet.length
  | .nothing                      => unread past = []

structure Law (t : List Obs) (s : State) : Prop where
  delivers : Always Delivers t
  pointer  : ∀ p ∈ (unread t).head?, s.nextPacketPointer = p.1
  even     : s.erxtail % 2 = 0
  inRing   : rxStart ≤ s.erxtail ∧ s.erxtail < ramSize
  outside  : ∀ p ∈ unread t, ∀ i < p.2.room, s.erxtail ≠ advance p.1 i

variable {t : List Obs} {s s₁ : State} {m : Memory} {f : Frame} {q : List (Nat × Frame)} {o w r : Nat}

theorem ringSize_eq : ringSize = 23040 :=
  rfl

-- The address of a place of the ring
def addr (o : Nat) : Nat :=
  rxStart + o % ringSize

theorem addr_sub : addr o - rxStart = o % ringSize :=
  Nat.add_sub_cancel_left ..

theorem advance_addr : advance (addr o) n = addr (o + n) := by
  rw [advance, addr_sub, Nat.mod_add_mod, addr]

theorem addr_lt : addr o < ramSize := by
  have : o % ringSize < ringSize := Nat.mod_lt _ (by decide)
  simp only [addr, ringSize, ramSize, rxStart] at *
  omega

theorem addr_ne (h : o < w) (hs : w < o + ringSize) : addr o ≠ addr w := by
  have := Ring.mod_ne h hs
  simp only [addr]
  omega

theorem bytes_length : (f.bytes n).length = 8 + f.data.length := by
  simp [Frame.bytes, le16]
  omega

theorem bytes_le_room : 8 + f.data.length ≤ f.room := by
  simp only [Frame.room]
  omega

theorem room_even : f.room % 2 = 0 := by
  simp [Frame.room]

-- The frames lie back to back from one place to another.
def Stored (m : Memory) : Nat → List (Nat × Frame) → Nat → Prop
  | o, [], w                => o = w
  | o, (address, f) :: q, w => address = addr o ∧
    Ring.read m ringSize o (8 + f.data.length) = f.bytes (addr (o + f.room)) ∧
    Stored m (o + f.room) q w

namespace Stored

theorem le (h : Stored m o q w) : o ≤ w := by
  induction q generalizing o with
  | nil => exact Nat.le_of_eq h
  | cons p q ih =>
    have := ih h.2.2
    omega

theorem concat (h : Stored m o q w)
    (hf : Ring.read m ringSize w (8 + f.data.length) = f.bytes (addr (w + f.room))) :
    Stored m o (q ++ [(addr w, f)]) (w + f.room) := by
  induction q generalizing o with
  | nil =>
    cases h
    exact ⟨rfl, hf, rfl⟩
  | cons p q ih => exact ⟨h.1, h.2.1, ih h.2.2⟩

-- What is written behind the frames does not reach them within a round.
theorem write (h : Stored m o q w) (hd : w + d.length ≤ o + ringSize) :
    Stored (Ring.write m ringSize w d) o q w := by
  induction q generalizing o with
  | nil => exact h
  | cons p q ih =>
    have hl := h.2.2.le
    have := bytes_le_room (f := p.2)
    refine ⟨h.1, ?_, ih h.2.2 (by omega)⟩
    rw [Ring.read_write_before (by omega) hd]
    exact h.2.1

-- A frame lies between the two places.
theorem mem (h : Stored m o q w) (hp : p ∈ q) :
    ∃ r, p.1 = addr r ∧ o ≤ r ∧ r + p.2.room ≤ w := by
  induction q generalizing o with
  | nil => cases hp
  | cons p₁ q ih =>
    have hl := h.2.2.le
    cases hp with
    | head => exact ⟨o, h.1, Nat.le_refl _, hl⟩
    | tail _ hp =>
      have ⟨r, ha, hr, hw⟩ := ih h.2.2 hp
      exact ⟨r, ha, by omega, hw⟩

end Stored

-- The frames lie between the places `r` and `w`, and ERXTAIL two bytes before a round is complete.
structure Inv (t : List Obs) (s : State) (r w : Nat) : Prop where
  delivers : Always Delivers t
  stored   : Stored s.ring r (unread t) w
  le       : w + 2 ≤ r + ringSize
  even     : r % 2 = 0 ∧ w % 2 = 0
  pointer  : s.nextPacketPointer = addr r
  head     : s.head = addr w
  erxtail  : s.erxtail = addr (r + ringSize - 2)
  pktcnt   : s.pktcnt = (unread t).length
  -- No more frames have been delivered than stored.
  count    : t.countP Obs.isReceived ≤ (t.filterMap Obs.stored?).length

theorem Inv.law (i : Inv t s r w) : Law t s where
  delivers := i.delivers
  pointer p hp := by
    have h := i.stored
    cases hu : unread t with
    | nil => simp [hu] at hp
    | cons p₁ q =>
      rw [hu] at h hp
      cases hp
      rw [i.pointer, h.1]
  even := by
    have := i.even.1
    rw [i.erxtail, addr, ringSize_eq, rxStart]
    omega
  inRing := by
    rw [i.erxtail]
    exact ⟨Nat.le_add_right .., addr_lt⟩
  outside p hp j hj := by
    have ⟨o, ha, ho, hw⟩ := i.stored.mem hp
    have := i.le
    rw [i.erxtail, ha, advance_addr]
    exact (addr_ne (by omega) (by omega)).symm

theorem unread_concat_stored (h : t.countP Obs.isReceived ≤ (t.filterMap Obs.stored?).length) :
    unread (t ++ [Obs.stored a f]) = unread t ++ [(a, f)] := by
  simp only [unread, List.filterMap_append, List.countP_append]
  rw [List.drop_append_of_le_length (by simpa [Obs.isReceived] using h)]
  rfl

theorem unread_concat_received : unread (t ++ [Obs.received len packet n]) = (unread t).tail := by
  have hs : [Obs.received len packet n].filterMap Obs.stored? = [] := rfl
  have hr : [Obs.received len packet n].countP Obs.isReceived = 1 := rfl
  simp only [unread, List.filterMap_append, List.countP_append, hs, hr, List.append_nil,
    List.tail_drop]

theorem Inv.start : Inv [] (.init m erxrdpt) 0 0 where
  delivers := .nil
  stored   := rfl
  le       := by decide
  even     := by decide
  pointer  := rfl
  head     := rfl
  erxtail  := rfl
  pktcnt   := rfl
  count    := Nat.le_refl _

-- The controller writes no further than two bytes before the oldest unread frame.
theorem Inv.free_eq (i : Inv t s r w) :
    (s.erxtail + ringSize - s.head) % ringSize = r + ringSize - 2 - w := by
  have := i.le
  have := i.stored.le
  rw [i.erxtail, i.head, addr, addr, ringSize_eq] at *
  omega

theorem Inv.arrive (i : Inv t s r w) (h : Receive.arrive s f = (s₁, out)) :
    ∃ w, Inv (t ++ out) s₁ r w := by
  simp only [Receive.arrive, i.free_eq] at h
  split at h
  case isFalse =>
    cases h
    exact ⟨w, by simpa using i⟩
  case isTrue hr =>
    have hl := i.le
    have hrw := i.stored.le
    have hn : w + f.room + 2 ≤ r + ringSize := by omega
    have hb := bytes_le_room (f := f)
    cases h
    have hu := unread_concat_stored (a := s.head) (f := f) i.count
    have hd {n : Nat} : w + (f.bytes n).length ≤ r + ringSize := by
      rw [bytes_length]
      omega
    refine ⟨w + f.room, ?_⟩
    constructor
    case delivers => exact i.delivers.concat trivial
    case stored =>
      rw [hu]
      simp only [i.head, advance_addr, addr_sub, Ring.write_mod]
      refine (i.stored.write hd).concat ?_
      have hl : (f.bytes (addr (w + f.room))).length ≤ ringSize := by rw [bytes_length]; omega
      have := Ring.read_write (m := s.ring) (o := w) hl
      rwa [bytes_length] at this
    case le => exact hn
    case even =>
      have := i.even
      have := room_even (f := f)
      omega
    case pointer => exact i.pointer
    case head => simp only [i.head, advance_addr]
    case erxtail => exact i.erxtail
    case pktcnt => simp [hu, i.pktcnt]
    case count => simpa [Obs.stored?, Obs.isReceived] using Nat.le_succ_of_le i.count

theorem ofLe16_le16 (h : n < 65536) : ofLe16 ((le16 n).getD 0 0) ((le16 n).getD 1 0) = n := by
  simp [le16, ofLe16]
  omega

-- What the windows show of a frame that lies in the ring
theorem read_frame (h : Ring.read m ringSize r (8 + f.data.length) = f.bytes a) :
    Ring.read m ringSize r 2 = le16 a ∧
    (∃ flags, Ring.read m ringSize (r + 2) 6 = le16 f.data.length ++ flags) ∧
    Ring.read m ringSize (r + 2 + 6) f.data.length = f.data := by
  rw [Nat.add_comm 8, Nat.add_comm, show 8 = 2 + 6 from rfl, Ring.read_add, Ring.read_add] at h
  simp only [Frame.bytes, List.append_assoc] at h
  have ⟨h₁, h⟩ := List.append_inj h (by simp [le16])
  rw [← List.append_assoc] at h
  have ⟨h₂, h₃⟩ := List.append_inj h (by simp [le16])
  exact ⟨h₁, ⟨_, h₂⟩, h₃⟩

theorem read_take (h : Ring.read m ringSize r f.data.length = f.data) (hn : n ≤ f.data.length) :
    Ring.read m ringSize r n = f.data.take n := by
  have : Ring.read m ringSize r (n + (f.data.length - n)) = _ := Ring.read_add
  rw [Nat.add_sub_cancel' hn, h] at this
  rw [this, List.take_left' Ring.read_length]

theorem packetReceive_nothing (h : s.pktcnt = 0) : packetReceive s len = (s, [.nothing]) :=
  if_pos h

-- A call for the frame at the place `r`
theorem packetReceive_eq (hc : s.pktcnt ≠ 0) (hp : s.nextPacketPointer = addr r)
    (hr : Ring.read s.ring ringSize r (8 + f.data.length) = f.bytes (addr (r + f.room)))
    (hl : f.data.length < 65536) :
    ∃ erxrdpt, packetReceive s len = ({ s with
        pktcnt            := s.pktcnt - 1
        erxtail           :=
          if addr (r + f.room) = rxStart then ramSize - 2 else addr (r + f.room) - 2
        erxrdpt           := erxrdpt
        nextPacketPointer := addr (r + f.room)
      }, [.received len (f.data.take len) (f.data.take len).length]) := by
  have ⟨hn, ⟨flags, hs⟩, hd⟩ := read_frame hr
  have ha : addr (r + f.room) < 65536 := Nat.lt_trans addr_lt (by decide)
  have hlen : ofLe16 ((le16 f.data.length ++ flags).getD 0 0) ((le16 f.data.length ++ flags).getD 1 0) =
      f.data.length := ofLe16_le16 hl
  have hm : (if f.data.length ≤ len then f.data.length else len) = (f.data.take len).length := by
    rw [List.length_take]
    split <;> omega
  have ht : Ring.read s.ring ringSize (r + 2 + 6) (f.data.take len).length = f.data.take len := by
    rw [read_take hd (by simp), List.length_take, ← List.take_eq_take_min]
  refine ⟨addr (r + 2 + 6 + (f.data.take len).length), ?_⟩
  rw [packetReceive, if_neg hc]
  simp only [readMemoryWindow, hp, addr_sub, advance_addr, Ring.read_mod, hn, hs, hlen, hm, ht,
    ofLe16_le16 ha]

-- ERXTAIL goes two bytes before a frame, also where the ring begins again.
theorem tail_eq (h : r % 2 = 0) :
    (if addr r = rxStart then ramSize - 2 else addr r - 2) = addr (r + ringSize - 2) := by
  split
  all_goals
    simp only [addr, ringSize_eq, rxStart, ramSize] at *
    omega

theorem Inv.packetReceive (i : Inv t s r w) (h : Receive.packetReceive s len = (s₁, out)) :
    ∃ r, Inv (t ++ out) s₁ r w := by
  have hs := i.stored
  cases hu : unread t with
  | nil =>
    rw [packetReceive_nothing (by simp [i.pktcnt, hu])] at h
    cases h
    have hn : [Obs.nothing].filterMap Obs.stored? = [] := rfl
    have hu₁ : unread (t ++ [Obs.nothing]) = unread t := by
      simp [unread, hn, Obs.isReceived]
    refine ⟨r, i.delivers.concat hu, ?_, i.le, i.even, i.pointer, i.head, i.erxtail, ?_, ?_⟩
    · exact hu₁ ▸ i.stored
    · exact hu₁ ▸ i.pktcnt
    · simpa [hn, Obs.isReceived] using i.count
  | cons p q =>
    have ⟨a, f⟩ := p
    rw [hu] at hs
    have ⟨_, hr, hs⟩ := hs
    have hl := hs.le
    have hb := bytes_le_room (f := f)
    have hle := i.le
    have hc : s.pktcnt = q.length + 1 := by simp [i.pktcnt, hu]
    have ⟨erxrdpt, (he : Receive.packetReceive s len = _)⟩ :=
      packetReceive_eq (by omega) i.pointer hr (by rw [ringSize_eq] at hle; omega)
    rw [he] at h
    cases h
    have hu₁ {packet : Bytes} {n : Nat} : unread (t ++ [Obs.received len packet n]) = q := by
      rw [unread_concat_received, hu, List.tail_cons]
    have even : (r + f.room) % 2 = 0 := by
      have := i.even
      have := room_even (f := f)
      omega
    refine ⟨r + f.room, ?_⟩
    constructor
    case delivers => exact i.delivers.concat ⟨(a, f), by simp [hu], rfl, rfl⟩
    case stored => exact hu₁ ▸ hs
    case le => omega
    case even => exact ⟨even, i.even.2⟩
    case pointer => rfl
    case head => exact i.head
    case erxtail => exact tail_eq even
    case pktcnt => simp [hu₁, hc]
    case count =>
      have hn : 0 < (unread t).length := by simp [hu]
      simp only [unread, List.length_drop] at hn
      have hr : [Obs.received len (f.data.take len) (f.data.take len).length].countP
        Obs.isReceived = 1 := rfl
      rw [List.countP_append, hr, List.filterMap_append]
      simp
      omega

theorem Inv.step {e : Event} (i : Inv t s r w) (h : device.step s e = some (s₁, out)) :
    ∃ r w, Inv (t ++ out) s₁ r w := by
  cases e with
  | arrive f          => exact ⟨r, i.arrive <| Option.some.inj h⟩
  | packetReceive len =>
    have ⟨r, i⟩ := i.packetReceive <| Option.some.inj h
    exact ⟨r, w, i⟩

end Enc.Receive
