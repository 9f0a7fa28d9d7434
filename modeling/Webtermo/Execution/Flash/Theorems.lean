import Webtermo.Execution.Flash.State
import Webtermo.Library.Trace

namespace Flash

namespace Call

-- The addresses begin at this one.
def start : Call → Nat
  | read block off _ | prog block off _ => block.toNat * lfsBlockSize + off.toNat
  | erase block                         => block.toNat * lfsBlockSize

-- What littlefs may ask for
def Legal : Call → Prop
  | read block off size   => block.toNat < lfsBlocksNum ∧ off.toNat + size ≤ lfsBlockSize
  | prog block off buffer => block.toNat < lfsBlocksNum ∧ off.toNat + buffer.length ≤ lfsBlockSize ∧
    off.toNat % 256 = 0 ∧ buffer.length ≤ 256
  | erase block           => block.toNat < lfsBlocksNum

instance : (c : Call) → Decidable c.Legal
  | .read .. | .prog .. => inferInstanceAs <| Decidable (_ ∧ _)
  | .erase _            => inferInstanceAs <| Decidable (_ < _)

-- What a call does to an ideal array
def apply (m : Memory) : Call → Memory
  | read ..                  => m
  | c@(prog _ _ buffer)      => Nor.program m c.start buffer
  | erase block              => Nor.erase m lfsBlockSize block.toNat

-- The addresses that a call may change
def Covers (a : Nat) : Call → Prop
  | read ..             => False
  | c@(prog _ _ buffer) => c.start ≤ a ∧ a < c.start + buffer.length
  | erase block         => a / lfsBlockSize = block.toNat

theorem apply_frame {c : Call} (h : ¬c.Covers a) : c.apply m a = m a := by
  cases c with
  | read block off size => rfl
  | prog block off buffer =>
    refine Nor.program_frame ?_
    simp only [Covers] at h
    omega
  | erase block => exact if_neg h

end Call

-- The ideal array after the calls that have returned: each byte is 0xFF since its block was last
-- erased, or what it was at the start, ANDed with all values programmed since
def ideal (m : Memory) (t : List Obs) : Memory :=
  t.foldl (fun m x => match x with | .returned c _ => c.apply m | .select .. => m) m

structure Law (m : Memory) (t : List Obs) (s : State) : Prop where
  -- While WIP is set, only the status is read.
  quiet  : ∀ bytes, .select bytes true ∈ t → bytes.head? = some flashCmdRdsr
  reads  : Always (fun past x => ∀ block off size data, x = .returned (.read block off size) data →
    data = (ideal m past).read (Call.read block off size).start size) t
  memory : s.call = none → s.chip.mem = ideal m t
  -- Between two calls that have returned, the array changes at the addresses of the second alone.
  frame  : ∀ t₁ c data, t₁ ++ [Obs.returned c data] <+: t → ∀ a, ¬c.Covers a →
    ideal m (t₁ ++ [Obs.returned c data]) a = ideal m t₁ a

def Event.Legal : Event → Prop
  | call c => c.Legal
  | _      => True

instance : (e : Event) → Decidable e.Legal
  | .call c          => inferInstanceAs <| Decidable c.Legal
  | .next | .finish => inferInstanceAs <| Decidable True

variable {s s₁ : State} {t : List Obs} {m : Memory} {c : Call} {chip : Chip}

@[simp] theorem ideal_select : ideal m (t ++ [Obs.select bytes wip]) = ideal m t := by
  simp [ideal]

@[simp] theorem ideal_returned : ideal m (t ++ [Obs.returned c data]) = c.apply (ideal m t) := by
  simp [ideal]

theorem address_addressBytes {a : UInt32} :
    address (a >>> 24).toUInt8 (a >>> 16).toUInt8 (a >>> 8).toUInt8 a.toUInt8 = a.toNat := by
  have := a.toNat_lt
  simp only [address, UInt32.toNat_toUInt8, UInt32.toNat_shiftRight, UInt32.reduceToNat,
    Nat.reduceMod, Nat.shiftRight_eq_div_pow]
  omega

theorem start_eq {block off : UInt32} (hb : block.toNat < lfsBlocksNum)
    (ho : off.toNat ≤ lfsBlockSize) :
    (block * lfsBlockSize.toUInt32 + off).toNat = block.toNat * lfsBlockSize + off.toNat := by
  have h : lfsBlockSize.toUInt32.toNat = 4096 := rfl
  simp only [lfsBlocksNum, lfsBlockSize] at hb ho
  rw [UInt32.toNat_add, UInt32.toNat_mul, h, lfsBlockSize]
  omega

theorem select_rdsr : chip.select [flashCmdRdsr, 0] = (chip, [chip.status]) :=
  rfl

theorem status_wip : chip.status &&& flashWipMask = flashWipMask ↔ chip.wip := by
  simp only [Chip.status]
  cases chip.wip <;> cases chip.wel <;> decide

theorem select_wren (hw : chip.wip = false) :
    chip.select [flashCmdWren] = ({ chip with wel := true }, []) := by
  simp [Chip.select, hw, flashCmdWren, flashCmdRdsr]

theorem select_read {a : UInt32} (hw : chip.wip = false) :
    chip.select (flashCmdRead :: addressBytes a ++ List.replicate n 0) =
      (chip, chip.mem.read a.toNat n) := by
  simp [Chip.select, hw, flashCmdRead, flashCmdWren, flashCmdRdsr, addressBytes,
    address_addressBytes]

-- The page program command without a byte is not carried out, and would do nothing.
theorem program_nil : Nor.program m a [] = m :=
  funext fun _ => Nor.program_frame (by simp; omega)

theorem select_pp {a : UInt32} (hw : chip.wip = false) (hl : chip.wel)
    (hp : Memory.InPage 256 a.toNat d.length) :
    (chip.select (flashCmdPp :: addressBytes a ++ d)).1.mem = Nor.program chip.mem a.toNat d := by
  by_cases hd : d = []
  · simp [Chip.select, hw, hl, hd, flashCmdPp, flashCmdRead, flashCmdWren, flashCmdRdsr,
      flashCmdSe, addressBytes, program_nil]
  · simp [Chip.select, hw, hl, hd, flashCmdPp, flashCmdRead, flashCmdWren, flashCmdRdsr,
      addressBytes, address_addressBytes, Nor.programPage_eq hp]

theorem select_se {a : UInt32} (hw : chip.wip = false) (hl : chip.wel) :
    (chip.select (flashCmdSe :: addressBytes a)).1.mem =
      Nor.erase chip.mem 4096 (a.toNat / 4096) := by
  simp [Chip.select, hw, hl, flashCmdPp, flashCmdRead, flashCmdWren, flashCmdRdsr, flashCmdSe,
    addressBytes, address_addressBytes]

-- The calls that change the array, with the command that does
inductive Writes : Call → Bytes → Prop
  | prog : Writes (.prog block off buffer)
    (flashCmdPp :: addressBytes (block * lfsBlockSize.toUInt32 + off) ++ buffer)
  | erase : Writes (.erase block) (flashCmdSe :: addressBytes (block * lfsBlockSize.toUInt32))

theorem Writes.tasks (h : Writes c bytes) :
    c.tasks = [.ready, .command [flashCmdWren], .command bytes, .ready, .done []] := by
  cases h <;> rfl

theorem Writes.select (h : Writes c bytes) (l : c.Legal) (hw : chip.wip = false) (hl : chip.wel) :
    (chip.select bytes).1.mem = c.apply chip.mem := by
  cases h with
  | @prog block off buffer =>
    have ⟨hb, ho, ha, hn⟩ := l
    have he : (block * lfsBlockSize.toUInt32 + off).toNat = _ := start_eq hb (by omega)
    rw [select_pp hw hl, he]
    · rfl
    · rw [he]
      simp only [Memory.InPage, lfsBlockSize]
      omega
  | @erase block =>
    have he : (block * lfsBlockSize.toUInt32 + 0).toNat = _ := start_eq l (by decide)
    rw [UInt32.add_zero] at he
    rw [select_se hw hl, he]
    simp [Call.apply, lfsBlockSize]

-- Where a call is, with the array as the calls before it have left it
inductive Phase (m : Memory) (s : State) : Prop
  | idle (hc : s.call = none) (ht : s.todo = []) (hw : s.chip.wip = false) (hm : s.chip.mem = m)
  | read (hc : s.call = some (.read block off size)) (l : (Call.read block off size).Legal)
    (ht : s.todo = (Call.read block off size).tasks) (hw : s.chip.wip = false) (hm : s.chip.mem = m)
  | answered (hc : s.call = some (.read block off size))
    (ht : s.todo = [.done <| m.read (Call.read block off size).start size])
    (hw : s.chip.wip = false) (hm : s.chip.mem = m)
  | write (hc : s.call = some w) (l : w.Legal) (h : Writes w bytes)
    (ht : s.todo = w.tasks ∨ s.todo = [.command [flashCmdWren], .command bytes, .ready, .done []])
    (hw : s.chip.wip = false) (hm : s.chip.mem = m)
  | enabled (hc : s.call = some w) (l : w.Legal) (h : Writes w bytes)
    (ht : s.todo = [.command bytes, .ready, .done []]) (hw : s.chip.wip = false) (hl : s.chip.wel)
    (hm : s.chip.mem = m)
  | written (hc : s.call = some w) (h : Writes w bytes) (ht : s.todo = [.ready, .done []])
    (hm : s.chip.mem = w.apply m)
  | waited (hc : s.call = some w) (h : Writes w bytes) (ht : s.todo = [.done []])
    (hw : s.chip.wip = false) (hm : s.chip.mem = w.apply m)

-- What an observation may be after others
def Right (m : Memory) (past : List Obs) (x : Obs) : Prop :=
  (∀ bytes, x = .select bytes true → bytes.head? = some flashCmdRdsr) ∧
  ∀ block off size data, x = .returned (.read block off size) data →
    data = (ideal m past).read (Call.read block off size).start size

structure Inv (m : Memory) (t : List Obs) (s : State) : Prop where
  right : Always (Right m) t
  phase : Phase (ideal m t) s

theorem Inv.law (i : Inv m t s) : Law m t s where
  quiet bytes h := by
    have ⟨t₁, t₂, ht⟩ := List.append_of_mem h
    exact (i.right _ _ _ ht).1 bytes rfl
  reads t₁ x t₂ ht := (i.right t₁ x t₂ ht).2
  memory hc := by
    cases i.phase with
    | idle _ _ _ hm => exact hm
    | read hn | answered hn | write hn | enabled hn | written hn | waited hn =>
      exact nomatch hc.symm.trans hn
  frame t₁ c data _ a ha := by
    rw [ideal_returned]
    exact Call.apply_frame ha

theorem right_select (h : wip = true → bytes.head? = some flashCmdRdsr) :
    Right m t (.select bytes wip) :=
  ⟨fun _ he => by cases he; exact h rfl, nofun⟩

theorem Inv.select (i : Inv m t s) (h : wip = true → bytes.head? = some flashCmdRdsr)
    (p : Phase (ideal m t) s₁) : Inv m (t ++ [Obs.select bytes wip]) s₁ :=
  ⟨i.right.concat <| right_select h, ideal_select (m := m) (t := t) ▸ p⟩

theorem next_ready : next s .ready =
    (if s.chip.wip then { s with todo := .ready :: s.todo } else s,
      [.select [flashCmdRdsr, 0] s.chip.wip]) := by
  simp only [next, select_rdsr, List.getD_cons_zero, status_wip]

namespace Inv

theorem next (i : Inv m t s) (ht : s.todo = task :: todo)
    (h : Flash.next { s with todo } task = (s₁, o)) : Inv m (t ++ o) s₁ := by
  cases i.phase with
  | idle _ hn => exact nomatch hn.symm.trans ht
  | @read block off size hc l hn hw hm =>
    cases hn.symm.trans ht
    have he : (block * lfsBlockSize.toUInt32 + off).toNat = _ :=
      start_eq l.1 (by have := l.2; omega)
    simp only [Flash.next, select_read hw] at h
    cases h
    refine i.select (by simp [hw]) <| .answered hc ?_ hw hm
    simp [hm, he, Call.start]
  | @answered block off size hc hn hw hm =>
    cases hn.symm.trans ht
    simp only [Flash.next, hc] at h
    cases h
    refine ⟨i.right.concat ⟨nofun, ?_⟩, ?_⟩
    · intro _ _ _ _ he
      cases he
      rfl
    · show Phase (ideal m (t ++ [Obs.returned _ _])) _
      rw [ideal_returned]
      exact .idle rfl rfl hw hm
  | @write c bytes hc l hx hn hw hm =>
    rw [hx.tasks] at hn
    obtain hn | hn := hn
    · cases hn.symm.trans ht
      rw [next_ready, if_neg (by simp [hw])] at h
      cases h
      exact i.select (by simp [hw]) <| .write hc l hx (.inr rfl) hw hm
    · cases hn.symm.trans ht
      simp only [Flash.next, select_wren hw] at h
      cases h
      exact i.select (by simp [hw]) <| .enabled hc l hx rfl hw rfl hm
  | @enabled c bytes hc l hx hn hw hl hm =>
    cases hn.symm.trans ht
    cases h
    refine i.select (by simp [hw]) <| .written hc hx rfl ?_
    exact hm ▸ hx.select l hw hl
  | @written c bytes hc hx hn hm =>
    cases hn.symm.trans ht
    rw [next_ready] at h
    cases h
    refine i.select (fun _ => rfl) ?_
    split
    case isTrue => exact .written hc hx rfl hm
    case isFalse hw => exact .waited hc hx rfl (Bool.not_eq_true _ ▸ hw) hm
  | @waited c bytes hc hx hn hw hm =>
    cases hn.symm.trans ht
    simp only [Flash.next, hc] at h
    cases h
    refine ⟨i.right.concat ⟨nofun, ?_⟩, ?_⟩
    · intro _ _ _ _ he
      cases he
      cases hx
    · show Phase (ideal m (t ++ [Obs.returned _ _])) _
      rw [ideal_returned]
      exact .idle rfl rfl hw hm

theorem call (i : Inv m t s) (hc : s.call = none) (l : c.Legal) :
    Inv m t { s with call := c, todo := c.tasks } := by
  refine ⟨i.right, ?_⟩
  cases i.phase with
  | idle _ _ hw hm =>
    cases c with
    | read block off size   => exact .read rfl l rfl hw hm
    | prog block off buffer => exact .write rfl l .prog (.inl rfl) hw hm
    | erase block           => exact .write rfl l .erase (.inl rfl) hw hm
  | read hn | answered hn | write hn | enabled hn | written hn | waited hn =>
    exact nomatch hc.symm.trans hn

theorem finish (i : Inv m t s) (h : s.chip.wip) :
    Inv m t { s with chip := { s.chip with wip := false } } := by
  refine ⟨i.right, ?_⟩
  cases i.phase with
  | written hc hx ht hm => exact .written hc hx ht hm
  | idle _ _ hw | read _ _ _ hw | answered _ _ hw | write _ _ _ _ hw | enabled _ _ _ _ hw
  | waited _ _ _ hw => exact nomatch h.symm.trans hw

theorem step {e : Event} (i : Inv m t s) (l : e.Legal) (h : device.step s e = some (s₁, o)) :
    Inv m (t ++ o) s₁ := by
  cases e with
  | call c =>
    simp only [device] at h
    split at h
    case isFalse => cases h
    case isTrue hc =>
      cases h
      simpa using i.call (Option.isNone_iff_eq_none.mp hc) l
  | next =>
    simp only [device] at h
    split at h
    case h_1 => cases h
    case h_2 ht => exact i.next ht <| Option.some.inj h
  | finish =>
    simp only [device] at h
    split at h
    case isFalse => cases h
    case isTrue hw =>
      cases h
      simpa using i.finish hw

end Inv

-- A block is erased, programmed twice in one page and read.
def calls : List Event :=
  let write (c : Call) : List Event :=
    [Event.call c] ++ List.replicate 4 .next ++ [Event.finish] ++ List.replicate 2 .next
  write (.erase 7) ++ write (.prog 7 256 [0xF0, 0x3C]) ++ write (.prog 7 256 [0x9F]) ++
    [.call (.read 7 255 4), .next, .next]

end Flash
