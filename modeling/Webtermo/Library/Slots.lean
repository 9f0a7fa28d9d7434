import Webtermo.Library.Paged

-- A memory that is divided into slots by the addresses at which they start
namespace Slots

-- The end of the slot that starts at the given address. The last slot ends with the memory.
def next (starts : List Nat) (size a : Nat) : Nat :=
  (starts.filter (a < ·)).foldl min size

variable {starts : List Nat} {size : Nat}

theorem foldl_min_le {l : List Nat} : l.foldl min n ≤ n ∧ ∀ x ∈ l, l.foldl min n ≤ x := by
  induction l generalizing n with
  | nil => simp
  | cons y l ih =>
    have ⟨hn, hl⟩ := ih (n := min n y)
    refine ⟨Nat.le_trans hn <| Nat.min_le_left .., fun x hx => ?_⟩
    cases hx with
    | head => exact Nat.le_trans hn <| Nat.min_le_right ..
    | tail _ hx => exact hl x hx

theorem next_le (h : f ∈ starts) (ha : a < f) : next starts size a ≤ f :=
  foldl_min_le.2 f <| List.mem_filter.mpr ⟨h, by simpa using ha⟩

-- `x` lies in the slot that starts at `a`.
def In (starts : List Nat) (size a x : Nat) : Prop :=
  a ≤ x ∧ x < next starts size a

instance : Decidable (In starts size a x) :=
  inferInstanceAs <| Decidable (_ ∧ _)

theorem In.disjoint (ha : a ∈ starts) (hf : f ∈ starts) (hn : a ≠ f) (h : In starts size a x) :
    ¬In starts size f x := by
  intro hx
  cases Nat.lt_or_gt_of_ne hn with
  | inl hl => exact absurd (Nat.le_trans (next_le hf hl) hx.1) <| Nat.not_le_of_lt h.2
  | inr hl => exact absurd (Nat.le_trans (next_le ha hl) h.1) <| Nat.not_le_of_lt hx.2

-- The bytes from the start of a slot on that lie both in it and in the page it starts in
def room (starts : List Nat) (size page a : Nat) : Nat :=
  min (next starts size a - a) (page - a % page)

-- A write to a slot stays inside of it and of its page.
structure Holds (starts : List Nat) (size page a n : Nat) : Prop where
  inSlot : ∀ i < n, In starts size a (Memory.pageAddr page a i)
  inPage : Memory.InPage page a n

theorem holds_iff (hp : 0 < page) : Holds starts size page a n ↔ n ≤ room starts size page a := by
  have ha := Nat.mod_lt a hp
  constructor
  case mp =>
    intro h
    have hi : a % page + n ≤ page := h.inPage
    by_cases hn : n = 0
    case pos => omega
    case neg =>
      have hs := h.inSlot (n - 1) (by omega)
      rw [Memory.pageAddr_eq h.inPage (by omega)] at hs
      have := hs.2
      simp only [room]
      omega
  case mpr =>
    intro h
    simp only [room] at h
    have inPage : Memory.InPage page a n := by
      simp only [Memory.InPage]
      omega
    refine ⟨fun i hi => ?_, inPage⟩
    rw [Memory.pageAddr_eq inPage hi]
    exact ⟨by omega, by omega⟩

-- A test for `Holds` that is quicker to compute than `room`
def fits (starts : List Nat) (size page a n : Nat) : Bool :=
  starts.all (fun f => f.ble a || (a + n).ble f) && (a + n).ble size && (a % page + n).ble page

theorem le_next (hl : n ≤ size) (h : ∀ f ∈ starts, a < f → n ≤ f) : n ≤ next starts size a := by
  have le_foldl {l : List Nat} {m : Nat} (hm : n ≤ m) (h : ∀ f ∈ l, n ≤ f) : n ≤ l.foldl min m := by
    induction l generalizing m with
    | nil => exact hm
    | cons f l ih =>
      have ⟨hf, hl⟩ := List.forall_mem_cons.mp h
      exact ih (Nat.le_min.mpr ⟨hm, hf⟩) hl
  refine le_foldl hl fun f hf => ?_
  have ⟨hf, ha⟩ := List.mem_filter.mp hf
  exact h f hf <| of_decide_eq_true ha

theorem le_room (h : fits starts size page a n) : n ≤ room starts size page a := by
  simp only [fits, Bool.and_eq_true, List.all_eq_true, Bool.or_eq_true, Nat.ble_eq] at h
  have ⟨⟨hs, hl⟩, hp⟩ := h
  have : a + n ≤ next starts size a := le_next hl fun f hf ha => (hs f hf).resolve_left (by omega)
  simp only [room]
  omega

variable {m : Memory} {d : Bytes}

-- Frame rules: a write changes only bytes of its slot, and so no other slot.

theorem Holds.frame (h : Holds starts size page a d.length) (hx : ¬In starts size a x) :
    m.writePage page a d x = m x :=
  Memory.writePage_frame fun i hi he => hx <| he ▸ h.inSlot i hi

theorem Holds.frame_slot (h : Holds starts size page a d.length) (ha : a ∈ starts)
    (hf : f ∈ starts) (hn : a ≠ f) (hx : In starts size f x) : m.writePage page a d x = m x :=
  h.frame fun hi => hi.disjoint ha hf hn hx

end Slots
