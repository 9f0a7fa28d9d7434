import Webtermo.Library.Buffer

-- A byte memory that is written page by page: a write which runs over the end of its page goes on
-- at the start of the same page.
abbrev Memory := Nat → UInt8

namespace Memory

variable {m : Memory} {page addr : Nat}

def read (m : Memory) (addr n : Nat) : Bytes :=
  (List.range n).map fun i => m (addr + i)

def pageAddr (page addr i : Nat) : Nat :=
  addr / page * page + (addr + i) % page

def writePage (m : Memory) (page addr : Nat) (d : Bytes) : Memory :=
  go m 0 d
where
  go (m : Memory) (i : Nat) : Bytes → Memory
    | []     => m
    | b :: d => go (Function.update m (pageAddr page addr i) b) (i + 1) d

-- The write stays inside of the page that it starts in.
def InPage (page addr n : Nat) : Prop :=
  addr % page + n ≤ page

instance : Decidable (InPage page addr n) :=
  inferInstanceAs <| Decidable (_ ≤ _)

@[simp]
theorem read_length : (m.read addr n).length = n := by
  simp [read]

theorem read_add : m.read addr (n + k) = m.read addr n ++ m.read (addr + n) k := by
  simp [read, List.range_add, Function.comp_def, Nat.add_assoc]

theorem pageAddr_eq (h : InPage page addr n) (hi : i < n) : pageAddr page addr i = addr + i := by
  have hd : page * (addr / page) + addr % page = addr := Nat.div_add_mod addr page
  have hm : (addr + i) % page = addr % page + i := by
    rw [Nat.add_mod, Nat.mod_eq_of_lt (a := i) (by simp only [InPage] at h; omega)]
    exact Nat.mod_eq_of_lt (by simp only [InPage] at h; omega)
  rw [pageAddr, hm, Nat.mul_comm]
  omega

theorem writePage_go_other (h : ∀ j, i ≤ j → j < i + d.length → pageAddr page addr j ≠ x) :
    writePage.go page addr m i d x = m x := by
  induction d generalizing m i with
  | nil => rfl
  | cons b d ih =>
    rw [writePage.go, ih fun j hj hl => h j (by omega) (by simp; omega)]
    exact Function.update_of_ne (h i (by omega) (by simp)).symm ..

-- Frame rule: a write changes no byte outside of the addresses that it is sent to.
theorem writePage_frame (h : ∀ i < d.length, pageAddr page addr i ≠ x) :
    m.writePage page addr d x = m x :=
  writePage_go_other fun j _ hj => h j (by omega)

theorem writePage_frame_of_inPage (h : InPage page addr d.length)
    (hx : x < addr ∨ addr + d.length ≤ x) : m.writePage page addr d x = m x :=
  writePage_frame fun _ hi => by rw [pageAddr_eq h hi]; omega

theorem pageAddr_inj (hi : i < page) (hj : j < page)
    (h : pageAddr page addr i = pageAddr page addr j) : i = j := by
  have h : (addr + i) % page = (addr + j) % page := Nat.add_left_cancel h
  have h : i % page = j % page := Nat.ModEq.add_left_cancel' addr h
  rwa [Nat.mod_eq_of_lt hi, Nat.mod_eq_of_lt hj] at h

-- No byte of a write of up to a page overwrites another one.
theorem writePage_go_get (h : i + d.length ≤ page) (hj : j < d.length) :
    writePage.go page addr m i d (pageAddr page addr (i + j)) = d[j] := by
  induction d generalizing m i j with
  | nil => simp at hj
  | cons b d ih =>
    rw [writePage.go]
    simp only [List.length_cons] at h hj
    cases j with
    | zero =>
      rw [writePage_go_other fun k hk hl he => ?_, Nat.add_zero, Function.update_self]
      · rfl
      · have := pageAddr_inj (by omega) (by omega) he
        omega
    | succ j =>
      have := ih (m := Function.update m (pageAddr page addr i) b) (i := i + 1) (j := j)
        (by omega) (by omega)
      simpa [show i + (j + 1) = i + 1 + j by omega] using this

theorem writePage_get_pageAddr (h : d.length ≤ page) (hi : i < d.length) :
    m.writePage page addr d (pageAddr page addr i) = d[i] := by
  simpa [writePage] using writePage_go_get (m := m) (i := 0) (j := i) (by omega) hi

theorem writePage_get (h : InPage page addr d.length) (hi : i < d.length) :
    m.writePage page addr d (addr + i) = d[i] := by
  have hl : d.length ≤ page := by
    simp only [InPage] at h
    omega
  rw [← pageAddr_eq h hi]
  exact writePage_get_pageAddr hl hi

-- The bytes that a write puts down are those that the memory holds wherever it has been written to.
theorem exists_writePage_iff (h : InPage page addr d.length) (hb : b ≠ b₁) :
    b ∈ d ↔ ∃ x, writePage (fun _ => b₁) page addr d x = b := by
  constructor
  case mp =>
    intro hm
    have ⟨i, hi, hm⟩ := List.mem_iff_getElem.mp hm
    exact ⟨addr + i, hm ▸ writePage_get h hi⟩
  case mpr =>
    intro ⟨x, hx⟩
    by_cases hi : ∃ i < d.length, pageAddr page addr i = x
    case pos =>
      have ⟨i, hi, he⟩ := hi
      rw [← he, pageAddr_eq h hi, writePage_get h hi] at hx
      exact hx ▸ List.getElem_mem hi
    case neg =>
      rw [writePage_frame fun i hl he => hi ⟨i, hl, he⟩] at hx
      exact absurd hx.symm hb

theorem read_writePage (h : InPage page addr d.length) :
    (m.writePage page addr d).read addr d.length = d := by
  refine List.ext_getElem (by simp) fun i _ hi => ?_
  simp [read, writePage_get h hi]

-- A write leaves the memory as it is exactly if the memory holds its data already.
theorem writePage_eq_iff (h : InPage page addr d.length) :
    m.writePage page addr d = m ↔ m.read addr d.length = d := by
  constructor
  case mp =>
    intro he
    rw [← he]
    exact read_writePage h
  case mpr =>
    intro he
    funext x
    by_cases hi : ∃ i < d.length, pageAddr page addr i = x
    case pos =>
      have ⟨i, hi, hx⟩ := hi
      have hd : (m.read addr d.length)[i]? = d[i]? := by rw [he]
      rw [← hx, pageAddr_eq h hi, writePage_get h hi]
      simpa [read, hi, eq_comm] using hd
    case neg => exact writePage_frame fun i hl he => hi ⟨i, hl, he⟩

theorem read_congr {m₁ m₂ : Memory} (h : ∀ i < n, m₁ (addr + i) = m₂ (addr + i)) :
    m₁.read addr n = m₂.read addr n :=
  List.map_congr_left fun i hi => h i (by simpa using hi)

theorem read_writePage_of_disjoint (h : InPage page addr d.length)
    (hx : a + n ≤ addr ∨ addr + d.length ≤ a) : (m.writePage page addr d).read a n = m.read a n :=
  read_congr fun i hi => writePage_frame_of_inPage h (by omega)

end Memory
