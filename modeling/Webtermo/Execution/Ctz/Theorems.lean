import Webtermo.Execution.Ctz.State

namespace Ctz

variable {d d₁ : Disk} {b : List Block} {x y nblock head : Block} {i j n : Nat}

theorem dvd_of_le_ctz (h : j ≤ ctz i) : 2 ^ j ∣ i := by
  have hc : 2 ^ ctz i ∣ i := Nat.findGreatest_spec (P := (2 ^ · ∣ i)) (Nat.zero_le 31) (one_dvd i)
  exact (pow_dvd_pow 2 h).trans hc

theorem le_ctz (h : 2 ^ j ∣ i) (h₀ : 0 < i) (hi : i < 2 ^ 32) : j ≤ ctz i := by
  have hj : j < 32 := Nat.pow_lt_pow_iff_right (by decide) |>.mp <| (Nat.le_of_dvd h₀ h).trans_lt hi
  exact Nat.le_findGreatest (by omega) h

-- Every block but the first one points back to those that are as far in front of it as the powers of two
-- that divide its index.
structure Linked (d : Disk) (b : List Block) : Prop where
  ptr   : ∀ i x j, b[i]? = some x → 0 < i → j ≤ ctz i → d x j = b[i - 2 ^ j]?
  nodup : b.Nodup

theorem lt_length (h : b[i]? = some x) : i < b.length :=
  (List.getElem?_eq_some_iff.mp h).1

theorem exists_of_lt (h : i < b.length) : ∃ x, b[i]? = some x :=
  ⟨_, List.getElem?_eq_getElem h⟩

-- Neither does a skip go beyond the target, nor does it take a pointer that the block does not have.
theorem ctzFind_eq (l : Linked d b) (h : b[i]? = some x) (ht : j ≤ i) (hn : i - j ≤ n) :
    ctzFind d n x i j = b[j]? := by
  induction n generalizing i x with
  | zero =>
    obtain rfl : i = j := by omega
    rw [ctzFind, if_neg (Nat.lt_irrefl _), h]
  | succ n ih =>
    rw [ctzFind]
    by_cases hlt : j < i
    case neg =>
      obtain rfl : i = j := by omega
      rw [if_neg hlt, h]
    case pos =>
      rw [if_pos hlt]
      generalize hs : min (npw2 (i - j + 1) - 1) (ctz i) = skip
      have hc : skip ≤ ctz i := by omega
      have hp : 2 ^ skip ≤ i - j := by
        have hl : skip ≤ Nat.log2 (i - j) := by
          simp only [npw2, Nat.add_sub_cancel] at hs
          omega
        exact (Nat.le_log2 (by omega)).mp hl
      have hpos : 0 < 2 ^ skip := Nat.two_pow_pos skip
      have hlen := lt_length h
      obtain ⟨y, hy⟩ := exists_of_lt (b := b) (i := i - 2 ^ skip) (by omega)
      have hd : d x skip = some y := (l.ptr i x skip h (by omega) hc).trans hy
      simp only [hd, Option.bind_eq_bind, Option.bind_some]
      exact ih hy (by omega) (by omega)

theorem take_succ_reverse (h : b[i]? = some x) : (b.take (i + 1)).reverse = x :: (b.take i).reverse := by
  obtain ⟨hi, rfl⟩ := List.getElem?_eq_some_iff.mp h
  rw [← List.take_concat_get' _ _ hi, List.reverse_append]
  rfl

-- Each block is called back for once, from the last one to the first one.
theorem ctzTraverse_eq (l : Linked d b) (h : b[i]? = some x) (hi : i < 2 ^ 32) (hn : i < n) :
    ctzTraverse d n x i = some (b.take (i + 1)).reverse := by
  induction n using Nat.strong_induction_on generalizing i x with
  | _ n ih =>
    obtain ⟨n, rfl⟩ : ∃ k, n = k + 1 := ⟨n - 1, by omega⟩
    have hlen := lt_length h
    rw [ctzTraverse, take_succ_reverse h]
    by_cases h₀ : i = 0
    case pos =>
      subst h₀
      rfl
    case neg =>
      obtain ⟨y, hy⟩ := exists_of_lt (b := b) (i := i - 1) (by omega)
      have hd : d x 0 = some y := (l.ptr i x 0 h (by omega) (Nat.zero_le _)).trans hy
      have ht : (b.take i).reverse = y :: (b.take (i - 1)).reverse := by
        have := take_succ_reverse hy
        rwa [show i - 1 + 1 = i by omega] at this
      rw [if_neg h₀]
      by_cases hodd : i % 2 = 1
      case pos =>
        have := ih n (by omega) hy (by omega) (by omega)
        rw [show i - 1 + 1 = i by omega] at this
        simp only [if_pos hodd, hd, this, Option.bind_eq_bind, Option.bind_some]
      case neg =>
        have hc : 1 ≤ ctz i := le_ctz (Nat.dvd_of_mod_eq_zero (by omega)) (by omega) hi
        obtain ⟨z, hz⟩ := exists_of_lt (b := b) (i := i - 2) (by omega)
        have hd₁ : d x 1 = some z := (l.ptr i x 1 h (by omega) hc).trans hz
        have := ih n (by omega) hz (by omega) (by omega)
        rw [show i - 2 + 1 = i - 1 by omega] at this
        simp only [if_neg hodd, hd, hd₁, this, ht, Option.bind_eq_bind, Option.bind_some]

theorem mem_of_get (h : b[i]? = some x) : x ∈ b :=
  List.mem_of_getElem? h

-- What is done to a block that is not in use changes none of the pointers.
theorem Linked.congr (l : Linked d b) (hd : ∀ x ∈ b, ∀ j, d₁ x j = d x j) : Linked d₁ b where
  ptr i x j h h₀ hj := (hd x (mem_of_get h) j).trans <| l.ptr i x j h h₀ hj
  nodup := l.nodup

theorem Linked.prog (l : Linked d b) (hb : nblock ∉ b) : Linked (d.prog nblock i x) b :=
  l.congr fun y hy j => by
    simp [ne_of_mem_of_not_mem hy hb, Disk.prog]

-- The pointers of the new block: each one is read from the block that the one before it leads to.
theorem link_eq {k : Nat} (l : Linked d b) (hb : nblock ∉ b) (hlen : 0 < b.length)
    (hmax : b.length < 2 ^ 32) (hl : k + i = ctz b.length + 1) (hn : 0 < k → b[b.length - 2 ^ i]? = some x)
    (hp : ∀ j < i, d nblock j = b[b.length - 2 ^ j]?) :
    ∃ d₁, link nblock k i x d = some d₁ ∧ Linked d₁ b ∧
      ∀ j ≤ ctz b.length, d₁ nblock j = b[b.length - 2 ^ j]? := by
  induction k generalizing i x d with
  | zero => exact ⟨d, rfl, l, fun j hj => hp j (by omega)⟩
  | succ k ih =>
    have hx := hn (Nat.succ_pos _)
    have l₁ := l.prog (i := i) (x := x) hb
    have hp₁ : ∀ j < i + 1, d.prog nblock i x nblock j = b[b.length - 2 ^ j]? := by
      intro j hj
      by_cases he : j = i
      case pos => simp [Disk.prog, he, hx]
      case neg => simp [Disk.prog, he, hp j (by omega)]
    rw [link]
    by_cases h₀ : k = 0
    case pos =>
      rw [if_pos h₀]
      exact ⟨_, rfl, l₁, fun j hj => hp₁ j (by omega)⟩
    case neg =>
      have hdvd : 2 ^ (i + 1) ∣ b.length := dvd_of_le_ctz (by omega)
      have hle := Nat.le_of_dvd hlen hdvd
      have hpow : 2 ^ (i + 1) = 2 ^ i + 2 ^ i := by rw [pow_succ, Nat.mul_two]
      have hpos : 0 < 2 ^ i := Nat.two_pow_pos i
      have hc : i ≤ ctz (b.length - 2 ^ i) := by
        refine le_ctz (Nat.dvd_sub ((pow_dvd_pow 2 (Nat.le_succ i)).trans hdvd) (dvd_refl _)) ?_ ?_ <;> omega
      obtain ⟨y, hy⟩ := exists_of_lt (b := b) (i := b.length - 2 ^ (i + 1)) (by omega)
      have hd : d.prog nblock i x x i = some y := by
        rw [l₁.ptr _ _ _ hx (by omega) hc, show b.length - 2 ^ i - 2 ^ i = b.length - 2 ^ (i + 1) by omega, hy]
      obtain ⟨d₁, hk, hl₁, hp₂⟩ := ih l₁ (i := i + 1) (x := y) (by omega) (fun _ => hy) hp₁
      refine ⟨d₁, ?_, hl₁, hp₂⟩
      simp only [if_neg h₀, hd, hk, Option.bind_eq_bind, Option.bind_some]

theorem Linked.nil : Linked d [] where
  ptr i x j h := by cases h
  nodup := List.nodup_nil

-- A block that has its pointers is put at the end.
theorem Linked.concat (l : Linked d b) (hb : nblock ∉ b)
    (hp : 0 < b.length → ∀ j ≤ ctz b.length, d nblock j = b[b.length - 2 ^ j]?) :
    Linked d (b ++ [nblock]) where
  ptr := by
    intro i x j h h₀ hj
    have hpos : 0 < 2 ^ j := Nat.two_pow_pos j
    have hle := Nat.le_of_dvd h₀ (dvd_of_le_ctz hj)
    have hi : i < b.length + 1 := by simpa using lt_length h
    rw [List.getElem?_append_left (by omega)]
    by_cases hlt : i < b.length
    case pos =>
      rw [List.getElem?_append_left hlt] at h
      exact l.ptr i x j h h₀ hj
    case neg =>
      obtain rfl : i = b.length := by omega
      rw [List.getElem?_concat_length] at h
      cases h
      exact hp h₀ j hj
  nodup := by
    refine List.nodup_append.mpr ⟨l.nodup, List.nodup_singleton _, fun x hx y hy => ?_⟩
    rw [List.mem_singleton.mp hy]
    rintro rfl
    exact hb hx

theorem Linked.left (l : Linked d (b ++ [x])) : Linked d b where
  ptr := by
    intro i y j h h₀ hj
    have hi := lt_length h
    have hpos : 0 < 2 ^ j := Nat.two_pow_pos j
    have hy : (b ++ [x])[i]? = some y := (List.getElem?_append_left hi).trans h
    rw [l.ptr i y j hy h₀ hj, List.getElem?_append_left (by omega)]
  nodup := (List.nodup_append.mp l.nodup).1

theorem Linked.erase (l : Linked d b) (hb : nblock ∉ b) : Linked (d.erase nblock) b :=
  l.congr fun y hy j => by
    simp [ne_of_mem_of_not_mem hy hb, Disk.erase]

-- The copy of the last block has its pointers.
theorem Linked.copy (l : Linked d (b ++ [head])) (hb : nblock ∉ b) :
    Linked (d.copy nblock head) (b ++ [nblock]) := by
  have hc : Linked (d.copy nblock head) b := l.left.congr fun y hy j => by
    simp [ne_of_mem_of_not_mem hy hb, Disk.copy]
  refine hc.concat hb fun h₀ j hj => ?_
  have hpos : 0 < 2 ^ j := Nat.two_pow_pos j
  have hx : (b ++ [head])[b.length]? = some head := List.getElem?_concat_length
  rw [Disk.copy, if_pos rfl, l.ptr _ _ _ hx h₀ hj, List.getElem?_append_left (by omega)]

-- The file stands for the list of its blocks.
structure Holds (f : File) (b : List Block) : Prop where
  head   : f.head = b.getLast?
  index  : f.index = b.length - 1
  small  : f.index < 2 ^ 32
  linked : Linked f.disk b

variable {f : File} {e : Event}

theorem Holds.last (h : Holds f b) (hx : f.head = some x) : b[f.index]? = some x := by
  rw [h.index, ← List.getLast?_eq_getElem?, ← h.head, hx]

theorem Holds.find (h : Holds f b) (hx : f.head = some x) (hy : b[j]? = some y) (hn : f.index - j ≤ n) :
    ctzFind f.disk n x f.index j = some y := by
  have hl := lt_length hy
  have := h.index
  rw [ctzFind_eq h.linked (h.last hx) (by omega) hn, hy]

theorem Holds.blocks (h : Holds f b) : f.blocks = b.reverse := by
  rw [File.blocks]
  cases hx : f.head with
  | none =>
    have := List.getLast?_eq_none_iff.mp <| h.head.symm.trans hx
    subst this
    rfl
  | some x =>
    have hg := h.last hx
    have hl := lt_length hg
    have := h.index
    rw [Option.bind_some, ctzTraverse_eq h.linked hg h.small (Nat.lt_succ_self _),
      List.take_of_length_le (by omega)]
    rfl

theorem step_holds (h : Holds f b) (hp : e.Possible f) :
    ∃ f₁, ctzExtend f e.nblock e.full = some f₁ ∧ Holds f₁ (append b e) := by
  obtain ⟨hb, hmax⟩ := hp
  obtain ⟨nblock, full⟩ := e
  rw [h.blocks, List.mem_reverse] at hb
  have hb : nblock ∉ b := hb
  have l := h.linked.erase hb
  have hi := h.index
  obtain rfl | ⟨b, head, rfl⟩ := List.eq_nil_or_concat b
  · have hn : f.head = none := h.head
    refine ⟨⟨f.disk.erase nblock, some nblock, 0⟩, by simp only [ctzExtend, hn], ?_⟩
    have ha : append [] ⟨nblock, full⟩ = [nblock] := by cases full <;> rfl
    rw [ha]
    exact ⟨rfl, rfl, Nat.two_pow_pos 32, Linked.nil.concat hb fun h => absurd h (Nat.lt_irrefl 0)⟩
  · rw [List.concat_eq_append] at *
    have hs : f.head = some head := by rw [h.head, List.getLast?_concat]
    have hlen : (b ++ [head]).length = b.length + 1 := by simp
    rw [hlen] at hi
    cases full with
    | true =>
      have hx : (b ++ [head])[(b ++ [head]).length - 2 ^ 0]? = some head := by
        rw [hlen]
        exact List.getElem?_concat_length
      obtain ⟨d₁, hk, l₁, hp⟩ := link_eq l hb (by omega) (by omega) (k := ctz (b ++ [head]).length + 1)
        (i := 0) (x := head) rfl (fun _ => hx) fun j hj => absurd hj (Nat.not_lt_zero j)
      have hfi : f.index + 1 = (b ++ [head]).length := by omega
      refine ⟨⟨d₁, some nblock, f.index + 1⟩, ?_, ?_⟩
      · simp only [ctzExtend, hs, if_true, hfi, hk, Option.bind_eq_bind, Option.bind_some]
      · refine ⟨(List.getLast?_concat ..).symm, ?_, hmax, l₁.concat hb fun _ => hp⟩
        simp only [append, if_true, List.length_append, List.length_singleton]
        omega
    | false =>
      have hb₀ : nblock ∉ b := fun h => hb <| List.mem_append_left _ h
      refine ⟨⟨(f.disk.erase nblock).copy nblock head, some nblock, f.index⟩, ?_, ?_⟩
      · simp only [ctzExtend, hs, Bool.false_eq_true, if_false]
      · have ha : append (b ++ [head]) ⟨nblock, false⟩ = b ++ [nblock] := by simp [append]
        rw [ha]
        refine ⟨(List.getLast?_concat ..).symm, ?_, h.small, l.copy hb₀⟩
        simp only [List.length_append, List.length_singleton]
        omega

theorem run_holds {es : List Event} (h : Holds f b) (g : writer.Guarded (fun f e => e.Possible f) f es) :
    ∃ f₁ t, writer.run f es = some (f₁, t) ∧ Holds f₁ (es.foldl append b) := by
  induction es generalizing f b with
  | nil => exact ⟨f, [], rfl, h⟩
  | cons e es ih =>
    obtain ⟨f₁, he, h₁⟩ := step_holds h (Machine.Guarded.head g)
    have hs : writer.step f e = some (f₁, []) := by
      simp only [writer, he, Option.map_some]
    obtain ⟨f₂, t, hr, h₂⟩ := ih h₁ (Machine.Guarded.tail g hs)
    refine ⟨f₂, t, ?_, h₂⟩
    rw [Machine.run_cons_of_step hs, hr]
    rfl

-- However a file is extended, with blocks that are not in use: its blocks are those that have been put at its
-- end or in place of its last one, each is traversed once, and each is found by its index.
theorem file_law {es : List Event} (g : writer.Guarded (fun f e => e.Possible f) .empty es) :
    ∃ f₁ t, writer.run .empty es = some (f₁, t) ∧
      f₁.blocks = (es.foldl append []).reverse ∧ f₁.blocks.Nodup ∧
      ∀ head target block turns, f₁.head = some head → (es.foldl append [])[target]? = some block →
        f₁.index - target ≤ turns → ctzFind f₁.disk turns head f₁.index target = some block := by
  have h : Holds .empty [] := ⟨rfl, rfl, by decide, Linked.nil⟩
  obtain ⟨f₁, t, hr, h⟩ := run_holds h g
  refine ⟨f₁, t, hr, h.blocks, ?_, fun head target block turns hx hy hn => h.find hx hy hn⟩
  rw [h.blocks]
  exact List.nodup_reverse.mpr h.linked.nodup

instance : Decidable (e.Possible f) :=
  inferInstanceAs <| Decidable (_ ∧ _)

-- The blocks 7 and 8 are copied, and 7 is used again for the last block.
def extended : List Event :=
  [⟨7, true⟩, ⟨8, false⟩, ⟨9, false⟩, ⟨3, true⟩, ⟨4, true⟩, ⟨5, true⟩, ⟨6, true⟩, ⟨7, true⟩]

theorem file_law_extended : writer.Guarded (fun f e => e.Possible f) .empty extended ∧
    ∃ f₁ t, writer.run .empty extended = some (f₁, t) ∧
      f₁.blocks = (extended.foldl append []).reverse ∧ f₁.blocks.Nodup ∧
      ∀ head target block turns, f₁.head = some head → (extended.foldl append [])[target]? = some block →
        f₁.index - target ≤ turns → ctzFind f₁.disk turns head f₁.index target = some block := by
  have g : writer.Guarded (fun f e => e.Possible f) .empty extended := by decide +kernel
  exact ⟨g, file_law g⟩

end Ctz
