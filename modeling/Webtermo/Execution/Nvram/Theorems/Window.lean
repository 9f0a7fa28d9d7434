import Webtermo.Execution.Logger.State
import Webtermo.Execution.Nvram.Theorems.Init

open Define

namespace Nvram

variable {m m₁ : Nv} {k l : Fin 8} {x : UInt32}

def mktlogs (k : Fin 8) : List Nat :=
  (List.range 20).map fun cnt => mktlog k + cnt * 4

-- The words for the mean kinetic temperature of a sensor
def window (k : Fin 8) : List Nat :=
  mktcount k :: mktlogs k

-- The sums and the counts of the means
def means : List Nat :=
  (List.finRange 8).flatMap fun k => [nvSumSen1 + k.val * 8, nvCountSen1 + k.val * 8]

def words : List Nat :=
  means ++ (List.finRange 8).flatMap window ++ delays

-- Words of four bytes at different multiples of four share no byte.
theorem words_apart : words.Nodup ∧ ∀ a ∈ words, 4 ∣ a :=
  ⟨Words.nodup_of_sorted <| by decide +kernel, by decide +kernel⟩

-- One update

theorem row_inj : Function.Injective fun cnt => mktlog k + cnt * 4 := by
  intro i j h
  simp only at h
  omega

theorem mktcount_lt : mktcount k < mktlog l := by
  simp only [mktcount, mktlog, nvMktCountSen1, nvMktSen1]
  omega

theorem mem_window : a ∈ window k ↔ a = mktcount k ∨ ∃ i < 20, a = mktlog k + i * 4 := by
  simp only [window, mktlogs, List.mem_cons, List.mem_map, List.mem_range, eq_comm]

theorem updateMKT_frame (h : a ∉ window k) : updateMKT m (mktlog k) (mktcount k) x a = m a := by
  have ⟨hc, hl⟩ : a ≠ mktcount k ∧ ∀ i < 20, a ≠ mktlog k + i * 4 := by
    simpa [mem_window] using h
  simp only [updateMKT]
  split
  case isTrue hs =>
    have hs : (m (mktcount k)).toNat < 20 := UInt32.lt_iff_toNat_lt.mp hs
    rw [Words.write_of_ne hc, Words.write_of_ne (hl _ hs)]
  case isFalse =>
    rw [Words.write_of_ne hc, Words.write_of_ne (hl 19 (by decide))]
    exact Words.shift_frame fun i hi => hl i (by omega)

theorem log_ne_count : mktlog k + i * 4 ≠ mktcount l :=
  Nat.ne_of_gt <| Nat.lt_of_lt_of_le mktcount_lt (Nat.le_add_right _ _)

-- A log that is not full gets longer.
theorem updateMKT_short (h : m (mktcount k) < 20) :
    updateMKT m (mktlog k) (mktcount k) x (mktcount k) = m (mktcount k) + 1 ∧
    ∀ i, updateMKT m (mktlog k) (mktcount k) x (mktlog k + i * 4) =
      if i = (m (mktcount k)).toNat then x else m (mktlog k + i * 4) := by
  simp only [updateMKT, if_pos h]
  refine ⟨Words.write_self, fun i => ?_⟩
  rw [Words.write_of_ne log_ne_count]
  split
  case isTrue hi => rw [hi, Words.write_self]
  case isFalse hi => exact Words.write_of_ne fun he => hi (row_inj he)

-- A full log loses its oldest value.
theorem updateMKT_full (h : ¬m (mktcount k) < 20) :
    updateMKT m (mktlog k) (mktcount k) x (mktcount k) = m (mktcount k) ∧
    ∀ i < 20, updateMKT m (mktlog k) (mktcount k) x (mktlog k + i * 4) =
      if i = 19 then x else m (mktlog k + (i + 1) * 4) := by
  simp only [updateMKT, if_neg h]
  refine ⟨Words.write_self, fun i hi => ?_⟩
  rw [Words.write_of_ne log_ne_count]
  split
  case isTrue h₁₉ => rw [h₁₉, Words.write_self]
  case isFalse h₁₉ =>
    rw [Words.write_of_ne fun he => h₁₉ (row_inj he)]
    exact Words.shift_row row_inj (show i < 19 by omega)

-- The values that a log holds, as far as its count goes
def held (m : Nv) (k : Fin 8) : List UInt32 :=
  (List.range (m (mktcount k)).toNat).map fun cnt => m (mktlog k + cnt * 4)

-- The count is right, and the log holds the last 20 of the values.
structure Holds (m : Nv) (k : Fin 8) (xs : List UInt32) : Prop where
  count : (m (mktcount k)).toNat = min 20 xs.length
  log   : held m k = xs.rtake 20

theorem Holds.congr (h : Holds m k xs) (hm : ∀ a ∈ window k, m₁ a = m a) : Holds m₁ k xs := by
  have hc : m₁ (mktcount k) = m (mktcount k) := hm _ <| mem_window.mpr <| .inl rfl
  refine ⟨hc ▸ h.count, h.log ▸ ?_⟩
  rw [held, held, hc]
  refine List.map_congr_left fun i hi => hm _ <| mem_window.mpr <| .inr ⟨i, ?_, rfl⟩
  have := List.mem_range.mp hi
  have := h.count
  omega

theorem rtake_of_length_le {xs : List α} (h : xs.length ≤ n) : xs.rtake n = xs := by
  rw [List.rtake, Nat.sub_eq_zero_of_le h, List.drop_zero]

theorem tail_rtake {xs : List α} (h : n < xs.length) : (xs.rtake (n + 1)).tail = xs.rtake n := by
  rw [List.rtake, List.rtake, List.tail_drop, show xs.length - (n + 1) + 1 = xs.length - n by omega]

theorem Holds.update (h : Holds m k xs) :
    Holds (updateMKT m (mktlog k) (mktcount k) x) k (xs ++ [x]) := by
  have hlen := h.count
  have hlog := h.log
  have h₂₀ : (20 : UInt32).toNat = 20 := rfl
  by_cases hc : m (mktcount k) < 20
  case pos =>
    have ⟨h₁, h₂⟩ := updateMKT_short (x := x) hc
    have hs : (m (mktcount k)).toNat < 20 := UInt32.lt_iff_toNat_lt.mp hc
    have hm : (m (mktcount k)).toNat = xs.length := by omega
    have hn : (m (mktcount k) + 1).toNat = xs.length + 1 := by
      rw [UInt32.toNat_add, UInt32.toNat_one]
      omega
    constructor
    case count =>
      rw [h₁, hn, List.length_append, List.length_singleton]
      omega
    case log =>
      rw [held, hm, rtake_of_length_le (by omega)] at hlog
      have hold : ∀ i ∈ List.range xs.length,
          updateMKT m (mktlog k) (mktcount k) x (mktlog k + i * 4) = m (mktlog k + i * 4) := by
        intro i hi
        have := List.mem_range.mp hi
        rw [h₂, if_neg (by omega)]
      rw [rtake_of_length_le (by rw [List.length_append, List.length_singleton]; omega), held, h₁, hn,
        List.range_succ, List.map_append, List.map_congr_left hold, hlog, List.map_singleton, h₂,
        if_pos hm.symm]
  case neg =>
    have ⟨h₁, h₂⟩ := updateMKT_full (x := x) hc
    have hm : (m (mktcount k)).toNat = 20 := by
      have := Nat.le_of_not_lt fun hn => hc <| UInt32.lt_iff_toNat_lt.mpr hn
      omega
    have hl : 20 ≤ xs.length := by omega
    constructor
    case count =>
      rw [h₁, hm, List.length_append, List.length_singleton]
      omega
    case log =>
      have moved : ∀ i ∈ List.range 19,
          updateMKT m (mktlog k) (mktcount k) x (mktlog k + i * 4) = m (mktlog k + (i + 1) * 4) := by
        intro i hi
        have := List.mem_range.mp hi
        rw [h₂ i (by omega), if_neg (by omega)]
      have tail : (List.range 19).map (fun i => m (mktlog k + (i + 1) * 4)) = xs.rtake 19 := by
        have hr : List.range 20 = 0 :: (List.range 19).map Nat.succ := List.range_succ_eq_map
        rw [← tail_rtake (by omega), ← hlog, held, hm, hr, List.map_cons, List.tail_cons, List.map_map]
        rfl
      rw [held, h₁, hm, List.range_succ, List.map_append, List.map_congr_left moved, tail,
        List.map_singleton, h₂ 19 (by decide), if_pos rfl, List.rtake_concat_succ]

-- The values that `UpdateMKT` has been called with for a sensor
def values (k : Fin 8) (es : List Access) : List UInt32 :=
  es.filterMap fun
    | .mkt l x => if l = k then some x else none
    | _        => none

theorem window_bounds (h : a ∈ window k) : nvMktCountSen1 ≤ a ∧ a < nvDelaySen1 := by
  obtain ha | ⟨i, hi, ha⟩ := mem_window.mp h
  · simp only [ha, mktcount, nvMktCountSen1, nvDelaySen1]
    omega
  · simp only [ha, mktlog, nvMktCountSen1, nvMktSen1, nvDelaySen1]
    omega

theorem window_disjoint (hn : l ≠ k) (h : a ∈ window k) : a ∉ window l := by
  have hn : l.val ≠ k.val := fun he => hn <| Fin.ext he
  intro hl
  obtain ha | ⟨i, hi, ha⟩ := mem_window.mp h
  · obtain hb | ⟨j, _, hb⟩ := mem_window.mp hl
    · simp only [mktcount] at ha hb
      omega
    · exact log_ne_count <| hb.symm.trans ha
  · obtain hb | ⟨j, hj, hb⟩ := mem_window.mp hl
    · exact log_ne_count <| ha.symm.trans hb
    · simp only [mktlog] at ha hb
      omega

theorem access_frame {e : Access} (h : ∀ x, e ≠ .mkt k x) (ha : a ∈ window k) : access m e a = m a := by
  have hb := window_bounds ha
  simp only [nvMktCountSen1, nvDelaySen1] at hb
  cases e with
  | mkt l x =>
    exact updateMKT_frame <| window_disjoint (fun hl => h x <| hl ▸ rfl) ha
  | mean l sum count =>
    simp only [access, nvSumSen1, nvCountSen1]
    rw [Words.write_of_ne (by omega), Words.write_of_ne (by omega)]
  | delay i word =>
    simp only [access, nvDelaySen1]
    exact Words.write_of_ne (by omega)

theorem Holds.access {e : Access} (h : Holds m k xs) :
    Holds (access m e) k (xs ++ values k [e]) := by
  by_cases he : ∃ x, e = .mkt k x
  case pos =>
    have ⟨x, he⟩ := he
    subst he
    have hv : values k [.mkt k x] = [x] := by simp [values]
    exact hv ▸ h.update
  case neg =>
    have hn : ∀ x, e ≠ .mkt k x := fun x hx => he ⟨x, hx⟩
    have hv : values k [e] = [] := by
      cases e with
      | mkt l x =>
        have hl : l ≠ k := fun hl => hn x <| hl ▸ rfl
        simp [values, hl]
      | mean | delay => rfl
    rw [hv, List.append_nil]
    exact h.congr fun a ha => access_frame hn ha

theorem Holds.run (h : Holds m k xs) : Holds (es.foldl Nvram.access m) k (xs ++ values k es) := by
  induction es generalizing m xs with
  | nil => simpa [values] using h
  | cons e es ih =>
    have hv : values k (e :: es) = values k [e] ++ values k es := by
      rw [values, values, values, ← List.filterMap_append, List.singleton_append]
    rw [List.foldl_cons, hv, ← List.append_assoc]
    exact ih h.access

theorem holds_initNV (h : ¬mkt.Valid m) : Holds (initNV m) k [] := by
  have hm : mktcount k ∈ mkt.words :=
    List.mem_append_left _ <| List.mem_map_of_mem <| List.mem_range.mpr k.isLt
  have hc : initNV m (mktcount k) = 0 := by
    have ⟨_, hz, _⟩ := mkt.take_words (n := mkt.words.length) h (List.nodup_cons.mp mkt_nodup).1
    rw [← mkt.writes_length h, List.take_length, List.take_length] at hz
    rw [initNV_mkt <| List.mem_cons_of_mem _ hm, hz _ hm]
  exact ⟨by rw [hc]; rfl, by rw [held, hc]; rfl⟩

-- After `InitNV` has cleared the region, each log holds the last 20 values of its sensor in their order,
-- whatever else is written, and an update changes its own log and count only. No two words overlap.
theorem window_law (h : ¬mkt.Valid m) : (∀ k, Holds (es.foldl access (initNV m)) k (values k es)) ∧
    (∀ m k x, ∀ a ∉ window k, access m (.mkt k x) a = m a) ∧ words.Nodup ∧ ∀ a ∈ words, 4 ∣ a :=
  ⟨fun _ => (holds_initNV h).run, fun _ _ _ _ => updateMKT_frame, words_apart⟩

-- More updates of two sensors than their logs have room for
def updates : List Access :=
  (List.range 25).flatMap fun n => [.mkt 0 n.toUInt32, .mkt 7 (100 - n).toUInt32, .mean 0 n.toUInt32 1]

theorem window_law_updates : (values 0 updates).length = 25 ∧
    (∀ k, Holds (updates.foldl access (initNV fun _ => 0xFF)) k (values k updates)) ∧
    (∀ m k x, ∀ a ∉ window k, access m (.mkt k x) a = m a) ∧ words.Nodup ∧ ∀ a ∈ words, 4 ∣ a :=
  ⟨by decide +kernel, window_law (m := fun _ => 0xFF) (by decide)⟩

-- The log and the count of the sensor as `SaveTemp` sees them, for any meaning of their bits
def view (f : UInt32 → ℚ) (m : Nv) (k : Fin 8) : Logger.Mkt where
  log i := f <| m (mktlog k + i.val * 4)
  count := m (mktcount k)

theorem view_update {f : UInt32 → ℚ} :
    view f (access m (.mkt k x)) k = Logger.updateMkt (view f m k) (f x) := by
  by_cases hc : m (mktcount k) < 20
  case pos =>
    have ⟨h₁, h₂⟩ := updateMKT_short (x := x) hc
    have hv : (view f m k).count < 20 := hc
    rw [Logger.updateMkt, dif_pos hv]
    simp only [view, access, h₁, h₂, Logger.Mkt.mk.injEq, and_true]
    funext i
    by_cases hi : i.val = (m (mktcount k)).toNat
    case pos =>
      have hi : i = ⟨(m (mktcount k)).toNat, hc⟩ := Fin.ext hi
      rw [if_pos (congrArg Fin.val hi), hi, Function.update_self]
    case neg =>
      rw [if_neg hi, Function.update_of_ne fun he => hi <| congrArg Fin.val he]
  case neg =>
    have ⟨h₁, h₂⟩ := updateMKT_full (x := x) hc
    have hv : ¬(view f m k).count < 20 := hc
    rw [Logger.updateMkt, dif_neg hv]
    simp only [view, access, h₁, Logger.Mkt.mk.injEq, and_true]
    funext i
    rw [h₂ i i.isLt]
    by_cases hi : i.val = 19
    case pos => rw [if_pos hi, dif_neg (by omega)]
    case neg => rw [if_neg hi, dif_pos (by omega)]

end Nvram
