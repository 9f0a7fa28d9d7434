import Webtermo.Execution.Nvram.State

open Define

namespace Nvram

variable {m m₁ : Nv} {r : Region}

-- The sums and the counts of the means, and the counts for the mean kinetic temperatures
def counters : List Nat :=
  logger.words ++ (List.range 8).map fun cnt => nvMktCountSen1 + cnt * 4

-- No value comes from what has been in the memory before.
def Cleared (m : Nv) : Prop :=
  ∀ a ∈ counters ++ delays, m a = 0

-- The magic of the region stands for counters that are cleared.
def Region.Vouched (r : Region) (m : Nv) : Prop :=
  r.Valid m → ∀ a ∈ r.words, a ∈ counters → m a = 0

-- A reset after `n` writes to the region comes before the magic, or the counters that are not cleared any
-- more are 0 already.
def Region.Harmless (r : Region) (m : Nv) (n : Nat) : Prop :=
  ¬r.Valid m → n = 0 ∨ ∀ a ∈ r.words.drop (n - 1), a ∈ counters → m a = 0

def Harmless (m : Nv) (n : Nat) : Prop :=
  logger.Harmless m n ∧ mkt.Harmless m (n - (logger.writes m).length)

-- One region

section

variable (h : ∀ a ∈ r.init :: r.words, m₁ a = m a)
include h

theorem Region.valid_congr : r.Valid m₁ ↔ r.Valid m := by
  rw [Valid, Valid, h r.init List.mem_cons_self]

theorem Region.writes_congr : r.writes m₁ = r.writes m := by
  simp only [writes, valid_congr h]

theorem Region.vouched_congr : r.Vouched m₁ ↔ r.Vouched m := by
  refine imp_congr (valid_congr h) <| forall₂_congr fun a ha => ?_
  rw [h a <| List.mem_cons_of_mem _ ha]

end

theorem Region.frame (h : a ∉ r.init :: r.words) : m₁.writes ((r.writes m).take n) a = m₁ a := by
  refine Words.writes_frame fun w hw he => h ?_
  have hw := List.mem_of_mem_take hw
  simp only [writes] at hw
  split at hw
  case isTrue => nomatch hw
  case isFalse =>
    obtain rfl | hw := List.mem_cons.mp hw
    · exact he ▸ List.mem_cons_self
    · have ⟨b, hb, hw⟩ := List.mem_map.mp hw
      subst hw
      exact he ▸ List.mem_cons_of_mem _ hb

-- What the first writes to a region that is not valid make of it
theorem Region.take_words (hv : ¬r.Valid m) (hi : r.init ∉ r.words) :
    (m.writes ((r.writes m).take (n + 1))) r.init = valid ∧
    (∀ a ∈ r.words.take n, m.writes ((r.writes m).take (n + 1)) a = 0) ∧
    ∀ a, a ≠ r.init → a ∉ r.words.take n → m.writes ((r.writes m).take (n + 1)) a = m a := by
  have ht : (r.writes m).take (n + 1) = (r.init, valid) :: (r.words.take n).map (·, 0) := by
    rw [writes, if_neg hv, List.take_succ_cons, List.map_take]
  have hf : ∀ a, a ∉ r.words.take n → ∀ w ∈ (r.words.take n).map (·, (0 : UInt32)), w.1 ≠ a := by
    intro a ha w hw he
    have ⟨b, hb, hw⟩ := List.mem_map.mp hw
    subst hw
    exact ha <| he ▸ hb
  rw [ht]
  refine ⟨?_, fun a ha => ?_, fun a hn ha => ?_⟩
  · exact Words.writes_frame (hf _ fun h => hi <| List.mem_of_mem_take h) |>.trans Words.write_self
  · have hm : (a, 0) ∈ (r.words.take n).map (·, (0 : UInt32)) := List.mem_map_of_mem ha
    refine Words.writes_const (fun w hw he => ?_) ⟨(a, 0), List.mem_cons_of_mem _ hm, rfl⟩
    obtain rfl | hw := List.mem_cons.mp hw
    · cases he
      exact absurd (List.mem_of_mem_take ha) hi
    · have ⟨_, _, hw⟩ := List.mem_map.mp hw
      exact hw ▸ rfl
  · exact Words.writes_frame (hf a ha) |>.trans <| Words.write_of_ne hn

-- The writes of a region keep the magic meaningful exactly if the reset behind them is harmless.
theorem Region.vouched_take (hn : (r.init :: r.words).Nodup) (hv : r.Vouched m) :
    r.Vouched (m.writes ((r.writes m).take n)) ↔ r.Harmless m n := by
  have ⟨hi, hd⟩ := List.nodup_cons.mp hn
  by_cases hm : r.Valid m
  case pos =>
    have hw : r.writes m = [] := if_pos hm
    rw [hw, List.take_nil]
    exact ⟨fun _ h => absurd hm h, fun _ => hv⟩
  case neg =>
    cases n with
    | zero => exact ⟨fun _ _ => .inl rfl, fun _ h => absurd h hm⟩
    | succ n =>
      have ⟨h₁, h₂, h₃⟩ := r.take_words (n := n) hm hi
      have hz : ∀ a ∈ r.words.drop n, m.writes ((r.writes m).take (n + 1)) a = m a := by
        intro a ha
        refine h₃ a (fun he => hi <| he ▸ List.mem_of_mem_drop ha) fun ht => ?_
        exact List.disjoint_take_drop hd (Nat.le_refl n) ht ha
      constructor
      case mp =>
        intro h _
        exact .inr fun a ha hc => hz a ha ▸ h h₁ a (List.mem_of_mem_drop ha) hc
      case mpr =>
        intro h _ a ha hc
        have h := h hm |>.resolve_left (Nat.succ_ne_zero n)
        rw [← List.take_append_drop n r.words] at ha
        obtain ha | ha := List.mem_append.mp ha
        · exact h₂ a ha
        · exact hz a ha ▸ h a ha hc

-- Both regions

theorem map_nodup : (logger.init :: logger.words ++ mkt.init :: mkt.words ++ delays).Nodup :=
  Words.nodup_of_sorted <| by decide +kernel

theorem logger_nodup : (logger.init :: logger.words).Nodup :=
  List.nodup_append.mp (List.nodup_append.mp map_nodup).1 |>.1

theorem mkt_nodup : (mkt.init :: mkt.words).Nodup :=
  List.nodup_append.mp (List.nodup_append.mp map_nodup).1 |>.2.1

theorem mkt_not_logger (h : a ∈ mkt.init :: mkt.words) : a ∉ logger.init :: logger.words :=
  have ⟨_, _, hd⟩ := List.nodup_append.mp (List.nodup_append.mp map_nodup).1
  fun hl => hd a hl a h rfl

theorem logger_not_mkt (h : a ∈ logger.init :: logger.words) : a ∉ mkt.init :: mkt.words :=
  fun hm => mkt_not_logger hm h

theorem delays_apart (h : a ∈ delays) :
    a ∉ logger.init :: logger.words ∧ a ∉ mkt.init :: mkt.words := by
  have ⟨_, _, hd⟩ := List.nodup_append.mp map_nodup
  exact ⟨fun hl => hd a (List.mem_append_left _ hl) a h rfl,
    fun hm => hd a (List.mem_append_right _ hm) a h rfl⟩

theorem initNV_writes_eq : initNV.writes m = logger.writes m ++ mkt.writes m := by
  have hf : ∀ a ∈ mkt.init :: mkt.words, m.writes (logger.writes m) a = m a := by
    intro a ha
    have h : m.writes ((logger.writes m).take (logger.writes m).length) a = m a :=
      logger.frame <| mkt_not_logger ha
    rwa [List.take_length] at h
  rw [initNV.writes, mkt.writes_congr hf]

-- The memory after the first `n` writes
def stopped (m : Nv) (n : Nat) : Nv :=
  (m.writes ((logger.writes m).take n)).writes ((mkt.writes m).take (n - (logger.writes m).length))

theorem interrupted_step : interrupted.step m n = some (stopped m n, (initNV.writes m).take n) := by
  simp only [interrupted, stopped, initNV_writes_eq, List.take_append, Words.writes_append]

theorem stopped_logger (h : a ∈ logger.init :: logger.words) :
    stopped m n a = m.writes ((logger.writes m).take n) a :=
  mkt.frame (logger_not_mkt h)

theorem stopped_mkt (h : a ∈ mkt.init :: mkt.words) :
    stopped m n a = m.writes ((mkt.writes m).take (n - (logger.writes m).length)) a :=
  Words.writes_congr <| logger.frame <| mkt_not_logger h

theorem stopped_delays (h : a ∈ delays) : stopped m n a = m a :=
  have ⟨hl, hm⟩ := delays_apart h
  (mkt.frame hm).trans (logger.frame hl)

def Vouched (m : Nv) : Prop :=
  logger.Vouched m ∧ mkt.Vouched m

theorem stopped_vouched (h : Vouched m) : Vouched (stopped m n) ↔ Harmless m n := by
  have hl : logger.Vouched (stopped m n) ↔ logger.Harmless m n :=
    logger.vouched_congr (fun _ => stopped_logger) |>.trans <| logger.vouched_take logger_nodup h.1
  have hm : mkt.Vouched (stopped m n) ↔ mkt.Harmless m (n - (logger.writes m).length) :=
    mkt.vouched_congr (fun _ => stopped_mkt) |>.trans <| mkt.vouched_take mkt_nodup h.2
  exact and_congr hl hm

-- A region that is valid is left alone, so counters that it has kept do not get lost later.
theorem vouched_of_stopped (h : Vouched (stopped m n)) : Vouched m := by
  have keeps {r : Region} {k : Nat} (hr : r.Vouched (m.writes ((r.writes m).take k))) : r.Vouched m := by
    intro hv
    have hw : r.writes m = [] := if_pos hv
    rw [hw, List.take_nil] at hr
    exact hr hv
  have ⟨hl, hm⟩ := h
  exact ⟨keeps <| logger.vouched_congr (fun _ => stopped_logger) |>.mp hl,
    keeps <| mkt.vouched_congr (fun _ => stopped_mkt) |>.mp hm⟩

-- A complete `InitNV`

theorem Region.writes_length (h : ¬r.Valid m) : (r.writes m).length = r.words.length + 1 := by
  rw [writes, if_neg h, List.length_cons, List.length_map]

theorem Region.valid_writes (hi : r.init ∉ r.words) : r.Valid (m.writes (r.writes m)) := by
  by_cases hv : r.Valid m
  case pos =>
    have hw : r.writes m = [] := if_pos hv
    rwa [hw]
  case neg =>
    have ⟨h, _⟩ := r.take_words (n := r.words.length) hv hi
    rwa [← r.writes_length hv, List.take_length] at h

theorem initNV_eq : initNV m = stopped m ((logger.writes m).length + (mkt.writes m).length) := by
  rw [initNV, initNV_writes_eq, Words.writes_append, stopped, Nat.add_sub_cancel_left,
    List.take_length, List.take_of_length_le <| Nat.le_add_right _ _]

theorem initNV_logger (h : a ∈ logger.init :: logger.words) :
    initNV m a = m.writes (logger.writes m) a := by
  rw [initNV_eq, stopped_logger h, List.take_of_length_le <| Nat.le_add_right _ _]

theorem initNV_mkt (h : a ∈ mkt.init :: mkt.words) : initNV m a = m.writes (mkt.writes m) a := by
  rw [initNV_eq, stopped_mkt h, Nat.add_sub_cancel_left, List.take_length]

theorem initNV_delays (h : a ∈ delays) : initNV m a = m a := by
  rw [initNV_eq, stopped_delays h]

theorem initNV_valid : logger.Valid (initNV m) ∧ mkt.Valid (initNV m) := by
  have hl := logger.valid_writes (m := m) (List.nodup_cons.mp logger_nodup).1
  have hm := mkt.valid_writes (m := m) (List.nodup_cons.mp mkt_nodup).1
  exact ⟨logger.valid_congr (fun _ => initNV_logger) |>.mpr hl,
    mkt.valid_congr (fun _ => initNV_mkt) |>.mpr hm⟩

theorem initNV_vouched : Vouched (initNV m) ↔ Vouched m := by
  constructor
  case mp =>
    intro h
    rw [initNV_eq] at h
    exact vouched_of_stopped h
  case mpr =>
    intro h
    rw [initNV_eq]
    refine (stopped_vouched h).mpr ⟨fun hv => .inr fun a ha => ?_, fun hv => .inr fun a ha => ?_⟩
    · rw [List.drop_eq_nil_of_le (by rw [logger.writes_length hv]; omega)] at ha
      nomatch ha
    · rw [List.drop_eq_nil_of_le (by rw [mkt.writes_length hv]; omega)] at ha
      nomatch ha

theorem counters_words (h : a ∈ counters) : a ∈ logger.words ∨ a ∈ mkt.words := by
  obtain hl | hm := List.mem_append.mp h
  · exact .inl hl
  · exact .inr <| List.mem_append_left _ hm

theorem initNV_counters : (∀ a ∈ counters, initNV m a = 0) ↔ Vouched m := by
  have ⟨hl, hm⟩ := initNV_valid (m := m)
  rw [← initNV_vouched]
  constructor
  case mp => exact fun h => ⟨fun _ a _ hc => h a hc, fun _ a _ hc => h a hc⟩
  case mpr =>
    intro h a hc
    obtain ha | ha := counters_words hc
    · exact h.1 hl a ha hc
    · exact h.2 hm a ha hc

theorem initNV_of_valid (hl : logger.Valid m) (hm : mkt.Valid m) : initNV m = m := by
  have hl : logger.writes m = [] := if_pos hl
  have hm : mkt.writes m = [] := if_pos hm
  rw [initNV, initNV_writes_eq, hl, hm]
  rfl

-- What `ptAlarmDelay` makes of delays that do not run
theorem ptAlarmDelay_quiet (h : ∀ a ∈ as, m a = 0) : ptAlarmDelay setting m as = (m, []) := by
  induction as with
  | nil => rfl
  | cons a as ih =>
    have ⟨ha, hs⟩ := List.forall_mem_cons.mp h
    have ht : Wapp.delayTurn (m a) (setting a) = (0, false) := by
      simp [Wapp.delayTurn, ha]
    have hw : m.write a 0 = m := by rw [← ha]; exact Function.update_eq_self a m
    simp only [ptAlarmDelay, ht, hw, ih hs]
    rfl

-- After the supply has been lost and `InitNV` has been interrupted any number of times, the next complete
-- `InitNV` leaves cleared counters and no running delay behind, exactly if the delays have happened to be
-- 0 and each reset has come before a magic was written or has left out nothing but zeros.
theorem init_law (hl : ¬logger.Valid m) (hm : ¬mkt.Valid m) : ∃ m₁ t,
    interrupted.run m ns = some (m₁, t) ∧
    ((Cleared (initNV m₁) ∧ ∀ setting, ptAlarmDelay setting (initNV m₁) delays = (initNV m₁, [])) ↔
      (∀ a ∈ delays, m a = 0) ∧ interrupted.Guarded Harmless m ns) ∧
    ∀ m, logger.Valid m → mkt.Valid m → initNV m = m := by
  have ⟨m₁, t, hr, hd⟩ := interrupted.run_total (t := []) (I := fun _ m₁ => ∀ a ∈ delays, m₁ a = m a)
    (fun {_ s n} hi _ => ⟨stopped s n, _, interrupted_step, fun a ha =>
      stopped_delays ha |>.trans <| hi a ha⟩)
    (fun _ _ => rfl) (@Machine.Guarded.trivial _ _ _ interrupted m ns)
  refine ⟨m₁, t, hr, ?_, fun m => initNV_of_valid⟩
  have hv : Vouched m := ⟨fun h => absurd h hl, fun h => absurd h hm⟩
  have good : Vouched m₁ ↔ interrupted.Guarded Harmless m ns := by
    have hs : ∀ {m n m₁ o}, Vouched m → interrupted.step m n = some (m₁, o) →
        (Vouched m₁ ↔ Harmless m n) := by
      intro m n m₁ o h hs
      cases interrupted_step.symm.trans hs
      exact stopped_vouched h
    have hb : ∀ {m n m₁ o}, interrupted.step m n = some (m₁, o) → Vouched m₁ → Vouched m := by
      intro m n m₁ o hs h
      cases interrupted_step.symm.trans hs
      exact vouched_of_stopped h
    have hg := Machine.run_good_iff hs hr
    exact ⟨fun h => hg.mp ⟨(Machine.run_good_last hb hr h).1, h⟩ |>.2, fun g => hg.mpr ⟨hv, g⟩ |>.2⟩
  have delay : (∀ a ∈ delays, initNV m₁ a = 0) ↔ ∀ a ∈ delays, m a = 0 :=
    forall₂_congr fun a ha => by rw [initNV_delays ha, hd a ha]
  have cleared : Cleared (initNV m₁) ↔ (∀ a ∈ delays, m a = 0) ∧ interrupted.Guarded Harmless m ns := by
    rw [Cleared, List.forall_mem_append, initNV_counters, delay, good, and_comm]
  constructor
  case mp => exact fun h => cleared.mp h.1
  case mpr =>
    intro h
    have hc := cleared.mpr h
    exact ⟨hc, fun _ => ptAlarmDelay_quiet fun a ha => hc a <| List.mem_append_right _ ha⟩

instance : Decidable (Harmless m n) :=
  inferInstanceAs <| Decidable ((_ → _ ∨ _) ∧ (_ → _ ∨ _))

-- Words that the supply has left behind, among which the delays happen to be 0
def scattered : Nv := fun a =>
  if a ∈ delays then 0 else a.toUInt32 * 0x9E3779B1 + 1

-- The second reset comes between the two regions.
theorem init_law_scattered : interrupted.Guarded Harmless scattered [0, 17, 0] ∧ ∃ m₁ t,
    interrupted.run scattered [0, 17, 0] = some (m₁, t) ∧
    ((Cleared (initNV m₁) ∧ ∀ setting, ptAlarmDelay setting (initNV m₁) delays = (initNV m₁, [])) ↔
      (∀ a ∈ delays, scattered a = 0) ∧ interrupted.Guarded Harmless scattered [0, 17, 0]) ∧
    ∀ m, logger.Valid m → mkt.Valid m → initNV m = m :=
  have g : interrupted.Guarded Harmless scattered [0, 17, 0] := by decide +kernel
  ⟨g, init_law (by decide +kernel) (by decide +kernel)⟩

-- The delay of the first sensor is never initialised: it runs out at once.
theorem delay_kept : ¬∀ m m₁ ns t, ¬logger.Valid m → ¬mkt.Valid m →
    interrupted.run m ns = some (m₁, t) →
    Cleared (initNV m₁) ∧ ∀ setting, (ptAlarmDelay setting (initNV m₁) delays).2 = [] := by
  intro h
  have hd : (interrupted.run (fun _ => 0xFF) []).any fun (m, _) =>
      initNV m nvDelaySen1 = 0xFF ∧ (ptAlarmDelay (fun _ => 60) (initNV m) delays).2 ≠ [] := by
    decide +kernel
  have ⟨⟨m₁, t⟩, hr, hd⟩ := (Option.any_eq_true ..).mp hd
  have ⟨_, hd⟩ := of_decide_eq_true hd
  exact hd <| h _ m₁ [] t (by decide) (by decide) hr |>.2 _

end Nvram
