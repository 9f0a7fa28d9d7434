import Webtermo.Execution.Lfs.Theorems.Append

namespace Lfs

-- The records that have been appended successfully, after those that the log has had before
def records (old : Key → List Bytes) (t : List Obs) (k : Key) : List Bytes :=
  t.foldl (fun recs x => match x with
    | .called _ _   => recs
    | .returned v r => if v.key = k ∧ r.append.Appended then recs ++ [v.dsave] else recs) (old k)

variable {old : Key → List Bytes} {t : List Obs} {s s₁ : State} {d : Disk} {k : Key}

-- The last of the calls that add to a log file are those of `lfs_append`.
def Saving.append (v : Saving) (r : Results) : Calls :=
  lfsAppend r.append v.key.fname v.dsave

structure Law (old : Key → List Bytes) (t : List Obs) (s : State) : Prop where
  -- At all times a log file is its header and then the records. From the synchronization on, the record
  -- that is being appended is one of them. A file that `lfs_create` is making may yet be empty.
  content : ∀ k, Content k (records old t k) (s.disk.files k.fname) ∨
    ∃ v r, s.saving = some (v, r) ∧ v.key = k ∧
      (Appending k (records old t k) r.append v.dsave (s.disk.files k.fname) ∨
        v.append r <:+ s.todo ∧ Creating k (records old t k) (s.disk.files k.fname))
  -- No call of littlefs changes or removes what is in a file.
  kept    : ∀ before after, .called before after ∈ t → ∀ n f, before n = some f →
    ∃ f₁, after n = some f₁ ∧ f.content <+: f₁.content
  stamp   : s.saving = none → ∀ t₁ v r, t = t₁ ++ [Obs.returned v r] → r.append.Appended →
    ∃ f, s.disk.files v.key.fname = some f ∧ f.stamp = some (.filetime r.append.filetime)

-- What littlefs must answer to a function that is called now: if the log file is not there then its open
-- makes it and its header is written and synchronized, or it fails before there is a file. If a record
-- is written and synchronized then it is written to the end and the time stamp is set.
structure Sound (d : Disk) (v : Saving) (r : Results) : Prop where
  header   : d.files v.key.fname = none → 0 ≤ r.create.openCreat →
    0 ≤ r.create.write ∧ 0 ≤ r.create.sync
  memory   : d.files v.key.fname = none → r.create.openCreat ≠ errNomem
  appended : r.append.Appended → 0 ≤ r.append.seek ∧ 0 ≤ r.append.setattr

instance {v : Saving} {r : Results} : Decidable (Sound d v r) :=
  decidable_of_iff
    (((d.files v.key.fname).isNone → 0 ≤ r.create.openCreat →
        0 ≤ r.create.write ∧ 0 ≤ r.create.sync) ∧
      ((d.files v.key.fname).isNone → r.create.openCreat ≠ errNomem) ∧
      (r.append.Appended → 0 ≤ r.append.seek ∧ 0 ≤ r.append.setattr))
    ⟨fun h => ⟨by simpa using h.1, by simpa using h.2.1, h.2.2⟩,
      fun h => ⟨by simpa using h.header, by simpa using h.memory, h.appended⟩⟩

def Event.Sound (s : State) : Event → Prop
  | save v r => Lfs.Sound s.disk v r
  | next     => True

instance : (s : State) → (e : Event) → Decidable (e.Sound s)
  | s, .save v r => inferInstanceAs <| Decidable (Lfs.Sound s.disk v r)
  | _, .next     => inferInstanceAs <| Decidable True

@[simp] theorem records_called : records old (t ++ [Obs.called before after]) k = records old t k := by
  simp [records]

theorem records_returned : records old (t ++ [Obs.returned v r]) k =
    if v.key = k ∧ r.append.Appended then records old t k ++ [v.dsave] else records old t k := by
  simp [records]

-- Where a function is
inductive Phase (old : Key → List Bytes) (t : List Obs) (s : State) : Prop
  | idle (hs : s.saving = none) (hl : s.disk.lfsfile = none)
    (hc : ∀ k, Content k (records old t k) (s.disk.files k.fname))
  | create (hs : s.saving = some (v, r))
    (ho : ∀ k ≠ v.key, Content k (records old t k) (s.disk.files k.fname))
    (ha : r.append.Appended → 0 ≤ r.append.seek ∧ 0 ≤ r.append.setattr) (ht : s.todo = p ++ v.append r)
    (hc : Creating v.key (records old t v.key) (s.disk.files v.key.fname))
    (hp : Saves v.key (Creating v.key (records old t v.key))
      (fun d => d.lfsfile = none ∧ Content v.key (records old t v.key) (d.files v.key.fname)) s.disk p)
  | append (hs : s.saving = some (v, r))
    (ho : ∀ k ≠ v.key, Content k (records old t k) (s.disk.files k.fname))
    (hc : Appending v.key (records old t v.key) r.append v.dsave (s.disk.files v.key.fname))
    (hp : Saves v.key (Appending v.key (records old t v.key) r.append v.dsave)
      (Done v.key (records old t v.key) r.append v.dsave) s.disk s.todo)

structure Inv (old : Key → List Bytes) (t : List Obs) (s : State) : Prop where
  kept  : ∀ before after, .called before after ∈ t → ∀ n f, before n = some f →
    ∃ f₁, after n = some f₁ ∧ f.content <+: f₁.content
  stamp : s.saving = none → ∀ t₁ v r, t = t₁ ++ [Obs.returned v r] → r.append.Appended →
    ∃ f, s.disk.files v.key.fname = some f ∧ f.stamp = some (.filetime r.append.filetime)
  phase : Phase old t s

theorem Inv.law (i : Inv old t s) : Law old t s where
  kept    := i.kept
  stamp   := i.stamp
  content k := by
    cases i.phase with
    | idle _ _ hc => exact .inl <| hc k
    | @create v r p hs ho _ ht hc hp =>
      by_cases hk : k = v.key
      case neg => exact .inl <| ho k hk
      case pos => exact .inr ⟨v, r, hs, hk.symm, .inr ⟨⟨p, ht.symm⟩, hk ▸ hc⟩⟩
    | @append v r hs ho hc hp =>
      by_cases hk : k = v.key
      case neg => exact .inl <| ho k hk
      case pos => exact .inr ⟨v, r, hs, hk.symm, .inl <| hk ▸ hc⟩

namespace Inv

theorem save (i : Inv old t s) (hs : s.saving = none) (w : Sound s.disk v r) :
    Inv old t { s with saving := some (v, r), todo := v.calls r } where
  kept    := i.kept
  stamp   := nofun
  phase   := by
    cases i.phase with
    | idle _ hl hc =>
      exact .create rfl (fun k _ => hc k) w.appended rfl (.inl <| hc _)
        (lfsCreate_saves hl (hc _) w.header w.memory)
    | create hn | append hn => exact nomatch hs.symm.trans hn

theorem kept_called (i : Inv old t s) (h : Step k P s.disk d) :
    ∀ before after, .called before after ∈ t ++ [Obs.called s.disk.files d.files] →
      ∀ n f, before n = some f → ∃ f₁, after n = some f₁ ∧ f.content <+: f₁.content := by
  intro before after hm n f hf
  cases List.mem_append.mp hm
  case inl hm => exact i.kept _ _ hm n f hf
  case inr hm =>
    cases List.mem_singleton.mp hm
    exact h.keeps hf

-- A call of `lfs_append`
theorem call_append (i : Inv old t s) (hs : s.saving = some (v, r))
    (ho : ∀ k ≠ v.key, Content k (records old t k) (s.disk.files k.fname))
    (hp : Saves v.key (Appending v.key (records old t v.key) r.append v.dsave)
      (Done v.key (records old t v.key) r.append v.dsave) s.disk (c :: todo))
    (hd : s.disk.perform c = .done d) :
    Inv old (t ++ [Obs.called s.disk.files d.files]) { s with disk := d, todo } := by
  have ⟨h, hp⟩ := hp.done hd
  refine ⟨i.kept_called h, fun hn => (nomatch hs.symm.trans hn), ?_⟩
  refine .append hs (fun k hk => ?_) ?_ ?_ <;> simp only [records_called]
  · exact h.others hk ▸ ho k hk
  · exact h.after
  · exact hp

theorem call (i : Inv old t s) (ht : s.todo = c :: todo) (hn : s.saving.isSome)
    (hd : s.disk.perform c = .done d) :
    Inv old (t ++ [Obs.called s.disk.files d.files]) { s with disk := d, todo } := by
  cases i.phase with
  | idle hs => exact nomatch hs ▸ hn
  | append hs ho hc hp => exact i.call_append hs ho (ht ▸ hp) hd
  | @create v r p hs ho ha hp hc hq =>
    cases p with
    | nil =>
      have ⟨hl, hc⟩ := hq
      have : Saves _ _ _ s.disk (v.append r) := lfsAppend_saves hl hc ha
      exact i.call_append hs ho ((ht.symm.trans hp) ▸ this) hd
    | cons c₁ p =>
      cases ht.symm.trans hp
      have ⟨h, hq⟩ := hq.done hd
      refine ⟨i.kept_called h, fun hn => (nomatch hs.symm.trans hn), ?_⟩
      refine .create hs (fun k hk => ?_) ha rfl ?_ ?_ <;> simp only [records_called]
      · exact h.others hk ▸ ho k hk
      · exact h.after
      · exact hq

theorem lfsAppend_ne_nil : lfsAppend r fname dsave ≠ [] :=
  List.cons_ne_nil _ _

theorem returned (i : Inv old t s) (hs : s.saving = some (v, r)) (ht : s.todo = []) :
    Inv old (t ++ [Obs.returned v r]) { s with saving := none } := by
  cases i.phase with
  | idle hn => exact nomatch hs.symm.trans hn
  | create _ _ _ hp =>
    exact absurd (List.append_eq_nil_iff.mp <| hp.symm.trans ht).2 lfsAppend_ne_nil
  | append hn ho hc hp =>
    cases hs.symm.trans hn
    rw [ht] at hp
    have ⟨hl, hc, hst⟩ := hp
    refine ⟨fun before after hm => i.kept _ _ ?_, fun _ t₁ v₁ r₁ h ha => ?_, ?_⟩
    · simpa using hm
    · cases (List.append_inj' h rfl).2
      exact hst ha
    · refine .idle rfl hl fun k => ?_
      rw [records_returned]
      by_cases hk : v.key = k
      case neg =>
        rw [if_neg fun h => hk h.1]
        exact ho k <| Ne.symm hk
      case pos =>
        subst hk
        simpa only [true_and] using hc

theorem halt (i : Inv old t s) : Inv old t { s with halted := true } where
  kept  := i.kept
  stamp := i.stamp
  phase := by
    cases i.phase with
    | idle hs hl hc            => exact .idle hs hl hc
    | create hs ho ha ht hc hp => exact .create hs ho ha ht hc hp
    | append hs ho hc hp       => exact .append hs ho hc hp

theorem step (i : Inv old t s) (w : e.Sound s) (h : device.step s e = some (s₁, o)) :
    Inv old (t ++ o) s₁ := by
  cases e with
  | save v r =>
    simp only [device] at h
    split at h
    case isFalse => cases h
    case isTrue hs =>
      cases h
      simpa using i.save (Option.isNone_iff_eq_none.mp hs) w
  | next =>
    simp only [device] at h
    split at h
    case h_1 | h_2 => cases h
    case h_3 hs ht =>
      cases h
      exact i.returned hs ht
    case h_4 hs ht =>
      split at h <;> cases h
      case h_2 => simpa using i.halt
      case h_3 hd => exact i.call ht (by simp [hs]) hd

end Inv

-- Whatever littlefs answers, as long as that is sound: the log files are append-only.
theorem append_only (hf : ∀ k, Content k (old k) (files (Key.fname k)))
    (g : device.Guarded (fun s e => e.Sound s) (.init files) es)
    (h : device.run (.init files) es = some (s, t)) : Law old t s := by
  have i : Inv old [] (.init files) := ⟨nofun, fun _ t₁ => by simp, .idle rfl rfl hf⟩
  exact (device.run_history (I := Inv old) (fun i w => i.step w) i g h).law

-- littlefs answers with 0, and to the first open with `openRdonly` and to the write of the header with
-- `header`.
def answers (openRdonly header : Int) : Results where
  create := ⟨openRdonly, 0, header, 0, 0, 0, 0⟩
  append := ⟨0, 0, 0, 0, ⟨2024, 2, 29, 8, 30, 15⟩, 0, 0⟩

def noFiles : Bytes → Option File :=
  fun _ => none

theorem content_noFiles : Content k [] (noFiles k.fname) :=
  rfl

def alarms : Saving where
  save    := .alarm (ascii "HLADNJAK") (ascii "9.25") Alarm.hi
  month   := ⟨24, 2, by decide, by decide⟩
  datum   := 29
  sat     := 8
  minuta  := 30
  sekunda := 14

-- An alarm is logged into a new file, and then another one.
theorem append_only_alarms : ∃ s t,
    device.run (.init noFiles) ([Event.save alarms (answers (-2) 0)] ++ List.replicate 13 .next ++
      [Event.save alarms (answers 0 0)] ++ List.replicate 9 .next) = some (s, t) ∧
    Law (fun _ => []) t s := by
  have : (device.run (.init noFiles) ([Event.save alarms (answers (-2) 0)] ++
      List.replicate 13 .next ++ [Event.save alarms (answers 0 0)] ++ List.replicate 9 .next)).isSome := by
    decide +kernel
  have ⟨(s, t), h⟩ := Option.isSome_iff_exists.mp this
  exact ⟨s, t, h, append_only (fun _ => content_noFiles) (by decide +kernel) h⟩

instance : (file : Option File) → Decidable (Content k recs file)
  | none   => inferInstanceAs <| Decidable (_ = _)
  | some _ => inferInstanceAs <| Decidable (_ = _)

-- There is no space for the header, but then there is for the record.
theorem header_lost :
    ¬∀ old files es s t, (∀ k, Content k (old k) (files (Key.fname k))) →
      device.run (.init files) es = some (s, t) → Law old t s := by
  intro h
  have : (device.run (.init noFiles) ([Event.save alarms (answers (-2) (-28))] ++
      List.replicate 13 .next)).any fun (s, t) => s.saving.isNone ∧
        ¬Content alarms.key (records (fun _ => []) t alarms.key)
          (s.disk.files alarms.key.fname) := by
    decide +kernel
  have ⟨(s, t), hr, hs⟩ := Option.any_eq_true .. |>.mp this
  have ⟨hs, hn⟩ := of_decide_eq_true hs
  cases (h (fun _ => []) _ _ s t (fun _ => content_noFiles) hr).content alarms.key
  case inl hc => exact hn hc
  case inr hc =>
    have ⟨_, _, hv, _⟩ := hc
    simp [hv] at hs

end Lfs
