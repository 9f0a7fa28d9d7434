import Webtermo.Execution.Lfs.Theorems.Tools

namespace Lfs

namespace Download

variable {s s₁ : State} {e : Event} {l : Bytes} {o t : List Obs} {flash : Bytes → Option Bytes}

-- What is left to be delivered after an observation, if it is the right one: the next bytes of what the
-- file had when it was opened, as many as are asked for or all that are left, and the end of the file
-- when all has been delivered.
def Obs.check (l : Bytes) : Obs → Option Bytes
  | opened content        => some content
  | delivered count bytes => if l ≠ [] ∧ bytes = l.take count then some (l.drop count) else none
  | eof                   => if l = [] then some [] else none
  | stopped               => none

def Law (t : List Obs) : Prop :=
  (t.foldlM Obs.check []).isSome

instance : Decidable (Law t) :=
  inferInstanceAs <| Decidable (_ = true)

-- The file that is being delivered
def State.serves (s : State) : Option Bytes :=
  (s.file.filter fun f => f.isCustomFile ∧ f.index < f.len).map (resolve ·.fname.bytes)

-- The name starts with a slash, `lfs_stat` and the calls of `lfs_read` succeed, and the file is not
-- removed or overwritten before it has been delivered.
def Event.Sound (s : State) : Event → Prop
  | .fsOpen name r          => 0 ≤ r.opencfg → 0 ≤ r.stat ∧ resolve name.tail = resolve name
  | .fsRead _ _ r _         => s.serves.isSome → 0 ≤ r.openRdonly ∧ 0 ≤ r.seek ∧ 0 ≤ r.read
  | .lfsAppend r fname _    => s.serves = some (resolve fname) → r.Appended → 0 ≤ r.seek
  | .lfsCreate r fname _    => s.serves = some (resolve fname) → 0 ≤ r.openRdonly
  | .lfsRemove r fname      => s.serves = some (resolve fname) → r < 0

instance : (e : Event) → Decidable (e.Sound s)
  | .fsOpen .. | .fsRead .. | .lfsAppend .. | .lfsCreate .. | .lfsRemove .. =>
    inferInstanceAs <| Decidable (_ → _)

-- With `l` left to be delivered
structure Inv (l : Bytes) (s : State) : Prop where
  closed : s.halted = false → s.disk.lfsfile = none
  length : ∀ f, s.file = some f → f.len = f.index + l.length
  flash  : ∀ f, s.file = some f → f.isCustomFile = false → l = []
  custom : ∀ n, s.serves = some n → ∃ f g read, s.file = some f ∧ s.disk.files n = some g ∧
    read.length = f.index ∧ read ++ l <+: g.content

theorem State.serves_eq {f : FsFile} (hf : s.file = some f) (hc : f.isCustomFile) (hi : f.index < f.len) :
    s.serves = some (resolve f.fname.bytes) := by
  simp [serves, hf, Option.filter, hc, hi]

-- A change of the disk that keeps what the file that is delivered has
theorem Inv.change {d : Disk} (i : Inv l s) (hn : d.lfsfile = none)
    (hk : ∀ n g, s.serves = some n → s.disk.files n = some g →
      ∃ g₁, d.files n = some g₁ ∧ g.content <+: g₁.content) : Inv l { s with disk := d } where
  closed _ := hn
  length   := i.length
  flash    := i.flash
  custom n hs := by
    have ⟨f, g, read, hf, hg, hi, hl⟩ := i.custom n hs
    have ⟨g₁, hg₁, hp⟩ := hk n g hs hg
    exact ⟨f, g₁, read, hf, hg₁, hi, hl.trans hp⟩

theorem State.serves_of (h : s.serves = some n) : ∃ f, s.file = some f ∧ f.isCustomFile ∧
    f.index < f.len ∧ resolve f.fname.bytes = n := by
  simp only [serves, Option.map_eq_some_iff, Option.filter_eq_some_iff, decide_eq_true_eq] at h
  have ⟨f, ⟨hf, hc, hi⟩, hn⟩ := h
  exact ⟨f, hf, hc, hi, hn⟩

theorem fsOpen_inv (i : Inv l s) (hs : (Event.fsOpen name r).Sound s)
    (h : fsOpen flash s name r = some (s₁, o)) : ∃ l₁, o.foldlM Obs.check l = some l₁ ∧ Inv l₁ s₁ := by
  simp only [fsOpen, Option.bind_eq_bind, Option.bind_eq_some_iff] at h
  have ⟨fname, hn, h⟩ := h
  have hb := CString.strcpy_bytes hn
  split at h
  case isTrue =>
    split at h
    case h_1 d _ =>
      cases h
      refine ⟨[], rfl, i.closed, fun f hf => ?_, fun _ _ _ => rfl, fun n hn => ?_⟩
      · cases hf
        rfl
      · have ⟨_, hf, hc, _⟩ := State.serves_of hn
        cases hf
        cases hc
    case h_2 =>
      cases h
      exact ⟨l, rfl, i.closed, fun _ hf => (nomatch hf), fun _ hf => (nomatch hf),
        fun _ hs => (nomatch hs)⟩
  case isFalse hr =>
    have ⟨hst, hp⟩ := hs <| Int.not_lt.mp hr
    simp only [Option.bind_eq_some_iff, if_neg <| Int.not_lt.mpr hst, Option.map_eq_some_iff] at h
    have ⟨g, hg, _, ⟨g₁, hg₁, hl⟩, h⟩ := h
    cases hg.symm.trans <| hp ▸ hg₁
    cases hl
    cases h
    refine ⟨g.content, rfl, i.closed, fun f hf => ?_, fun f hf hc => ?_, fun n hn => ?_⟩
    · cases hf
      simp
    · cases hf
      cases hc
    · have ⟨_, hf, _, _, hn⟩ := State.serves_of hn
      cases hf
      exact ⟨_, g, [], rfl, hn ▸ hb ▸ hg₁, rfl, List.prefix_rfl⟩

theorem fsRead_inv {file : FsFile} (i : Inv l s) (hh : s.halted = false) (hf : s.file = some file)
    (hb : buffer.length < 2 ^ 31)
    (hs : s.serves.isSome → 0 ≤ r.openRdonly ∧ 0 ≤ r.seek ∧ 0 ≤ r.read)
    (h : fsRead s file buffer r junk = some (s₁, o)) :
    ∃ l₁, o.foldlM Obs.check l = some l₁ ∧ Inv l₁ s₁ := by
  have hl := i.length _ hf
  simp only [fsRead] at h
  split at h
  case isTrue he =>
    have hn : l = [] := List.eq_nil_of_length_eq_zero <| by omega
    cases h
    exact ⟨[], by simp [Obs.check, hn], hn ▸ i⟩
  case isFalse he =>
    have hne : l ≠ [] := fun hn => he <| by simpa [hn] using hl.symm
    split at h
    case isFalse hc => exact absurd (i.flash _ hf <| by simpa using hc) hne
    case isTrue hc =>
      have hi : file.index < file.len := by
        have := List.length_pos_of_ne_nil hne
        omega
      rw [if_pos hi] at h
      have hv := State.serves_eq hf hc hi
      have ⟨ho, hk, hr⟩ := hs <| by simp [hv]
      have ⟨_, g, read, hf₁, hg, hx, hp⟩ := i.custom _ hv
      cases hf.symm.trans hf₁
      have hn : min (file.len - file.index) buffer.length = min l.length buffer.length := by omega
      have hu : (min l.length buffer.length).toUInt32.toNat = min l.length buffer.length := by
        rw [Nat.toUInt32_eq, UInt32.toNat_ofNat']
        omega
      have hdata : l.take buffer.length =
          (g.content.drop file.index).take (min l.length buffer.length).toUInt32.toNat := by
        have ⟨rest, hp⟩ := hp
        rw [hu, ← hp, ← hx, List.append_assoc, List.drop_left, List.take_append_of_le_length (by omega)]
        exact List.take_eq_take_iff.mpr (by omega)
      rw [hn, lfsRead_run (i.closed hh) hg ho hk hr hdata] at h
      split at h
      case h_1 => cases h
      case h_2 hm => split at hm <;> cases hm
      case h_3 hm =>
        split at hm <;> cases hm
        cases h
        have ht : (l.take buffer.length ++ buffer.drop (l.take buffer.length).length).take
            (min l.length buffer.length) = l.take buffer.length :=
          List.take_left' <| by rw [List.length_take, Nat.min_comm]
        refine ⟨l.drop buffer.length, by rw [ht]; simp [Obs.check, hne], fun _ => i.closed hh,
          fun f hf => ?_, fun f hf hn => ?_, fun n hn => ?_⟩
        · cases hf
          simp only [List.length_drop]
          omega
        · cases hf
          exact absurd (hc.symm.trans hn) (by decide)
        · have ⟨_, hf, _, _, hn⟩ := State.serves_of hn
          cases hf
          refine ⟨_, g, read ++ l.take buffer.length, rfl, hn ▸ hg, ?_, by simpa using hp⟩
          rw [List.length_append, List.length_take, hx, Nat.min_comm]

theorem change_inv {d : Script.Outcome Disk} (i : Inv l s)
    (hd : ∀ d₁, d = .done d₁ → Inv l { s with disk := d₁ })
    (h : change s d = some (s₁, o)) : ∃ l₁, o.foldlM Obs.check l = some l₁ ∧ Inv l₁ s₁ := by
  cases d with
  | impossible => cases h
  | asserts =>
    cases h
    exact ⟨l, rfl, ⟨nofun, i.length, i.flash, i.custom⟩⟩
  | done d₁ =>
    cases h
    exact ⟨l, rfl, hd d₁ rfl⟩

theorem Inv.init : Inv [] (.init files) where
  closed _      := rfl
  length _ hf   := nomatch hf
  flash _ _ _   := rfl
  custom _ hs   := nomatch hs

theorem step_inv (i : Inv l s) (hs : e.Sound s) (h : (server flash).step s e = some (s₁, o)) :
    ∃ l₁, o.foldlM Obs.check l = some l₁ ∧ Inv l₁ s₁ := by
  simp only [server] at h
  split at h
  case isTrue => cases h
  case isFalse hh =>
    have hh : s.halted = false := by simpa using hh
    have hn := i.closed hh
    cases e with
    | fsOpen name r => exact fsOpen_inv i hs h
    | fsRead buffer hb r junk =>
      have ⟨file, hf, h⟩ := Option.bind_eq_some_iff.mp h
      exact fsRead_inv i hh hf hb hs h
    | lfsAppend r fname ibuf =>
      refine change_inv i (fun d hd => ?_) h
      have ⟨hc, hf⟩ := lfsAppend_done hn hd
      refine i.change hc fun n g hn₁ hg => ?_
      by_cases hp : n = resolve fname
      case pos => exact hp ▸ lfsAppend_keeps hn (hp ▸ hg) (hs <| hp ▸ hn₁) hd
      case neg => exact ⟨g, hf n hp ▸ hg, List.prefix_rfl⟩
    | lfsCreate r fname ibuf =>
      refine change_inv i (fun d hd => ?_) h
      have ⟨hc, hf⟩ := lfsCreate_done hn hd
      refine i.change hc fun n g hn₁ hg => ?_
      by_cases hp : n = resolve fname
      case pos =>
        have hk := lfsCreate_keeps hn (hp ▸ hg) (hs <| hp ▸ hn₁) hd
        exact ⟨g, hk ▸ hg, List.prefix_rfl⟩
      case neg => exact ⟨g, hf n hp ▸ hg, List.prefix_rfl⟩
    | lfsRemove r fname =>
      refine change_inv i (fun d hd => ?_) h
      simp only [Disk.remove] at hd
      split at hd
      case isTrue =>
        cases hd
        exact i.change hn fun n g _ hg => ⟨g, hg, List.prefix_rfl⟩
      case isFalse hr =>
        split at hd <;> cases hd
        refine i.change hn fun n g hn₁ hg => ⟨g, ?_, List.prefix_rfl⟩
        have hp : n ≠ resolve fname := fun hp => hr <| hs <| hp ▸ hn₁
        exact (Function.update_of_ne hp ..).trans hg

-- A download delivers what its file had when it was opened, and then ends.
theorem download_law (g : (server flash).Guarded (fun s e => e.Sound s) (.init files) es)
    (hr : (server flash).run (.init files) es = some (s, t)) : Law t := by
  have ⟨l, h, _⟩ := Machine.run_history
    (I := fun t s => ∃ l, t.foldlM Obs.check [] = some l ∧ Inv l s) (t := [])
    (fun ⟨l, ht, i⟩ hs h => by
      have ⟨l₁, ho, i₁⟩ := step_inv i hs h
      exact ⟨l₁, by rw [List.foldlM_append, ht]; exact ho, i₁⟩)
    ⟨[], rfl, .init⟩ g hr
  exact Option.isSome_iff_exists.mpr ⟨l, h⟩

-- The bytes that a file has been delivered with
def delivered (t : List Obs) : Bytes :=
  t.flatMap fun
    | .delivered _ bytes => bytes
    | _                  => []

-- From the opening on, the bytes are the first ones that the file had, and all of them at its end.
theorem check_delivered (h : t.foldlM Obs.check l = some l₁)
    (ho : ∀ content, .opened content ∉ t) :
    delivered t ++ l₁ = l ∧ (.eof ∈ t → delivered t = l) := by
  induction t generalizing l with
  | nil =>
    cases h
    exact ⟨rfl, nofun⟩
  | cons x t ih =>
    simp only [List.foldlM_cons, Option.bind_eq_bind, Option.bind_eq_some_iff] at h
    have ⟨l₂, hx, h⟩ := h
    have ⟨h₁, h₂⟩ := ih h fun c hc => ho c <| .tail _ hc
    cases x with
    | opened content => exact absurd (.head _) (ho content)
    | stopped => cases hx
    | eof =>
      simp only [Obs.check, Option.ite_none_right_eq_some, Option.some.injEq] at hx
      have ⟨hl, hl₂⟩ := hx
      cases hl₂
      have ⟨hd, hl₁⟩ := List.append_eq_nil_iff.mp h₁
      have hd : delivered (.eof :: t) = [] := hd
      exact ⟨by rw [hd, hl₁, hl]; rfl, fun _ => by rw [hd, hl]⟩
    | delivered count bytes =>
      simp only [Obs.check, Option.ite_none_right_eq_some, Option.some.injEq] at hx
      have ⟨⟨_, hb⟩, hl₂⟩ := hx
      have hd : delivered (.delivered count bytes :: t) = l.take count ++ delivered t := by
        rw [hb]
        rfl
      refine ⟨by rw [hd, List.append_assoc, h₁, ← hl₂, List.take_append_drop], fun he => ?_⟩
      rw [hd, h₂ <| by simpa using he, ← hl₂, List.take_append_drop]

def logFile (content : Bytes) : Bytes → Option File :=
  fun n => if n = ascii "T0123.CSV" then some ⟨content, none⟩ else none

def Event.block (buffer : Bytes) (h : buffer.length < 2 ^ 31) (read : Int) : Event :=
  .fsRead buffer h ⟨0, 0, read, 0, 0⟩ fun _ => 0

-- A record is appended between two blocks.
def appended : List Event := [
  .fsOpen (ascii "/T0123.CSV") ⟨0, 0, 0⟩,
  .block (List.replicate 8 0) (by decide) 8,
  .lfsAppend ⟨0, 0, 0, 0, ⟨2023, 1, 1, 0, 0, 0⟩, 0, 0⟩ (ascii "T0123.CSV") (ascii "1;2;\r\n"),
  .block (List.replicate 8 0) (by decide) 3,
  .block (List.replicate 8 0) (by decide) 0]

theorem download_law_appended : ∃ s t,
    (server fun _ => none).run (.init <| logFile <| ascii "MJESEC;1;\r\n") appended = some (s, t) ∧
      Law t := by
  have hd : ((server fun _ => none).run (.init <| logFile <| ascii "MJESEC;1;\r\n")
      appended).isSome ∧ (server fun _ => none).Guarded (fun s e => e.Sound s)
        (.init <| logFile <| ascii "MJESEC;1;\r\n") appended := by
    decide +kernel
  have ⟨⟨s, t⟩, hr⟩ := Option.isSome_iff_exists.mp hd.1
  exact ⟨s, t, hr, download_law hd.2 hr⟩

-- The file is removed after the first block, and the logger makes it anew. It is too short for the next
-- block, which is delivered as it is in the buffer.
def removed : List Event := [
  .fsOpen (ascii "/T0123.CSV") ⟨0, 0, 0⟩,
  .block (List.replicate 16 0) (by decide) 16,
  .lfsRemove 0 (ascii "T0123.CSV"),
  .lfsCreate ⟨-2, 0, 11, 0, 0, 0, 0⟩ (ascii "T0123.CSV") (ascii "MJESEC;1;\r\n"),
  .block (ascii "MJESEC;1;\r\n1;2;\r") (by decide) 0]

theorem stale_delivered : ∃ s t,
    (server fun _ => none).run (.init <| logFile <| ascii "MJESEC;1;\r\n1;2;\r\n") removed =
      some (s, t) ∧
    .delivered 16 (ascii "M") ∈ t ∧ ¬Law t := by
  have hd : ((server fun _ => none).run (.init <| logFile <| ascii "MJESEC;1;\r\n1;2;\r\n")
      removed).any fun (_, t) => .delivered 16 (ascii "M") ∈ t ∧ ¬Law t := by
    decide +kernel
  have ⟨⟨s, t⟩, hr, hd⟩ := (Option.any_eq_true ..).mp hd
  exact ⟨s, t, hr, of_decide_eq_true hd⟩

end Download

end Lfs
