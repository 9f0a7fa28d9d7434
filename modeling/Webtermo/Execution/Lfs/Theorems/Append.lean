import Webtermo.Execution.Lfs.Saves
import Webtermo.Objects.Parsers

namespace Lfs

open Script (Safe)

theorem ascii_toString_inj {m n : Nat} (hm : m < 100) (hn : n < 100)
    (h : ascii (toString m) = ascii (toString n)) : m = n := by
  have he : ∀ m : Fin 100, atoiDigits (ascii (toString m.val)) = m := by decide +kernel
  calc m = atoiDigits (ascii (toString m)) := (he ⟨m, hm⟩).symm
    _    = atoiDigits (ascii (toString n)) := by rw [h]
    _    = n := he ⟨n, hn⟩

theorem toUInt8_inj {a b : Nat} (ha : a < 256) (hb : b < 256) (h : a.toUInt8 = b.toUInt8) :
    a = b := by
  have := congrArg UInt8.toNat h
  simp only [Nat.toUInt8_eq, UInt8.toNat_ofNat'] at this
  omega

theorem createName_inj (h : (createName l₁ c₁ m₁).1 = (createName l₂ c₂ m₂).1) :
    l₁.toNat.toUInt8 = l₂.toNat.toUInt8 ∧ m₁ = m₂ := by
  obtain ⟨godina₁, mjesec₁, hg₁, hm₁⟩ := m₁
  obtain ⟨godina₂, mjesec₂, hg₂, hm₂⟩ := m₂
  simp only [createName, List.append_cancel_right_eq] at h
  split at h <;> split at h <;>
    simp only [List.map_cons, List.map_nil, List.cons_append, List.nil_append, List.cons.injEq] at h
  case isTrue.isTrue =>
    have ⟨hl, _, hm, hg⟩ := h
    have := toUInt8_inj (by omega) (by omega) hm
    have := ascii_toString_inj hg₁ hg₂ hg
    exact ⟨hl, by simp only [Month.mk.injEq]; omega⟩
  case isFalse.isFalse =>
    have ⟨hl, _, hm, hg⟩ := h
    have := toUInt8_inj (by omega) (by omega) hm
    have := ascii_toString_inj hg₁ hg₂ hg
    exact ⟨hl, by simp only [Month.mk.injEq]; omega⟩
  case isTrue.isFalse => exact absurd h.2.1 (by decide)
  case isFalse.isTrue => exact absurd h.2.1 (by decide)

theorem Key.fname_inj {k₁ k₂ : Key} (h : k₁.fname = k₂.fname) : k₁ = k₂ := by
  obtain ⟨l₁, m₁⟩ := k₁
  obtain ⟨l₂, m₂⟩ := k₂
  cases l₁ <;> cases l₂ <;> have ⟨hl, hm⟩ := createName_inj h
  case temp.temp | haccp.haccp | alarm.alarm => exact congrArg (Key.mk _) hm
  all_goals exact absurd hl (by decide)

-- The file of a log after some records, or none before the first one
def Content (k : Key) (recs : List Bytes) : Option File → Prop
  | none   => recs = []
  | some f => f.content = k.header ++ recs.flatten

def AppendResults.Appended (r : AppendResults) : Prop :=
  0 ≤ r.openWronly ∧ 0 ≤ r.write ∧ 0 ≤ r.sync

instance {r : AppendResults} : Decidable r.Appended :=
  inferInstanceAs <| Decidable (_ ∧ _ ∧ _)

variable {d d₁ : Disk} {k : Key} {recs : List Bytes} {f : File} {file : Handle} {r : Int} {p : Calls}
  {P : Option File → Prop} {Q : Disk → Prop}

-- One call of littlefs while the file of a log is written: no other file changes, nothing that is in
-- the file is lost, and then the file is as `P` says.
structure Step (k : Key) (P : Option File → Prop) (d d₁ : Disk) : Prop where
  frame : ∀ n ≠ k.fname, d₁.files n = d.files n
  kept  : ∀ f, d.files k.fname = some f → ∃ f₁, d₁.files k.fname = some f₁ ∧
    f.content <+: f₁.content
  after : P (d₁.files k.fname)

namespace Step

theorem same (h : d₁.files = d.files) (hp : P (d.files k.fname)) : Step k P d d₁ where
  frame n _ := by rw [h]
  kept f hf := ⟨f, h ▸ hf, List.prefix_rfl⟩
  after     := h ▸ hp

theorem update (h : d₁.files = Function.update d.files k.fname (some f₁))
    (hk : ∀ f, d.files k.fname = some f → f.content <+: f₁.content) (hp : P (some f₁)) :
    Step k P d d₁ where
  frame n hn := by rw [h, Function.update_of_ne hn]
  kept f hf  := ⟨f₁, by rw [h, Function.update_self], hk f hf⟩
  after      := by rwa [h, Function.update_self]

theorem keeps (h : Step k P d d₁) (hf : d.files n = some f) :
    ∃ f₁, d₁.files n = some f₁ ∧ f.content <+: f₁.content := by
  by_cases hn : n = k.fname
  case pos => exact hn ▸ h.kept f (hn ▸ hf)
  case neg => exact ⟨f, h.frame n hn ▸ hf, List.prefix_rfl⟩

theorem others (h : Step k P d d₁) (hk : k₁ ≠ k) : d₁.files k₁.fname = d.files k₁.fname :=
  h.frame _ fun hn => hk <| Key.fname_inj hn

end Step

-- The functions as programs on the disk
abbrev Saves (k : Key) (P : Option File → Prop) (Q : Disk → Prop) (d : Disk) (p : Calls) : Prop :=
  Safe Disk.perform (Step k P) Q d p

-- A handle that has nothing to write
structure Clean (d : Disk) (k : Key) (f : File) : Prop where
  file   : d.files k.fname = some f
  handle : ∃ o, d.lfsfile = some o ∧ (o.erred ∨ ¬o.dirty)

-- A handle that has something to write
structure Dirty (d : Disk) (k : Key) (f : File) (data : Bytes) : Prop where
  file   : d.files k.fname = some f
  handle : ∃ pos, d.lfsfile = some ⟨k.fname, data, pos, true, false⟩

theorem perform_setattr (hf : d.files path = some f) :
    ∃ f₁, f₁.content = f.content ∧ (0 ≤ r → f₁.stamp = some stamp) ∧
      d.perform (.setattr path stamp, r) =
        .done { d with files := Function.update d.files path (some f₁) } := by
  by_cases h : r < 0
  case pos =>
    refine ⟨f, rfl, fun hr => by omega, ?_⟩
    rw [← hf, Function.update_eq_self]
    simp [Disk.perform, Disk.setattr, h]
  case neg => exact ⟨{ f with stamp }, rfl, fun _ => rfl, by simp [Disk.perform, Disk.setattr, h, hf]⟩

-- `setattr` leaves the handle and the content.
theorem setattr_saves (hf : d.files k.fname = some f)
    (h : ∀ d₁ f₁, d₁.lfsfile = d.lfsfile → d₁.files k.fname = some f₁ → f₁.content = f.content →
      (0 ≤ r → f₁.stamp = some stamp) → P (some f₁) ∧ Saves k P Q d₁ p) :
    Saves k P Q d ((.setattr k.fname stamp, r) :: p) := by
  have ⟨f₁, hc, hs, (hd : d.perform (.setattr k.fname stamp, r) = _)⟩ := perform_setattr hf
  have ⟨hp, hn⟩ := h { d with files := Function.update d.files k.fname (some f₁) } f₁ rfl
    (Function.update_self ..) hc hs
  refine .of_done hd (.update rfl ?_ hp) hn
  intro f₂ hf₂
  cases hf.symm.trans hf₂
  exact hc ▸ List.prefix_rfl

namespace Clean

theorem fileSync (c : Clean d k f) (ho : d.lfsfile = some o) :
    (d.fileSync o r).files = d.files ∧ Clean (d.fileSync o r) k f := by
  have ⟨o₁, ho₁, h⟩ := c.handle
  cases ho.symm.trans ho₁
  simp only [Disk.fileSync]
  split
  case isTrue => exact ⟨rfl, c⟩
  case isFalse he =>
    split
    case isTrue => exact ⟨rfl, c.file, _, rfl, .inl rfl⟩
    case isFalse =>
      rw [if_neg (by simpa [he] using h)]
      exact ⟨rfl, c⟩

theorem sync (c : Clean d k f) (hp : P (some f))
    (h : ∀ d₁, Clean d₁ k f → Saves k P Q d₁ p) : Saves k P Q d ((.fileSync file, r) :: p) := by
  have ⟨o, ho, _⟩ := c.handle
  have ⟨hf, hc⟩ := c.fileSync (r := r) ho
  have hd : d.perform (.fileSync file, r) = .done (d.fileSync o r) := by
    simp only [Disk.perform, Disk.withFile, ho]
  exact .of_done hd (.same hf <| c.file ▸ hp) (h _ hc)

theorem close (c : Clean d k f) (hp : P (some f))
    (h : ∀ d₁, d₁.files k.fname = some f → d₁.lfsfile = none → Q d₁) :
    Saves k P Q d [(.fileClose file, r)] := by
  have ⟨o, ho, _⟩ := c.handle
  have ⟨hf, _⟩ := c.fileSync (r := r) ho
  have hd : d.perform (.fileClose file, r) = .done { d.fileSync o r with lfsfile := none } := by
    simp only [Disk.perform, Disk.withFile, ho]
  exact .of_done hd (.same hf <| c.file ▸ hp) (h _ (hf ▸ c.file) rfl)

end Clean

theorem Dirty.sync (h : Dirty d k f data) (hk : 0 ≤ r → f.content <+: data)
    (hn : ∀ d₁ f₁, Clean d₁ k f₁ → f₁.content = (if 0 ≤ r then data else f.content) →
      P (some f₁) ∧ Saves k P Q d₁ p) :
    Saves k P Q d ((.fileSync file, r) :: p) := by
  have ⟨pos, ho⟩ := h.handle
  by_cases hr : r < 0
  case pos =>
    let d₁ : Disk := { d with lfsfile := some ⟨k.fname, data, pos, true, true⟩ }
    have hd : d.perform (.fileSync file, r) = .done d₁ := by
      simp [Disk.perform, Disk.withFile, ho, Disk.fileSync, hr, d₁]
    have ⟨hp, hn⟩ := hn d₁ f ⟨h.file, _, rfl, .inl rfl⟩ (if_neg (by omega)).symm
    exact .of_done hd (.same rfl <| h.file ▸ hp) hn
  case neg =>
    let f₁ : File := { f with content := data }
    let d₁ : Disk :=
      ⟨Function.update d.files k.fname (some f₁), some ⟨k.fname, data, pos, false, false⟩⟩
    have hd : d.perform (.fileSync file, r) = .done d₁ := by
      simp [Disk.perform, Disk.withFile, ho, Disk.fileSync, hr, h.file, d₁, f₁]
    have ⟨hp, hn⟩ := hn d₁ f₁ ⟨Function.update_self .., _, rfl, .inr nofun⟩
      (if_pos (by omega)).symm
    refine .of_done hd (.update rfl ?_ hp) hn
    intro f₂ hf₂
    cases h.file.symm.trans hf₂
    exact hk (by omega)

theorem write_saves (hf : d.files k.fname = some f)
    (ho : d.lfsfile = some ⟨k.fname, data, pos, false, false⟩) (hp : P (some f))
    (hn : r < 0 → ∀ d₁, Clean d₁ k f → Saves k P Q d₁ p)
    (hy : 0 ≤ r → ∀ d₁,
      Dirty d₁ k f (data.take pos ++ buffer ++ data.drop (pos + buffer.length)) → Saves k P Q d₁ p) :
    Saves k P Q d ((.fileWrite file buffer, r) :: p) := by
  let o : OpenFile := ⟨k.fname, data, pos, false, false⟩
  let d₁ : Disk := { d with lfsfile := some <| o.write buffer r }
  have hd : d.perform (.fileWrite file buffer, r) = .done d₁ := by
    simp only [Disk.perform, Disk.withFile, ho, d₁, o]
  refine .of_done hd (.same rfl <| hf ▸ hp) ?_
  by_cases hr : r < 0
  case pos => exact hn hr d₁ ⟨hf, _, rfl, .inl <| by simp [OpenFile.write, hr]⟩
  case neg =>
    exact hy (by omega) d₁ ⟨hf, pos + buffer.length, by simp [d₁, o, OpenFile.write, hr]⟩

-- An open that fails without having made a file
theorem fails_saves (hl : d.lfsfile = none) (hp : P (d.files k.fname)) (hr : r < 0)
    (hm : d.files k.fname = none → flags = .rdwrCreat → r ≠ errNomem) (h : Saves k P Q d p) :
    Saves k P Q d ((.fileOpen file k.fname flags, r) :: p) := by
  have hd : d.perform (.fileOpen file k.fname flags, r) = .done d := by
    cases hf : d.files k.fname with
    | some f => simp [Disk.perform, Disk.fileOpen, hl, hf, hr]
    | none   => cases flags <;> simp [Disk.perform, Disk.fileOpen, hl, hf, hr, hm hf]
  exact .of_done hd (.same rfl hp) h

-- An open of a file that is there
theorem open_saves (hl : d.lfsfile = none) (hf : d.files k.fname = some f) (hp : P (some f))
    (hn : r < 0 → Saves k P Q d p)
    (hy : 0 ≤ r → Saves k P Q { d with lfsfile := some ⟨k.fname, f.content, 0, false, false⟩ } p) :
    Saves k P Q d ((.fileOpen file k.fname flags, r) :: p) := by
  by_cases hr : r < 0
  case pos => exact fails_saves hl (hf ▸ hp) hr (fun hn => nomatch hf.symm.trans hn) (hn hr)
  case neg =>
    let d₁ : Disk := { d with lfsfile := some ⟨k.fname, f.content, 0, false, false⟩ }
    have hd : d.perform (.fileOpen file k.fname flags, r) = .done d₁ := by
      simp [Disk.perform, Disk.fileOpen, hl, hf, hr, d₁]
    exact .of_done hd (.same rfl <| hf ▸ hp) (hy <| by omega)

-- A file that `lfs_create` has made is empty until it is synchronized.
def Creating (k : Key) (recs : List Bytes) (file : Option File) : Prop :=
  Content k recs file ∨ recs = [] ∧ ∃ f, file = some f ∧ f.content = []

-- The rest of `lfs_create` after its second open, for a file that has its header, or for a new one if
-- the write and the synchronization succeed
theorem header_saves {r : CreateResults} (hf : d.files k.fname = some f)
    (ho : d.lfsfile = some ⟨k.fname, f.content, 0, false, false⟩)
    (hc : f.content = k.header ++ recs.flatten ∨
      recs = [] ∧ f.content = [] ∧ 0 ≤ r.write ∧ 0 ≤ r.sync) :
    Saves k (Creating k recs) (fun d => d.lfsfile = none ∧ Content k recs (d.files k.fname)) d
      [(.fileWrite .lfsfile k.header, r.write),
        (.setattr k.fname (.fattime r.fattime), r.setattr), (.fileSync .lfsfile, r.sync),
        (.fileClose .lfsfile, r.close)] := by
  have creating {f₁} (h : f₁.content = f.content) : Creating k recs (some f₁) := by
    cases hc
    case inl hc => exact .inl <| h.trans hc
    case inr hc => exact .inr ⟨hc.1, f₁, rfl, h.trans hc.2.1⟩
  have closed {d f₁} (c : Clean d k f₁) (h : f₁.content = k.header ++ recs.flatten) :
      Saves k (Creating k recs) (fun d => d.lfsfile = none ∧ Content k recs (d.files k.fname)) d
        [(.fileClose .lfsfile, r.close)] :=
    c.close (.inl h) fun d₁ hf hl => ⟨hl, hf ▸ h⟩
  refine write_saves hf ho (creating rfl) ?_ ?_
  · -- Nothing has been written, so the file is no new one.
    intro hr d₁ c
    have hc : f.content = k.header ++ recs.flatten := hc.resolve_right fun h => by omega
    refine setattr_saves c.file fun d₂ f₂ hl hf₂ h _ => ⟨creating h, ?_⟩
    have c₂ : Clean d₂ k f₂ := ⟨hf₂, hl ▸ c.handle⟩
    exact c₂.sync (creating h) fun d₃ c₃ => closed c₃ (h.trans hc)
  · intro _ d₁ w
    have hd : f.content.take 0 ++ k.header ++ f.content.drop (0 + k.header.length) =
        k.header ++ recs.flatten := by
      cases hc
      case inl hc => simp [hc]
      case inr hc => simp [hc.1, hc.2.1]
    refine setattr_saves w.file fun d₂ f₂ hl hf₂ h _ => ⟨creating h, ?_⟩
    have w₂ : Dirty d₂ k f₂ (k.header ++ recs.flatten) := ⟨hf₂, hd ▸ hl ▸ w.handle⟩
    refine w₂.sync (fun _ => ?_) fun d₃ f₃ c₃ h₃ => ?_
    · rw [h]
      cases hc
      case inl hc => exact hc ▸ List.prefix_rfl
      case inr hc => exact hc.2.1 ▸ List.nil_prefix
    · have h₃ : f₃.content = k.header ++ recs.flatten := by
        rw [h₃]
        split
        case isTrue => rfl
        case isFalse hs => exact h.trans <| hc.resolve_right fun h => hs h.2.2.2
      exact ⟨.inl h₃, closed c₃ h₃⟩

theorem lfsCreate_saves {r : CreateResults} (hl : d.lfsfile = none)
    (hc : Content k recs (d.files k.fname))
    (hs : d.files k.fname = none → 0 ≤ r.openCreat → 0 ≤ r.write ∧ 0 ≤ r.sync)
    (hm : d.files k.fname = none → r.openCreat ≠ errNomem) :
    Saves k (Creating k recs) (fun d => d.lfsfile = none ∧ Content k recs (d.files k.fname)) d
      (lfsCreate r k.fname k.header) := by
  -- A write to a handle that is not open
  have write {p} : Saves k (Creating k recs)
      (fun d => d.lfsfile = none ∧ Content k recs (d.files k.fname)) d
      ((.fileWrite .lfsfile k.header, r.write) :: p) :=
    .of_asserts <| by simp [Disk.perform, Disk.withFile, hl]
  rw [lfsCreate]
  cases hf : d.files k.fname with
  | some f =>
    have hc : f.content = k.header ++ recs.flatten := by simpa [hf, Content] using hc
    refine open_saves hl hf (.inl hc) (fun h => ?_) fun h => ?_
    · rw [if_pos h]
      refine open_saves hl hf (.inl hc) (fun _ => write) fun _ => ?_
      exact header_saves hf rfl (.inl hc)
    · rw [if_neg (by omega)]
      have c : Clean { d with lfsfile := some ⟨k.fname, f.content, 0, false, false⟩ } k f :=
        ⟨hf, _, rfl, .inr nofun⟩
      exact c.close (.inl hc) fun d₁ hf hl => ⟨hl, hf ▸ hc⟩
  | none =>
    have hc : recs = [] := by simpa [hf, Content] using hc
    have hp : Creating k recs (d.files k.fname) := .inl <| by simpa [hf, Content] using hc
    by_cases h₁ : r.openRdonly < 0
    case neg => exact .of_impossible <| by simp [Disk.perform, Disk.fileOpen, hl, hf, h₁]
    case pos =>
      refine fails_saves hl hp h₁ nofun ?_
      rw [if_pos h₁]
      by_cases h₂ : r.openCreat < 0
      case pos => exact fails_saves hl hp h₂ (fun _ _ => hm hf) write
      case neg =>
        let d₁ : Disk := ⟨Function.update d.files k.fname (some ⟨[], none⟩),
          some ⟨k.fname, [], 0, false, false⟩⟩
        have hd : d.perform (.fileOpen .lfsfile k.fname .rdwrCreat, r.openCreat) = .done d₁ := by
          simp [Disk.perform, Disk.fileOpen, hl, hf, h₂, hm hf, d₁]
        refine .of_done hd (.update rfl ?_ <| .inr ⟨hc, _, rfl, rfl⟩) ?_
        · exact fun f₁ hf₁ => nomatch hf.symm.trans hf₁
        · exact header_saves (f := ⟨[], none⟩) (Function.update_self ..) rfl <|
            .inr ⟨hc, rfl, hs hf <| by omega⟩

-- What `lfs_append` leaves at any time
def Appending (k : Key) (recs : List Bytes) (r : AppendResults) (dsave : Bytes)
    (file : Option File) : Prop :=
  Content k recs file ∨ r.Appended ∧ Content k (recs ++ [dsave]) file

-- What it leaves when it returns
def Done (k : Key) (recs : List Bytes) (r : AppendResults) (dsave : Bytes) (d : Disk) : Prop :=
  d.lfsfile = none ∧
    Content k (if r.Appended then recs ++ [dsave] else recs) (d.files k.fname) ∧
    (r.Appended → ∃ f, d.files k.fname = some f ∧ f.stamp = some (.filetime r.filetime))

-- The end of `lfs_append`, after the synchronization
theorem stamp_saves {r : AppendResults} (c : Clean d k f)
    (hc : Content k (if r.Appended then recs ++ [dsave] else recs) (some f))
    (hs : r.Appended → 0 ≤ r.setattr) :
    Saves k (Appending k recs r dsave) (Done k recs r dsave) d
      [(.setattr k.fname (.filetime r.filetime), r.setattr), (.fileClose .lfsfile, r.close)] := by
  have appending {f₁} (h : f₁.content = f.content) : Appending k recs r dsave (some f₁) := by
    simp only [Appending, Content, h]
    split at hc
    case isTrue ha  => exact .inr ⟨ha, hc⟩
    case isFalse => exact .inl hc
  refine setattr_saves c.file fun d₁ f₁ hl hf h hst => ⟨appending h, ?_⟩
  have c₁ : Clean d₁ k f₁ := ⟨hf, hl ▸ c.handle⟩
  refine c₁.close (appending h) fun d₂ hf₂ hl₂ => ⟨hl₂, ?_, fun ha => ⟨f₁, hf₂, hst <| hs ha⟩⟩
  rw [hf₂]
  exact h.trans hc

theorem seek_saves {content : Bytes} (hf : d.files k.fname = some f)
    (ho : d.lfsfile = some ⟨k.fname, content, 0, false, false⟩) (hp : P (some f))
    (h : ∀ pos, (0 ≤ r → pos = content.length) →
      Saves k P Q { d with lfsfile := some ⟨k.fname, content, pos, false, false⟩ } p) :
    Saves k P Q d ((.fileSeek file 0 .seekEnd, r) :: p) := by
  let pos := if r < 0 then 0 else content.length
  let d₁ : Disk := { d with lfsfile := some ⟨k.fname, content, pos, false, false⟩ }
  have hd : d.perform (.fileSeek file 0 .seekEnd, r) = .done d₁ := by
    simp only [Disk.perform, Disk.withFile, ho, OpenFile.seek, d₁, pos]
    split <;> simp
  refine .of_done hd (.same rfl <| hf ▸ hp) <| h pos fun hr => ?_
  exact if_neg (by omega)

theorem lfsAppend_saves {r : AppendResults} (hl : d.lfsfile = none)
    (hc : Content k recs (d.files k.fname)) (hs : r.Appended → 0 ≤ r.seek ∧ 0 ≤ r.setattr) :
    Saves k (Appending k recs r dsave) (Done k recs r dsave) d (lfsAppend r k.fname dsave) := by
  rw [lfsAppend]
  cases hf : d.files k.fname with
  | none =>
    by_cases h : r.openWronly < 0
    case neg => exact .of_impossible <| by simp [Disk.perform, Disk.fileOpen, hl, hf, h]
    case pos =>
      refine fails_saves hl (.inl hc) h nofun ?_
      rw [if_pos h]
      exact .of_asserts <| by simp [Disk.perform, Disk.withFile, hl]
  | some f =>
    have hc : f.content = k.header ++ recs.flatten := by simpa [hf, Content] using hc
    refine open_saves hl hf (.inl hc) (fun h => ?_) fun h => ?_
    · rw [if_pos h]
      exact .of_asserts <| by simp [Disk.perform, Disk.withFile, hl]
    · rw [if_neg (by omega)]
      refine seek_saves hf rfl (.inl hc) fun pos hp => ?_
      refine write_saves hf rfl (.inl hc) (fun hw d₁ c => ?_) fun hw d₁ w => ?_
      · -- Nothing has been written, and nothing will be.
        have ha : ¬r.Appended := fun ha => by have := ha.2.1; omega
        refine c.sync (.inl hc) fun d₂ c₂ => stamp_saves c₂ ?_ fun h => absurd h ha
        rwa [if_neg ha]
      · -- If the synchronization succeeds then so does the seek.
        have data (hr : 0 ≤ r.sync) : f.content.take pos ++ dsave ++
            f.content.drop (pos + dsave.length) = f.content ++ dsave := by
          rw [hp <| (hs ⟨h, hw, hr⟩).1]
          simp
        refine w.sync (fun hr => data hr ▸ List.prefix_append ..) fun d₂ f₂ c₂ h₂ => ?_
        have hc₂ : Content k (if r.Appended then recs ++ [dsave] else recs) (some f₂) := by
          by_cases hr : 0 ≤ r.sync
          case pos =>
            have ha : r.Appended := ⟨h, hw, hr⟩
            rw [if_pos hr, data hr, hc] at h₂
            simp [Content, h₂, if_pos ha]
          case neg =>
            have ha : ¬r.Appended := fun ha => hr ha.2.2
            simp [Content, h₂, if_neg hr, hc, if_neg ha]
        refine ⟨?_, stamp_saves c₂ hc₂ fun ha => (hs ha).2⟩
        split at hc₂
        case isTrue ha => exact .inr ⟨ha, hc₂⟩
        case isFalse => exact .inl hc₂

end Lfs
