import Webtermo.Execution.Lfs.Download
import Webtermo.Execution.Lfs.Theorems.Append

-- The functions of `lfs_tools.c` that open a file, work on it and close it again
namespace Lfs

open Script (run_cons)

variable {d d₁ : Disk} {m n : Bytes} {f : File} {o : OpenFile} {p : Calls} {c : Call × Int}

-- The path that a call names
def Call.path : Call → Option Bytes
  | fileOpen _ path _ | setattr path _ => some path
  | _                                  => none

theorem withFile_done {g : OpenFile → Disk} (h : d.withFile g = .done d₁) :
    ∃ o, d.lfsfile = some o ∧ d₁ = g o := by
  simp only [Disk.withFile] at h
  split at h
  case h_1 => cases h
  case h_2 o ho =>
    cases h
    exact ⟨o, ho, rfl⟩

theorem fileSync_done (h : d.perform (.fileSync x, r) = .done d₁) :
    ∃ o, d.lfsfile = some o ∧ d₁ = d.fileSync o r :=
  withFile_done h

theorem fileSync_frame (ho : d.lfsfile = some o) (hm : m ≠ o.path) :
    (∃ o₁, (d.fileSync o r).lfsfile = some o₁ ∧ o₁.path = o.path) ∧
      (d.fileSync o r).files m = d.files m := by
  simp only [Disk.fileSync]
  split
  case isTrue => exact ⟨⟨o, ho, rfl⟩, rfl⟩
  case isFalse =>
    split
    case isTrue => exact ⟨⟨_, rfl, rfl⟩, rfl⟩
    case isFalse =>
      split
      case isTrue => exact ⟨⟨_, rfl, rfl⟩, Function.update_of_ne hm ..⟩
      case isFalse => exact ⟨⟨o, ho, rfl⟩, rfl⟩

@[simp] theorem OpenFile.seek_path : (o.seek off whence r).path = o.path := by
  unfold OpenFile.seek
  split <;> rfl

@[simp] theorem OpenFile.write_path : (o.write buffer r).path = o.path := by
  unfold OpenFile.write
  split <;> rfl

-- No other file than that of the open handle and that of a call changes.
theorem perform_frame (ho : ∀ o ∈ d.lfsfile, o.path = n) (hc : ∀ m ∈ c.1.path, m = n)
    (hd : d.perform c = .done d₁) (hm : m ≠ n) :
    (∀ o ∈ d₁.lfsfile, o.path = n) ∧ d₁.files m = d.files m := by
  obtain ⟨call, r⟩ := c
  cases call with
  | fileOpen x path flags =>
    cases hc path rfl
    simp only [Disk.perform, Disk.fileOpen] at hd
    split at hd
    case h_1 => cases hd
    case h_2 =>
      cases hd
      split <;> simp_all
    case h_3 =>
      split at hd
      case isTrue =>
        split at hd
        case isTrue => cases hd; exact ⟨ho, rfl⟩
        case isFalse => cases hd
      case isFalse =>
        split at hd
        case isTrue => cases hd; exact ⟨ho, Function.update_of_ne hm ..⟩
        case isFalse =>
          split at hd
          case isTrue => cases hd; exact ⟨ho, rfl⟩
          case isFalse => cases hd; exact ⟨by simp, Function.update_of_ne hm ..⟩
  | fileClose x =>
    obtain ⟨o, hl, h₁⟩ := withFile_done hd
    have hf := (fileSync_frame (r := r) hl <| ho o hl ▸ hm).2
    exact h₁ ▸ ⟨by simp, hf⟩
  | fileSync x =>
    obtain ⟨o, hl, h₁⟩ := fileSync_done hd
    obtain ⟨⟨o₁, hl₁, hp⟩, hf⟩ := fileSync_frame (r := r) hl <| ho o hl ▸ hm
    exact h₁ ▸ ⟨by simp [hl₁, hp, ho o hl], hf⟩
  | fileSeek x off whence =>
    obtain ⟨o, hl, h₁⟩ := withFile_done hd
    exact h₁ ▸ ⟨by simp [ho o hl], rfl⟩
  | fileWrite x buffer =>
    obtain ⟨o, hl, h₁⟩ := withFile_done hd
    exact h₁ ▸ ⟨by simp [ho o hl], rfl⟩
  | fileRead x size =>
    obtain ⟨_, _, h₁⟩ := withFile_done hd
    subst h₁
    exact ⟨ho, rfl⟩
  | setattr path stamp =>
    cases hc path rfl
    cases hd
    unfold Disk.setattr
    split
    case isTrue => exact ⟨ho, rfl⟩
    case isFalse => exact ⟨ho, Function.update_of_ne hm ..⟩
  | dirOpen | dirRewind | dirRead | dirClose | getattr | stat | fsSize =>
    cases hd
    exact ⟨ho, rfl⟩

theorem run_frame (ho : ∀ o ∈ d.lfsfile, o.path = n) (hp : ∀ c ∈ p, ∀ m ∈ c.1.path, m = n)
    (hd : Script.run Disk.perform d p = .done d₁) (hm : m ≠ n) : d₁.files m = d.files m := by
  induction p generalizing d with
  | nil =>
    cases hd
    rfl
  | cons c p ih =>
    have ⟨hc, hp⟩ := List.forall_mem_cons.mp hp
    have ⟨d₂, h₁, h₂⟩ := run_cons hd
    have ⟨ho₂, hf⟩ := perform_frame ho hc h₁ hm
    exact (ih ho₂ hp h₂).trans hf

theorem run_close (hd : Script.run Disk.perform d (p ++ [(.fileClose x, r)]) = .done d₁) :
    d₁.lfsfile = none := by
  induction p generalizing d with
  | nil =>
    have ⟨d₂, h₁, h₂⟩ := run_cons hd
    have ⟨_, _, h₁⟩ := withFile_done h₁
    cases h₂
    rw [h₁]
  | cons c p ih =>
    have ⟨_, _, h₂⟩ := run_cons hd
    exact ih h₂

-- A function that closes the handle at its end and names one path
theorem run_done (hl : d.lfsfile = none) (hp : ∀ c ∈ p, ∀ m ∈ c.1.path, m = n)
    (hc : ∃ q x r, p = q ++ [(.fileClose x, r)]) (hd : Script.run Disk.perform d p = .done d₁) :
    d₁.lfsfile = none ∧ ∀ m ≠ n, d₁.files m = d.files m := by
  refine ⟨?_, fun m hm => run_frame (by simp [hl]) hp hd hm⟩
  have ⟨_, _, _, hc⟩ := hc
  exact run_close (hc ▸ hd)

theorem lfsAppend_done {r : AppendResults} (hl : d.lfsfile = none)
    (hd : Script.run Disk.perform d (lfsAppend r n ibuf) = .done d₁) :
    d₁.lfsfile = none ∧ ∀ m ≠ n, d₁.files m = d.files m := by
  refine run_done hl ?_ ?_ hd <;> unfold lfsAppend <;> split
  · simp [Call.path]
  · simp [Call.path]
  · exact ⟨[_], _, _, rfl⟩
  · exact ⟨[_, _, _, _, _], _, _, rfl⟩

theorem lfsCreate_done {r : CreateResults} (hl : d.lfsfile = none)
    (hd : Script.run Disk.perform d (lfsCreate r n ibuf) = .done d₁) :
    d₁.lfsfile = none ∧ ∀ m ≠ n, d₁.files m = d.files m := by
  refine run_done hl ?_ ?_ hd <;> unfold lfsCreate <;> split
  · simp [Call.path]
  · simp [Call.path]
  · exact ⟨[_, _, _, _, _], _, _, rfl⟩
  · exact ⟨[_], _, _, rfl⟩

-- A handle for which nothing is left to be written
def OpenFile.Quiet (o : OpenFile) : Prop :=
  o.erred ∨ ¬o.dirty

theorem fileSync_quiet (h : o.Quiet) : (d.fileSync o r).files = d.files := by
  simp only [Disk.fileSync]
  split
  case isTrue => rfl
  case isFalse he =>
    split
    case isTrue => rfl
    case isFalse => rw [if_neg <| h.resolve_left he]

-- A synchronization keeps what is in the file, unless it succeeds with something else.
theorem fileSync_keeps (ho : d.lfsfile = some o) (hf : d.files o.path = some f)
    (h : o.Quiet ∨ f.content <+: o.data ∨ r < 0) :
    ∃ f₁ o₁, (d.fileSync o r).files o.path = some f₁ ∧ f.content <+: f₁.content ∧
      (d.fileSync o r).lfsfile = some o₁ ∧ o₁.path = o.path ∧ o₁.Quiet := by
  simp only [Disk.fileSync]
  split
  case isTrue he => exact ⟨f, o, hf, List.prefix_rfl, ho, rfl, .inl he⟩
  case isFalse he =>
    split
    case isTrue => exact ⟨f, _, hf, List.prefix_rfl, rfl, rfl, .inl rfl⟩
    case isFalse hr =>
      split
      case isTrue hd =>
        have hp : f.content <+: o.data := by simpa [OpenFile.Quiet, he, hr, hd] using h
        exact ⟨{ f with content := o.data }, _, by simp [hf], hp, rfl, rfl, .inr Bool.false_ne_true⟩
      case isFalse hd => exact ⟨f, o, hf, List.prefix_rfl, ho, rfl, .inr hd⟩

-- What `lfs_append` has in its handle before the synchronization
theorem append_data {r : AppendResults} (ho : 0 ≤ r.openWronly) (hr : r.Appended → 0 ≤ r.seek)
    (he : o = ((⟨n, l, 0, false, false⟩ : OpenFile).seek 0 .seekEnd r.seek).write ibuf r.write) :
    o.path = n ∧ (o.Quiet ∨ l <+: o.data ∨ r.sync < 0) := by
  refine ⟨by simp [he], ?_⟩
  by_cases hw : r.write < 0
  case pos => exact .inl <| .inl <| by simp [he, OpenFile.write, hw]
  case neg =>
    by_cases hs : r.sync < 0
    case pos => exact .inr <| .inr hs
    case neg =>
      have hk : ¬r.seek < 0 := Int.not_lt.mpr <| hr ⟨ho, Int.not_lt.mp hw, Int.not_lt.mp hs⟩
      exact .inr <| .inl <| by simp [he, OpenFile.write, OpenFile.seek, hw, hk]

theorem lfsAppend_keeps {r : AppendResults} (hl : d.lfsfile = none) (hf : d.files n = some f)
    (hr : r.Appended → 0 ≤ r.seek)
    (hd : Script.run Disk.perform d (lfsAppend r n ibuf) = .done d₁) :
    ∃ f₁, d₁.files n = some f₁ ∧ f.content <+: f₁.content := by
  by_cases ho : r.openWronly < 0
  case pos =>
    simp [lfsAppend, Script.run, Disk.perform, Disk.fileOpen, hl, hf, ho, Disk.withFile] at hd
  case neg =>
    rw [lfsAppend, if_neg ho] at hd
    obtain ⟨d₂, h₂, hd⟩ := run_cons hd
    have h₂ : d₂ = { d with lfsfile := some ⟨n, f.content, 0, false, false⟩ } := by
      simpa [Disk.perform, Disk.fileOpen, hl, hf, ho] using h₂.symm
    obtain ⟨d₃, h₃, hd⟩ := run_cons hd
    obtain ⟨o₂, hl₂, h₃⟩ := withFile_done h₃
    obtain ⟨d₄, h₄, hd⟩ := run_cons hd
    obtain ⟨o₃, hl₃, h₄⟩ := withFile_done h₄
    subst h₂ h₃ h₄
    cases hl₂
    cases hl₃
    obtain ⟨d₅, h₅, hd⟩ := run_cons hd
    obtain ⟨o₄, hl₄, h₅⟩ := fileSync_done h₅
    obtain ⟨hp₄, hk₄⟩ := append_data (Int.not_lt.mp ho) hr (Option.some.inj hl₄).symm
    obtain ⟨f₅, o₅, hf₅, hc₅, hl₅, hp₅, hq₅⟩ := fileSync_keeps hl₄ (hp₄ ▸ hf) hk₄
    rw [← h₅] at hf₅ hl₅
    rw [hp₄] at hf₅ hp₅
    obtain ⟨d₆, h₆, hd⟩ := run_cons hd
    obtain ⟨f₆, hc₆, he₆⟩ : ∃ f₆, f₆.content = f₅.content ∧
        d₅.perform (.setattr n (.filetime r.filetime), r.setattr) =
          .done { d₅ with files := Function.update d₅.files n (some f₆) } := by
      obtain ⟨f₆, hc₆, _, he₆⟩ := perform_setattr hf₅
      exact ⟨f₆, hc₆, he₆⟩
    cases he₆.symm.trans h₆
    obtain ⟨d₇, h₇, hd⟩ := run_cons hd
    obtain ⟨o₆, hl₆, h₇⟩ := withFile_done h₇
    cases hl₅.symm.trans hl₆
    cases hd
    refine ⟨f₆, ?_, hc₆ ▸ hc₅⟩
    rw [h₇]
    exact (congrFun (fileSync_quiet hq₅) n).trans <| Function.update_self ..

-- `lfs_create` closes a file that it finds.
theorem lfsCreate_keeps {r : CreateResults} (hl : d.lfsfile = none) (hf : d.files n = some f)
    (hr : 0 ≤ r.openRdonly)
    (hd : Script.run Disk.perform d (lfsCreate r n ibuf) = .done d₁) : d₁.files = d.files := by
  have ho : ¬r.openRdonly < 0 := Int.not_lt.mpr hr
  rw [lfsCreate, if_neg ho] at hd
  obtain ⟨d₂, h₂, hd⟩ := run_cons hd
  have h₂ : d₂ = { d with lfsfile := some ⟨n, f.content, 0, false, false⟩ } := by
    simpa [Disk.perform, Disk.fileOpen, hl, hf, ho] using h₂.symm
  obtain ⟨d₃, h₃, hd⟩ := run_cons hd
  obtain ⟨o, hl₃, h₃⟩ := withFile_done h₃
  subst h₂ h₃
  cases hl₃
  cases hd
  exact fileSync_quiet <| .inr Bool.false_ne_true

-- `lfs_read` of a file that is there, with no error from littlefs
theorem lfsRead_run {r : ReadResults} (hl : d.lfsfile = none) (hf : d.files n = some f)
    (ho : 0 ≤ r.openRdonly) (hs : 0 ≤ r.seek) (hr : 0 ≤ r.read)
    (hdata : data = (f.content.drop pos).take size.toNat) :
    Script.run (Disk.performRead junk) (d, buffer) (lfsRead r n pos size) =
      if r.read = data.length then .done (d, data ++ buffer.drop data.length) else .impossible := by
  obtain ⟨files, handle⟩ := d
  cases hl
  have hf : files n = some f := hf
  have ho : ¬r.openRdonly < 0 := Int.not_lt.mpr ho
  have hs : ¬r.seek < 0 := Int.not_lt.mpr hs
  have hr : ¬r.read < 0 := Int.not_lt.mpr hr
  let o (pos : Nat) : Disk × Bytes := (⟨files, some ⟨n, f.content, pos, false, false⟩⟩, buffer)
  have h₁ : Disk.performRead junk (⟨files, none⟩, buffer)
      (.fileOpen .lfsfile n .rdonly, r.openRdonly) = .done (o 0) := by
    simp [Disk.performRead, Disk.perform, Disk.fileOpen, hf, ho, o]
  have h₂ : Disk.performRead junk (o 0) (.fileSeek .lfsfile pos .seekSet, r.seek) =
      .done (o pos) := by
    simp [Disk.performRead, Disk.perform, Disk.withFile, OpenFile.seek, hs, o]
  have h₃ : Disk.performRead junk (o pos) (.fileRead .lfsfile size, r.read) =
      if r.read = data.length then .done ((o pos).1, data ++ buffer.drop data.length)
      else .impossible := by
    simp [Disk.performRead, Disk.perform, Disk.withFile, OpenFile.ahead, hr, o, ← hdata]
  rw [lfsRead, if_neg ho, Script.run_done h₁, Script.run_done h₂]
  split at h₃
  case isFalse hn => rw [Script.run, h₃, if_neg hn]
  case isTrue hn =>
    rw [Script.run_done h₃, if_pos hn]
    by_cases h₄ : r.sync < 0 <;> by_cases h₅ : r.close < 0 <;>
      simp [Script.run, Disk.performRead, Disk.perform, Disk.withFile, Disk.fileSync, o, h₄, h₅]

end Lfs
