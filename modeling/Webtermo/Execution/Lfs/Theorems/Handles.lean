import Webtermo.Execution.Lfs.State

namespace Lfs

open Handles (Proper after)

variable {l : List Handle} {file dir : Handle} {reads : Nat → Entry}
  {uses : List (Handles.Act Handle)}

attribute [local simp] Run.acts act

-- What a function may do to the list of open handles
structure Disciplined (l : List Handle) (r : Run) : Prop where
  -- Only handles that have been opened and not yet been closed are used and closed.
  proper : Proper l r.acts
  once   : r.returned → ∀ h, r.acts.count (.release h) = r.acts.count (.acquire h)
  same   : r.returned → after l r.acts = l

-- None of the handles of the functions is open.
def Idle (l : List Handle) : Prop :=
  ∀ h ∈ l, ∃ n, h = .other n

-- The answer of `lfs_dir_read` that ends the loop, if there is one, is no error.
def Ends (reads : Nat → Entry) : Prop :=
  ∀ n, (∀ m < n, 0 < (reads m).res) → 0 ≤ (reads n).res

def DirResults.Served (r : DirResults) : Prop :=
  0 ≤ r.dirOpen ∧ Ends r.reads

-- The opens of a function succeed where it goes on as if they had.
def Func.Served : Func → Prop
  | lfsCreate r _ _ => 0 ≤ r.openRdonly ∨ 0 ≤ r.openCreat
  | lfsAppend r _ _ => 0 ≤ r.openWronly
  | lfsRead r _ _ _ => 0 ≤ r.openRdonly
  | fsOpen r name   =>
    name = ascii "/disk0.xml" ∨ name = ascii "/logfile.xml" ∨ name = ascii "/haccp.xml" → r.Served
  | xmlDisk r | xmlLogfile r | xmlHaccp r => r.Served

theorem Disciplined.of_proper (p : Proper l r.acts) (h : r.returned → after l r.acts = l) :
    Disciplined l r where
  proper := p
  once hr _ := Handles.count_release p (h hr)
  same   := h

theorem Disciplined.nil : Disciplined l ⟨[], true⟩ :=
  .of_proper trivial fun _ => rfl

-- A handle is opened, used and closed.
def Bracket (h : Handle) (a : List (Handles.Act Handle)) : Prop :=
  ∃ uses, (∀ x ∈ uses, x = .use h) ∧ a = .acquire h :: uses ++ [Handles.Act.release h]

-- It goes on with a handle that it has not opened.
def Loose (h : Handle) (a : List (Handles.Act Handle)) : Prop :=
  ∃ b, a = .use h :: b ∨ a = .release h :: b

theorem Bracket.disciplined (b : Bracket h r.acts) : Disciplined l r := by
  have ⟨uses, hu, ha⟩ := b
  refine .of_proper ?_ fun _ => ?_
  · rw [ha, Handles.proper_append, Proper, after, Handles.after_uses hu]
    exact ⟨Handles.proper_uses hu List.mem_cons_self, by simp [Proper]⟩
  · rw [ha, Handles.after_append, after, Handles.after_uses hu]
    simp [after]

theorem Loose.not_disciplined (o : Loose h r.acts) (hl : h ∉ l) : ¬Disciplined l r := by
  intro d
  have p := d.proper
  have ⟨b, ha⟩ := o
  cases ha
  case inl ha => exact hl (ha ▸ p).1
  case inr ha => exact hl (ha ▸ p).1

theorem disciplined_iff (hl : h ∉ l) (hp : P → Bracket h r.acts) (hn : ¬P → Loose h r.acts) :
    Disciplined l r ↔ P := by
  constructor
  case mp  => exact fun d => not_not.mp fun h => (hn h).not_disciplined hl d
  case mpr => exact fun h => (hp h).disciplined

theorem Idle.nil : Idle [] :=
  List.forall_mem_nil _

theorem Idle.not_mem (i : Idle l) (h : ∀ n, file ≠ .other n) : file ∉ l :=
  fun hm => have ⟨n, he⟩ := i _ hm; h n he

theorem lfsCreate_law (i : Idle l) :
    Disciplined l ⟨lfsCreate r fname ibuf, true⟩ ↔ 0 ≤ r.openRdonly ∨ 0 ≤ r.openCreat := by
  refine disciplined_iff (h := .lfsfile) (i.not_mem nofun) ?_ ?_
  · intro h
    by_cases h₁ : r.openRdonly < 0
    case neg => exact ⟨[], nofun, by simp [Run.acts, lfsCreate, act, h₁]⟩
    case pos =>
      have h₂ : ¬r.openCreat < 0 := by omega
      refine ⟨[.use .lfsfile, .use .lfsfile], by simp, ?_⟩
      simp [Run.acts, lfsCreate, act, List.filterMap_cons, h₁, h₂]
  · intro h
    have ⟨h₁, h₂⟩ : r.openRdonly < 0 ∧ r.openCreat < 0 := by omega
    refine ⟨[.use .lfsfile, .release .lfsfile], .inl ?_⟩
    simp [Run.acts, lfsCreate, act, List.filterMap_cons, h₁, h₂]

theorem lfsAppend_law (i : Idle l) :
    Disciplined l ⟨lfsAppend r fname ibuf, true⟩ ↔ 0 ≤ r.openWronly := by
  refine disciplined_iff (h := .lfsfile) (i.not_mem nofun) ?_ ?_
  · intro h
    refine ⟨List.replicate 3 (.use .lfsfile), by simp, ?_⟩
    simp [Run.acts, lfsAppend, act, List.filterMap_cons, Int.not_lt.mpr h, List.replicate]
  · intro h
    refine ⟨[], .inr ?_⟩
    simp [Run.acts, lfsAppend, act, Int.not_le.mp h]

theorem lfsRead_law (i : Idle l) :
    Disciplined l ⟨lfsRead r fname startpos length, true⟩ ↔ 0 ≤ r.openRdonly := by
  refine disciplined_iff (h := .lfsfile) (i.not_mem nofun) ?_ ?_
  · intro h
    refine ⟨List.replicate 3 (.use .lfsfile), by simp, ?_⟩
    simp [Run.acts, lfsRead, act, Int.not_lt.mpr h, List.replicate]
  · intro h
    refine ⟨[], .inr ?_⟩
    simp [Run.acts, lfsRead, act, Int.not_le.mp h]

-- `Ends` is about the first answer, and then about those that follow it.
theorem Ends.shift (e : Ends reads) (h : 0 < (reads 0).res) : Ends fun k => reads (k + 1) := by
  intro n hn
  refine e (n + 1) fun m hm => ?_
  cases m with
  | zero   => exact h
  | succ m => exact hn m (by omega)

section Loop

variable {stamps : Bool} {close : Int}

theorem readDir_proper : Proper (dir :: l) (readDir dir stamps close reads n).acts := by
  induction n generalizing reads with
  | zero => trivial
  | succ n ih =>
    simp only [readDir]
    split
    case isTrue => simp [Run.acts, act, Proper]
    case isFalse =>
      split
      case isTrue => simp [Run.acts, act, Proper]
      case isFalse =>
        have : Proper (dir :: l) (readDir dir stamps close (fun k => reads (k + 1)) n).acts := ih
        split <;> simpa [Run.acts, act, List.filterMap_cons, Proper] using this

theorem readDir_after (e : Ends reads) (h : (readDir dir stamps close reads n).returned) :
    after (dir :: l) (readDir dir stamps close reads n).acts = l := by
  induction n generalizing reads with
  | zero => cases h
  | succ n ih =>
    have := e 0 nofun
    simp only [readDir] at h ⊢
    split
    case isTrue => omega
    case isFalse h₁ =>
      split
      case isTrue => simp [Run.acts, act, after]
      case isFalse h₂ =>
        rw [if_neg h₁, if_neg h₂] at h
        have := ih (e.shift <| by omega) h
        split <;> simpa [Run.acts, act, List.filterMap_cons, after] using this

-- An error ends the function with the directory still open.
theorem readDir_error (h : (reads n).res < 0) (hp : ∀ m < n, 0 < (reads m).res) :
    (readDir dir stamps close reads (n + 1)).returned ∧
      after (dir :: l) (readDir dir stamps close reads (n + 1)).acts = dir :: l := by
  induction n generalizing reads with
  | zero => simp [readDir, h, Run.acts, act, after]
  | succ n ih =>
    have := hp 0 (by omega)
    rw [readDir, if_neg (by omega), if_neg (by omega)]
    have := ih h fun m hm => hp (m + 1) (by omega)
    refine ⟨this.1, ?_⟩
    split <;> simpa [Run.acts, act, List.filterMap_cons, after] using this.2

-- A function that opens a directory and then loops over it
theorem dir_law {r : DirResults} {run : Nat → Run} (hl : dir ∉ l)
    (hr : ∀ n, (run n).returned = (readDir dir stamps r.close r.reads n).returned)
    (hu : ∀ x ∈ uses, x = .use dir)
    (ha : ∀ n, (run n).acts = (if r.dirOpen < 0 then [] else [.acquire dir]) ++ uses ++
      (readDir dir stamps r.close r.reads n).acts) :
    (∀ n, Disciplined l (run n)) ↔ r.Served := by
  by_cases ho : r.dirOpen < 0
  case pos =>
    have hn : ¬Disciplined l (run 1) := by
      refine Loose.not_disciplined ?_ hl
      rw [ha, if_pos ho, List.nil_append]
      cases uses with
      | nil =>
        simp only [readDir, List.nil_append]
        split
        case isTrue => exact ⟨_, .inl rfl⟩
        case isFalse => split <;> exact ⟨_, .inl rfl⟩
      | cons x uses =>
        have := hu x List.mem_cons_self
        exact ⟨_, .inl <| congrArg (· :: _) this⟩
    exact ⟨fun d => absurd (d 1) hn, fun h => by have := h.1; omega⟩
  case neg =>
    have hs : ∀ n, after l (run n).acts =
        after (dir :: l) (readDir dir stamps r.close r.reads n).acts := by
      intro n
      rw [ha, if_neg ho, List.append_assoc, Handles.after_append, Handles.after_append,
        Handles.after_uses hu]
      rfl
    constructor
    case mp =>
      refine fun d => ⟨by omega, fun n hp => Int.not_lt.mp fun h => ?_⟩
      have ⟨h₁, h₂⟩ : (readDir dir stamps r.close r.reads (n + 1)).returned ∧ _ :=
        readDir_error (l := l) h hp
      have := (d <| n + 1).same (hr _ ▸ h₁)
      rw [hs, h₂] at this
      exact List.cons_ne_self _ _ this
    case mpr =>
      intro ⟨_, e⟩ n
      refine .of_proper ?_ fun h => hs n ▸ readDir_after e (hr n ▸ h)
      rw [ha, if_neg ho, List.append_assoc, Handles.proper_append, Handles.proper_append]
      refine ⟨trivial, Handles.proper_uses hu List.mem_cons_self, ?_⟩
      rw [Handles.after_uses hu]
      exact readDir_proper

end Loop

theorem xmlDisk_law {r : DirResults} (i : Idle l) :
    (∀ n, Disciplined l (xmlDisk r n)) ↔ r.Served := by
  have hl : .wtdir ∉ l := i.not_mem nofun
  have hr n : (xmlDisk r n).returned = (readDir .wtdir true r.close r.reads n).returned := rfl
  refine dir_law hl hr (fun _ => List.mem_singleton.mp) fun n => ?_
  by_cases h : r.dirOpen < 0 <;> simp [Run.acts, xmlDisk, act, List.filterMap_cons, h]

theorem xmlLogfile_law {r : DirResults} (i : Idle l) :
    (∀ n, Disciplined l (xmlLogfile r n)) ↔ r.Served := by
  have hl : .wtdir ∉ l := i.not_mem nofun
  have hr n : (xmlLogfile r n).returned = (readDir .wtdir false r.close r.reads n).returned := rfl
  refine dir_law hl hr (List.forall_mem_nil _) fun n => ?_
  by_cases h : r.dirOpen < 0 <;> simp [Run.acts, xmlLogfile, act, List.filterMap_cons, h]

theorem xmlHaccp_law {r : DirResults} (i : Idle l) :
    (∀ n, Disciplined l (xmlHaccp r n)) ↔ r.Served := by
  have hl : .tmpdir ∉ l := i.not_mem nofun
  have hr n : (xmlHaccp r n).returned = (readDir .tmpdir false r.close r.reads n).returned := rfl
  refine dir_law hl hr (List.forall_mem_nil _) fun n => ?_
  by_cases h : r.dirOpen < 0 <;> simp [Run.acts, xmlHaccp, act, h]

theorem fsOpenCustom_disciplined {r : OpenResults} {name : Bytes} :
    Disciplined l ⟨fsOpenCustom r name, true⟩ := by
  by_cases h : r.opencfg < 0
  case pos =>
    have ha : Run.acts ⟨fsOpenCustom r name, true⟩ = [] := by
      simp [Run.acts, fsOpenCustom, act, h]
    refine .of_proper ?_ fun _ => ?_ <;> rw [ha]
    · trivial
    · rfl
  case neg =>
    refine Bracket.disciplined (h := .httpFile) ⟨[], nofun, ?_⟩
    simp [Run.acts, fsOpenCustom, act, List.filterMap_cons, h]

-- Apart from the pages that list a directory, `fs_open` closes what it opens.
theorem fsOpen_law {r : OpenResults} {name : Bytes} (i : Idle l) :
    (∀ n, Disciplined l (fsOpen r name n)) ↔ (Func.fsOpen r name).Served := by
  by_cases h₁ : name = ascii "/disk0.xml"
  case pos =>
    simp only [fsOpen, if_pos h₁, xmlDisk_law i]
    exact ⟨fun h _ => h, fun h => h <| .inl h₁⟩
  case neg =>
    by_cases h₂ : name = ascii "/logfile.xml"
    case pos =>
      simp only [fsOpen, if_neg h₁, if_pos h₂, xmlLogfile_law i]
      exact ⟨fun h _ => h, fun h => h <| .inr <| .inl h₂⟩
    case neg =>
      by_cases h₃ : name = ascii "/haccp.xml"
      case pos =>
        simp only [fsOpen, if_neg h₁, if_neg h₂, if_pos h₃, xmlHaccp_law i]
        exact ⟨fun h _ => h, fun h => h <| .inr <| .inr h₃⟩
      case neg =>
        simp only [fsOpen, if_neg h₁, if_neg h₂, if_neg h₃]
        refine ⟨fun _ h => by simp [h₁, h₂, h₃] at h, fun _ _ => ?_⟩
        split
        case isTrue  => exact .nil
        case isFalse => exact fsOpenCustom_disciplined

-- A function keeps to the discipline, whatever littlefs answers, if and only if the opens that it
-- relies on succeed and no reading of a directory fails.
theorem handle_law {f : Func} (i : Idle l) : (∀ n, Disciplined l (f.run n)) ↔ f.Served := by
  cases f with
  | lfsCreate r fname ibuf          => exact forall_const _ |>.trans <| lfsCreate_law i
  | lfsAppend r fname ibuf          => exact forall_const _ |>.trans <| lfsAppend_law i
  | lfsRead r fname startpos length => exact forall_const _ |>.trans <| lfsRead_law i
  | fsOpen r name                   => exact fsOpen_law i
  | xmlDisk r                       => exact xmlDisk_law i
  | xmlLogfile r                    => exact xmlLogfile_law i
  | xmlHaccp r                      => exact xmlHaccp_law i

-- The directory is listed after its second entry could not be read.
def unread : DirResults where
  fsSize  := 12
  dirOpen := 0
  rewind  := 0
  reads n := ⟨if n = 0 then 1 else -84, false, ascii ".", 0⟩
  close   := 0

theorem handle_law_unread : ¬∀ n, Disciplined [] ((Func.xmlDisk unread).run n) := by
  intro d
  have ⟨_, e⟩ := (handle_law .nil).mp d
  exact absurd (e 1 (by decide)) (by decide)

-- `XMLDisk` returns while the directory on its stack is in the list of littlefs.
theorem left_open :
    ¬∀ (f : Func) l, Idle l → ∀ n, Disciplined l (f.run n) := by
  intro h
  have := h (.xmlDisk unread) [] .nil 2
  exact absurd (this.same rfl) (by decide)

end Lfs
