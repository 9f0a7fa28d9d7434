import Webtermo.Execution.Pages.Files

open Handles (after)

namespace Pages

variable {ans : Answers} {d : DirAnswers} {page : Page} {name : Bytes} {fs fs₁ : Files} {l : List Lfs.Handle}
  {dir : Lfs.Handle}

-- The loop over the entries ends behind the last one, with the directory closed or still open.
theorem readDir_reads {stamps : Bool} (m : Listing) (h : m.entries.length < n) :
    (Lfs.readDir dir stamps 0 m.reads n).returned ∧
      after l (Lfs.readDir dir stamps 0 m.reads n).acts = if m.res < 0 then l else l.erase dir := by
  obtain ⟨entries, res, last⟩ := m
  induction entries generalizing n with
  | nil =>
    obtain ⟨n, rfl⟩ := Nat.exists_eq_succ_of_ne_zero (Nat.ne_of_gt h)
    have hr : (Listing.reads ⟨[], res, last⟩ 0).res = res := rfl
    rw [Lfs.readDir, hr]
    by_cases h₀ : res < 0
    case pos => simp [h₀, Lfs.Run.acts, Lfs.act, after]
    case neg =>
      have h₁ : res = 0 := by omega
      simp [h₁, Lfs.Run.acts, Lfs.act, after]
  | cons e entries ih =>
    obtain ⟨n, rfl⟩ := Nat.exists_eq_succ_of_ne_zero (Nat.ne_of_gt (Nat.zero_lt_of_lt h))
    have ih := ih (Nat.lt_of_succ_lt_succ h)
    have hs : (fun k => Listing.reads ⟨e :: entries, res, last⟩ (k + 1)) = Listing.reads ⟨entries, res, last⟩ := rfl
    have hr : Listing.reads ⟨e :: entries, res, last⟩ 0 = ⟨1, e.reg, e.name, 0⟩ := rfl
    rw [Lfs.readDir, hs, hr, if_neg (Int.not_lt.mpr Int.one_nonneg), if_neg Int.one_ne_zero]
    refine ⟨ih.1, ?_⟩
    rw [← ih.2]
    split <;> simp [Lfs.Run.acts, Lfs.act, List.filterMap_cons, after]

theorem fsOpen_run {r : Lfs.OpenResults} (h : table.lookup name = some page) :
    Lfs.fsOpen r name n = page.run r.toDirResults n := by
  have hm : (name, page) ∈ table := by
    obtain ⟨l₁, l₂, hl, -⟩ := List.lookup_eq_some_iff.mp h
    exact hl ▸ List.mem_append_right _ List.mem_cons_self
  have hp : ∀ x ∈ table, (x.1 = ascii "/disk0.xml" ↔ x.2 = .disk0) ∧
      (x.1 = ascii "/logfile.xml" ↔ x.2 = .logfile) ∧ (x.1 = ascii "/haccp.xml" ↔ x.2 = .haccp) ∧
      (x.2.dir = none → Lfs.generated.any (x.1 = ascii ·)) := by
    decide +kernel
  obtain ⟨h₁, h₂, h₃, h₄⟩ := hp _ hm
  simp only at h₁ h₂ h₃ h₄
  simp only [Lfs.fsOpen, h₁, h₂, h₃]
  cases page <;> simp_all [Page.run, Page.dir]

theorem Page.run_acts {r : Lfs.DirResults} (h : page.dir = some dir) :
    ∃ stamps uses, (∀ x ∈ uses, x = .use dir) ∧
      (page.run r n).returned = (Lfs.readDir dir stamps r.close r.reads n).returned ∧
      (page.run r n).acts = (if r.dirOpen < 0 then [] else [.acquire dir]) ++ uses ++
        (Lfs.readDir dir stamps r.close r.reads n).acts := by
  cases page <;> cases h
  case disk0 =>
    refine ⟨true, [.use .wtdir], fun _ => List.mem_singleton.mp, rfl, ?_⟩
    by_cases h : r.dirOpen < 0 <;> simp [Page.run, Lfs.Run.acts, Lfs.xmlDisk, Lfs.act, List.filterMap_cons, h]
  case logfile =>
    refine ⟨false, [], List.forall_mem_nil _, rfl, ?_⟩
    by_cases h : r.dirOpen < 0 <;> simp [Page.run, Lfs.Run.acts, Lfs.xmlLogfile, Lfs.act, List.filterMap_cons, h]
  case haccp =>
    refine ⟨false, [], List.forall_mem_nil _, rfl, ?_⟩
    by_cases h : r.dirOpen < 0 <;> simp [Page.run, Lfs.Run.acts, Lfs.xmlHaccp, Lfs.act, h]

theorem foldl_call_mlist {l : List (I2c.Env × I2c.Call)} : (l.foldl Files.call fs).mlist = fs.mlist := by
  induction l generalizing fs with
  | nil => rfl
  | cons x l ih => exact ih

theorem Page.assign_mlist : (page.assign fs ans d).mlist = fs.mlist := by
  cases page with
  | code => exact foldl_call_mlist
  | _ => rfl

-- The list of what is open is the one that the calls of littlefs leave.
theorem list_calls {r : Lfs.OpenResults} (hp : table.lookup name = some page)
    (hr : r.toDirResults = ans.results d) (h : page.list fs ans d = some fs₁)
    (hn : ans.listing.entries.length < n) :
    (Lfs.fsOpen r name n).returned ∧ after fs.mlist (Lfs.fsOpen r name n).acts = fs₁.mlist := by
  rw [fsOpen_run hp, hr]
  cases hd : page.dir with
  | none =>
    simp only [Page.list, hd] at h
    cases h
    rw [Page.assign_mlist]
    cases page <;> cases hd <;> exact ⟨rfl, rfl⟩
  | some dir =>
    simp only [Page.list, hd] at h
    split at h
    case isTrue => cases h
    case isFalse =>
      obtain ⟨stamps, uses, hu, hret, ha⟩ := Page.run_acts (r := ans.results d) (n := n) hd
      obtain rfl := Option.some.inj h
      rw [hret, ha]
      by_cases ho : d.dirOpen < 0
      case pos =>
        have ho₁ : (ans.results d).dirOpen < 0 := ho
        rw [if_pos ho₁, List.nil_append, Handles.after_append, Handles.after_uses hu, if_pos ho]
        exact readDir_reads ans.listing hn
      case neg =>
        have ho₁ : ¬(ans.results d).dirOpen < 0 := ho
        rw [if_neg ho₁, Handles.after_append, Handles.after_append, Handles.after_uses hu, if_neg ho]
        exact readDir_reads ans.listing hn

end Pages
