import Mathlib

-- A deterministic machine. A step that has no defined outcome is `none`, and every other step
-- emits the observations a specification may talk about.
structure Machine (σ ε ω : Type*) where
  step : σ → ε → Option (σ × List ω)

namespace Machine

variable {M : Machine σ ε ω} {ok : σ → ε → Prop}

def run (M : Machine σ ε ω) (s : σ) : List ε → Option (σ × List ω)
  | []      => some (s, [])
  | e :: es => do
    let (s₁, o₁) ← M.step s e
    let (s₂, o₂) ← M.run s₁ es
    some (s₂, o₁ ++ o₂)

-- Every step that the run takes meets the condition `ok` in the state that it starts from.
def Guarded (M : Machine σ ε ω) (ok : σ → ε → Prop) : σ → List ε → Prop
  | _, []      => True
  | s, e :: es => ok s e ∧ match M.step s e with
    | none         => True
    | some (s₁, _) => M.Guarded ok s₁ es

def decGuarded (M : Machine σ ε ω) (ok : σ → ε → Prop) [∀ s e, Decidable (ok s e)] :
    (s : σ) → (es : List ε) → Decidable (M.Guarded ok s es)
  | _, []      => isTrue trivial
  | s, e :: es =>
    have : Decidable (match M.step s e with
        | none         => True
        | some (s₁, _) => M.Guarded ok s₁ es) :=
      match M.step s e with
      | none         => isTrue trivial
      | some (s₁, _) => M.decGuarded ok s₁ es
    inferInstanceAs <| Decidable (_ ∧ _)

instance [∀ s e, Decidable (ok s e)] : Decidable (M.Guarded ok s es) :=
  M.decGuarded ok s es

theorem run_cons_of_step (h : M.step s e = some (s₁, o)) :
    M.run s (e :: es) = (M.run s₁ es).map fun (s₂, o₂) => (s₂, o ++ o₂) := by
  cases hr : M.run s₁ es <;> simp [run, h, hr]

theorem run_cons (h : M.run s (e :: es) = some (s₂, o)) :
    ∃ s₁ o₁ o₂, M.step s e = some (s₁, o₁) ∧ M.run s₁ es = some (s₂, o₂) ∧ o = o₁ ++ o₂ := by
  simp only [run, Option.bind_eq_bind, Option.bind_eq_some_iff] at h
  have ⟨⟨s₁, o₁⟩, hs, ⟨_, o₂⟩, hr, he⟩ := h
  simp only [Option.some.injEq, Prod.mk.injEq] at he
  exact ⟨s₁, o₁, o₂, hs, he.1 ▸ hr, he.2.symm⟩

theorem run_append : M.run s (es₁ ++ es₂) =
    (M.run s es₁).bind fun (s₁, o₁) => (M.run s₁ es₂).map fun (s₂, o₂) => (s₂, o₁ ++ o₂) := by
  induction es₁ generalizing s with
  | nil => simp [run]
  | cons e es₁ ih =>
    cases hs : M.step s e with
    | none => simp [run, hs]
    | some r =>
      rw [List.cons_append, run_cons_of_step hs, run_cons_of_step hs, ih]
      cases M.run r.1 es₁ <;> simp [Option.map_map, Function.comp_def]

theorem run_singleton : M.run s [e] = M.step s e := by
  cases h : M.step s e <;> simp [run, h]

theorem Guarded.head (g : M.Guarded ok s (e :: es)) : ok s e :=
  g.1

theorem Guarded.tail (g : M.Guarded ok s (e :: es)) (h : M.step s e = some (s₁, o)) :
    M.Guarded ok s₁ es := by
  simpa [Guarded, h] using g.2

theorem Guarded.trivial : M.Guarded (fun _ _ => True) s es := by
  induction es generalizing s with
  | nil => exact True.intro
  | cons e es ih =>
    refine ⟨True.intro, ?_⟩
    split
    case h_1 => exact True.intro
    case h_2 => exact ih

theorem Guarded.mono {ok₁ ok₂ : σ → ε → Prop} (h : ∀ s e, ok₁ s e → ok₂ s e) :
    M.Guarded ok₁ s es → M.Guarded ok₂ s es := by
  induction es generalizing s with
  | nil => simp [Guarded]
  | cons e es ih =>
    intro g
    refine ⟨h _ _ g.head, ?_⟩
    cases hs : M.step s e with
    | none => trivial
    | some r => exact ih <| g.tail hs

theorem Guarded.mem (g : M.Guarded ok s es) : M.Guarded (fun s e => e ∈ es ∧ ok s e) s es := by
  suffices h : ∀ {es₁}, es ⊆ es₁ → M.Guarded (fun s e => e ∈ es₁ ∧ ok s e) s es from
    h <| List.Subset.refl _
  intro es₁ hs
  induction es generalizing s with
  | nil => trivial
  | cons e es ih =>
    have ⟨he, hs⟩ := List.cons_subset.mp hs
    refine ⟨⟨he, g.head⟩, ?_⟩
    cases hs₁ : M.step s e with
    | none => trivial
    | some r => exact ih (g.tail hs₁) hs

theorem Guarded.of_forall {ok : ε → Prop} (h : ∀ e ∈ es, ok e) : M.Guarded (fun _ => ok) s es := by
  induction es generalizing s with
  | nil => trivial
  | cons e es ih =>
    have ⟨he, hs⟩ := List.forall_mem_cons.mp h
    refine ⟨he, ?_⟩
    cases M.step s e with
    | none => trivial
    | some r => exact ih hs

theorem Guarded.forall {ok : ε → Prop} (g : M.Guarded (fun _ => ok) s es)
    (h : M.run s es = some (s₁, o)) : ∀ e ∈ es, ok e := by
  induction es generalizing s o with
  | nil => simp
  | cons e es ih =>
    have ⟨_, _, _, hs, hr, _⟩ := run_cons h
    exact List.forall_mem_cons.mpr ⟨g.head, ih (g.tail hs) hr⟩

-- A condition is met by a run exactly if it is met after each prefix of it.
theorem guarded_iff : M.Guarded ok s es ↔
    ∀ es₁ e es₂ s₁ o, es = es₁ ++ e :: es₂ → M.run s es₁ = some (s₁, o) → ok s₁ e := by
  induction es generalizing s with
  | nil => simp [Guarded]
  | cons e es ih =>
    constructor
    case mp =>
      intro g es₁ e₁ es₂ s₁ o he hr
      cases es₁ with
      | nil =>
        cases he
        cases hr
        exact g.head
      | cons e₂ es₁ =>
        have ⟨he₂, he⟩ := List.cons.inj he
        have ⟨s₂, _, _, hs, hr, _⟩ := run_cons hr
        exact ih.mp (g.tail <| he₂ ▸ hs) _ _ _ _ _ he hr
    case mpr =>
      intro h
      refine ⟨h [] e es s [] rfl rfl, ?_⟩
      cases hs : M.step s e with
      | none => trivial
      | some r =>
        refine ih.mpr fun es₁ e₁ es₂ s₁ o he hr => ?_
        refine h (e :: es₁) e₁ es₂ s₁ (r.2 ++ o) (by simp [he]) ?_
        simp [run_cons_of_step hs, hr]

theorem Guarded.append (g : M.Guarded ok s (es₁ ++ es₂)) (h : M.run s es₁ = some (s₁, o)) :
    M.Guarded ok s es₁ ∧ M.Guarded ok s₁ es₂ := by
  induction es₁ generalizing s o with
  | nil =>
    cases h
    exact ⟨True.intro, g⟩
  | cons e es₁ ih =>
    have ⟨s₂, _, _, hs, hr, _⟩ := run_cons h
    have ⟨g₁, g₂⟩ := ih (g.tail hs) hr
    exact ⟨⟨g.head, by simpa [hs] using g₁⟩, g₂⟩

theorem run_split (h : M.run s (es₁ ++ e :: es₂) = some (s₁, o)) :
    ∃ s₂ s₃ o₁ o₂ o₃, M.run s es₁ = some (s₂, o₁) ∧ M.step s₂ e = some (s₃, o₂) ∧
      M.run s₃ es₂ = some (s₁, o₃) := by
  rw [run_append, Option.bind_eq_some_iff] at h
  have ⟨⟨s₂, o₁⟩, h₁, h⟩ := h
  have ⟨⟨_, o₄⟩, h, he⟩ := Option.map_eq_some_iff.mp h
  have ⟨s₃, o₂, o₃, h₂, h₃, _⟩ := run_cons h
  cases he
  exact ⟨s₂, s₃, o₁, o₂, o₃, h₁, h₂, h₃⟩

-- A relation between the observations so far and the state that every guarded step keeps holds
-- at the end of every guarded run.
theorem run_history {I : List ω → σ → Prop}
    (h : ∀ {t s e s₁ o}, I t s → ok s e → M.step s e = some (s₁, o) → I (t ++ o) s₁)
    (hi : I t s) (g : M.Guarded ok s es) (hr : M.run s es = some (s₁, o)) : I (t ++ o) s₁ := by
  induction es generalizing t s o with
  | nil =>
    simp only [run, Option.some.injEq, Prod.mk.injEq] at hr
    simpa [← hr.1, ← hr.2] using hi
  | cons e es ih =>
    have ⟨s₂, o₁, o₂, hs, hr, ho⟩ := run_cons hr
    have := ih (h hi g.head hs) (g.tail hs) hr
    simpa [ho] using this

-- If the invariant also keeps guarded steps defined, then guarded runs are defined.
theorem run_total {I : List ω → σ → Prop}
    (h : ∀ {t s e}, I t s → ok s e → ∃ s₁ o, M.step s e = some (s₁, o) ∧ I (t ++ o) s₁)
    (hi : I t s) (g : M.Guarded ok s es) :
    ∃ s₁ o, M.run s es = some (s₁, o) ∧ I (t ++ o) s₁ := by
  induction es generalizing t s with
  | nil => exact ⟨s, [], rfl, by simpa using hi⟩
  | cons e es ih =>
    have ⟨s₁, o₁, hs, hi₁⟩ := h hi g.head
    have ⟨s₂, o₂, hr, hi₂⟩ := ih hi₁ (g.tail hs)
    exact ⟨s₂, o₁ ++ o₂, by simp [run_cons_of_step hs, hr], by simpa using hi₂⟩

theorem run_exists (h : ∀ s e, ∃ s₁ o, M.step s e = some (s₁, o)) :
    ∃ s₁ t, M.run s es = some (s₁, t) :=
  have ⟨s₁, t, hr, _⟩ := run_total (I := fun _ _ => True) (t := [])
    (fun {_ s e} _ _ => have ⟨s₁, o, hs⟩ := h s e; ⟨s₁, o, hs, trivial⟩) trivial Guarded.trivial
  ⟨s₁, t, hr⟩

-- If what guarded steps emit depends on their events alone, then so does what guarded runs emit.
theorem run_answers {I : σ → Prop} {f : ε → List ω}
    (h : ∀ {s e}, I s → ok s e → ∃ s₁, M.step s e = some (s₁, f e) ∧ I s₁)
    (hi : I s) (g : M.Guarded ok s es) : ∃ s₁, M.run s es = some (s₁, es.flatMap f) := by
  induction es generalizing s with
  | nil => exact ⟨s, rfl⟩
  | cons e es ih =>
    have ⟨s₁, hs, hi₁⟩ := h hi g.head
    have ⟨s₂, hr⟩ := ih hi₁ <| g.tail hs
    exact ⟨s₂, by simp [run_cons_of_step hs, hr]⟩

theorem run_invariant {I : σ → Prop}
    (h : ∀ {s e s₁ o}, I s → ok s e → M.step s e = some (s₁, o) → I s₁)
    (hi : I s) (g : M.Guarded ok s es) (hr : M.run s es = some (s₁, o)) : I s₁ :=
  run_history (I := fun _ => I) (t := []) h hi g hr

-- If what a step emits has a property exactly under the condition `ok`, then the same goes for a run.
theorem run_emits_iff {P : ω → Prop}
    (h : ∀ {s e s₁ o}, e ∈ es → M.step s e = some (s₁, o) → ((∀ w ∈ o, P w) ↔ ok s e))
    (hr : M.run s es = some (s₁, t)) : (∀ w ∈ t, P w) ↔ M.Guarded ok s es := by
  induction es generalizing s t with
  | nil =>
    cases hr
    simp [Guarded]
  | cons e es ih =>
    have ⟨s₂, o₁, o₂, hs, hr, ho⟩ := run_cons hr
    have ih := ih (fun he => h <| List.mem_cons_of_mem _ he) hr
    simp only [Guarded, hs, ho, List.forall_mem_append, h List.mem_cons_self hs, ih]

-- The same where the condition has to keep an invariant that the equivalence rests on.
theorem run_emits_iff_of_invariant {P : ω → Prop} {I : σ → Prop}
    (h : ∀ {s e s₁ o}, I s → M.step s e = some (s₁, o) →
      ((∀ w ∈ o, P w) ↔ ok s e) ∧ (ok s e → I s₁))
    (hi : I s) (hr : M.run s es = some (s₁, t)) : (∀ w ∈ t, P w) ↔ M.Guarded ok s es := by
  induction es generalizing s t with
  | nil =>
    cases hr
    simp [Guarded]
  | cons e es ih =>
    have ⟨s₂, o₁, o₂, hs, hr, ho⟩ := run_cons hr
    have ⟨he, hi₁⟩ := h hi hs
    simp only [Guarded, hs, ho, List.forall_mem_append, he]
    exact and_congr_right fun hk => ih (hi₁ hk) hr

-- If a step leads from a good state to a good one exactly under the condition `ok`, then all states of a
-- run are good exactly if the first one is and the run meets the condition.
theorem run_good_iff {good : σ → Prop}
    (h : ∀ {s e s₁ o}, good s → M.step s e = some (s₁, o) → (good s₁ ↔ ok s e))
    (hr : M.run s es = some (s₁, t)) :
    M.Guarded (fun s _ => good s) s es ∧ good s₁ ↔ good s ∧ M.Guarded ok s es := by
  induction es generalizing s t with
  | nil =>
    cases hr
    simp [Guarded]
  | cons e es ih =>
    have ⟨s₂, _, _, hs, hr, _⟩ := run_cons hr
    simp only [Guarded, hs, and_assoc, ih hr]
    constructor
    case mp => exact fun ⟨hg, h₂, g⟩ => ⟨hg, h hg hs |>.mp h₂, g⟩
    case mpr => exact fun ⟨hg, he, g⟩ => ⟨hg, h hg hs |>.mpr he, g⟩

-- If only good states lead to good ones, then a run to a good state goes through good ones.
theorem run_good_last {good : σ → Prop}
    (h : ∀ {s e s₁ o}, M.step s e = some (s₁, o) → good s₁ → good s)
    (hr : M.run s es = some (s₁, t)) (hg : good s₁) : M.Guarded (fun s _ => good s) s es ∧ good s := by
  induction es generalizing s t with
  | nil =>
    cases hr
    exact ⟨trivial, hg⟩
  | cons e es ih =>
    have ⟨s₂, _, _, hs, hr, _⟩ := run_cons hr
    have ⟨g, h₂⟩ := ih hr
    have hg := h hs h₂
    exact ⟨⟨hg, by simpa [hs] using g⟩, hg⟩

-- Forward simulation: if guarded steps of `A` are matched by `C` with the same observations, then
-- so are guarded runs.
theorem run_simulation {A : Machine τ ε ω} {C : Machine σ ε ω} {ok : τ → ε → Prop}
    {R : τ → σ → Prop}
    (h : ∀ {a c e a₁ o}, R a c → ok a e → A.step a e = some (a₁, o) →
      ∃ c₁, C.step c e = some (c₁, o) ∧ R a₁ c₁)
    (hr : R a c) (g : A.Guarded ok a es) (ha : A.run a es = some (a₁, o)) :
    ∃ c₁, C.run c es = some (c₁, o) ∧ R a₁ c₁ := by
  induction es generalizing a c o with
  | nil =>
    simp only [run, Option.some.injEq, Prod.mk.injEq] at ha
    exact ⟨c, by simp [run, ← ha.2], ha.1 ▸ hr⟩
  | cons e es ih =>
    have ⟨a₂, o₁, o₂, hs, ha, ho⟩ := run_cons ha
    have ⟨c₂, hc, hr₂⟩ := h hr g.head hs
    have ⟨c₁, hc₁, hr₁⟩ := ih hr₂ (g.tail hs) ha
    exact ⟨c₁, by simp [run_cons_of_step hc, hc₁, ho], hr₁⟩

end Machine
