import Mathlib

-- Rules for programs with a state that may return before their end: `EStateM ρ σ α` computes an `α`,
-- or has returned a `ρ` to the caller of the whole program.
namespace Early

variable {p : EStateM ρ σ α} {f : α → EStateM ρ σ β} {s : σ} {Q Q₁ : α → σ → Prop}
  {R : β → σ → Prop} {E E₁ : ρ → σ → Prop}

-- From the state `s` the program goes on as `Q` says or returns early as `E` says.
def Runs (p : EStateM ρ σ α) (s : σ) (Q : α → σ → Prop) (E : ρ → σ → Prop) : Prop :=
  match p s with
  | .ok a s₁    => Q a s₁
  | .error e s₁ => E e s₁

-- What a whole program returns, be it early or at its end
def result (p : EStateM ρ σ ρ) (s : σ) : ρ × σ :=
  match p s with
  | .ok e s₁ | .error e s₁ => (e, s₁)

theorem Runs.pure (h : Q a s) : Runs (pure a) s Q E :=
  h

theorem Runs.throw (h : E e s) : Runs (throw e) s Q E :=
  h

theorem Runs.modify {f : σ → σ} {Q : PUnit → σ → Prop} (h : Q ⟨⟩ (f s)) :
    Runs (modify f) s Q E :=
  h

theorem Runs.bind (h : Runs p s (fun a s => Runs (f a) s R E) E) : Runs (p >>= f) s R E := by
  simp only [Runs, Bind.bind, EStateM.bind] at *
  cases hp : p s <;> simpa [hp] using h

theorem Runs.get_bind {f : σ → EStateM ρ σ β} (h : Runs (f s) s R E) :
    Runs (get >>= f) s R E :=
  .bind h

theorem Runs.mono (h : Runs p s Q E) (hq : ∀ a s, Q a s → Q₁ a s) (he : ∀ e s, E e s → E₁ e s) :
    Runs p s Q₁ E₁ := by
  simp only [Runs] at *
  cases hp : p s <;> simp only [hp] at h
  case ok    => exact hq _ _ h
  case error => exact he _ _ h

-- What a part of a program establishes is what the rest of it starts from.
theorem Runs.seq (h : Runs p s Q E) (hf : ∀ a s, Q a s → Runs (f a) s R E) :
    Runs (p >>= f) s R E :=
  .bind <| h.mono hf fun _ _ he => he

theorem Runs.result {p : EStateM ρ σ ρ} {P : ρ → σ → Prop} (h : Runs p s P P) :
    P (result p s).1 (result p s).2 := by
  simp only [Runs, Early.result] at *
  cases hp : p s <;> simpa [hp] using h

end Early
