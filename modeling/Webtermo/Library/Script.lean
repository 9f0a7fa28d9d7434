import Mathlib

-- Programs that are lists of calls of some component, each call with the answer that it gets
namespace Script

inductive Outcome (σ : Type*)
  -- The component never gives this answer.
  | impossible
  -- An assertion of the component fails.
  | asserts
  | done (s : σ)

variable {perform : σ → γ → Outcome σ} {G : σ → σ → Prop} {Q R : σ → Prop} {s s₁ : σ} {c : γ}
  {p p₁ p₂ : List γ}

-- A program from beginning to end
def run (perform : σ → γ → Outcome σ) : σ → List γ → Outcome σ
  | s, []     => .done s
  | s, c :: p =>
    match perform s c with
    | .done s₁    => run perform s₁ p
    | .asserts    => .asserts
    | .impossible => .impossible

theorem run_cons (h : run perform s (c :: p) = .done s₁) :
    ∃ s₂, perform s c = .done s₂ ∧ run perform s₂ p = .done s₁ := by
  rw [run] at h
  split at h
  case h_1 s₂ hs => exact ⟨s₂, hs, h⟩
  case h_2 | h_3 => cases h

theorem run_done (h : perform s c = .done s₁) : run perform s (c :: p) = run perform s₁ p := by
  rw [run, h]

-- Every call leads from one state to the next as `G` says, and the last one to a state that `Q` holds
-- of, as long as no assertion fails.
def Safe (perform : σ → γ → Outcome σ) (G : σ → σ → Prop) (Q : σ → Prop) : σ → List γ → Prop
  | s, []     => Q s
  | s, c :: p =>
    match perform s c with
    | .done s₁ => G s s₁ ∧ Safe perform G Q s₁ p
    | _        => True

namespace Safe

theorem done (h : Safe perform G Q s (c :: p)) (hs : perform s c = .done s₁) :
    G s s₁ ∧ Safe perform G Q s₁ p := by
  simpa only [Safe, hs] using h

-- A call of which the outcome is known
theorem of_done (hs : perform s c = .done s₁) (hg : G s s₁) (h : Safe perform G Q s₁ p) :
    Safe perform G Q s (c :: p) := by
  simpa only [Safe, hs] using ⟨hg, h⟩

theorem of_asserts (hs : perform s c = .asserts) : Safe perform G Q s (c :: p) := by
  simp only [Safe, hs]

theorem of_impossible (hs : perform s c = .impossible) : Safe perform G Q s (c :: p) := by
  simp only [Safe, hs]

end Safe

end Script
