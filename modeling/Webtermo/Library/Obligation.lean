import Webtermo.Library.Trace

-- Obligations in a trace of observations: `opens x r` says that the observation `x` creates the
-- obligation `r`, `answers x r` that `x` meets it, and `closes x` that none may be left over at `x`.
structure Obligation (ω ρ : Type*) where
  opens   : ω → ρ → Prop
  answers : ω → ρ → Prop
  closes  : ω → Prop

namespace Obligation

variable {O : Obligation ω ρ} {t : List ω}

-- The obligation `r` has been opened, and neither a closing observation nor an answer followed.
def Unmet (O : Obligation ω ρ) (t : List ω) (r : ρ) : Prop :=
  ∃ t₁ x t₂, t = t₁ ++ x :: t₂ ∧ O.opens x r ∧ ∀ y ∈ t₂, ¬O.closes y ∧ ¬O.answers y r

def Met (O : Obligation ω ρ) : List ω → Prop :=
  Always fun t x => O.closes x → ∀ r, ¬O.Unmet t r

theorem not_unmet_nil : ¬O.Unmet [] r := by
  simp [Unmet]

-- What one further observation does to the unmet obligations.
theorem unmet_concat (h : O.Unmet (t ++ [x]) r) :
    O.opens x r ∨ (O.Unmet t r ∧ ¬O.closes x ∧ ¬O.answers x r) := by
  have ⟨t₁, y, t₂, ht, ho, hn⟩ := h
  cases concat_eq_append_cons ht
  case inl h => exact .inl <| h.2.1 ▸ ho
  case inr h =>
    have ⟨t₃, ht₂, ht⟩ := h
    have hx := hn x (by simp [ht₂])
    exact .inr ⟨⟨t₁, y, t₃, ht, ho, fun z hz => hn z (by simp [ht₂, hz])⟩, hx⟩

end Obligation
