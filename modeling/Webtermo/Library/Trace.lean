import Mathlib

-- Traces of observations that grow at their end

-- An observation of a trace that is one longer is the last one or lies in the rest.
theorem concat_eq_append_cons {t t₁ t₂ : List ω} (h : t ++ [x] = t₁ ++ y :: t₂) :
    (t = t₁ ∧ x = y ∧ t₂ = []) ∨ ∃ t₃, t₂ = t₃ ++ [x] ∧ t = t₁ ++ y :: t₃ := by
  cases t₂ using List.reverseRecOn with
  | nil =>
    have ⟨ht, he⟩ := List.append_inj' h rfl
    exact .inl ⟨ht, by simpa using he, rfl⟩
  | append_singleton t₃ z =>
    have h : t ++ [x] = (t₁ ++ y :: t₃) ++ [z] := by simpa using h
    have ⟨ht, he⟩ := List.append_inj' h rfl
    exact .inr ⟨t₃, by simpa using he.symm, ht⟩

-- Every observation is as its past demands.
def Always (P : List ω → ω → Prop) (t : List ω) : Prop :=
  ∀ t₁ x t₂, t = t₁ ++ x :: t₂ → P t₁ x

namespace Always

variable {P : List ω → ω → Prop}

theorem nil : Always P [] := by
  simp [Always]

theorem concat (a : Always P t) (h : P t x) : Always P (t ++ [x]) := by
  intro t₁ y t₂ ht
  cases concat_eq_append_cons ht
  case inl he => exact he.1 ▸ he.2.1 ▸ h
  case inr he =>
    have ⟨t₃, _, ht⟩ := he
    exact a t₁ y t₃ ht

theorem concat_iff : Always P (t ++ [x]) ↔ Always P t ∧ P t x :=
  ⟨fun a => ⟨fun t₁ y t₂ ht => a t₁ y (t₂ ++ [x]) (by simp [ht]), a t x [] rfl⟩,
    fun ⟨a, h⟩ => a.concat h⟩

theorem append (a : Always P t) (h : ∀ o₁ x o₂, o = o₁ ++ x :: o₂ → P (t ++ o₁) x) :
    Always P (t ++ o) := by
  induction o using List.reverseRecOn with
  | nil => simpa using a
  | append_singleton o x ih =>
    rw [← List.append_assoc]
    refine (ih fun o₁ y o₂ ho => h o₁ y (o₂ ++ [x]) (by simp [ho])).concat ?_
    exact h o x [] rfl

theorem of_append (a : Always P (t ++ o)) : Always P t :=
  fun t₁ x t₂ ht => a t₁ x (t₂ ++ o) (by simp [ht])

theorem at_append (a : Always P (t ++ (o₁ ++ x :: o₂))) : P (t ++ o₁) x :=
  a (t ++ o₁) x o₂ (by simp)

theorem cons_iff : (∀ t₁ y t₂, x :: t = t₁ ++ y :: t₂ → P (past ++ t₁) y) ↔
    P past x ∧ ∀ t₁ y t₂, t = t₁ ++ y :: t₂ → P (past ++ [x] ++ t₁) y := by
  constructor
  case mp =>
    intro h
    refine ⟨by simpa using h [] x t rfl, fun t₁ y t₂ ht => ?_⟩
    simpa using h (x :: t₁) y t₂ (by simp [ht])
  case mpr =>
    intro ⟨hx, h⟩ t₁ y t₂ ht
    cases t₁ with
    | nil =>
      cases ht
      simpa using hx
    | cons z t₁ =>
      cases ht
      simpa using h t₁ y t₂ rfl

-- The past is kept in reverse, and put in order where an observation asks for it.
def decide [∀ t x, Decidable (P t x)] : (past t : List ω) →
    Decidable (∀ t₁ x t₂, t = t₁ ++ x :: t₂ → P (past.reverse ++ t₁) x)
  | _, []        => isTrue (by simp)
  | past, x :: t =>
    have := decide (x :: past) t
    decidable_of_iff (P past.reverse x ∧ _) <| by
      rw [cons_iff, ← List.reverse_cons]

instance [∀ t x, Decidable (P t x)] : Decidable (Always P t) :=
  decide [] t

end Always
