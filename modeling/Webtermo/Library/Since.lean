import Webtermo.Library.Trace

-- A condition that has held since an event, with a count of what happened after the event:
-- `starts x` says that `x` is such an event, `holds x` that the condition holds at `x`, and
-- `counts x` that `x` is one of the observations to count.
structure Watch (ω : Type*) where
  starts : ω → Prop
  holds  : ω → Prop
  counts : ω → Bool

namespace Watch

variable {W : Watch ω} {t : List ω}

-- The trace has an event `x`, the condition has held from it on, and `n` observations after it count.
def Since (W : Watch ω) (t : List ω) (n : Nat) (x : ω) : Prop :=
  ∃ t₁ t₂, t = t₁ ++ x :: t₂ ∧ W.starts x ∧ (∀ y ∈ x :: t₂, W.holds y) ∧ t₂.countP W.counts = n

theorem not_since_nil : ¬W.Since [] n x := by
  simp [Since]

theorem Since.holds_last (h : W.Since (t ++ [y]) n x) : W.holds y := by
  have ⟨t₁, t₂, ht, _, hh, _⟩ := h
  cases concat_eq_append_cons ht
  case inl he => exact he.2.1 ▸ hh x (by simp)
  case inr he =>
    have ⟨_, ht₂, _⟩ := he
    exact hh y (by simp [ht₂])

theorem Since.new (hs : W.starts y) (hh : W.holds y) : W.Since (t ++ [y]) 0 y :=
  ⟨t, [], rfl, hs, by simpa using hh, rfl⟩

theorem Since.concat (h : W.Since t n x) (hh : W.holds y) :
    W.Since (t ++ [y]) (n + if W.counts y then 1 else 0) x := by
  have ⟨t₁, t₂, ht, hs, hx, hn⟩ := h
  refine ⟨t₁, t₂ ++ [y], by simp [ht], hs, ?_, by simp [← hn, List.countP_append]⟩
  intro z hz
  have hz : z ∈ x :: t₂ ∨ z = y := by simpa [or_assoc] using hz
  exact hz.elim (hx z) (· ▸ hh)

-- What one further observation does to the events that are still watched.
theorem Since.cases (h : W.Since (t ++ [y]) n x) :
    (W.starts y ∧ n = 0 ∧ x = y) ∨
    ∃ m, W.Since t m x ∧ n = m + if W.counts y then 1 else 0 := by
  have ⟨t₁, t₂, ht, hs, hh, hn⟩ := h
  cases concat_eq_append_cons ht
  case inl he =>
    have ⟨_, hx, h₂⟩ := he
    exact .inl ⟨hx ▸ hs, by simp [← hn, h₂], hx.symm⟩
  case inr he =>
    have ⟨t₃, ht₂, ht⟩ := he
    refine .inr ⟨t₃.countP W.counts, ⟨t₁, t₃, ht, hs, fun z hz => hh z ?_, rfl⟩, ?_⟩
    · exact List.mem_cons.mpr <| (List.mem_cons.mp hz).imp_right fun h => by simp [ht₂, h]
    · simp [← hn, ht₂, List.countP_append]

end Watch
