import Mathlib

-- Programs that acquire, use and release handles, and the list of the handles that they have open
namespace Handles

inductive Act (η : Type*)
  | acquire (h : η)
  | use (h : η)
  | release (h : η)
  deriving DecidableEq

variable {η : Type*} [DecidableEq η] {l : List η} {a b : List (Act η)} {h : η}

def after : List η → List (Act η) → List η
  | l, []              => l
  | l, .acquire h :: a => after (h :: l) a
  | l, .use _ :: a     => after l a
  | l, .release h :: a => after (l.erase h) a

-- Only handles that are open are used and released.
def Proper : List η → List (Act η) → Prop
  | _, []              => True
  | l, .acquire h :: a => Proper (h :: l) a
  | l, .use h :: a     => h ∈ l ∧ Proper l a
  | l, .release h :: a => h ∈ l ∧ Proper (l.erase h) a

instance decProper : (l : List η) → (a : List (Act η)) → Decidable (Proper l a)
  | _, []              => isTrue trivial
  | l, .acquire h :: a => decProper (h :: l) a
  | l, .use _ :: a     => have := decProper l a; inferInstanceAs <| Decidable (_ ∧ _)
  | l, .release h :: a => have := decProper (l.erase h) a; inferInstanceAs <| Decidable (_ ∧ _)

theorem after_append : after l (a ++ b) = after (after l a) b := by
  induction a generalizing l with
  | nil => rfl
  | cons x a ih => cases x <;> exact ih

theorem proper_append : Proper l (a ++ b) ↔ Proper l a ∧ Proper (after l a) b := by
  induction a generalizing l with
  | nil => simp [Proper, after]
  | cons x a ih => cases x <;> simp [Proper, after, ih, and_assoc]

-- A handle that is open before is used, and nothing else happens.
theorem after_uses (ha : ∀ x ∈ a, x = .use h) : after l a = l := by
  induction a with
  | nil => rfl
  | cons x a ih =>
    have ⟨hx, ha⟩ := List.forall_mem_cons.mp ha
    exact hx ▸ ih ha

theorem proper_uses (ha : ∀ x ∈ a, x = .use h) (hl : h ∈ l) : Proper l a := by
  induction a with
  | nil => trivial
  | cons x a ih =>
    have ⟨hx, ha⟩ := List.forall_mem_cons.mp ha
    exact hx ▸ ⟨hl, ih ha⟩

theorem count_erase_add (hg : g ∈ l) :
    (l.erase g).count h + (if g = h then 1 else 0) = l.count h := by
  rw [List.count_erase]
  cases decEq g h with
  | isTrue he =>
    have := List.count_pos_iff.mpr hg
    subst he
    simp only [BEq.rfl, if_true]
    omega
  | isFalse hn => simp [hn]

-- How often a handle is open grows with each acquisition and falls with each release.
theorem count_after (p : Proper l a) :
    (after l a).count h + a.count (.release h) = l.count h + a.count (.acquire h) := by
  induction a generalizing l with
  | nil => rfl
  | cons x a ih =>
    cases x with
    | acquire g =>
      have := ih (l := g :: l) p
      simp only [after, List.count_cons, beq_iff_eq, Act.acquire.injEq, reduceCtorEq, if_false] at *
      omega
    | use g =>
      have := ih p.2
      simp only [after, List.count_cons, beq_iff_eq, reduceCtorEq, if_false] at *
      omega
    | release g =>
      have := ih p.2
      have := count_erase_add (h := h) p.1
      simp only [after, List.count_cons, beq_iff_eq, Act.release.injEq, reduceCtorEq, if_false] at *
      omega

-- If the list of open handles is the same in the end, then all that has been acquired has been
-- released just as often.
theorem count_release (p : Proper l a) (he : after l a = l) :
    a.count (.release h) = a.count (.acquire h) := by
  have := he ▸ count_after (h := h) p
  omega

end Handles
