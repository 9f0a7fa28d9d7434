import Mathlib

-- The stretch at the end of a trace in which a condition has held

variable {p q : ω → Bool} {time : ω → Nat} {t : List ω} {x : ω}

-- When the condition began to hold that has held ever since.
def onset (p : ω → Bool) (time : ω → Nat) (t : List ω) : Option Nat :=
  (t.rtakeWhile p).head?.map time

-- How many of the observations since then count.
def since (p q : ω → Bool) (t : List ω) : Nat :=
  (t.rtakeWhile p).countP q

@[simp] theorem onset_nil : onset p time [] = none := by
  simp [onset]

@[simp] theorem since_nil : since p q [] = 0 := by
  simp [since]

theorem onset_concat_pos (h : p x) :
    onset p time (t ++ [x]) = some ((onset p time t).getD (time x)) := by
  simp only [onset, List.rtakeWhile_concat_pos p t x h]
  cases t.rtakeWhile p <;> rfl

theorem onset_concat_neg (h : ¬p x) : onset p time (t ++ [x]) = none := by
  simp [onset, List.rtakeWhile_concat_neg p t x h]

theorem onset_concat (h : onset p time (t ++ [x]) = some a) :
    p x ∧ a = (onset p time t).getD (time x) := by
  by_cases hp : p x
  case pos => exact ⟨hp, by simpa [onset_concat_pos hp, eq_comm] using h⟩
  case neg => simp [onset_concat_neg hp] at h

theorem since_concat_pos (h : p x) :
    since p q (t ++ [x]) = since p q t + if q x then 1 else 0 := by
  simp [since, List.rtakeWhile_concat_pos p t x h, List.countP_append]

theorem since_concat_neg (h : ¬p x) : since p q (t ++ [x]) = 0 := by
  simp [since, List.rtakeWhile_concat_neg p t x h]

theorem since_of_onset (h : onset p time t = none) : since p q t = 0 := by
  have : t.rtakeWhile p = [] := by simpa [onset] using h
  simp [since, this]
