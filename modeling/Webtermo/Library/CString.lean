import Webtermo.Library.Buffer

-- The text in an array of `cap` bytes that only string functions write to. A text that does not fit
-- has no defined outcome.
structure CString (cap : Nat) where
  bytes : Bytes
  fits  : bytes.length < cap
  deriving DecidableEq

namespace CString

variable {t t₁ : CString cap} {s : Bytes}

def strcpy (s : Bytes) : Option (CString cap) :=
  if fits : s.length < cap then some ⟨s, fits⟩ else none

def strcat (t : CString cap) (s : Bytes) : Option (CString cap) :=
  strcpy (t.bytes ++ s)

def strcats (t : CString cap) (ss : List Bytes) : Option (CString cap) :=
  ss.foldlM strcat t

theorem strcpy_bytes (h : strcpy s = some t) : t.bytes = s := by
  simp only [strcpy] at h
  split at h <;> cases h
  rfl

theorem strcat_bytes (h : t.strcat s = some t₁) : t₁.bytes = t.bytes ++ s :=
  strcpy_bytes h

theorem strcats_bytes (h : t.strcats ss = some t₁) : t₁.bytes = t.bytes ++ ss.flatten := by
  induction ss generalizing t with
  | nil =>
    cases h
    simp
  | cons s ss ih =>
    simp only [strcats, List.foldlM_cons, Option.bind_eq_bind, Option.bind_eq_some_iff] at h
    have ⟨t₂, hs, h⟩ := h
    rw [ih h, strcat_bytes hs]
    simp

theorem strcats_append : t.strcats (ss ++ rs) = (t.strcats ss).bind (·.strcats rs) := by
  simp only [strcats, List.foldlM_append]
  rfl

theorem strcats_eq_some (h : t.bytes.length + ss.flatten.length < cap) :
    ∃ t₁, t.strcats ss = some t₁ := by
  induction ss generalizing t with
  | nil => exact ⟨t, rfl⟩
  | cons s ss ih =>
    rw [List.flatten_cons, List.length_append] at h
    have hs : (t.bytes ++ s).length < cap := by rw [List.length_append]; omega
    have h₁ : t.strcat s = some ⟨t.bytes ++ s, hs⟩ := dif_pos hs
    have ⟨t₁, ht⟩ := ih (t := ⟨t.bytes ++ s, hs⟩) (by rw [List.length_append]; omega)
    exact ⟨t₁, by simpa [strcats, h₁] using ht⟩

theorem strcats_eq_some_iff :
    (∃ t₁, t.strcats ss = some t₁) ↔ t.bytes.length + ss.flatten.length < cap := by
  refine ⟨fun ⟨t₁, h⟩ => ?_, strcats_eq_some⟩
  rw [← List.length_append, ← strcats_bytes h]
  exact t₁.fits

end CString
