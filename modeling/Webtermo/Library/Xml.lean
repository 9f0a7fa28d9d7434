import Webtermo.Library.Buffer

-- Documents of elements and texts, that are put together tag by tag
namespace Xml

-- A text that is no markup: without `<` and `&`
def Clean (t : Bytes) : Prop :=
  60 ∉ t ∧ 38 ∉ t

instance : Decidable (Clean t) :=
  inferInstanceAs <| Decidable (_ ∧ _)

def isNameChar (c : UInt8) : Bool :=
  48 ≤ c ∧ c ≤ 57 ∨ 65 ≤ c ∧ c ≤ 90 ∨ 97 ≤ c ∧ c ≤ 122

structure Name (t : Bytes) : Prop where
  nonempty : t ≠ []
  chars    : ∀ c ∈ t, isNameChar c

instance : Decidable (Name t) :=
  decidable_of_iff (t ≠ [] ∧ t.all isNameChar)
    ⟨fun h => ⟨h.1, List.all_eq_true.mp h.2⟩, fun h => ⟨h.1, List.all_eq_true.mpr h.2⟩⟩

def opening (tag : Bytes) : Bytes :=
  60 :: tag ++ [62]

def closing (tag : Bytes) : Bytes :=
  60 :: 47 :: tag ++ [62]

-- What stands between two tags of an element
inductive Content : Bytes → Prop
  | nil : Content []
  | text : Clean t → Content l → Content (t ++ l)
  | element : Name tag → Content nested → Content l →
    Content (opening tag ++ nested ++ closing tag ++ l)

def Element (l : Bytes) : Prop :=
  ∃ tag nested, Name tag ∧ Content nested ∧ l = opening tag ++ nested ++ closing tag

theorem Content.append (h : Content a) (hb : Content b) : Content (a ++ b) := by
  induction h with
  | nil => exact hb
  | text ht _ ih => simpa using Content.text ht ih
  | element hn hi _ _ ih => simpa using Content.element hn hi ih

theorem Content.of_clean (h : Clean t) : Content t := by
  simpa using Content.text h .nil

theorem Content.of_element (h : Element l) : Content l := by
  have ⟨_, _, hn, hi, he⟩ := h
  simpa [he] using Content.element hn hi .nil

-- What is appended at a time
inductive Piece
  | opening (tag : Bytes)
  | closing (tag : Bytes)
  | element (tag text : Bytes)

namespace Piece

def bytes : Piece → Bytes
  | opening tag      => Xml.opening tag
  | closing tag      => Xml.closing tag
  | element tag text => Xml.opening tag ++ text ++ Xml.closing tag

def tag : Piece → Bytes
  | opening tag | closing tag | element tag _ => tag

structure Sound (p : Piece) : Prop where
  name : Name p.tag
  text : ∀ tag t, p = .element tag t → Clean t

-- The tags that are open behind a piece, the innermost first. Only that one can be closed.
def track : List Bytes → Piece → Option (List Bytes)
  | st,      opening tag  => some (tag :: st)
  | [],      closing _    => none
  | t :: st, closing tag  => if t = tag then some st else none
  | st,      element _ _  => some st

-- A piece without its text
def blank : Piece → Piece
  | element tag _ => element tag []
  | p             => p

theorem blank_tag {p : Piece} : p.blank.tag = p.tag := by
  cases p <;> rfl

theorem track_blank {p : Piece} : track st p.blank = track st p := by
  cases p with
  | element tag t => cases st <;> rfl
  | opening tag | closing tag => rfl

theorem track_map_blank {ps : List Piece} :
    (ps.map blank).foldlM track st = ps.foldlM track st := by
  simp [List.foldlM_map, track_blank]

end Piece

-- The content so far, with the given tags open
inductive Unclosed : List Bytes → Bytes → Prop
  | nil : Content l → Unclosed [] l
  | cons : Unclosed st l → Name tag → Content nested → Unclosed (tag :: st) (l ++ opening tag ++ nested)

theorem Unclosed.append (h : Unclosed st l) (hc : Content c) : Unclosed st (l ++ c) := by
  cases h with
  | nil hl => exact .nil <| hl.append hc
  | cons h hn hi =>
    rw [List.append_assoc]
    exact .cons h hn <| hi.append hc

theorem Unclosed.piece {p : Piece} (h : Unclosed st l) (hp : p.Sound)
    (ht : Piece.track st p = some st₁) : Unclosed st₁ (l ++ p.bytes) := by
  cases p with
  | opening tag =>
    cases ht
    have hn : Name tag := hp.name
    simpa [Piece.bytes] using Unclosed.cons h hn .nil
  | closing tag =>
    cases h with
    | nil => cases ht
    | cons h hn hi =>
      simp only [Piece.track, Option.ite_none_right_eq_some, Option.some.injEq] at ht
      have ⟨he, hst⟩ := ht
      cases hst
      simpa [Piece.bytes, he] using h.append <| .of_element ⟨_, _, hn, hi, rfl⟩
  | element tag t =>
    cases ht
    exact h.append <| .of_element ⟨_, _, hp.name, .of_clean <| hp.text _ _ rfl, rfl⟩

theorem Unclosed.pieces {ps : List Piece} (h : Unclosed st l) (hp : ∀ p ∈ ps, p.Sound)
    (ht : ps.foldlM Piece.track st = some st₁) : Unclosed st₁ (l ++ ps.flatMap Piece.bytes) := by
  induction ps generalizing st l with
  | nil =>
    cases ht
    simpa using h
  | cons p ps ih =>
    have ⟨hp, hps⟩ := List.forall_mem_cons.mp hp
    simp only [List.foldlM_cons, Option.bind_eq_bind, Option.bind_eq_some_iff] at ht
    have ⟨st₂, h₂, ht⟩ := ht
    simpa using ih (h.piece hp h₂) hps ht

-- Sound pieces that close what they open are content.
theorem Content.of_pieces {ps : List Piece} (hp : ∀ p ∈ ps, p.Sound)
    (ht : ps.foldlM Piece.track [] = some []) : Content (ps.flatMap Piece.bytes) := by
  have h := Unclosed.nil .nil |>.pieces hp ht
  cases h with
  | nil h => simpa using h

-- How many more elements are opened than closed. A declaration counts for neither.
def depth : Bytes → Int
  | []     => 0
  | c :: l => (if c = 60 then step l else 0) + depth l
where
  step : Bytes → Int
    | 47 :: _ => -1
    | 63 :: _ => 0
    | _       => 1

theorem depth_append (h : a.getLast? ≠ some 60) : depth (a ++ b) = depth a + depth b := by
  induction a with
  | nil => simp [depth]
  | cons c a ih =>
    cases a with
    | nil =>
      have hc : c ≠ 60 := by simpa using h
      simp [depth, hc]
    | cons d a =>
      have hs : depth.step (d :: (a ++ b)) = depth.step (d :: a) := by
        unfold depth.step
        split <;> split <;> simp_all
      have ih := ih <| by simpa [List.getLast?_cons_cons] using h
      calc depth (c :: (d :: (a ++ b)))
        _ = (if c = 60 then depth.step (d :: a) else 0) + depth (d :: a ++ b) := by rw [depth, hs]; rfl
        _ = (if c = 60 then depth.step (d :: a) else 0) + depth (d :: a) + depth b := by
          rw [ih, Int.add_assoc]

theorem depth_of_not_mem (h : 60 ∉ l) : depth l = 0 := by
  induction l with
  | nil => rfl
  | cons c l ih =>
    have ⟨hc, hl⟩ : 60 ≠ c ∧ 60 ∉ l := by simpa using h
    simp [depth, hc.symm, ih hl]

theorem Name.not_mem (h : Name t) : 60 ∉ t :=
  fun hm => absurd (h.chars 60 hm) (by decide)

theorem depth_opening (h : Name t) : depth (opening t) = 1 := by
  have hl : 60 ∉ t ++ [62] := by simp [h.not_mem]
  have hs : depth.step (t ++ [62]) = 1 := by
    cases ht : t with
    | nil => exact absurd ht h.nonempty
    | cons c t =>
      have hc := h.chars c <| by simp [ht]
      unfold depth.step
      split
      case h_1 he => cases he; exact absurd hc (by decide)
      case h_2 he => cases he; exact absurd hc (by decide)
      case h_3 => rfl
  simp [opening, depth, hs, depth_of_not_mem hl]

theorem depth_closing (h : Name t) : depth (closing t) = -1 := by
  have hl : 60 ∉ t ++ [62] := by simp [h.not_mem]
  simp [closing, depth, depth.step, depth_of_not_mem hl]

theorem opening_getLast : (opening t).getLast? ≠ some 60 := by
  simp [opening, List.getLast?_cons]

theorem closing_getLast : (closing t).getLast? ≠ some 60 := by
  simp [closing, List.getLast?_cons]

theorem Clean.getLast (h : Clean t) : t.getLast? ≠ some 60 :=
  fun hl => h.1 <| List.mem_of_getLast? hl

theorem getLast_append (ha : a.getLast? ≠ some c) (hb : b.getLast? ≠ some c) :
    (a ++ b : Bytes).getLast? ≠ some c := by
  rw [List.getLast?_append]
  cases h : b.getLast? with
  | none => simpa using ha
  | some d => simpa [h] using hb

theorem Content.getLast (h : Content l) : l.getLast? ≠ some 60 := by
  induction h with
  | nil => simp
  | text ht _ ih => exact getLast_append ht.getLast ih
  | element _ _ _ ih₁ ih₂ =>
    rw [List.append_assoc]
    exact getLast_append (getLast_append opening_getLast ih₁) (getLast_append closing_getLast ih₂)

theorem Content.depth_eq (h : Content l) : depth l = 0 := by
  induction h with
  | nil => rfl
  | text ht _ ih => rw [depth_append ht.getLast, depth_of_not_mem ht.1, ih, Int.add_zero]
  | element hn hi hl ih₁ ih₂ =>
    rw [List.append_assoc, List.append_assoc, depth_append opening_getLast, depth_append hi.getLast,
      depth_append closing_getLast, depth_opening hn, depth_closing hn, ih₁, ih₂]
    rfl

theorem Element.depth_eq (h : Element l) : depth l = 0 :=
  Content.of_element h |>.depth_eq

namespace Piece

variable {p : Piece} {ps : List Piece}

theorem getLast (h : p.Sound) : p.bytes.getLast? ≠ some 60 := by
  cases p with
  | opening tag => exact opening_getLast
  | closing tag => exact closing_getLast
  | element tag t => exact Content.getLast <| .of_element ⟨_, _, h.name, .of_clean <| h.text _ _ rfl, rfl⟩

theorem depth_eq (h : p.Sound) (ht : track st p = some st₁) :
    depth p.bytes = st₁.length - st.length := by
  cases p with
  | opening tag =>
    have hn : Name tag := h.name
    cases ht
    rw [bytes, depth_opening hn, List.length_cons]
    omega
  | closing tag =>
    have hn : Name tag := h.name
    cases st with
    | nil => cases ht
    | cons t st =>
      simp only [track, Option.ite_none_right_eq_some, Option.some.injEq] at ht
      rw [bytes, depth_closing hn, ← ht.2, List.length_cons]
      omega
  | element tag t =>
    have hn : Name tag := h.name
    cases ht
    rw [bytes, Element.depth_eq ⟨_, _, hn, .of_clean <| h.text _ _ rfl, rfl⟩, Int.sub_self]

-- The tags that are open behind sound pieces are as many as there are more tags opened than closed.
theorem depth_flatMap (h : ∀ p ∈ ps, p.Sound) (ht : ps.foldlM track st = some st₁) :
    depth (ps.flatMap bytes) = st₁.length - st.length := by
  induction ps generalizing st with
  | nil =>
    cases ht
    simp [depth]
  | cons p ps ih =>
    have ⟨hp, hps⟩ := List.forall_mem_cons.mp h
    simp only [List.foldlM_cons, Option.bind_eq_bind, Option.bind_eq_some_iff] at ht
    have ⟨st₂, h₂, ht⟩ := ht
    rw [List.flatMap_cons, depth_append (getLast hp), depth_eq hp h₂, ih hps ht]
    omega

end Piece

end Xml
