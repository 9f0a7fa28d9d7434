import Webtermo.Execution.Pages.Theorems.Formats

namespace Pages

open Xml (Clean Name Piece)

variable {env : Env} {ans : Answers} {arr arr₁ : Arrays} {p : Part} {ps : List Part}
  {s s₁ : State} {qs : List Piece} {P : Bytes → Prop}

-- The texts in the elements of some calls have a property.
def Texts (P : Bytes → Prop) (qs : List Piece) : Prop :=
  ∀ tag t, .element tag t ∈ qs → P t

@[simp] theorem texts_nil : Texts P [] := by
  simp [Texts]

@[simp] theorem texts_opening : Texts P [.opening tag] := by
  simp [Texts]

@[simp] theorem texts_closing : Texts P [.closing tag] := by
  simp [Texts]

@[simp] theorem texts_element : Texts P [.element tag t] ↔ P t := by
  simp [Texts]

@[simp] theorem texts_append : Texts P (qs ++ rs) ↔ Texts P qs ∧ Texts P rs := by
  simp only [Texts, List.mem_append]
  exact ⟨fun h => ⟨fun _ _ hm => h _ _ (.inl hm), fun _ _ hm => h _ _ (.inr hm)⟩,
    fun h _ _ hm => hm.elim (h.1 _ _) (h.2 _ _)⟩

namespace Part

-- What can be seen of a part before it runs: its tag is a name, its constants are plain, and what it
-- reads into an array for later, or clears, fits.
def Static : Part → Prop
  | openTag t | closeTag t | credit t | status t | name t _ | stored t .. => Name t
  | value t v | printed t _ v => Name t ∧ v.Static
  | eeRead a _ n | clear a n => n ≤ a.cap

instance : (p : Part) → Decidable p.Static
  | openTag _ | closeTag _ | credit _ | status _ | name .. | stored .. =>
    inferInstanceAs <| Decidable (Name _)
  | value .. | printed .. => inferInstanceAs <| Decidable (_ ∧ _)
  | eeRead .. | clear ..  => inferInstanceAs <| Decidable (_ ≤ _)

-- A string from the EEPROM or a server ends in its array, it has the given property, and so has the
-- name of an entry. A number that is to be printed has a value.
def Shows (P : Bytes → Prop) (env : Env) (ans : Answers) (arr : Arrays) : Part → Prop
  | value _ v | printed _ _ v => (v.print env ans).isSome
  | stored _ a addr n         =>
    ∃ arr₁ t, arr.eeRead env.eeprom a addr n = some arr₁ ∧ (arr₁ a).text 0 = some t ∧ P t
  | credit _                  => ∃ t, env.credit.text 0 = some t ∧ P t
  | status _                  => ∃ t, env.status.text 0 = some t ∧ P t
  | name _ n                  => P n
  | openTag _ | closeTag _ | eeRead .. | clear .. => True

theorem printed_text {b : Buffer cap} (h : b.strcpy t = some b₁) (ht : Plain n t) :
    b₁.text 0 = some t :=
  Buffer.strcpy_text ht.nul h

-- A part has its effect exactly if it shows texts, and the texts of its call are those that it shows
-- from outside or plain ones.
theorem shows_iff (hs : p.Static) (hP : ∀ t, Plain maxText t → P t) : p.Shows P env ans arr ↔
    ∃ arr₁ qs, p.call env ans arr = some (arr₁, qs) ∧ Texts P qs := by
  cases p with
  | openTag tag => simp [Shows, call]
  | closeTag tag => simp [Shows, call]
  | value tag v =>
    cases hv : v.print env ans with
    | none => simp [Shows, call, hv]
    | some t => simpa [Shows, call, hv] using hP t <| Value.print_plain hs.2 hv
  | printed tag a v =>
    cases hv : v.print env ans with
    | none => simp [Shows, call, hv]
    | some t =>
      have ht := Value.print_plain hs.2 hv
      have ⟨b, hb⟩ := Buffer.strcpy_eq_some (b := arr a) <| Nat.lt_of_le_of_lt ht.short a.cap_gt
      simpa [Shows, call, hv, hb, printed_text hb ht] using hP t ht
  | stored tag a addr n =>
    cases he : arr.eeRead env.eeprom a addr n with
    | none => simp [Shows, call, he]
    | some arr₁ => cases ht : (arr₁ a).text 0 <;> simp [Shows, call, he, ht]
  | eeRead a addr n =>
    have ⟨b, hb⟩ : ∃ b, (arr a).write 0 (env.eeprom.read (addr env ans) n) = some b :=
      Buffer.write_eq_some <| by simpa [Static] using hs
    simp [Shows, call, Arrays.eeRead, hb]
  | clear a n =>
    have ⟨b, hb⟩ : ∃ b, (arr a).write 0 (List.replicate n 0) = some b :=
      Buffer.write_eq_some <| by simpa [Static] using hs
    simp [Shows, call, hb]
  | credit tag => cases ht : env.credit.text 0 <;> simp [Shows, call, ht]
  | status tag => cases ht : env.status.text 0 <;> simp [Shows, call, ht]
  | name tag n => simp [Shows, call]

-- The calls of a part without their texts
def shape : Part → List Piece
  | openTag tag  => [.opening tag]
  | closeTag tag => [.closing tag]
  | value tag _ | printed tag .. | stored tag .. | credit tag | status tag | name tag _ =>
    [.element tag []]
  | eeRead .. | clear .. => []

theorem call_blank (h : p.call env ans arr = some (arr₁, qs)) : qs.map Piece.blank = p.shape := by
  cases p with
  | openTag tag | closeTag tag | name tag n => cases h; rfl
  | value tag v =>
    have ⟨_, _, h⟩ := Option.bind_eq_some_iff.mp h
    cases h
    rfl
  | credit tag | status tag =>
    have ⟨_, _, h⟩ := Option.bind_eq_some_iff.mp h
    cases h
    rfl
  | printed tag a v =>
    simp only [call, Option.bind_eq_bind, Option.bind_eq_some_iff] at h
    have ⟨_, _, _, _, _, _, h⟩ := h
    cases h
    rfl
  | stored tag a addr n =>
    simp only [call, Option.bind_eq_bind, Option.bind_eq_some_iff] at h
    have ⟨_, _, _, _, h⟩ := h
    cases h
    rfl
  | eeRead a addr n | clear a n =>
    simp only [call, Option.bind_eq_bind, Option.bind_eq_some_iff] at h
    have ⟨_, _, h⟩ := h
    cases h
    rfl

theorem call_name (hs : p.Static) (h : p.call env ans arr = some (arr₁, qs)) :
    ∀ q ∈ qs, Name q.tag := by
  intro q hq
  have hb : q.blank ∈ p.shape := call_blank h ▸ List.mem_map_of_mem hq
  rw [← Piece.blank_tag]
  cases p with
  | openTag tag | closeTag tag | credit tag | status tag | name tag n | stored tag a addr n =>
    have hb := List.mem_singleton.mp hb
    exact hb ▸ hs
  | value tag v | printed tag a v =>
    have hb := List.mem_singleton.mp hb
    exact hb ▸ hs.1
  | eeRead a addr n | clear a n => nomatch hb

-- The bytes that a part appends: its tags, and the text that it shows
def size (env : Env) (ans : Answers) (arr : Arrays) : Part → Nat
  | openTag tag               => tag.length + 2
  | closeTag tag              => tag.length + 3
  | value tag v               => 2 * tag.length + 5 + ((v.print env ans).getD []).length
  | printed tag _ v           => 2 * tag.length + 5 + ((v.print env ans).getD []).length
  | stored tag a addr n       => 2 * tag.length + 5 +
    ((arr.eeRead env.eeprom a addr n).bind fun arr => (arr a).text 0).elim 0 List.length
  | eeRead .. | clear ..      => 0
  | credit tag                => 2 * tag.length + 5 + ((env.credit.text 0).getD []).length
  | status tag                => 2 * tag.length + 5 + ((env.status.text 0).getD []).length
  | name tag n                => 2 * tag.length + 5 + n.length

theorem element_length : (Piece.element tag t).bytes.length = 2 * tag.length + 5 + t.length := by
  simp [Piece.bytes, Xml.opening, Xml.closing]
  omega

theorem call_size (hs : p.Static) (h : p.call env ans arr = some (arr₁, qs)) :
    (qs.flatMap Piece.bytes).length = p.size env ans arr := by
  cases p with
  | openTag tag | closeTag tag => cases h; simp [Piece.bytes, Xml.opening, Xml.closing, size]
  | name tag n => cases h; simp [element_length, size]
  | value tag v =>
    obtain ⟨_, hv, h⟩ := Option.bind_eq_some_iff.mp h
    cases h
    simp [element_length, size, hv]
  | credit tag | status tag =>
    obtain ⟨_, ht, h⟩ := Option.bind_eq_some_iff.mp h
    cases h
    simp [element_length, size, ht]
  | printed tag a v =>
    simp only [call, Option.bind_eq_bind, Option.bind_eq_some_iff] at h
    obtain ⟨_, hv, _, hb, _, hu, h⟩ := h
    cases h
    cases hu.symm.trans <| printed_text hb <| Value.print_plain hs.2 hv
    simp [element_length, size, hv]
  | stored tag a addr n =>
    simp only [call, Option.bind_eq_bind, Option.bind_eq_some_iff] at h
    obtain ⟨_, he, _, ht, h⟩ := h
    cases h
    simp [element_length, size, he, ht]
  | eeRead a addr n | clear a n =>
    simp only [call, Option.bind_eq_bind, Option.bind_eq_some_iff] at h
    obtain ⟨_, _, h⟩ := h
    cases h
    rfl

-- The most that this can be
def bound : Part → Nat
  | openTag tag               => tag.length + 2
  | closeTag tag              => tag.length + 3
  | value tag _               => 2 * tag.length + 5 + maxText
  | printed tag ..            => 2 * tag.length + 5 + maxText
  | stored tag a ..           => 2 * tag.length + 5 + a.cap
  | eeRead .. | clear ..      => 0
  | credit tag                => 2 * tag.length + 5 + 16
  | status tag                => 2 * tag.length + 5 + 32
  | name tag n                => 2 * tag.length + 5 + n.length

theorem text_bound {b : Buffer cap} : ((b.text 0).getD []).length ≤ cap := by
  cases ht : b.text 0 with
  | none => exact Nat.zero_le _
  | some t => exact Nat.le_of_lt <| Buffer.text_length ht

theorem size_le (hs : p.Static) : p.size env ans arr ≤ p.bound := by
  have print {v : Value} (hs : v.Static) : ((v.print env ans).getD []).length ≤ maxText := by
    cases hv : v.print env ans with
    | none => exact Nat.zero_le _
    | some t => exact Value.print_plain hs hv |>.short
  cases p with
  | openTag tag | closeTag tag | name tag n | eeRead a addr n | clear a n => exact Nat.le_refl _
  | value tag v | printed tag a v => exact Nat.add_le_add_left (print hs.2) _
  | credit tag | status tag => exact Nat.add_le_add_left text_bound _
  | stored tag a addr n =>
    refine Nat.add_le_add_left ?_ _
    cases arr.eeRead env.eeprom a addr n with
    | none => exact Nat.zero_le _
    | some arr₁ =>
      have h := text_bound (b := arr₁ a)
      cases ht : (arr₁ a).text 0 <;> simp_all

end Part

-- The arrays after some parts, and their calls
def calls (env : Env) (ans : Answers) : Arrays → List Part → Option (Arrays × List Piece)
  | arr, []      => some (arr, [])
  | arr, p :: ps => do
    let (arr, qs) ← p.call env ans arr
    let (arr, rs) ← calls env ans arr ps
    some (arr, qs ++ rs)

-- Each of some parts shows texts, with the arrays as the ones before it leave them.
def Shows (P : Bytes → Prop) (env : Env) (ans : Answers) : Arrays → List Part → Prop
  | _,   []      => True
  | arr, p :: ps => p.Shows P env ans arr ∧
    ∀ arr₁ qs, p.call env ans arr = some (arr₁, qs) → Shows P env ans arr₁ ps

theorem calls_cons (h : calls env ans arr (p :: ps) = some (arr₁, qs)) : ∃ arr₂ qs₁ qs₂,
    p.call env ans arr = some (arr₂, qs₁) ∧ calls env ans arr₂ ps = some (arr₁, qs₂) ∧
      qs = qs₁ ++ qs₂ := by
  simp only [calls, Option.bind_eq_bind, Option.bind_eq_some_iff] at h
  have ⟨⟨arr₂, qs₁⟩, h₁, ⟨_, qs₂⟩, h₂, h⟩ := h
  cases h
  exact ⟨arr₂, qs₁, qs₂, h₁, h₂, rfl⟩

theorem shows_iff (hs : ∀ p ∈ ps, p.Static) (hP : ∀ t, Plain maxText t → P t) :
    Shows P env ans arr ps ↔
      ∃ arr₁ qs, calls env ans arr ps = some (arr₁, qs) ∧ Texts P qs := by
  induction ps generalizing arr with
  | nil => simp [Shows, calls]
  | cons p ps ih =>
    have ⟨hp, hps⟩ := List.forall_mem_cons.mp hs
    constructor
    case mp =>
      intro ⟨h, hr⟩
      have ⟨arr₂, qs₁, h₁, t₁⟩ := Part.shows_iff hp hP |>.mp h
      have ⟨arr₁, qs₂, h₂, t₂⟩ := ih hps |>.mp <| hr _ _ h₁
      exact ⟨arr₁, qs₁ ++ qs₂, by simp [calls, h₁, h₂], texts_append.mpr ⟨t₁, t₂⟩⟩
    case mpr =>
      intro ⟨arr₁, qs, h, t⟩
      have ⟨arr₂, qs₁, qs₂, h₁, h₂, he⟩ := calls_cons h
      have ⟨t₁, t₂⟩ := texts_append.mp <| he ▸ t
      refine ⟨Part.shows_iff hp hP |>.mpr ⟨arr₂, qs₁, h₁, t₁⟩, fun arr₃ qs₃ h₃ => ?_⟩
      cases h₁.symm.trans h₃
      exact ih hps |>.mpr ⟨arr₁, qs₂, h₂, t₂⟩

theorem Shows.mem (h : Shows P env ans arr ps) (hs : ∀ p ∈ ps, p.Static)
    (hP : ∀ t, Plain maxText t → P t) (hp : p ∈ ps) : ∃ arr₁, p.Shows P env ans arr₁ := by
  induction ps generalizing arr with
  | nil => nomatch hp
  | cons q ps ih =>
    have ⟨hq, hps⟩ := List.forall_mem_cons.mp hs
    obtain rfl | hp := List.mem_cons.mp hp
    · exact ⟨arr, h.1⟩
    · have ⟨_, _, h₁, _⟩ := Part.shows_iff hq hP |>.mp h.1
      exact ih (h.2 _ _ h₁) hps hp

theorem calls_blank (h : calls env ans arr ps = some (arr₁, qs)) :
    qs.map Piece.blank = ps.flatMap Part.shape := by
  induction ps generalizing arr qs with
  | nil => cases h; rfl
  | cons p ps ih =>
    have ⟨_, _, _, h₁, h₂, he⟩ := calls_cons h
    rw [he, List.map_append, Part.call_blank h₁, ih h₂, List.flatMap_cons]

theorem calls_name (hs : ∀ p ∈ ps, p.Static) (h : calls env ans arr ps = some (arr₁, qs)) :
    ∀ q ∈ qs, Name q.tag := by
  induction ps generalizing arr qs with
  | nil => cases h; simp
  | cons p ps ih =>
    have ⟨hp, hps⟩ := List.forall_mem_cons.mp hs
    have ⟨_, _, _, h₁, h₂, he⟩ := calls_cons h
    exact he ▸ List.forall_mem_append.mpr ⟨Part.call_name hp h₁, ih hps h₂⟩

theorem calls_sound (hs : ∀ p ∈ ps, p.Static) (h : calls env ans arr ps = some (arr₁, qs))
    (ht : Texts Clean qs) : ∀ q ∈ qs, q.Sound :=
  fun q hq => ⟨calls_name hs h q hq, fun _ _ he => ht _ _ (he ▸ hq)⟩

-- The bytes that some parts append, with the arrays as the ones before leave them
def sizes (env : Env) (ans : Answers) : Arrays → List Part → Nat
  | _,   []      => 0
  | arr, p :: ps => p.size env ans arr +
    (p.call env ans arr).elim 0 fun (arr, _) => sizes env ans arr ps

theorem calls_sizes (hs : ∀ p ∈ ps, p.Static) (h : calls env ans arr ps = some (arr₁, qs)) :
    (qs.flatMap Piece.bytes).length = sizes env ans arr ps := by
  induction ps generalizing arr qs with
  | nil => cases h; rfl
  | cons p ps ih =>
    have ⟨hp, hps⟩ := List.forall_mem_cons.mp hs
    have ⟨_, _, _, h₁, h₂, he⟩ := calls_cons h
    rw [he, List.flatMap_append, List.length_append, Part.call_size hp h₁, ih hps h₂]
    simp [sizes, h₁]

theorem sizes_le (hs : ∀ p ∈ ps, p.Static) :
    sizes env ans arr ps ≤ (ps.map Part.bound).sum := by
  induction ps generalizing arr with
  | nil => exact Nat.le_refl 0
  | cons p ps ih =>
    have ⟨hp, hps⟩ := List.forall_mem_cons.mp hs
    rw [List.map_cons, List.sum_cons]
    refine Nat.add_le_add (Part.size_le hp) ?_
    cases p.call env ans arr with
    | none => exact Nat.zero_le _
    | some r => exact ih hps

theorem strings_flatten (qs : List Piece) : (qs.flatMap strings).flatten = qs.flatMap Piece.bytes := by
  have one (q : Piece) : (strings q).flatten = q.bytes := by
    have hl : ascii "<" = [60] := by decide
    have hc : ascii "</" = [60, 47] := by decide
    have hg : ascii ">" = [62] := by decide
    cases q <;> simp [strings, Wcl.openTag, Wcl.closeTag, Wcl.addTag, Piece.bytes, Xml.opening,
      Xml.closing, hl, hc, hg]
  induction qs with
  | nil => rfl
  | cons q qs ih => simp [one, ih]

-- The parts put their texts together in the arrays and append them to `XMLBuf` one after the other.
theorem addParts_eq : addParts s ans ps = (calls s.toEnv ans s.arr ps).bind fun (arr, qs) =>
    (s.xmlBuf.strcats (qs.flatMap strings)).map fun xmlBuf => ({ s with arr, xmlBuf }, qs) := by
  induction ps generalizing s with
  | nil => rfl
  | cons p ps ih =>
    simp only [addParts, Part.add, calls]
    cases h₁ : p.call s.toEnv ans s.arr with
    | none => rfl
    | some r =>
      have ⟨arr, qs⟩ := r
      cases hx : s.xmlBuf.strcats (qs.flatMap strings) with
      | none =>
        cases h₂ : calls s.toEnv ans arr ps <;> simp [hx, h₂, CString.strcats_append]
      | some xmlBuf =>
        have ih := ih (s := { s with arr, xmlBuf })
        cases h₂ : calls s.toEnv ans arr ps with
        | none => simp_all
        | some r₂ =>
          have ⟨arr₁, rs⟩ := r₂
          simp only [h₂, Option.bind_some] at ih
          simp only [hx, h₂, Option.bind_eq_bind, Option.bind_some, ih, List.flatMap_append,
            CString.strcats_append]
          cases xmlBuf.strcats (rs.flatMap strings) <;> rfl

end Pages
