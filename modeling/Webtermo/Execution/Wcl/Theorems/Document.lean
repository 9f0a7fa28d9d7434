import Webtermo.Execution.Wapp.Theorems.Send
import Webtermo.Execution.Wcl.State

open Define

namespace Wcl

variable {s s₁ : State} {o : List Obs} {dev dev₁ : Wapp.State} {xml xml₁ : CString xmlCap}
  {ps : List Part} {gsm : Fin 5 → Bool}

-- The text that is stored at an address. Without a NUL in its bytes it goes on in `rBuf`.
def storedText (dev : Wapp.State) (addr n : Nat) : Option Bytes :=
  cstr (dev.eeprom.read addr n ++ dev.rBuf.bytes.drop n)

def Part.text (dev : Wapp.State) : Part → Option Bytes
  | openTag tag       => some (Wcl.openTag tag).flatten
  | closeTag tag      => some (Wcl.closeTag tag).flatten
  | crlf              => some Wcl.crlf
  | stored tag addr n => (storedText dev addr n).map fun v => (addTag tag v).flatten
  | poruka tag        => (dev.infobip.poruka.text 0).map fun v => (addTag tag v).flatten

def partsText (dev : Wapp.State) : List Part → Option Bytes
  | []      => some []
  | p :: ps => do some ((← p.text dev) ++ (← partsText dev ps))

-- The document of the current message for the numbers `gsm`
def document (dev : Wapp.State) (gsm : Fin 5 → Bool) : Option Bytes :=
  partsText dev (parts gsm)

-- What the client sends for a document
def encoded (text : Bytes) : Bytes :=
  ascii "XML=" ++ text.flatMap Rfc1738.encode

theorem partsText_append {ps₁ : List Part} : partsText dev (ps ++ ps₁) =
    (partsText dev ps).bind fun t => (partsText dev ps₁).map (t ++ ·) := by
  induction ps with
  | nil => simp [partsText]
  | cons p ps ih =>
    simp only [List.cons_append, partsText, ih]
    cases p.text dev <;> cases partsText dev ps <;> cases partsText dev ps₁ <;> simp

-- How many bytes a part reads into `rBuf`
def Part.reads : Part → Option Nat
  | stored _ _ n => some n
  | _            => none

-- `rBuf` has changed at most in its first `n` bytes.
def SameBehind (n : Nat) (dev dev₁ : Wapp.State) : Prop :=
  ∃ rBuf, dev₁ = dev.setRBuf rBuf ∧ rBuf.bytes.drop n = dev.rBuf.bytes.drop n

theorem SameBehind.refl : SameBehind n dev dev :=
  ⟨dev.rBuf, rfl, rfl⟩

theorem SameBehind.mono (h : SameBehind n dev dev₁) (hl : n ≤ m) : SameBehind m dev dev₁ := by
  have ⟨rBuf, hd, hr⟩ := h
  refine ⟨rBuf, hd, ?_⟩
  rw [← Nat.sub_add_cancel hl, Nat.add_comm, ← List.drop_drop, hr, List.drop_drop]

theorem SameBehind.eeRead (h : SameBehind n dev dev₁) (hr : Wapp.eeRead dev₁ addr n = some dev₂) :
    SameBehind n dev dev₂ ∧ dev₂.rBuf.text 0 = storedText dev addr n := by
  have ⟨rBuf, hd, hb⟩ := h
  have ⟨rBuf₂, hd₂, hb₂⟩ := Wapp.eeRead_bytes hr
  subst hd hd₂
  simp only [Wapp.State.setRBuf_eeprom, Wapp.State.setRBuf_rBuf, hb] at hb₂
  refine ⟨⟨rBuf₂, rfl, ?_⟩, ?_⟩
  · rw [hb₂, List.drop_left' Memory.read_length]
  · simp only [Wapp.State.setRBuf_rBuf, Buffer.text, List.drop_zero, hb₂, storedText]

theorem Part.add_text {p : Part} (h : p.add dev₁ xml = some (dev₂, xml₁))
    (hb : SameBehind n dev dev₁) (hn : ∀ m ∈ p.reads, n ≤ m) :
    SameBehind (p.reads.getD n) dev dev₂ ∧ ∃ t, p.text dev = some t ∧ xml₁.bytes = xml.bytes ++ t := by
  cases p with
  | stored tag addr m =>
    simp only [add, Option.bind_eq_bind, Option.bind_eq_some_iff, Option.some.injEq] at h
    obtain ⟨dev₃, hr, v, hv, _, hx, h⟩ := h
    cases h
    obtain ⟨hb, ht⟩ := (hb.mono <| hn m rfl).eeRead hr
    exact ⟨hb, _, by rw [Part.text, ← ht, hv]; rfl, CString.strcats_bytes hx⟩
  | poruka tag =>
    simp only [add, Option.bind_eq_bind, Option.bind_eq_some_iff, Option.some.injEq] at h
    obtain ⟨v, hv, _, hx, h⟩ := h
    cases h
    obtain ⟨rBuf, hd, _⟩ := id hb
    subst hd
    exact ⟨hb, _, by rw [Part.text, ← Wapp.State.setRBuf_infobip, hv]; rfl, CString.strcats_bytes hx⟩
  | crlf =>
    simp only [add, Option.bind_eq_bind, Option.bind_eq_some_iff, Option.some.injEq] at h
    obtain ⟨_, hx, h⟩ := h
    cases h
    exact ⟨hb, _, rfl, CString.strcat_bytes hx⟩
  | _ =>
    simp only [add, Option.bind_eq_bind, Option.bind_eq_some_iff, Option.some.injEq] at h
    obtain ⟨_, hx, h⟩ := h
    cases h
    exact ⟨hb, _, rfl, CString.strcats_bytes hx⟩

theorem reads_cons {p : Part} (hs : (n :: (p :: ps).filterMap Part.reads).Pairwise (· ≤ ·)) :
    (∀ m ∈ p.reads, n ≤ m) ∧ (p.reads.getD n :: ps.filterMap Part.reads).Pairwise (· ≤ ·) := by
  rw [List.filterMap_cons] at hs
  cases hr : p.reads with
  | none =>
    rw [hr] at hs
    exact ⟨fun _ hm => (nomatch hm), hs⟩
  | some m =>
    rw [hr] at hs
    refine ⟨fun _ hm => ?_, (List.pairwise_cons.mp hs).2⟩
    cases hm
    exact List.rel_of_pairwise_cons hs List.mem_cons_self

-- No part reads less than the parts before it, so that each one finds what is behind its bytes in
-- `rBuf` as it was.
theorem addParts_text (h : addParts dev₁ xml ps = some (dev₂, xml₁)) (hb : SameBehind n dev dev₁)
    (hs : (n :: ps.filterMap Part.reads).Pairwise (· ≤ ·)) :
    (∃ rBuf, dev₂ = dev.setRBuf rBuf) ∧
    ∃ t, partsText dev ps = some t ∧ xml₁.bytes = xml.bytes ++ t := by
  induction ps generalizing dev₁ xml n with
  | nil =>
    cases h
    have ⟨rBuf, hd, _⟩ := hb
    exact ⟨⟨rBuf, hd⟩, [], rfl, by simp⟩
  | cons p ps ih =>
    simp only [addParts, Option.bind_eq_bind, Option.bind_eq_some_iff] at h
    have ⟨⟨dev₃, xml₃⟩, hp, h⟩ := h
    have ⟨hn, hs⟩ := reads_cons hs
    have ⟨hb, t, ht, hx⟩ := p.add_text hp hb hn
    have ⟨hd, u, hu, hx₁⟩ := ih h hb hs
    exact ⟨hd, t ++ u, by simp [partsText, ht, hu], by rw [hx₁, hx, List.append_assoc]⟩

theorem gsmParts_reads : ∀ m ∈ (gsmParts gsm).filterMap Part.reads, m = 32 := by
  intro m hm
  have ⟨p, hp, hr⟩ := List.mem_filterMap.mp hm
  have ⟨n, _, hp⟩ := List.mem_flatMap.mp hp
  simp only [List.mem_cons, List.not_mem_nil, or_false] at hp
  cases hp with
  | inl hp => simpa [hp, Part.reads, eq_comm] using hr
  | inr hp => simp [hp, Part.reads] at hr

theorem parts_reads : (0 :: (parts gsm).filterMap Part.reads).Pairwise (· ≤ ·) := by
  have he : (parts gsm).filterMap Part.reads =
      [16, 16, 32] ++ (gsmParts gsm).filterMap Part.reads := by
    rw [parts, List.filterMap_append, List.filterMap_append]
    exact List.append_nil _
  have hg := @gsmParts_reads gsm
  rw [he, ← List.cons_append, List.pairwise_append]
  refine ⟨by decide, List.pairwise_of_forall_mem_list fun a ha b hb => ?_, fun a ha b hb => ?_⟩
  · rw [hg a ha, hg b hb]
  · rw [hg b hb]
    exact (show ∀ a ∈ [0, 16, 16, 32], a ≤ 32 by decide) a ha

-- If the escaped text fits, then it has not been cut off.
theorem rfc1738Escape_eq (h : q + (rfc1738Escape size q t).length < size - 1) :
    rfc1738Escape size q t = t.flatMap Rfc1738.encode := by
  induction t generalizing q with
  | nil => rfl
  | cons c t ih =>
    simp only [rfc1738Escape] at h ⊢
    split at h
    case isTrue hq =>
      rw [if_pos hq, List.flatMap_cons, ih]
      simp only [List.length_append] at h
      omega
    case isFalse hq =>
      simp only [List.length_nil] at h
      omega

-- What `CrateInfobipXMLString` does
structure Crated (s s₁ : State) (text : Bytes) : Prop where
  document   : document s.dev s.dev.infobip.gsmEnable = some text
  xmlBuf     : s₁.xmlBuf.bytes = text
  infobip    : (s₁.buf .infobip).bytes = encoded text
  infobiplen : s₁.infobiplen = (encoded text).length
  other      : ∃ rBuf xmlBuf infobip infobiplen, s₁ = { s with
    dev := s.dev.setRBuf rBuf, xmlBuf, buf := Function.update s.buf .infobip infobip, infobiplen }

theorem crateInfobipXMLString_crated (h : crateInfobipXMLString s c = some (s₁, o)) :
    ∃ text, Crated s s₁ text ∧ o = [.xml c s.dev text,
      .rebuilt .infobip (s.inFlight .infobip) (s.buf .infobip ≠ s₁.buf .infobip)] := by
  simp only [crateInfobipXMLString, Option.bind_eq_bind, Option.bind_eq_some_iff] at h
  have ⟨x, hx, ⟨dev, xml⟩, hp, i₁, h₁, i₂, h₂, h⟩ := h
  cases h
  have ⟨⟨rBuf, hd⟩, t, ht, hb⟩ := addParts_text hp SameBehind.refl parts_reads
  have hb : xml.bytes = t := by simpa [CString.strcpy_bytes hx] using hb
  have hi : i₂.bytes = encoded t := by
    have hf := i₂.fits
    have he : i₂.bytes = ascii "XML=" ++ rfc1738Escape 1024 0 xml.bytes := by
      rw [CString.strcat_bytes h₂, CString.strcpy_bytes h₁]
    rw [he] at hf ⊢
    rw [rfc1738Escape_eq, hb, encoded]
    have : (ascii "XML=").length = 4 := by decide
    simp only [List.length_append, this] at hf
    omega
  subst hd
  refine ⟨t, ⟨ht, hb, by simpa [State.setBuf] using hi, by simp [hi], ?_⟩, ?_⟩
  · exact ⟨rBuf, xml, i₂, _, rfl⟩
  · simp [State.setBuf, State.inFlight, hb]

end Wcl
