import Webtermo.Execution.Httpd.State
import Webtermo.Library.Trace

namespace Httpd

def response (doc : Bytes) : Bytes :=
  xmlHdrs.flatten ++ doc

-- The bytes of a response as TCP holds them
def stream (doc : Bytes) : List Cell :=
  xmlHdrs.flatten.map .rom ++ (List.range' 0 doc.length).map .xml

theorem stream_read : (stream doc).map (Cell.read doc) = response doc := by
  have hd : (List.range' 0 doc.length).map (fun i => doc.getD i 0) = doc := by
    refine List.ext_getElem (by simp) fun i _ h => ?_
    simp [h]
  simpa [stream, response, Function.comp_def, Cell.read] using hd

-- What an open file still has to write
def File.remaining (f : File) : List Cell :=
  (match f.hdrs with
    | []          => []
    | hdr :: hdrs => hdr.drop f.hdrPos ++ hdrs.flatten).map .rom ++
  (List.range' f.file f.left).map .xml

-- The part of the document that has been written and the rest make up the document.
def File.Whole (f : File) : Prop :=
  f.file + f.left = f.len

theorem tryWrite_le (h : tryWrite tcp fuel len = some n) : n ≤ len := by
  induction fuel generalizing len with
  | zero => cases h
  | succ fuel ih =>
    simp only [tryWrite] at h
    split at h
    case h_1 => exact Nat.le_of_eq (Option.some.inj h).symm
    case h_2 => cases h
    case h_3 =>
      split_ifs at h
      case pos hf hl => exact absurd hl (by omega)
      case pos => exact (ih h).trans (Nat.div_le_self _ _)

theorem httpWrite_le (h : httpWrite tcp len = some n) : n ≤ len := by
  simp only [httpWrite] at h
  split at h
  case isTrue => exact Option.some.inj h ▸ Nat.zero_le _
  case isFalse => exact (tryWrite_le h).trans <| by omega

-- The header strings leave the data alone, and what they write is the beginning of what remained.
structure Header (f f₁ : File) (cells : List Cell) : Prop where
  len       : f₁.len = f.len
  file      : f₁.file = f.file
  left      : f₁.left = f.left
  remaining : f.remaining = cells ++ f₁.remaining

theorem Header.trans (h₁ : Header f f₁ cells₁) (h₂ : Header f₁ f₂ cells₂) :
    Header f f₂ (cells₁ ++ cells₂) where
  len       := h₂.len.trans h₁.len
  file      := h₂.file.trans h₁.file
  left      := h₂.left.trans h₁.left
  remaining := by rw [h₁.remaining, h₂.remaining, List.append_assoc]

theorem Header.write {f : File} (hh : f.hdrs = hdr :: hdrs) (n : Nat) :
    Header f (if f.hdrPos + n = hdr.length then { f with hdrs, hdrPos := 0 }
      else { f with hdrPos := f.hdrPos + n })
      (((hdr.drop f.hdrPos).take n).map .rom) := by
  have hr : f.remaining = ((hdr.drop f.hdrPos).take n).map .rom ++
      ((hdr.drop (f.hdrPos + n) ++ hdrs.flatten).map .rom ++
        (List.range' f.file f.left).map .xml) := by
    rw [← List.drop_drop, ← List.append_assoc, ← List.map_append, ← List.append_assoc,
      List.take_append_drop]
    simp [File.remaining, hh]
  split
  case isTrue hn =>
    refine ⟨rfl, rfl, rfl, ?_⟩
    rw [hr, hn, List.drop_length, List.nil_append]
    cases hdrs <;> simp [File.remaining]
  case isFalse =>
    refine ⟨rfl, rfl, rfl, ?_⟩
    rw [hr]
    simp [File.remaining, hh]

theorem sendHeaders_header {f : File} (h : sendHeaders len data tcps f = (f₁, cells, r)) :
    Header f f₁ cells := by
  induction tcps generalizing len data f f₁ cells r with
  | nil =>
    cases h
    exact ⟨rfl, rfl, rfl, rfl⟩
  | cons tcp tcps ih =>
    simp only [sendHeaders] at h
    split at h
    case h_1 =>
      cases h
      exact ⟨rfl, rfl, rfl, rfl⟩
    case h_2 hdr hdrs hh =>
      split at h
      case isTrue =>
        cases h
        exact ⟨rfl, rfl, rfl, rfl⟩
      case isFalse =>
        split at h
        case isTrue =>
          cases h
          exact .write hh _
        case isFalse =>
          cases h
          exact (Header.write hh _).trans (ih rfl)

-- What is written is the beginning of what remained, and the rest remains unless the file is closed.
structure Sends (f : File) (f₁ : Option File) (cells : List Cell) : Prop where
  remaining : ∃ rest, f.remaining = cells ++ rest ∧ ∀ f₂ ∈ f₁, f₂.remaining = rest
  whole     : ∀ f₂ ∈ f₁, f₂.Whole

theorem httpSendDataNonssi_sends (hw : f.Whole) (hh : f.hdrs = [])
    (h : httpSendDataNonssi xmlBuf tcps f = (f₁, cells)) : Sends f (some f₁) cells := by
  simp only [httpSendDataNonssi] at h
  split at h
  case h_1 =>
    cases h
    exact ⟨⟨_, (List.nil_append _).symm, fun _ hm => by cases hm; rfl⟩, by simpa using hw⟩
  case h_2 n hn =>
    have ⟨tcp, _, hn⟩ := Option.bind_eq_some_iff.mp hn
    have hn := (httpWrite_le hn).trans (Nat.min_le_left _ _)
    have hv : f.volatile = false := by
      have : f.file + f.left = f.len := hw
      simp only [File.volatile, decide_eq_false_iff_not, not_not]
      omega
    cases h
    refine ⟨⟨_, ?_, fun _ hm => by cases hm; rfl⟩, fun _ hm => ?_⟩
    · simp only [File.remaining, hh, hv, Bool.false_eq_true, if_false, List.map_nil,
        List.nil_append, ← List.map_append]
      rw [List.range'_append_1, Nat.add_sub_cancel' hn]
    · cases hm
      simpa [File.Whole, Nat.add_assoc, Nat.add_sub_cancel' hn] using hw

theorem httpSendFile_sends (hw : f.Whole) (hh : f.hdrs = [])
    (h : httpSendFile xmlBuf tcps f = (f₁, cells)) : Sends f f₁ cells := by
  simp only [httpSendFile] at h
  split at h
  case isTrue =>
    cases h
    exact ⟨⟨_, (List.nil_append _).symm, by simp⟩, by simp⟩
  case isFalse =>
    cases hd : httpSendDataNonssi xmlBuf tcps f
    rw [hd] at h
    have s := httpSendDataNonssi_sends hw hh hd
    cases h
    have ⟨rest, hr, hf⟩ := s.remaining
    refine ⟨⟨rest, hr, fun f₂ hm => hf f₂ ?_⟩, fun f₂ hm => s.whole f₂ ?_⟩
    all_goals
      split at hm
      · cases hm
      · exact hm

theorem httpSendHeaders_header {f : File} (h : httpSendHeaders tcps f = (f₁, cells, data, r)) :
    Header f f₁ cells ∧ (data = .continue → f₁.hdrs = []) := by
  cases hs : sendHeaders ((tcps.head?.map (·.sndbuf)).getD 0) .no tcps f
  rw [httpSendHeaders, hs] at h
  cases h
  refine ⟨sendHeaders_header hs, fun hd => ?_⟩
  by_contra hn
  simp [hn] at hd

theorem httpSend_sends (hw : f.Whole) (h : httpSend xmlBuf tcps f = (f₁, cells)) :
    Sends f f₁ cells := by
  simp only [httpSend] at h
  split at h
  case isTrue hh => exact httpSendFile_sends hw hh h
  case isFalse =>
    cases hs : httpSendHeaders tcps f with | mk f₂ r =>
    have ⟨hd, hc⟩ := httpSendHeaders_header hs
    have hw : f₂.Whole := by simpa [File.Whole, hd.len, hd.file, hd.left] using hw
    rw [hs] at h
    split at h
    case isTrue he =>
      cases hf : httpSendFile xmlBuf r.2.2 f₂
      simp only [hf] at h
      cases h
      have s := httpSendFile_sends hw (hc he) hf
      have ⟨rest, hr, hm⟩ := s.remaining
      exact ⟨⟨rest, by rw [hd.remaining, hr, List.append_assoc], hm⟩, s.whole⟩
    case isFalse =>
      cases h
      exact ⟨⟨_, hd.remaining, fun _ hm => by cases hm; rfl⟩, fun _ hm => by cases hm; exact hw⟩

namespace Conn

def file (conn : Conn) : Option File :=
  conn.hs.bind (·.handle)

-- What a connection may still transmit
def outstanding (conn : Conn) : List Cell :=
  conn.queue ++ conn.file.elim [] File.remaining

theorem xml_mem_remaining {f : File} : .xml i ∈ f.remaining ↔ f.file ≤ i ∧ i < f.file + f.left := by
  simp [File.remaining, List.mem_range'_1]

theorem pending_iff {conn : Conn} : conn.pending ↔ ∃ i, .xml i ∈ conn.outstanding := by
  simp only [pending, Bool.or_eq_true, List.any_eq_true, outstanding, List.mem_append, exists_or]
  rw [or_comm]
  refine or_congr ⟨?_, ?_⟩ ?_
  · intro ⟨c, hm, hc⟩
    cases c with
    | rom => cases hc
    | xml i => exact ⟨i, hm⟩
  · exact fun ⟨i, hm⟩ => ⟨.xml i, hm, rfl⟩
  · rcases conn with ⟨_ | ⟨_, _ | f⟩, _, _⟩
    case none => simp [file]
    case some.none => simp [file]
    case some.some =>
      simp only [file, Option.any_some, Option.bind_some, Option.elim_some, xml_mem_remaining]
      constructor
      case mp => exact fun h => ⟨f.file, by simp at h; omega⟩
      case mpr => exact fun ⟨i, h⟩ => by simp; omega

-- The bytes of the response are acknowledged, outstanding or lost.
structure Serves (conn : Conn) (doc : Bytes) : Prop where
  stream : ∃ done lost, stream doc = done ++ conn.outstanding ++ lost ∧ done.length = conn.acked
  whole  : ∀ f ∈ conn.file, f.Whole

-- No request has been read.
structure Fresh (conn : Conn) : Prop where
  acked : conn.acked = 0
  queue : conn.queue = []
  file  : conn.file = none

variable {conn conn₁ : Conn}

-- Of what is outstanding a part is acknowledged and another one lost.
structure Advances (conn conn₁ : Conn) : Prop where
  outstanding : ∃ done lost, conn.outstanding = done ++ conn₁.outstanding ++ lost ∧
    conn₁.acked = conn.acked + done.length
  whole       : (∀ f ∈ conn.file, f.Whole) → ∀ f ∈ conn₁.file, f.Whole

theorem Serves.advance (hs : conn.Serves doc) (h : conn.Advances conn₁) : conn₁.Serves doc := by
  have ⟨done, lost, hd, ha⟩ := hs.stream
  have ⟨done₁, lost₁, hd₁, ha₁⟩ := h.outstanding
  exact {
    stream := ⟨done ++ done₁, lost₁ ++ lost, by simp [hd, hd₁], by simp [ha, ha₁]⟩
    whole  := h.whole hs.whole
  }

theorem Advances.pending (h : conn.Advances conn₁) (hp : conn₁.pending) : conn.pending := by
  have ⟨done, lost, hd, _⟩ := h.outstanding
  have ⟨i, hi⟩ := pending_iff.mp hp
  exact pending_iff.mpr ⟨i, by simp [hd, hi]⟩

theorem Advances.refl : conn.Advances conn where
  outstanding := ⟨[], [], by simp, rfl⟩
  whole       := id

theorem Advances.trans (h₁ : conn.Advances conn₁) (h₂ : conn₁.Advances conn₂) :
    conn.Advances conn₂ := by
  have ⟨done₁, lost₁, hd₁, ha₁⟩ := h₁.outstanding
  have ⟨done₂, lost₂, hd₂, ha₂⟩ := h₂.outstanding
  exact {
    outstanding := ⟨done₁ ++ done₂, lost₂ ++ lost₁, by simp [hd₁, hd₂], by simp [ha₁, ha₂]; omega⟩
    whole       := h₂.whole ∘ h₁.whole
  }

-- `http_send` only moves bytes to the queue.
theorem send_advances {hs : Hs} (hf : conn.file = hs.handle) (hw : ∀ f ∈ conn.file, f.Whole) :
    conn.Advances (conn.send xmlBuf tcps hs) := by
  unfold send
  split
  case h_1 hn =>
    have ho : conn.outstanding = conn.queue := by simp only [outstanding, hf, hn]; simp
    exact ⟨⟨[], [], by rw [ho]; simp [outstanding, file], rfl⟩, fun _ => by simp [file]⟩
  case h_2 f hn =>
    cases he : httpSend xmlBuf tcps f with | mk f₁ cells =>
    have s := httpSend_sends (hw f <| by simp [hf, hn]) he
    have ⟨rest, hr, hm⟩ := s.remaining
    have ho : conn.outstanding = conn.queue ++ (cells ++ rest) := by
      simp only [outstanding, hf, hn, Option.elim_some, hr]
    cases f₁ with
    | none =>
      exact ⟨⟨[], rest, by rw [ho]; simp [outstanding, file], rfl⟩, fun _ => by simp [file]⟩
    | some f₂ =>
      refine ⟨⟨[], [], ?_, rfl⟩, fun _ f₃ h₃ => s.whole f₃ <| by simpa [file] using h₃⟩
      rw [ho]
      simp [outstanding, file, hm f₂ rfl]

theorem turn_advances (hw : ∀ f ∈ conn.file, f.Whole)
    (h : conn.turn xmlBuf t = some (conn₁, seg)) : conn.Advances conn₁ := by
  cases t with
  | sent n tcps =>
    simp only [turn] at h
    split at h
    case isFalse => cases h
    case isTrue hn =>
      have ha : conn.Advances { conn with acked := conn.acked + n, queue := conn.queue.drop n } :=
        ⟨⟨conn.queue.take n, [], by simp [outstanding, file, ← List.append_assoc], by simp; omega⟩,
          id⟩
      split at h
      case h_1 =>
        cases h
        exact ha
      case h_2 hs =>
        cases h
        exact ha.trans <| send_advances (by simp [file, hs]) hw
  | poll tcps =>
    simp only [turn] at h
    split at h
    case h_1 =>
      cases h
      exact .refl
    case h_2 st hs =>
      split_ifs at h
      case pos =>
        cases h
        exact ⟨⟨[], conn.file.elim [] File.remaining, by simp [outstanding, file], rfl⟩,
          fun _ => by simp [file]⟩
      case pos =>
        cases h
        exact send_advances (by simp [file, hs]) hw
      case neg =>
        cases h
        exact ⟨⟨[], [], by simp [outstanding, file, hs], rfl⟩, by simp [file, hs]⟩
  | transmit off n =>
    simp only [turn] at h
    split_ifs at h
    cases h
    exact .refl
  | recvNull =>
    cases h
    exact ⟨⟨[], conn.file.elim [] File.remaining, by simp [outstanding, file], rfl⟩,
      fun _ => by simp [file]⟩
  | err =>
    cases h
    exact ⟨⟨[], conn.outstanding, by simp [outstanding, file], rfl⟩, fun _ => by simp [file]⟩

-- `XMLBuf` begins with the document.
def Shows (xmlBuf doc : Bytes) : Prop :=
  ∀ i < doc.length, xmlBuf.getD i 0 = doc.getD i 0

-- A segment lies in the response at its own position.
def Within (doc : Bytes) (s : Segment) : Prop :=
  s.2 = ((response doc).drop s.1).take s.2.length

theorem Serves.mem_queue (hs : conn.Serves doc) (h : .xml i ∈ conn.queue) : i < doc.length := by
  have ⟨done, lost, hd, _⟩ := hs.stream
  have : .xml i ∈ Httpd.stream doc := by simp [hd, outstanding, h]
  simpa [Httpd.stream, List.mem_range'_1] using this

theorem Serves.read_queue (hs : conn.Serves doc) (hx : conn.pending → Shows xmlBuf doc) :
    ∀ c ∈ conn.queue, c.read xmlBuf = c.read doc := by
  intro c hc
  cases c with
  | rom b => rfl
  | xml i =>
    have hp : conn.pending := pending_iff.mpr ⟨i, by simp [outstanding, hc]⟩
    exact hx hp i <| hs.mem_queue hc

-- What is transmitted of the queue is what the response has there.
theorem Serves.within (hs : conn.Serves doc) (hx : conn.pending → Shows xmlBuf doc)
    (h : conn.turn xmlBuf t = some (conn₁, some s)) : Within doc s := by
  cases t with
  | sent n tcps =>
    simp only [turn] at h
    split at h
    · split at h <;> cases h
    · cases h
  | poll tcps =>
    simp only [turn] at h
    split at h
    · cases h
    · split_ifs at h <;> cases h
  | transmit off n =>
    simp only [turn] at h
    split_ifs at h
    cases h
    have ⟨done, lost, hd, ha⟩ := hs.stream
    have hr : ((conn.queue.drop off).take n).map (Cell.read xmlBuf) =
        ((conn.queue.drop off).take n).map (Cell.read doc) :=
      List.map_congr_left fun c hc =>
        hs.read_queue hx c <| List.mem_of_mem_drop <| List.mem_of_mem_take hc
    have hq : ((Httpd.stream doc).drop (conn.acked + off)).take
        ((conn.queue.drop off).take n).length = (conn.queue.drop off).take n := by
      rw [hd, ← ha, ← List.drop_drop, List.append_assoc, List.drop_left, outstanding,
        List.append_assoc, List.drop_append, List.take_append_of_le_length (by simp)]
      exact List.take_eq_take_iff.mpr <| by simp
    rw [Within, hr, ← stream_read, List.length_map, ← List.map_drop, ← List.map_take, hq]
  | recvNull | err => cases h

theorem Fresh.turn (hc : conn.Fresh) (h : conn.turn xmlBuf t = some (conn₁, seg)) :
    conn₁.Fresh ∧ seg = none := by
  have ⟨ha, hq, hf⟩ := hc
  cases t with
  | sent n tcps => simp [Conn.turn, hq] at h
  | poll tcps =>
    simp only [Conn.turn] at h
    split at h
    case h_1 =>
      cases h
      exact ⟨hc, rfl⟩
    case h_2 st hs =>
      have hn : st.handle = none := by simpa [Conn.file, hs] using hf
      simp only [hn, Option.isSome_none, Bool.false_eq_true, if_false] at h
      split at h <;> cases h <;> exact ⟨⟨ha, hq, by simp [Conn.file]⟩, rfl⟩
  | transmit off n =>
    simp only [Conn.turn, hq, List.length_nil] at h
    split at h
    case isTrue hn => omega
    case isFalse => cases h
  | recvNull =>
    cases h
    exact ⟨⟨ha, hq, by simp [Conn.file]⟩, rfl⟩
  | err =>
    cases h
    exact ⟨⟨ha, rfl, by simp [Conn.file]⟩, rfl⟩

theorem send_awaitsRequest {hs : Hs} : (conn.send xmlBuf tcps hs).awaitsRequest = false := by
  unfold send
  split
  case h_1 => rfl
  case h_2 f _ => cases he : (httpSend xmlBuf tcps f).1 <;> simp [awaitsRequest, he]

theorem turn_awaitsRequest (hn : conn.awaitsRequest = false)
    (h : conn.turn xmlBuf t = some (conn₁, seg)) : conn₁.awaitsRequest = false := by
  cases t with
  | sent n tcps =>
    simp only [turn] at h
    split at h
    case isFalse => cases h
    case isTrue =>
      split at h
      case h_1 =>
        cases h
        exact hn
      case h_2 =>
        cases h
        exact send_awaitsRequest
  | poll tcps =>
    simp only [turn] at h
    split at h
    case h_1 =>
      cases h
      exact hn
    case h_2 hs =>
      split_ifs at h <;> cases h
      · rfl
      · exact send_awaitsRequest
      · simpa [awaitsRequest, hs] using hn
  | transmit off n =>
    simp only [turn] at h
    split_ifs at h
    cases h
    exact hn
  | recvNull | err =>
    cases h
    rfl

-- A request makes its connection serve the document that has been generated.
theorem Fresh.request (hc : conn.Fresh) : (conn.request xmlBuf doc.length tcps).Serves doc := by
  have ⟨ha, hq, _⟩ := hc
  let f : File := ⟨doc.length, xmlHdrs, 0, 0, doc.length⟩
  have hw : ∀ f₁ ∈ some f, f₁.Whole := fun f₁ h => by
    cases h
    exact Nat.zero_add _
  have hs : Serves { conn with hs := some ⟨0, some f⟩ } doc := by
    refine ⟨⟨[], [], ?_, ha.symm⟩, hw⟩
    simp [outstanding, hq, Conn.file, f, File.remaining, Httpd.stream, xmlHdrs]
  have he : conn.request xmlBuf doc.length tcps =
    Conn.send { conn with hs := some ⟨0, some f⟩ } xmlBuf tcps ⟨0, some f⟩ := rfl
  rw [he]
  exact hs.advance <| send_advances rfl hw

end Conn

theorem strcpy_shows {b b₁ : Buffer cap} (h : b.strcpy doc = some b₁) :
    Conn.Shows b₁.bytes doc := by
  intro i hi
  have := Buffer.get_write h (i := i) (by simp; omega)
  simpa [Buffer.get, List.getElem_append_left hi, hi] using this

-- A connection has had no request yet, or it serves the document that has been generated for it.
def Conn.Held (t : List Obs) (xmlBuf : Bytes) (c : Nat) (conn : Conn) : Prop :=
  conn.Fresh ∨ conn.awaitsRequest = false ∧
    ∃ doc, .generated c doc ∈ t ∧ conn.Serves doc ∧ (conn.pending → Conn.Shows xmlBuf doc)

-- The document that is generated for a connection
def Obs.doc (c : Nat) : Obs → Option Bytes
  | .generated d doc => if d = c then some doc else none
  | .segment _ _     => none

-- What TCP sends on a connection belongs to the response with the document of its own request.
def Own (past : List Obs) : Obs → Prop
  | .generated _ _ => True
  | .segment c s   => ∃ doc ∈ past.filterMap (Obs.doc c), Conn.Within doc s

-- The event puts a text together in `XMLBuf`.
def State.writes (s : State) : Event → Bool
  | .wcl e            => writesXml s.wcl e
  | .request c _ _ _  => s.conns[c]?.any (·.awaitsRequest)
  | .accept | .turn .. => false

def Event.dirError : Event → Option Nat
  | .request _ _ dirError _ => dirError
  | _                       => none

-- Whenever a text is put together in `XMLBuf`, all data in it have been acknowledged or given up, and
-- no listing of a directory ends with an error.
def Settled (s : State) (e : Event) : Prop :=
  s.writes e → (∀ conn ∈ s.conns, conn.pending = false) ∧ e.dirError = none

structure Inv (t : List Obs) (s : State) : Prop where
  held : ∀ c conn, s.conns[c]? = some conn → Conn.Held t s.xmlBuf.bytes c conn
  own  : Always Own t

variable {s s₁ : State} {t o : List Obs}

theorem Conn.Held.mono (h : Held t xmlBuf c conn) (hx : conn.pending → xmlBuf₁ = xmlBuf) :
    Held (t ++ o) xmlBuf₁ c conn := by
  refine h.imp_right fun ⟨hn, doc, hd, hs, hp⟩ => ?_
  exact ⟨hn, doc, List.mem_append_left _ hd, hs, fun h => hx h ▸ hp h⟩

theorem Inv.wcl (i : Inv t s) (g : Settled s (.wcl e)) (h : step s (.wcl e) = some (s₁, o)) :
    Inv (t ++ o) s₁ := by
  simp only [step, Option.bind_eq_bind, Option.bind_eq_some_iff] at h
  have ⟨⟨w, u⟩, _, xmlBuf, hx, h⟩ := h
  cases h
  refine ⟨fun c conn hc => (i.held c conn hc).mono fun hp => ?_, by simpa using i.own⟩
  cases hw : writesXml s.wcl e with
  | true =>
    have := (g hw).1 conn <| List.mem_of_getElem? hc
    simp [hp] at this
  | false =>
    simp only [hw, Bool.false_eq_true, if_false] at hx
    cases hx
    rfl

theorem Inv.accept (i : Inv t s) (h : step s .accept = some (s₁, o)) : Inv (t ++ o) s₁ := by
  cases h
  refine ⟨fun c conn hc => ?_, by simpa using i.own⟩
  simp only [List.getElem?_append] at hc
  split at hc
  case isTrue => exact (i.held c conn hc).mono fun _ => rfl
  case isFalse =>
    have ⟨_, hc⟩ := List.getElem?_eq_some_iff.mp hc
    simp only [List.getElem_singleton] at hc
    exact .inl <| hc ▸ ⟨rfl, rfl, rfl⟩

theorem Inv.request (i : Inv t s) (g : Settled s (.request c doc dirError tcps))
    (h : step s (.request c doc dirError tcps) = some (s₁, o)) : Inv (t ++ o) s₁ := by
  simp only [step, Option.bind_eq_bind, Option.bind_eq_some_iff] at h
  have ⟨conn, hc, h⟩ := h
  split at h
  case isFalse =>
    cases h
    exact ⟨fun c conn hc => (i.held c conn hc).mono fun _ => rfl, by simpa using i.own⟩
  case isTrue hw =>
    have ⟨hp, he⟩ := g <| by simpa [State.writes, hc] using hw
    simp only [Option.bind_eq_some_iff] at h
    have ⟨xmlBuf, hx, h⟩ := h
    cases h
    refine ⟨fun d conn₁ hd => ?_, i.own.concat trivial⟩
    rw [List.getElem?_set] at hd
    split at hd
    case isTrue hcd =>
      have hf : conn.Fresh := (i.held c conn hc).resolve_right fun ⟨hn, _⟩ => by simp [hw] at hn
      split at hd <;> cases hd
      cases hcd
      cases (show dirError = none from he)
      refine .inr ⟨Conn.send_awaitsRequest, doc.bytes, by simp, hf.request, fun _ => ?_⟩
      exact strcpy_shows hx
    case isFalse =>
      refine (i.held d conn₁ hd).mono fun hq => ?_
      simp [hp conn₁ <| List.mem_of_getElem? hd] at hq

theorem Conn.Held.turn (h : Held t xmlBuf c conn)
    (ht : conn.turn xmlBuf u = some (conn₁, seg)) :
    Held t xmlBuf c conn₁ ∧ ∀ s ∈ seg, Own t (.segment c s) := by
  rcases h with hf | ⟨hn, doc, hd, hs, hx⟩
  case inl =>
    have ⟨hf, hn⟩ := hf.turn ht
    exact ⟨.inl hf, by simp [hn]⟩
  case inr =>
    have ha := turn_advances hs.whole ht
    refine ⟨.inr ⟨turn_awaitsRequest hn ht, doc, hd, hs.advance ha, hx ∘ ha.pending⟩, fun s h => ?_⟩
    cases h
    exact ⟨doc, List.mem_filterMap.mpr ⟨_, hd, by simp [Obs.doc]⟩, hs.within hx ht⟩

theorem Inv.turn (i : Inv t s) (h : step s (.turn c u) = some (s₁, o)) : Inv (t ++ o) s₁ := by
  simp only [step, Option.bind_eq_bind, Option.bind_eq_some_iff] at h
  have ⟨conn, hc, ⟨conn₁, seg⟩, ht, h⟩ := h
  cases h
  have ⟨hh, ho⟩ := (i.held c conn hc).turn ht
  refine ⟨fun d conn₂ hd => ?_, ?_⟩
  · rw [List.getElem?_set] at hd
    split at hd
    case isTrue hcd =>
      split at hd <;> cases hd
      exact hcd ▸ hh.mono fun _ => rfl
    case isFalse => exact (i.held d conn₂ hd).mono fun _ => rfl
  · cases seg with
    | none => simpa using i.own
    | some u => exact i.own.concat <| ho u rfl

theorem Inv.step (i : Inv t s) (g : Settled s e) (h : device.step s e = some (s₁, o)) :
    Inv (t ++ o) s₁ := by
  cases e with
  | wcl e => exact i.wcl g h
  | accept => exact i.accept h
  | request c doc dirError tcps => exact i.request g h
  | turn c u => exact i.turn h

-- As long as each text in `XMLBuf` is acknowledged before the next one is put together, TCP sends on
-- each connection what belongs to its own document.
theorem document_law (g : device.Guarded Settled (State.init env) es)
    (h : device.run (State.init env) es = some (s, t)) : Always Own t := by
  have i : Inv [] (State.init env) := ⟨by simp [State.init], .nil⟩
  exact (Machine.run_history (t := []) (I := Inv) (fun i g h => i.step g h) i g h).own

instance : Decidable (Settled s e) :=
  inferInstanceAs <| Decidable (_ → _ ∧ _)

instance : DecidablePred (Own t)
  | .generated _ _ => isTrue trivial
  | .segment _ _   => inferInstanceAs <| Decidable (∃ doc ∈ _, _ = _)

def env : Wapp.Env :=
  ⟨fun _ => 0, Buffer.zero 1024, fun _ => 0, default, default, default, fun _ => 0, fun _ => 0,
    ⟨Buffer.zero 160, fun _ => false, false⟩⟩

def createXMLHeader : Bytes :=
  ascii "<?xml version=\"1.0\" encoding=\"ISO-8859-1\" ?>"

-- `XMLOk`, and `XMLCredit` before the credit has been read
def xmlOk : List Bytes :=
  createXMLHeader :: (Wcl.openTag (ascii "STATE") ++ Wcl.addTag (ascii "OK") (ascii "ok") ++
    Wcl.closeTag (ascii "STATE"))

def xmlCredit : List Bytes :=
  createXMLHeader :: (Wcl.openTag (ascii "CREDIT") ++ Wcl.addTag (ascii "STATE") [] ++
    Wcl.closeTag (ascii "CREDIT"))

-- A request, the acknowledgement of the header strings, and the document in a segment
def page (c : Nat) (doc : CString Wcl.xmlCap) : List Event :=
  let tcp : Tcp := ⟨5360, 536, false, fun _ => .ok⟩
  [.request c doc none [tcp, tcp, tcp], .turn c <| .sent xmlHdrs.flatten.length [tcp],
    .turn c <| .transmit 0 doc.bytes.length]

-- The first document is acknowledged before the second one is asked for.
def oneByOne : List Event :=
  let doc : CString Wcl.xmlCap := ⟨xmlOk.flatten, by decide +kernel⟩
  [Event.accept, .accept] ++ page 0 doc ++ [Event.turn 0 <| .sent doc.bytes.length []] ++
    page 1 ⟨xmlCredit.flatten, by decide +kernel⟩

theorem document_law_one_by_one : ∃ s t, device.run (State.init env) oneByOne = some (s, t) ∧
    (∃ u ∈ t, u = .segment 1 (xmlHdrs.flatten.length, xmlCredit.flatten)) ∧ Always Own t := by
  have g : device.Guarded Settled (State.init env) oneByOne := by decide +kernel
  have : (device.run (State.init env) oneByOne).any fun (_, t) =>
      ∃ u ∈ t, u = .segment 1 (xmlHdrs.flatten.length, xmlCredit.flatten) := by decide +kernel
  have ⟨(s, t), hr, ht⟩ := Option.any_eq_true _ _ |>.mp this
  exact ⟨s, t, hr, of_decide_eq_true ht, document_law g hr⟩

-- The segment with the first document is lost, and sent again when there is another document in
-- `XMLBuf`.
def sentAgain : List Event :=
  let doc : CString Wcl.xmlCap := ⟨xmlOk.flatten, by decide +kernel⟩
  [Event.accept, .accept] ++ page 0 doc ++ page 1 ⟨xmlCredit.flatten, by decide +kernel⟩ ++
    [.turn 0 <| .transmit 0 doc.bytes.length]

theorem other_document_sent :
    ¬∀ env es s t, device.run (State.init env) es = some (s, t) → Always Own t := by
  intro h
  have : (device.run (State.init env) sentAgain).any fun (_, t) => ¬Always Own t := by
    decide +kernel
  have ⟨(s, t), hr, ht⟩ := Option.any_eq_true _ _ |>.mp this
  exact of_decide_eq_true ht (h _ _ _ _ hr)

end Httpd
