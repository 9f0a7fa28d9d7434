import Webtermo.Execution.Httpc.Theorems.Ledger

open Lwip

namespace Httpc

def contentLength : Bytes := ascii "Content-Length: "

-- The number text between two positions
def numText (d : Bytes) (p q : Nat) : Bytes :=
  (d.drop p).take (q - p)

-- An answer of a server, with what the client relies on to read the same in it, wherever TCP cuts it:
-- the number of the status lies between two spaces of the first line, and the text in front of the
-- content length does not come first in the body.
structure Answer where
  head      : Bytes
  body      : Bytes
  lineEnd   : Nat
  space₁    : Nat
  space₂    : Nat
  length    : Option (Nat × Nat)
  line      : Find.First crlf head 0 lineEnd
  before    : Find.First [32] head 0 space₁
  behind    : Find.First [32] head (space₁ + 1) space₂
  reason    : space₂ < lineEnd
  proto     : ascii "HTTP/" <+: head
  dot       : head.getD 6 0 = 46
  digits    : space₂ ≤ space₁ + 10
  valid     : 0 < atoi (numText head (space₁ + 1) space₂) ∧ atoi (numText head (space₁ + 1) space₂) ≤ 0xFFFF
  empty     : Find.First (crlf ++ crlf) head 0 (head.length - 4)
  fits      : head.length < 2 ^ 16
  field     : ∀ x ∈ length, Find.First contentLength head 0 x.1 ∧ Find.First crlf head x.1 x.2 ∧
    x.1 + 16 ≤ x.2 ∧ x.2 < x.1 + 32
  missing   : length = none → ∀ q, ¬contentLength <+: (head ++ body).drop q

namespace Answer

variable {w : Answer}

def bytes (w : Answer) : Bytes :=
  w.head ++ w.body

-- The status in the first line
def status (w : Answer) : UInt16 :=
  UInt16.ofInt <| atoi <| numText w.head (w.space₁ + 1) w.space₂

-- The content length, if the headers have one
def contentLen (w : Answer) : UInt32 :=
  match w.length with
  | none        => contentLenInvalid
  | some (p, q) =>
    let n := atoi <| numText w.head (p + 16) q
    if 0 ≤ n ∧ UInt32.ofInt n < contentLenInvalid then UInt32.ofInt n else contentLenInvalid

-- How far the client has come after the first bytes of the answer
def state (w : Answer) (n : Nat) : ParseState :=
  if n < w.lineEnd + 2 then .waitFirstLine
  else if n < w.head.length then .waitHeaders
  else .rxData

-- What is reported if the connection is closed after the first bytes of the answer
def outcome (w : Answer) (n : Nat) : Result :=
  if n < w.head.length then .errClosed
  else if w.contentLen ≠ contentLenInvalid ∧ w.contentLen ≠ (n - w.head.length).toUInt32 then .errContentLen
  else .ok

def statusAfter (w : Answer) (n : Nat) : UInt16 :=
  if n < w.lineEnd + 2 then 0 else w.status

theorem head_length (w : Answer) : w.lineEnd + 2 ≤ w.head.length ∧ 4 ≤ w.head.length := by
  have h₁ := Find.occurs_le (by decide) w.line.occurs
  have h₂ := Find.occurs_le (by decide) w.empty.occurs
  simp only [crlf, List.length_append, List.length_cons, List.length_nil] at h₁ h₂
  omega

end Answer

-- The request has read the bytes of the answer.
structure Read (w : Answer) (d : Bytes) (r : Req) : Prop where
  state   : r.parseState = w.state d.length
  headers : r.rxHdrs.bytes = if d.length < w.head.length then d else []
  status  : r.rxStatus = w.statusAfter d.length
  content : w.head.length ≤ d.length → r.hdrContentLen = w.contentLen
  length  : r.rxContentLen = (d.length - w.head.length).toUInt32

variable {w : Answer} {d : Bytes} {p : Chain}

theorem slice_initial {a b : Bytes} (h : a <+: b) (hl : m + n ≤ a.length) :
    (a.drop m).take n = (b.drop m).take n := by
  obtain ⟨l, rfl⟩ := h
  rw [List.drop_append_of_le_length (by omega), List.take_append_of_le_length (by simp; omega)]

theorem getD_initial {a b : Bytes} (h : a <+: b) (hl : n < a.length) : a.getD n 0 = b.getD n 0 := by
  obtain ⟨l, rfl⟩ := h
  exact (List.getD_append _ _ _ _ hl).symm

theorem getD_of_occurs {key a : Bytes} (h : key <+: a.drop q) (hl : n < key.length) :
    a.getD (q + n) 0 = key.getD n 0 := by
  rw [getD_initial h hl]
  simp [List.getD_eq_getElem?_getD]

-- The end of the line lies behind the version.
theorem Answer.version_le (w : Answer) : 7 ≤ w.lineEnd := by
  have h (n : Nat) (hn : n < 2) := getD_of_occurs w.line.occurs (n := n) hn
  have h₀ : w.head.getD w.lineEnd 0 = 13 := h 0 (by decide)
  have h₁ : w.head.getD (w.lineEnd + 1) 0 = 10 := h 1 (by decide)
  have hp (n : Nat) (hn : n < 5) : w.head.getD n 0 = (ascii "HTTP/").getD n 0 :=
    (getD_initial w.proto hn).symm
  have hd := w.dot
  by_contra hl
  obtain hn | hn | hn : w.lineEnd < 5 ∨ w.lineEnd = 5 ∨ w.lineEnd = 6 := by omega
  · have hc : ∀ n < 5, (ascii "HTTP/").getD n 0 ≠ 13 := by decide
    exact hc _ hn <| (hp _ hn).symm.trans h₀
  · rw [hn] at h₁
    cases h₁.symm.trans hd
  · rw [hn] at h₀
    cases h₀.symm.trans hd

-- What is found in the bytes so far is what is found in the head, if it lies in them.
theorem memfind_of_first (hk : key ≠ []) (f : Find.First key w.head start q) (hd : p.bytes <+: w.bytes)
    (hp : p.bytes.length < 2 ^ 16) :
    p.memfind key start = if q + key.length ≤ p.bytes.length then q else 0xFFFF := by
  obtain ⟨l, hl⟩ := hd
  have hf : Find.find key (p.bytes ++ l) start = some q := by
    rw [hl]
    exact Find.find_eq_some_iff hk |>.mpr <| f.append hk
  rw [Chain.memfind_eq hp, Find.find_left hk (r := l), hf]
  by_cases h : q + key.length ≤ p.bytes.length
  case pos => rw [if_pos h, Option.filter_some_pos (by simpa using h), Option.getD_some]
  case neg => rw [if_neg h, Option.filter_some_neg (by simpa using h), Option.getD_none]

theorem dropWhile_isSpace_nul : (u ++ 0 :: v).dropWhile isSpace = u.dropWhile isSpace ++ 0 :: v := by
  rw [List.dropWhile_append, List.dropWhile_cons_of_neg (by decide)]
  split
  case isTrue h => rw [List.isEmpty_iff.mp h, List.nil_append]
  case isFalse => rfl

theorem takeWhile_isDigit_nul : (u ++ 0 :: v).takeWhile isDigit = u.takeWhile isDigit := by
  rw [List.takeWhile_append, List.takeWhile_cons_of_neg (by decide), List.append_nil]
  split
  case isTrue h => exact ((List.takeWhile_prefix _).eq_of_length h).symm
  case isFalse => rfl

-- A NUL ends the number.
theorem atoi_nul : atoi (u ++ 0 :: v) = atoi u := by
  unfold atoi
  rw [dropWhile_isSpace_nul]
  cases u.dropWhile isSpace with
  | nil => rfl
  | cons c s =>
    have h (c) : (c :: (s ++ 0 :: v)).takeWhile isDigit = (c :: s).takeWhile isDigit :=
      takeWhile_isDigit_nul (u := c :: s)
    by_cases h₁ : c = 45
    case pos => simp only [h₁, List.cons_append, takeWhile_isDigit_nul]
    case neg =>
      by_cases h₂ : c = 43
      case pos => simp only [h₂, List.cons_append, takeWhile_isDigit_nul]
      case neg => simp [h₁, h₂, h]

theorem number_nul {b : Buffer cap} (h : b.bytes = u ++ 0 :: v) : number b = some (atoi u) := by
  have hn (s : Bytes) (hs : 0 ∈ s) : ¬s.all isDigit := fun ha =>
    absurd (List.all_eq_true.mp ha 0 hs) (by decide)
  unfold number
  rw [h, dropWhile_isSpace_nul, atoi_nul]
  refine if_neg <| hn _ ?_
  cases u.dropWhile isSpace with
  | nil => exact List.mem_cons_self
  | cons c s =>
    have hm : 0 ∈ s ++ 0 :: v := by simp
    split
    case h_1 e => exact (List.cons.inj e).2 ▸ hm
    case h_2 e => exact (List.cons.inj e).2 ▸ hm
    case h_3 => exact List.mem_cons_of_mem _ hm

-- A text that is shorter than the array has a NUL behind it.
theorem zero_number (h : d.length < cap) : ((Buffer.zero cap).write 0 d).bind number = some (atoi d) := by
  have hw : 0 + d.length ≤ cap := by omega
  obtain ⟨b, hb⟩ := (Buffer.zero cap).write_eq_some hw
  have hr : (Buffer.zero cap).bytes.drop (0 + d.length) = 0 :: List.replicate (cap - d.length - 1) 0 := by
    rw [← List.replicate_succ, show cap - d.length - 1 + 1 = cap - d.length by omega]
    simp [Buffer.zero]
  have hd : b.bytes = d ++ 0 :: List.replicate (cap - d.length - 1) 0 := by
    rw [Buffer.write_bytes hb, hr, List.take_zero, List.nil_append]
  rw [hb, Option.bind_some, number_nul hd]

theorem toUInt32_sub (h : m + 1 ≤ n) (hn : n < 2 ^ 16) :
    (n.toUInt32 - m.toUInt32 - 1).toNat = n - m - 1 := by
  have h₁ : n.toUInt32.toNat = n := by simp; omega
  have h₂ : m.toUInt32.toNat = m := by simp; omega
  rw [UInt32.toNat_sub, UInt32.toNat_sub, h₁, h₂, UInt32.toNat_one]
  omega

-- The first line is not read before it has come to its end.
theorem parse_open (hd : r.rxHdrs.bytes <+: w.bytes) (hl : r.rxHdrs.bytes.length < w.lineEnd + 2)
    (hf : r.rxHdrs.bytes.length < 2 ^ 16) : parseResponseStatus r = some (r, .val) := by
  have he : r.rxHdrs.memfind crlf 0 = 0xFFFF := by
    rw [memfind_of_first (by decide) w.line hd hf]
    exact if_neg <| Nat.not_le_of_lt hl
  rw [parseResponseStatus, if_neg fun h => h.1 he]

theorem parse_line (hd : r.rxHdrs.bytes <+: w.bytes) (hl : w.lineEnd + 2 ≤ r.rxHdrs.bytes.length)
    (hf : r.rxHdrs.bytes.length < 2 ^ 16) : ∃ version, parseResponseStatus r =
      some ({ r with rxHttpVersion := version, rxStatus := w.status }, .ok) := by
  have hh : w.head <+: w.bytes := List.prefix_append ..
  have hv := w.version_le
  have hr := w.reason
  have hs := w.behind.le
  have hfit := w.fits
  have hlen := w.head_length
  have he : r.rxHdrs.memfind crlf 0 = w.lineEnd := by
    rw [memfind_of_first (by decide) w.line hd hf]
    exact if_pos hl
  have h₁ : r.rxHdrs.memfind [32] 0 = w.space₁ := by
    rw [memfind_of_first (by decide) w.before hd hf]
    exact if_pos <| by simp; omega
  have h₂ : r.rxHdrs.memfind [32] (w.space₁ + 1) = w.space₂ := by
    rw [memfind_of_first (by decide) w.behind hd hf]
    exact if_pos <| by simp; omega
  have hp : r.rxHdrs.memcmp 0 (ascii "HTTP/") = 0 := by
    have h5 : (ascii "HTTP/").length = 5 := rfl
    rw [Chain.memcmp_eq_zero_iff hf, List.drop_zero, h5]
    refine ⟨by omega, ?_⟩
    exact List.prefix_of_prefix_length_le (w.proto.trans hh) hd (by omega)
  have hdot : r.rxHdrs.getAt 6 = 46 := by
    rw [Chain.getAt_eq, getD_initial hd (by omega), ← getD_initial hh (by omega), w.dot]
  have hn : (w.space₂.toUInt32 - w.space₁.toUInt32 - 1).toNat = w.space₂ - w.space₁ - 1 :=
    toUInt32_sub hs (by omega)
  have ht : r.rxHdrs.copyPartial (w.space₂ - w.space₁ - 1) (w.space₁ + 1) =
      (w.head.drop (w.space₁ + 1)).take (w.space₂ - w.space₁ - 1) := by
    rw [Chain.copyPartial_eq, slice_initial hd (by omega), ← slice_initial hh (by omega)]
  have hc : ((w.head.drop (w.space₁ + 1)).take (w.space₂ - w.space₁ - 1)).length =
      w.space₂ - w.space₁ - 1 := by
    rw [List.length_take, List.length_drop]
    omega
  have htext : statusNum ((w.head.drop (w.space₁ + 1)).take (w.space₂ - w.space₁ - 1)) =
      some (atoi <| numText w.head (w.space₁ + 1) w.space₂) := by
    refine (zero_number ?_).trans ?_
    · have := w.digits
      omega
    · rw [numText, Nat.sub_sub]
  have hmod : (w.space₂ - w.space₁ - 1) % 2 ^ 16 = w.space₂ - w.space₁ - 1 := Nat.mod_eq_of_lt (by omega)
  refine ⟨((r.rxHdrs.getAt 5).toUInt16 - 48) <<< 8 ||| ((r.rxHdrs.getAt 7).toUInt16 - 48), ?_⟩
  have hg : w.lineEnd ≠ 0xFFFF ∧ w.space₁ ≠ 0xFFFF := by omega
  have hg₂ : w.space₂ ≠ 0xFFFF := by omega
  simp only [parseResponseStatus, he, h₁, h₂, hp, hdot, hg, if_pos hg₂, hn, hmod, ht, htext, hc,
    Option.bind_eq_bind, Option.bind_some, not_false_eq_true, ne_eq, and_true, if_true, true_and]
  exact if_pos w.valid

theorem toUInt16_sub (h : m + 16 ≤ n) (hn : n < 2 ^ 16) : (n.toUInt16 - m.toUInt16 - 16).toNat = n - m - 16 := by
  have h₁ : n.toUInt16.toNat = n := by simp; omega
  have h₂ : m.toUInt16.toNat = m := by simp; omega
  rw [UInt16.toNat_sub, UInt16.toNat_sub, h₁, h₂, show (16 : UInt16).toNat = 16 from rfl]
  omega

theorem memfind_empty (hd : p.bytes <+: w.bytes) (hf : p.bytes.length < 2 ^ 16) :
    p.memfind (crlf ++ crlf) 0 = if w.head.length ≤ p.bytes.length then w.head.length - 4 else 0xFFFF := by
  have h₄ : (crlf ++ crlf).length = 4 := rfl
  have := w.head_length
  rw [memfind_of_first (by decide) w.empty hd hf, h₄, Nat.sub_add_cancel this.2]

theorem wait_open (hd : p.bytes <+: w.bytes) (hl : p.bytes.length < w.head.length)
    (hf : p.bytes.length < 2 ^ 16) : waitHeaders p = some none := by
  have h := memfind_empty hd hf
  rw [if_neg <| Nat.not_le_of_lt hl] at h
  simp only [waitHeaders, h]
  rfl

theorem contentLen_line (hd : p.bytes <+: w.bytes) (hl : w.head.length ≤ p.bytes.length)
    (hf : p.bytes.length < 2 ^ 16) (hw : w.length = some (k, l)) : contentLen p k = some w.contentLen := by
  obtain ⟨-, hc, h16, h32⟩ := w.field _ hw
  have hh : w.head <+: w.bytes := List.prefix_append ..
  have hle : l + 2 ≤ w.head.length := Find.occurs_le (by decide) hc.occurs
  have hfit := w.fits
  have he : p.memfind crlf k = l := by
    rw [memfind_of_first (by decide) hc hd hf]
    exact if_pos (hle.trans hl)
  have hn : (l.toUInt16 - k.toUInt16 - 16).toNat = l - k - 16 := toUInt16_sub h16 (by omega)
  have ht : p.copyPartial (l - k - 16) (k + 16) = (w.head.drop (k + 16)).take (l - k - 16) := by
    rw [Chain.copyPartial_eq, slice_initial hd (by omega), ← slice_initial hh (by omega)]
  have hlen : ((w.head.drop (k + 16)).take (l - k - 16)).length = l - k - 16 := by
    rw [List.length_take, List.length_drop]
    omega
  have htext : contentLenNum ((w.head.drop (k + 16)).take (l - k - 16)) =
      some (atoi <| numText w.head (k + 16) l) := by
    refine (zero_number (by omega)).trans ?_
    rw [numText, Nat.sub_sub]
  have hi : l ≠ 0xFFFF := by omega
  simp only [contentLen, he, if_pos hi, hn, ht, htext, hlen, Option.bind_eq_bind, Option.bind_some, true_and,
    Answer.contentLen, hw]
  split <;> rfl

theorem wait_done (hd : p.bytes <+: w.bytes) (hl : w.head.length ≤ p.bytes.length)
    (hf : p.bytes.length < 2 ^ 16) : waitHeaders p = some (some (w.contentLen, w.head.length)) := by
  have he := memfind_empty hd hf
  rw [if_pos hl] at he
  have hfit := w.fits
  have hlen := w.head_length
  have hend : w.head.length - 4 < 0xFFFF - 2 := by omega
  have htot : (w.head.length - 4 + 4) % 2 ^ 16 = w.head.length := by omega
  cases hw : w.length with
  | none =>
    have hn : Find.find (ascii "Content-Length: ") p.bytes 0 = none := by
      obtain ⟨t, ht⟩ := hd
      have : Find.find (ascii "Content-Length: ") (p.bytes ++ t) 0 = none := by
        rw [ht]
        exact Find.find_eq_none_iff (by decide) |>.mpr fun q _ => w.missing hw q
      rw [Find.find_left (by decide) (r := t), this]
      rfl
    have hm : p.memfind (ascii "Content-Length: ") 0 = 0xFFFF := by
      rw [Chain.memfind_eq hf, hn]
      rfl
    simp only [waitHeaders, he, if_pos hend, htot, hm, Answer.contentLen, hw, ne_eq, not_true_eq_false,
      if_false, Option.bind_eq_bind, Option.bind_some]
  | some x =>
    obtain ⟨k, l⟩ := x
    obtain ⟨hk, -⟩ := w.field _ hw
    have hle : k + 16 ≤ w.head.length := Find.occurs_le (by decide) hk.occurs
    have hm : p.memfind (ascii "Content-Length: ") 0 = k := by
      refine (memfind_of_first (by decide) hk hd hf).trans ?_
      exact if_pos (hle.trans hl)
    have hi : k ≠ 0xFFFF := by omega
    simp only [waitHeaders, he, if_pos hend, htot, hm, if_pos hi, contentLen_line hd hl hf hw,
      Option.bind_eq_bind, Option.bind_some]

namespace Obs

@[simp] def given : Obs → Bytes
  | recvFn p => p.bytes
  | _        => []

@[simp] def headers? : Obs → List (Nat × UInt32)
  | headersDone n len => [(n, len)]
  | _                 => []

@[simp] def result? : Obs → List (Result × UInt32 × UInt32 × Err)
  | result r n status e => [(r, n, status, e)]
  | _                   => []

end Obs

-- What the application gets of the body, the calls at the end of the headers, and the results
def body (t : List Obs) : Bytes :=
  t.flatMap Obs.given

def headers (t : List Obs) : List (Nat × UInt32) :=
  t.flatMap Obs.headers?

def reported (t : List Obs) : List (Result × UInt32 × UInt32 × Err) :=
  t.flatMap Obs.result?

@[simp] theorem body_nil : body [] = [] := rfl

@[simp] theorem headers_nil : headers [] = [] := rfl

@[simp] theorem reported_nil : reported [] = [] := rfl

@[simp] theorem body_cons : body (x :: t) = x.given ++ body t := List.flatMap_cons

@[simp] theorem headers_cons : headers (x :: t) = x.headers? ++ headers t := List.flatMap_cons

@[simp] theorem reported_cons : reported (x :: t) = x.result? ++ reported t := List.flatMap_cons

@[simp] theorem body_append : body (t ++ o) = body t ++ body o := List.flatMap_append

@[simp] theorem headers_append : headers (t ++ o) = headers t ++ headers o := List.flatMap_append

@[simp] theorem reported_append : reported (t ++ o) = reported t ++ reported o := List.flatMap_append

def Quiet (t : List Obs) : Prop :=
  body t = [] ∧ headers t = [] ∧ reported t = []

theorem quiet_frees : Quiet (frees p) := by
  unfold frees
  split <;> exact ⟨rfl, rfl, rfl⟩

-- What the client has told the application about the bytes of the answer
structure Told (w : Answer) (d : Bytes) (t : List Obs) : Prop where
  body    : body t = d.drop w.head.length
  headers : headers t = if d.length < w.head.length then [] else [(w.head.length, w.contentLen)]
  quiet   : reported t = []

-- In front of the end of the headers nothing is told.
theorem told_iff_quiet (hn : d.length < w.head.length) : Told w d t ↔ Quiet t := by
  have hb : d.drop w.head.length = [] := List.drop_eq_nil_of_le (Nat.le_of_lt hn)
  constructor
  case mp => exact fun h => ⟨h.body.trans hb, h.headers.trans <| if_pos hn, h.quiet⟩
  case mpr =>
    rintro ⟨h₁, h₂, h₃⟩
    exact ⟨h₁.trans hb.symm, h₂.trans (if_pos hn).symm, h₃⟩

theorem body_length (hd : w.head.length ≤ d.length) (x : Bytes) :
    (d.length - w.head.length).toUInt32 + x.length.toUInt32 = ((d ++ x).length - w.head.length).toUInt32 := by
  rw [List.length_append, Nat.sub_add_comm hd]
  exact (UInt32.ofNat_add ..).symm

-- The end of `httpc_tcp_recv`, once the headers have been read
theorem passOn_read (hw : Read w d r) (ht : Told w d t) (hd : w.head.length ≤ d.length)
    (hf : p.bytes.length < 2 ^ 16) : ∃ r₁ o e, passOn r p a = (some r₁, o, e) ∧
      Read w (d ++ p.bytes) r₁ ∧ Told w (d ++ p.bytes) (t ++ o) := by
  have hlen := w.head_length
  have hn : ¬d.length < w.head.length := Nat.not_lt_of_le hd
  have hn₁ : ¬(d ++ p.bytes).length < w.head.length := by
    rw [List.length_append]
    omega
  have hl₁ : ¬(d ++ p.bytes).length < w.lineEnd + 2 := by omega
  have hl : ¬d.length < w.lineEnd + 2 := by omega
  have hb : d.drop w.head.length ++ p.bytes = (d ++ p.bytes).drop w.head.length :=
    (List.drop_append_of_le_length hd).symm
  have told {o : List Obs} (hx : body o = p.bytes ∧ headers o = [] ∧ reported o = []) :
      Told w (d ++ p.bytes) (t ++ o) := by
    obtain ⟨h₁, h₂, h₃⟩ := hx
    refine ⟨?_, ?_, ?_⟩
    · rw [body_append, ht.body, h₁, hb]
    · rw [headers_append, ht.headers, h₂, if_neg hn, if_neg hn₁, List.append_nil]
    · rw [reported_append, ht.quiet, h₃, List.append_nil]
  have read {n : UInt32} (hx : n = ((d ++ p.bytes).length - w.head.length).toUInt32) :
      Read w (d ++ p.bytes) { r with rxContentLen := n } := by
    refine ⟨?_, ?_, ?_, fun _ => hw.content hd, hx⟩
    · rw [hw.state, Answer.state, Answer.state, if_neg hl, if_neg hn, if_neg hl₁, if_neg hn₁]
    · rw [hw.headers, if_neg hn, if_neg hn₁]
    · rw [hw.status, Answer.statusAfter, Answer.statusAfter, if_neg hl, if_neg hl₁]
  by_cases hp : p = []
  case pos =>
    subst hp
    refine ⟨_, _, _, if_neg (not_not.mpr rfl), ?_, told ⟨rfl, rfl, rfl⟩⟩
    rw [Chain.bytes_nil, List.append_nil]
    exact hw
  case neg =>
    refine ⟨_, _, _, if_pos hp, read ?_, told ⟨List.append_nil _, rfl, rfl⟩⟩
    rw [hw.length, Chain.totLen_eq hf, body_length hd]

-- The client while it waits for the end of the headers: nothing has been told.
theorem recvHeaders_read (hs : r.parseState = .waitHeaders) (hd : r.rxHdrs.bytes <+: w.bytes)
    (hl : w.lineEnd + 2 ≤ r.rxHdrs.bytes.length) (hf : r.rxHdrs.bytes.length < 2 ^ 16)
    (hr : r.rxStatus = w.status ∧ r.rxContentLen = 0)
    (ht : Quiet t) (ha : a.headersDone = .ok) :
    ∃ r₁ o e, recvHeaders r a = some (some r₁, o, e) ∧ Read w r.rxHdrs.bytes r₁ ∧
      Told w r.rxHdrs.bytes (t ++ o) := by
  have hl₁ : ¬r.rxHdrs.bytes.length < w.lineEnd + 2 := Nat.not_lt_of_le hl
  by_cases hn : r.rxHdrs.bytes.length < w.head.length
  case pos =>
    have htl : Told w r.rxHdrs.bytes (t ++ []) := by
      rw [List.append_nil]
      exact told_iff_quiet hn |>.mpr ht
    refine ⟨r, [], .ok, ?_, ⟨?_, ?_, ?_, fun h => absurd hn (Nat.not_lt_of_le h), ?_⟩, htl⟩
    · simp only [recvHeaders, wait_open hd hn hf, Option.bind_eq_bind, Option.bind_some]
    · rw [hs, Answer.state, if_neg hl₁, if_pos hn]
    · rw [if_pos hn]
    · rw [hr.1, Answer.statusAfter, if_neg hl₁]
    · rw [hr.2, Nat.sub_eq_zero_of_le (Nat.le_of_lt hn)]
      rfl
  case neg =>
    have hn := Nat.le_of_not_lt hn
    have hlen := w.head_length
    have h₀ : ¬w.head.length < w.head.length := Nat.lt_irrefl _
    have hp : w.head <+: r.rxHdrs.bytes :=
      List.prefix_of_prefix_length_le (List.prefix_append ..) hd hn
    have hq : w.head ++ (r.rxHdrs.freeHeader w.head.length).bytes = r.rxHdrs.bytes := by
      obtain ⟨x, hx⟩ := hp
      rw [Chain.freeHeader_bytes, ← hx, List.drop_left]
    have hrd : Read w w.head { r with
        hdrContentLen := w.contentLen, rxHdrs := [], parseState := .rxData } := by
      refine ⟨?_, ?_, ?_, fun _ => rfl, ?_⟩
      · rw [Answer.state, if_neg (by omega), if_neg h₀]
      · rw [if_neg h₀]
        rfl
      · rw [Answer.statusAfter, if_neg (by omega)]
        exact hr.1
      · rw [Nat.sub_self]
        exact hr.2
    have htl : Told w w.head (t ++ ([.recved w.head.length, .headersDone w.head.length w.contentLen] ++
        frees (r.rxHdrs.freedHeader w.head.length))) := by
      obtain ⟨h₁, h₂, h₃⟩ := ht
      obtain ⟨h₄, h₅, h₆⟩ := quiet_frees (p := r.rxHdrs.freedHeader w.head.length)
      refine ⟨?_, ?_, ?_⟩
      · simp [h₁, h₄]
      · simp [h₂, h₅]
      · simp [h₃, h₆]
    have hb : (r.rxHdrs.freeHeader w.head.length).bytes.length < 2 ^ 16 := by
      have := congrArg List.length hq
      rw [List.length_append] at this
      omega
    obtain ⟨r₁, o, e, hpass, hrd, htl⟩ :=
      passOn_read (p := r.rxHdrs.freeHeader w.head.length) (a := a) hrd htl (Nat.le_refl _) hb
    rw [hq] at hrd htl
    rw [List.append_assoc] at htl
    refine ⟨r₁, _, e, ?_, hrd, htl⟩
    simp only [recvHeaders, wait_done hd hn hf, Option.bind_eq_bind, Option.bind_some, ha, ne_eq,
      not_true_eq_false, if_false, hpass]

theorem tcpRecv_headers (h : r.parseState = .waitHeaders) :
    tcpRecv r p a = recvHeaders { r with rxHdrs := r.rxHdrs ++ p } a := by
  obtain ⟨_, _, _, _, _, _, _, _, _⟩ := r
  cases h
  rfl

theorem tcpRecv_line (h : r.parseState = .waitFirstLine)
    (hp : parseResponseStatus { r with rxHdrs := r.rxHdrs ++ p } = some (r₁, e)) :
    tcpRecv r p a = if e = .ok then recvHeaders { r₁ with parseState := .waitHeaders } a
      else some (some r₁, [], .ok) := by
  obtain ⟨_, _, _, _, _, _, _, _, _⟩ := r
  cases h
  simp only at hp
  simp only [tcpRecv, hp, Option.bind_eq_bind, Option.bind_some]

-- However much of the answer a chain brings, the client has read all of it.
theorem tcpRecv_read (hw : Read w d r) (ht : Told w d t) (hd : d ++ p.bytes <+: w.bytes)
    (hf : w.head.length + p.bytes.length ≤ 2 ^ 16) (ha : a.headersDone = .ok) :
    ∃ r₁ o e, tcpRecv r p a = some (some r₁, o, e) ∧ Read w (d ++ p.bytes) r₁ ∧
      Told w (d ++ p.bytes) (t ++ o) := by
  have hlen := w.head_length
  by_cases hn : d.length < w.head.length
  case neg =>
    have hs : r.parseState = .rxData := by
      rw [hw.state, Answer.state, if_neg (by omega), if_neg hn]
    obtain ⟨r₁, o, e, h, hrd, htl⟩ := passOn_read (a := a) hw ht (Nat.le_of_not_lt hn) (p := p) (by omega)
    refine ⟨r₁, o, e, ?_, hrd, htl⟩
    simp only [tcpRecv, hs, h]
  case pos =>
    have hb : r.rxHdrs.bytes = d := by rw [hw.headers, if_pos hn]
    have hb₁ : (r.rxHdrs ++ p).bytes = d ++ p.bytes := by rw [Chain.bytes_append, hb]
    have hl : (d ++ p.bytes).length = d.length + p.bytes.length := List.length_append
    have hq : Quiet t := told_iff_quiet hn |>.mp ht
    have hz : r.rxContentLen = 0 := by
      rw [hw.length, Nat.sub_eq_zero_of_le (Nat.le_of_lt hn)]
      rfl
    by_cases hk : d.length < w.lineEnd + 2
    case neg =>
      have hs : r.parseState = .waitHeaders := by rw [hw.state, Answer.state, if_neg hk, if_pos hn]
      have hst : r.rxStatus = w.status := by rw [hw.status, Answer.statusAfter, if_neg hk]
      have h := recvHeaders_read (w := w) (r := { r with rxHdrs := r.rxHdrs ++ p }) (a := a) hs
        (by rw [hb₁]; exact hd) (by rw [hb₁]; omega) (by rw [hb₁]; omega) ⟨hst, hz⟩ hq ha
      rw [hb₁] at h
      rw [tcpRecv_headers hs]
      exact h
    case pos =>
      have hs : r.parseState = .waitFirstLine := by rw [hw.state, Answer.state, if_pos hk]
      by_cases hk₁ : (d ++ p.bytes).length < w.lineEnd + 2
      case pos =>
        have hp := parse_open (w := w) (r := { r with rxHdrs := r.rxHdrs ++ p })
          (by rw [hb₁]; exact hd) (by rw [hb₁]; exact hk₁) (by rw [hb₁]; omega)
        have hn₁ : (d ++ p.bytes).length < w.head.length := by omega
        have htl : Told w (d ++ p.bytes) (t ++ []) := by
          rw [List.append_nil]
          exact told_iff_quiet hn₁ |>.mpr hq
        refine ⟨{ r with rxHdrs := r.rxHdrs ++ p }, [], .ok, ?_,
          ⟨?_, ?_, ?_, fun h => absurd hn₁ (Nat.not_lt_of_le h), ?_⟩, htl⟩
        · exact tcpRecv_line hs hp
        · rw [Answer.state, if_pos hk₁]
          exact hs
        · rw [if_pos hn₁]
          exact hb₁
        · rw [Answer.statusAfter, if_pos hk₁]
          exact hw.status.trans <| if_pos hk
        · rw [Nat.sub_eq_zero_of_le (Nat.le_of_lt hn₁)]
          exact hz
      case neg =>
        obtain ⟨version, hp⟩ := parse_line (w := w) (r := { r with rxHdrs := r.rxHdrs ++ p })
          (by rw [hb₁]; exact hd) (by rw [hb₁]; omega) (by rw [hb₁]; omega)
        have h := recvHeaders_read (w := w) (a := a) (r := { r with
            rxHdrs := r.rxHdrs ++ p, rxHttpVersion := version, rxStatus := w.status, parseState := .waitHeaders })
          rfl (by rw [hb₁]; exact hd) (by rw [hb₁]; omega) (by rw [hb₁]; omega) ⟨rfl, hz⟩ hq ha
        rw [hb₁] at h
        rw [tcpRecv_line hs hp]
        exact h

theorem Told.append (h : Told w d t) (ho : Quiet o) : Told w d (t ++ o) := by
  obtain ⟨h₁, h₂, h₃⟩ := ho
  refine ⟨?_, ?_, ?_⟩
  · rw [body_append, h₁, List.append_nil, h.body]
  · rw [headers_append, h₂, List.append_nil, h.headers]
  · rw [reported_append, h₃, List.append_nil, h.quiet]

def Event.bytes : Event → Bytes
  | recv p _ => p.bytes
  | _        => []

-- The bytes that TCP has handed to the client
def arrived (es : List Event) : Bytes :=
  es.flatMap Event.bytes

-- Everything goes well on the way of the request, and the application lets it go on.
def Event.Smooth (w : Answer) : Event → Prop
  | dnsFound ipaddr connect _ => ipaddr = true ∧ connect = .ok
  | connected write _         => write = .ok
  | recv p a                  => a.headersDone = .ok ∧ w.head.length + p.bytes.length ≤ 2 ^ 16
  | poll _ | sent             => True
  | recvNull _ | err _        => False

-- A request on its way
structure Going (w : Answer) (d : Bytes) (k : Nat) (t : List Obs) (c : Client) : Prop where
  ledger : Ledger t c
  req    : ∃ r, c.req = some r ∧ r.timeoutTicks = k ∧ Read w d r
  told   : Told w d t

theorem step_going {x : Event} (h : Going w d k t c) (hp : x.Possible c) (hx : x.Smooth w)
    (hd : d ++ x.bytes <+: w.bytes) (hk : x.IsPoll = true → 1 < k) :
    ∃ c₁ o, step c x = some (c₁, o) ∧
      Going w (d ++ x.bytes) (if x.IsPoll then k - 1 else k) (t ++ o) c₁ := by
  obtain ⟨r, hr, hk₁, hw⟩ := h.req
  have l := h.ledger
  -- What is left to show is that the state is kept, as one that has read the bytes.
  suffices hs : ∃ c₁ r₁ o, step c x = some (c₁, o) ∧ c₁.req = some r₁ ∧ Read w (d ++ x.bytes) r₁ ∧
      Told w (d ++ x.bytes) (t ++ o) by
    obtain ⟨c₁, r₁, o, hs, hr₁, hw₁, ht₁⟩ := hs
    refine ⟨c₁, o, hs, step_ledger l hp hs, ⟨r₁, hr₁, ?_, hw₁⟩, ht₁⟩
    cases hq : x.IsPoll with
    | false => exact (step_quiet l.sound hr hq hs).ticks r₁ hr₁ |>.trans hk₁
    | true =>
      obtain ⟨a, rfl⟩ : ∃ a, x = .poll a := by
        cases x with
        | poll a => exact ⟨a, rfl⟩
        | _ => cases hq
      have hs := step_poll hr hs
      rw [if_neg <| by have := hk hq; omega] at hs
      rw [hs.2.ticks r₁ hr₁, hk₁]
      rfl
  have same {o : List Obs} {e : Err} (ho : Quiet o) : Told w (d ++ []) (t ++ (o ++ [.returns e])) := by
    obtain ⟨h₁, h₂, h₃⟩ := ho
    rw [List.append_nil]
    exact h.told.append ⟨by simp [h₁], by simp [h₂], by simp [h₃]⟩
  have read : Read w (d ++ []) r := by
    rw [List.append_nil]
    exact hw
  cases x with
  | dnsFound ipaddr connect a =>
    obtain ⟨rfl, rfl⟩ := hx
    exact ⟨_, r, _, by simp only [step, hr, Option.bind_eq_bind, Option.bind_some]; rfl, rfl, read,
      same (o := [.connect]) ⟨rfl, rfl, rfl⟩⟩
  | connected write a =>
    obtain rfl : write = .ok := hx
    obtain ⟨text, ht⟩ := Option.isSome_iff_exists.mp <| l.sound.request r hr <| by
      rw [show c.pcb = some .connecting from hp]
      decide
    have hc : tcpConnected r .ok a =
        some (some { r with request := none }, [.write text, .free .request, .output], .ok) := by
      simp only [tcpConnected, ht, Option.bind_eq_bind, Option.bind_some]
      rfl
    exact ⟨_, { r with request := none }, _,
      by simp only [step, hr, hc, Option.bind_eq_bind, Option.bind_some]; rfl, rfl,
      ⟨read.state, read.headers, read.status, read.content, read.length⟩, same ⟨rfl, rfl, rfl⟩⟩
  | recv p a =>
    have ht : Told w d (t ++ [.received p]) := h.told.append ⟨rfl, rfl, rfl⟩
    obtain ⟨r₁, o, e, hc, hw₁, ht₁⟩ := tcpRecv_read (a := a) hw ht hd hx.2 hx.1
    refine ⟨_, r₁, _, by simp only [step, hr, hc, Option.bind_eq_bind, Option.bind_some]; rfl, rfl, hw₁, ?_⟩
    have ht₁ := ht₁.append (o := [.returns e]) ⟨rfl, rfl, rfl⟩
    rwa [List.append_assoc, List.append_assoc] at ht₁
  | recvNull a => exact hx.elim
  | err e => exact hx.elim
  | poll a =>
    have hk := hk rfl
    have hc : tcpPoll r a = (some { r with timeoutTicks := r.timeoutTicks - 1 }, [], .ok) :=
      if_neg (by simp only; omega)
    exact ⟨_, { r with timeoutTicks := r.timeoutTicks - 1 }, _,
      by simp only [step, hr, hc, Option.bind_eq_bind, Option.bind_some]; rfl, rfl,
      ⟨read.state, read.headers, read.status, read.content, read.length⟩, same ⟨rfl, rfl, rfl⟩⟩
  | sent =>
    exact ⟨_, r, _, by simp only [step, hr, Option.bind_eq_bind, Option.bind_some]; rfl, rfl, read,
      same (o := []) ⟨rfl, rfl, rfl⟩⟩

theorem run_going {es : List Event} (h : Going w d k t c) (g : client.Guarded (fun c x => x.Possible c) c es)
    (hs : ∀ x ∈ es, x.Smooth w) (hd : d ++ arrived es <+: w.bytes) (hk : polls es < k) :
    ∃ c₁ o, client.run c es = some (c₁, o) ∧ Going w (d ++ arrived es) (k - polls es) (t ++ o) c₁ := by
  induction es generalizing c d k t with
  | nil =>
    refine ⟨c, [], rfl, ?_⟩
    rw [show arrived [] = [] from rfl, List.append_nil, List.append_nil]
    exact h
  | cons x es ih =>
    obtain ⟨hx, hs⟩ := List.forall_mem_cons.mp hs
    have ha : d ++ arrived (x :: es) = d ++ x.bytes ++ arrived es := by
      rw [List.append_assoc]
      rfl
    have hp : polls (x :: es) = polls es + if x.IsPoll then 1 else 0 := List.countP_cons
    rw [ha] at hd ⊢
    rw [hp] at hk ⊢
    have hd₁ : d ++ x.bytes <+: w.bytes := (List.prefix_append ..).trans hd
    obtain ⟨c₁, o, hc, h₁⟩ := step_going h (Machine.Guarded.head g) hx hd₁ fun hq => by
      rw [hq, if_pos rfl] at hk
      omega
    obtain ⟨c₂, o₂, hr, h₂⟩ := ih h₁ (Machine.Guarded.tail g hc) hs hd (by cases hq : x.IsPoll <;> simp [hq] at hk ⊢ <;> omega)
    refine ⟨c₂, o ++ o₂, ?_, ?_⟩
    · have hc : client.step c x = some (c₁, o) := hc
      rw [Machine.run_cons_of_step hc, hr]
      rfl
    · have he : (if x.IsPoll then k - 1 else k) - polls es = k - (polls es + if x.IsPoll then 1 else 0) := by
        split <;> omega
      rwa [he, List.append_assoc t] at h₂

theorem nil_length (w : Answer) : ([] : Bytes).length < w.head.length := by
  have := w.head_length
  rw [List.length_nil]
  omega

theorem Accepted.going (h : Accepted c o e) : Going w [] 30 o c := by
  obtain ⟨r, hr, f⟩ := h.req
  have hl : ([] : Bytes).length < w.lineEnd + 2 := Nat.succ_pos _
  have hn := nil_length w
  have hq : Quiet o := by
    obtain ⟨o₁, rfl, rfl | rfl⟩ := h.trace <;> exact ⟨rfl, rfl, rfl⟩
  refine ⟨h.ledger, ⟨r, hr, f.ticks, ?_, ?_, ?_, fun h => absurd hn (Nat.not_lt_of_le h), ?_⟩,
    told_iff_quiet hn |>.mpr hq⟩
  · rw [f.state, Answer.state, if_pos hl]
  · rw [f.headers, if_pos hn]
    rfl
  · rw [f.status, Answer.statusAfter, if_pos hl]
  · rw [f.length, List.length_nil, Nat.zero_sub]
    rfl

theorem freeState_told : Quiet (freeState r k).1 := by
  cases hr : r.request.isSome <;> cases hp : r.pcb <;> by_cases hk : k ≠ .ok <;>
    simp [Quiet, freeState, hr, hp, hk, quiet_frees.1, quiet_frees.2.1, quiet_frees.2.2]

-- The result is that of the bytes.
theorem recvNull_going (h : Going w d k t c) :
    ∃ o, step c (.recvNull a) = some (gone, o) ∧ body o = [] ∧ headers o = [] ∧
      reported o = [(w.outcome d.length, (d.length - w.head.length).toUInt32,
        (w.statusAfter d.length).toUInt32, .ok)] := by
  obtain ⟨r, hr, -, hw⟩ := h.req
  have hlen := w.head_length
  have ho : (if r.parseState ≠ .rxData then Result.errClosed
      else if r.hdrContentLen ≠ contentLenInvalid ∧ r.hdrContentLen ≠ r.rxContentLen then .errContentLen
      else .ok) = w.outcome d.length := by
    rw [hw.state, hw.length, Answer.outcome]
    by_cases hn : d.length < w.head.length
    case pos =>
      have hs : w.state d.length ≠ .rxData := by
        rw [Answer.state, if_pos hn]
        split <;> decide
      rw [if_pos hs, if_pos hn]
    case neg =>
      have hs : w.state d.length = .rxData := by
        rw [Answer.state, if_neg (by omega), if_neg hn]
      rw [if_neg (not_not.mpr hs), if_neg hn, hw.content (by omega)]
  have hc : tcpRecvNull r a = close r (w.outcome d.length) r.rxStatus.toUInt32 .ok a.close :=
    congrArg (close r · r.rxStatus.toUInt32 .ok a.close) ho
  obtain ⟨h₁, h₂, h₃⟩ := freeState_told (r := r) (k := a.close)
  refine ⟨_, by simp only [step, hr, hc, Option.bind_eq_bind, Option.bind_some]; rfl, ?_, ?_, ?_⟩
  · simp [close, h₁]
  · simp [close, h₂]
  · simp [close, h₃, hw.length, hw.status]

-- Wherever TCP cuts an answer, and whenever lwIP calls in between: what the application gets of the body, the
-- length of the headers, the content length and the result are those of the bytes that have arrived before
-- the connection is closed, whether these are all of the answer or not.
theorem segmentation_law (w : Answer) {es : List Event} {a : Start} {b : Answers}
    (h : getFileDns serverName uri a = (c, o, .ok))
    (g : client.Guarded (fun c x => x.Possible c) c (es ++ [.recvNull b]))
    (hs : ∀ x ∈ es, x.Smooth w) (hd : arrived es <+: w.bytes) (hk : polls es < 30) :
    ∃ t, client.run c (es ++ [.recvNull b]) = some (gone, t) ∧
      body t = (arrived es).drop w.head.length ∧
      headers t = (if (arrived es).length < w.head.length then [] else [(w.head.length, w.contentLen)]) ∧
      reported t = [(w.outcome (arrived es).length, ((arrived es).length - w.head.length).toUInt32,
        (w.statusAfter (arrived es).length).toUInt32, .ok)] := by
  obtain ha | hn := getFileDns_cases h
  case inr => exact absurd rfl hn.err
  case inl =>
    have hg : Going w [] 30 o c := ha.going
    have g₁ : client.Guarded (fun c x => x.Possible c) c es :=
      Machine.guarded_iff.mpr fun es₁ x es₂ c₁ o he hr =>
        Machine.guarded_iff.mp g es₁ x (es₂ ++ [.recvNull b]) c₁ o (by rw [he, List.append_assoc]; rfl) hr
    obtain ⟨c₁, t, hr, h₁⟩ := run_going hg g₁ hs hd hk
    obtain ⟨o₁, hq, hb, hh, hr₁⟩ := recvNull_going (a := b) h₁
    have ht : Told w (arrived es) t := by
      have ht : Told w (arrived es) (o ++ t) := h₁.told
      obtain ⟨h₁, h₂, h₃⟩ := told_iff_quiet (nil_length w) |>.mp hg.told
      refine ⟨?_, ?_, ?_⟩
      · simpa [h₁] using ht.body
      · simpa [h₂] using ht.headers
      · simpa [h₃] using ht.quiet
    refine ⟨t ++ o₁, ?_, ?_, ?_, ?_⟩
    · have hq : client.step c₁ (.recvNull b) = some (gone, o₁) := hq
      simp only [Machine.run_append, hr, Option.bind_some, Machine.run_singleton, hq, Option.map_some]
    · rw [body_append, hb, List.append_nil, ht.body]
    · rw [headers_append, hh, List.append_nil, ht.headers]
    · rw [reported_append, ht.quiet, hr₁, List.nil_append]
      rfl

instance {x : Event} : Decidable (x.Smooth w) :=
  match x with
  | .dnsFound .. | .recv _ _ => inferInstanceAs <| Decidable (_ ∧ _)
  | .connected .. => inferInstanceAs <| Decidable (_ = _)
  | .poll _ | .sent => isTrue trivial
  | .recvNull _ | .err _ => isFalse id

-- An answer of two lines and a body of six bytes, in four parts, of which the last byte does not arrive
def cut : List Event := [
  .dnsFound true .ok fine,
  .connected .ok fine,
  .recv [⟨1, ascii "HTTP/1.1 2"⟩] fine,
  .poll fine,
  .recv [⟨2, ascii "00 OK\r\nContent-Length: 6\r\n"⟩, ⟨3, ascii "\r"⟩] fine,
  .sent,
  .recv [⟨4, ascii "\nque"⟩] fine,
  .recv [⟨5, ascii "ue"⟩] fine
]

theorem segmentation_law_cut : ∃ w : Answer, w.contentLen = 6 ∧ w.status = 200 ∧ ∃ c o, request = (c, o, .ok) ∧
    client.Guarded (fun c x => x.Possible c) c (cut ++ [.recvNull fine]) ∧
    (∀ x ∈ cut, x.Smooth w) ∧ arrived cut <+: w.bytes ∧ polls cut < 30 ∧
    ∃ t, client.run c (cut ++ [.recvNull fine]) = some (gone, t) ∧
      body t = (arrived cut).drop w.head.length ∧
      headers t = (if (arrived cut).length < w.head.length then [] else [(w.head.length, w.contentLen)]) ∧
      reported t = [(w.outcome (arrived cut).length, ((arrived cut).length - w.head.length).toUInt32,
        (w.statusAfter (arrived cut).length).toUInt32, .ok)] := by
  let w : Answer := {
    head    := ascii "HTTP/1.1 200 OK\r\nContent-Length: 6\r\n\r\n"
    body    := ascii "queued"
    lineEnd := 15
    space₁  := 8
    space₂  := 12
    length  := some (17, 34)
    line    := Find.find_eq_some_iff (by decide) |>.mp (by decide +kernel)
    before  := Find.find_eq_some_iff (by decide) |>.mp (by decide +kernel)
    behind  := Find.find_eq_some_iff (by decide) |>.mp (by decide +kernel)
    reason  := by decide
    proto   := by decide
    dot     := by decide
    digits  := by decide
    valid   := by decide +kernel
    empty   := Find.find_eq_some_iff (by decide) |>.mp (by decide +kernel)
    fits    := by decide
    field   := by
      rintro _ ⟨⟩
      exact ⟨Find.find_eq_some_iff (by decide) |>.mp (by decide +kernel),
        Find.find_eq_some_iff (by decide) |>.mp (by decide +kernel), by decide, by decide⟩
    missing := by rintro ⟨⟩
  }
  have g : client.Guarded (fun c x => x.Possible c) request.1 (cut ++ [.recvNull fine]) := by decide +kernel
  have he : request.2.2 = .ok := by decide +kernel
  have hs : ∀ x ∈ cut, x.Smooth w := by decide +kernel
  have hd : arrived cut <+: w.bytes := by decide +kernel
  have hk : polls cut < 30 := by decide
  generalize h : request = x at g he
  obtain ⟨c, o, e⟩ := x
  cases he
  exact ⟨w, by decide +kernel, by decide +kernel, c, o, rfl, g, hs, hd, hk, segmentation_law w h g hs hd hk⟩

end Httpc
