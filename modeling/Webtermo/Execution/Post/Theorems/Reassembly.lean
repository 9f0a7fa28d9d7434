import Webtermo.Execution.Post.Connection

namespace Post

-- The lengths of the first pbuf of a chain and of those behind it
structure Shape where
  head : Nat
  next : List Nat
  deriving DecidableEq

def Shape.total (sh : Shape) : Nat :=
  sh.head + sh.next.sum

def Pbuf.shape (p : Pbuf) : Shape where
  head := p.payload.length
  next := p.next.map List.length

theorem Pbuf.totLen_eq {p : Pbuf} : p.totLen = p.shape.total := by
  simp [totLen, data, shape, Shape.total, List.length_flatten]

def total (shs : List Shape) : Nat :=
  (shs.map Shape.total).sum

def heads (shs : List Shape) : Nat :=
  (shs.map Shape.head).sum

-- The chains in which a body of `n` bytes arrives. The last one brings the end of the body and maybe
-- more.
structure Segmentation (n : Nat) where
  init      : List Shape
  last      : Shape
  unfinished : total init < n
  finished   : n ≤ total init + last.total

namespace Segmentation

variable {seg : Segmentation n}

structure Of (seg : Segmentation n) (ps : List Pbuf) (p : Pbuf) : Prop where
  init : ps.map Pbuf.shape = seg.init
  last : p.shape = seg.last

-- All of the body lies in the first pbufs of its chains, and the last of them ends with the body.
structure Intact (seg : Segmentation n) : Prop where
  init : ∀ sh ∈ seg.init, sh.next.sum = 0
  last : total seg.init + seg.last.head = n

def Ok (seg : Segmentation n) : Prop :=
  if n ≤ 4095 then seg.Intact else heads seg.init + seg.last.head ≤ 4095

end Segmentation

def data (ps : List Pbuf) : Bytes :=
  ps.flatMap Pbuf.data

-- Every write stays inside of `post_buffer`, and a body that fits is there as a whole with its NUL
-- and its length when it is saved.
def Reassembled (hs : Hs) (ps : List Pbuf) (p : Pbuf) : Prop :=
  ∃ hs₁ o, connection.run hs ((ps ++ [p]).map .data) = some (hs₁, o) ∧
    (hs.left ≤ 4095 → ∃ d, o = [d] ∧ d.len = hs.left ∧
      d.body.bytes.take (hs.left + 1) = (data ps ++ p.data).take hs.left ++ [0])

theorem totLen_eq : totLen ps = total (ps.map Pbuf.shape) := by
  simp only [totLen, total, List.map_map]
  exact congrArg List.sum <| List.map_congr_left fun _ _ => Pbuf.totLen_eq

theorem data_length : (data ps).length = totLen ps := by
  simp only [data, totLen, List.length_flatMap]
  rfl

theorem take_data {ps : List Pbuf} (h : totLen ps ≤ n) :
    (data ps ++ b).take n = data ps ++ b.take (n - totLen ps) := by
  rw [List.take_append, data_length, List.take_of_length_le (data_length ▸ h)]

theorem copied_length : (copied ps).length = heads (ps.map Pbuf.shape) := by
  simp [copied, heads, List.length_flatMap, Function.comp_def, Pbuf.shape]

-- What a whole body leaves
theorem complete_spec {hs : Hs} (hu : hs.funkcija.text 0 = some uri) (hw : hs.writePos = 0)
    (hl : totLen ps < hs.left) (ht : hs.left ≤ totLen ps + p.totLen)
    (hp : (copied ps).length + p.payload.length < 4096) :
    ∃ hs₁ body, connection.run hs ((ps ++ [p]).map .data) =
        some (hs₁, [⟨dispatch uri, body, (copied ps).length + p.payload.length⟩]) ∧
      body.bytes.take ((copied ps).length + p.payload.length + 1) =
        copied ps ++ p.payload ++ [0] := by
  have ⟨hs₁, h₁, a⟩ := recv_spec hl (by omega)
  have hw₁ : hs₁.writePos = (copied ps).length := by simp [a.writePos, hw]
  have ⟨hs₂, body, h₂, hb⟩ := rxpbuf_last (h := hs₁) (p := p) (a.funkcija ▸ hu)
    (by rw [a.left]; omega) (by rw [a.left]; omega) (by omega)
  rw [a.bytes, hw₁, hw] at hb
  refine ⟨hs₂, body, ?_, by simpa using hb⟩
  simp [List.map_append, Machine.run_append, h₁, Machine.run_singleton, h₂, hw₁]

theorem complete_none {hs : Hs} (hu : hs.funkcija.text 0 = some uri) (hw : hs.writePos = 0)
    (hl : totLen ps < hs.left) (ht : hs.left ≤ totLen ps + p.totLen)
    (hp : 4096 ≤ (copied ps).length + p.payload.length) :
    connection.run hs ((ps ++ [p]).map .data) = none := by
  rw [List.map_append, Machine.run_append]
  by_cases hc : (copied ps).length ≤ 4096
  case neg => simp [recv_none hl (by omega) (by omega)]
  case pos =>
    have ⟨hs₁, h₁, a⟩ := recv_spec hl (by omega)
    have h₂ := rxpbuf_last_none (h := hs₁) (p := p) (a.funkcija ▸ hu)
      (by rw [a.left]; omega) (by rw [a.left]; omega) (by rw [a.writePos]; omega)
    simp [h₁, Machine.run_singleton, h₂]

theorem Reassembled.cases {hs : Hs} (hu : hs.funkcija.text 0 = some uri) (hw : hs.writePos = 0)
    (hl : totLen ps < hs.left) (ht : hs.left ≤ totLen ps + p.totLen) :
    Reassembled hs ps p ↔ (copied ps).length + p.payload.length < 4096 ∧
      (hs.left ≤ 4095 → (copied ps).length + p.payload.length = hs.left ∧
        copied ps ++ p.payload = (data ps ++ p.data).take hs.left) := by
  by_cases hp : (copied ps).length + p.payload.length < 4096
  case neg =>
    have h := complete_none hu hw hl ht (by omega)
    simp only [Reassembled, h, hp, false_and, reduceCtorEq, exists_false]
  case pos =>
    have ⟨hs₁, body, h, hb⟩ := complete_spec hu hw hl ht hp
    simp only [Reassembled, h, hp, Option.some.injEq, Prod.mk.injEq, true_and]
    constructor
    · rintro ⟨_, _, ⟨rfl, rfl⟩, hr⟩ hn
      have ⟨d, hd, hlen, hbytes⟩ := hr hn
      simp only [List.cons.injEq, and_true] at hd
      subst hd
      simp only at hlen hbytes
      rw [← hlen, hb] at hbytes
      exact ⟨hlen, hlen ▸ List.append_cancel_right hbytes⟩
    · intro hr
      refine ⟨hs₁, _, ⟨rfl, rfl⟩, fun hn => ⟨_, rfl, (hr hn).1, ?_⟩⟩
      rw [← (hr hn).2, ← (hr hn).1]
      exact hb

-- A chain of the given shape whose first pbuf holds zeros and whose other pbufs hold ones
def Shape.fill (sh : Shape) : Pbuf where
  payload := List.replicate sh.head 0
  next    := sh.next.map (List.replicate · 1)

theorem Shape.fill_shape (sh : Shape) : sh.fill.shape = sh := by
  simp [fill, Pbuf.shape, Function.comp_def]

theorem Shape.next_sum_eq_zero {sh : Shape} (h : ∀ b ∈ sh.fill.data, b = 0) : sh.next.sum = 0 := by
  rw [List.sum_eq_zero_iff_forall_eq_nat]
  intro k hk
  by_contra hn
  have h₁ : (1 : UInt8) ∈ sh.fill.data := by
    simp only [Pbuf.data, fill, List.mem_append, List.mem_flatten, List.mem_map]
    exact .inr ⟨_, ⟨k, hk, rfl⟩, by simp [hn]⟩
  exact absurd (h 1 h₁) (by decide)

theorem Pbuf.data_of_next_sum {p : Pbuf} (h : p.shape.next.sum = 0) : p.data = p.payload := by
  have : p.next.flatten.length = 0 := by simpa [shape, List.length_flatten] using h
  simp [data, List.length_eq_zero_iff.mp this]

namespace Segmentation

variable {seg : Segmentation n}

theorem heads_eq_total {shs : List Shape} (h : ∀ sh ∈ shs, sh.next.sum = 0) :
    heads shs = total shs := by
  simp only [heads, total]
  exact congrArg List.sum <| List.map_congr_left fun sh hs => by simp [Shape.total, h sh hs]

theorem heads_of_intact (i : seg.Intact) : heads seg.init + seg.last.head = n :=
  heads_eq_total i.init ▸ i.last

-- The zeros that are copied are the body only if no ones lie in it.
theorem intact_of_copied (hl : heads seg.init + seg.last.head = n)
    (h : copied (seg.init.map Shape.fill) ++ seg.last.fill.payload =
      (data (seg.init.map Shape.fill) ++ seg.last.fill.data).take n) : seg.Intact := by
  have ht : totLen (seg.init.map Shape.fill) ≤ n := by
    simpa [totLen_eq, Function.comp_def, Shape.fill_shape] using Nat.le_of_lt seg.unfinished
  have h₀ : ∀ b ∈ data (seg.init.map Shape.fill), b = 0 := by
    intro b hb
    have hb : b ∈ copied (seg.init.map Shape.fill) ++ seg.last.fill.payload := by
      rw [h, take_data ht]
      exact List.mem_append_left _ hb
    simp only [copied, Shape.fill, List.mem_append, List.mem_flatMap, List.mem_map] at hb
    cases hb with
    | inl hb =>
      obtain ⟨_, ⟨_, _, hq⟩, hb⟩ := hb
      exact List.eq_of_mem_replicate (hq ▸ hb)
    | inr hb => exact List.eq_of_mem_replicate hb
  have hi : ∀ sh ∈ seg.init, sh.next.sum = 0 := fun sh hs =>
    Shape.next_sum_eq_zero fun b hb => h₀ b <| List.mem_flatMap.mpr ⟨sh.fill, by simpa using ⟨sh, hs, rfl⟩, hb⟩
  exact ⟨hi, heads_eq_total hi ▸ hl⟩

theorem copied_of_intact (i : seg.Intact) (o : seg.Of ps p) :
    copied ps ++ p.payload = (data ps ++ p.data).take n := by
  have hc : copied ps = data ps := by
    refine List.flatMap_congr fun q hq => ?_
    refine (Pbuf.data_of_next_sum <| i.init _ ?_).symm
    exact o.init ▸ List.mem_map_of_mem hq
  have ht : totLen ps = total seg.init := by rw [totLen_eq, o.init]
  have hl : n - totLen ps = p.payload.length := by
    have := i.last
    simp only [← o.last, Pbuf.shape] at this
    omega
  rw [take_data (ht ▸ Nat.le_of_lt seg.unfinished), hl, hc, Pbuf.data, List.take_left]

end Segmentation

-- A POST body is put together correctly from chains of a given shape, whatever bytes they hold, if
-- and only if the code meets the chains that it is written for.
theorem reassembled_iff (seg : Segmentation n) (hb : httpPostRequest s uri n = some hs) :
    (∀ ps p, seg.Of ps p → Reassembled hs ps p) ↔ seg.Ok := by
  have ⟨hn, hw, hf⟩ := httpPostRequest_spec hb
  have ⟨u, hu⟩ := Buffer.strcpy_has_text hf
  have cases {ps p} (o : seg.Of ps p) : Reassembled hs ps p ↔ heads seg.init + seg.last.head < 4096 ∧
      (n ≤ 4095 → heads seg.init + seg.last.head = n ∧
        copied ps ++ p.payload = (data ps ++ p.data).take n) := by
    have hi : totLen ps = total seg.init := by rw [totLen_eq, o.init]
    have hl : p.totLen = seg.last.total := by rw [Pbuf.totLen_eq, o.last]
    have hh : p.payload.length = seg.last.head := by simp [← o.last, Pbuf.shape]
    have h₁ : totLen ps < hs.left := by rw [hi, hn]; exact seg.unfinished
    have h₂ : hs.left ≤ totLen ps + p.totLen := by rw [hi, hl, hn]; exact seg.finished
    have := Reassembled.cases hu hw h₁ h₂
    rwa [hn, copied_length, o.init, hh] at this
  constructor
  case mp =>
    intro h
    have o : seg.Of (seg.init.map Shape.fill) seg.last.fill :=
      ⟨by simp [Function.comp_def, Shape.fill_shape], seg.last.fill_shape⟩
    have ⟨hf, hr⟩ := cases o |>.mp <| h _ _ o
    unfold Segmentation.Ok
    split
    case isTrue hn => exact Segmentation.intact_of_copied (hr hn).1 (hr hn).2
    case isFalse => omega
  case mpr =>
    intro ok ps p o
    refine cases o |>.mpr ?_
    unfold Segmentation.Ok at ok
    split at ok
    case isTrue hn =>
      have hh := Segmentation.heads_of_intact ok
      exact ⟨by omega, fun _ => ⟨hh, Segmentation.copied_of_intact ok o⟩⟩
    case isFalse hn => exact ⟨by omega, fun h => absurd h hn⟩

def inOnePbufEach : Segmentation 5 where
  init       := [⟨2, []⟩]
  last       := ⟨3, [4]⟩
  unfinished := by decide
  finished   := by decide

theorem reassembled_in_one_pbuf_each :
    ∃ hs, httpPostRequest Shared.init (ascii "/pass.sva") 5 = some hs ∧
      ∀ ps p, inOnePbufEach.Of ps p → Reassembled hs ps p := by
  have hd : (httpPostRequest Shared.init (ascii "/pass.sva") 5).isSome := by decide +kernel
  have ⟨hs, hb⟩ := Option.isSome_iff_exists.mp hd
  have ok : inOnePbufEach.Ok := by
    rw [Segmentation.Ok, if_pos (by decide)]
    exact ⟨by simp [inOnePbufEach], rfl⟩
  exact ⟨hs, hb, reassembled_iff inOnePbufEach hb |>.mpr ok⟩

-- Of a body in a chain of two pbufs only the first one is saved.
theorem second_pbuf_lost :
    ¬∀ s uri n hs (seg : Segmentation n) ps p, httpPostRequest s uri n = some hs → seg.Of ps p →
      Reassembled hs ps p := by
  intro h
  let seg : Segmentation 4 := ⟨[], ⟨2, [2]⟩, by decide, by decide⟩
  let p : Pbuf := ⟨ascii "ab", [ascii "cd"]⟩
  have hd : ((httpPostRequest Shared.init (ascii "/pass.sva") 4).bind
      (connection.run · [.data p])).map (fun r => r.2.map Dispatch.len) = some [2] := by
    decide +kernel
  have ⟨r, hr, hl⟩ := Option.map_eq_some_iff.mp hd
  have ⟨hs, hb, hr⟩ := Option.bind_eq_some_iff.mp hr
  have ⟨hs₁, o, hr₁, h₁⟩ := h _ _ 4 hs seg [] p hb ⟨rfl, rfl⟩
  have hn := (httpPostRequest_spec hb).1
  have ⟨d, hd, hlen, _⟩ := h₁ (by omega)
  have ho : r = (hs₁, o) := Option.some.inj <| hr.symm.trans hr₁
  simp [ho, hd, hlen, hn] at hl

end Post
