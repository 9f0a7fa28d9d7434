import Webtermo.Execution.Post.Connection

namespace Post

-- The ways in which a connection ends before its body is complete
inductive Ending
  | closed
  | timeout
  | reset
  deriving DecidableEq

def Ending.event : Ending → Tcp
  | closed  => .closed
  | timeout => .timeout
  | reset   => .reset

-- A POST that ends after a strict prefix of its body
structure Aborted where
  uri           : Bytes
  nul_not_mem   : 0 ∉ uri
  contentLength : Nat
  chains        : List Pbuf
  cut           : totLen chains < contentLength
  ending        : Ending

namespace Aborted

variable {a : Aborted}

def run (a : Aborted) (s : Shared) : Option (Hs × List Dispatch) := do
  let hs ← httpPostRequest s a.uri a.contentLength
  connection.run hs (a.chains.map .data ++ [a.ending.event])

-- The save handlers called in a run change the device `D`.
def device (handle : Handler → Buffer 4096 → Nat → D → Option D) (ds : List Dispatch) (dev : D) :
    Option D :=
  ds.foldlM (fun dev d => match d.handler with
    | none         => some dev
    | some handler => handle handler d.body d.len dev) dev

-- No save handler runs, and so the device is as before, whatever the handlers do.
def Unchanged (a : Aborted) (s : Shared) : Prop :=
  ∃ hs ds, a.run s = some (hs, ds) ∧ (∀ d ∈ ds, d.handler = none) ∧
    ∀ {D : Type} (handle : Handler → Buffer 4096 → Nat → D → Option D) (dev : D),
      device handle ds dev = some dev

-- The URI fits into `post_funkcija` and the copied bytes, with a NUL unless the connection is reset,
-- into `post_buffer`. Without a reset the URI must be none that is saved.
structure Ok (a : Aborted) : Prop where
  uri     : a.uri.length < 64
  fits    : (copied a.chains).length ≤ if a.ending = .reset then 4096 else 4095
  unsaved : a.ending = .reset ∨ dispatch a.uri = none

theorem device_unchanged {ds : List Dispatch} (h : ∀ d ∈ ds, d.handler = none) :
    device handle ds dev = some dev := by
  induction ds with
  | nil => rfl
  | cons d ds ih =>
    have hd : d.handler = none := h d (by simp)
    have := ih fun d hd => h d (by simp [hd])
    simpa [device, hd] using this

theorem begin_spec (s : Shared) (hu : a.uri.length < 64) :
    ∃ hs, httpPostRequest s a.uri a.contentLength = some hs ∧ hs.left = a.contentLength ∧
      hs.writePos = 0 ∧ hs.funkcija.text 0 = some a.uri := by
  have ⟨s₁, h, ht, hw⟩ := httpdPostBegin_spec (s := s) a.nul_not_mem hu
  exact ⟨{ s₁ with left := a.contentLength }, by simp [httpPostRequest, h], rfl, hw, ht⟩

theorem begin_none (s : Shared) (hu : 64 ≤ a.uri.length) : a.run s = none := by
  have h : s.funkcija.strcpy a.uri = none := by
    rw [← Option.not_isSome_iff_eq_none, Buffer.strcpy_isSome_iff]
    omega
  simp [run, httpPostRequest, httpdPostBegin, h]

-- A connection that is closed in the middle of a body is finished like one that is complete.
theorem closed_eq {s : Hs} (hl : 0 < s.left) (h : e ≠ Ending.reset) :
    connection.run s [e.event] = s.finish := by
  have hl : s.left ≠ 0 := by omega
  cases e with
  | closed | timeout =>
    simp [Machine.run_singleton, connection, Ending.event, httpCloseOrAbortConn, hl]
  | reset => exact absurd rfl h

theorem run_eq {s : Shared} {hs hs₁ : Hs} (hb : httpPostRequest s a.uri a.contentLength = some hs)
    (hr : connection.run hs (a.chains.map .data) = some (hs₁, [])) :
    a.run s = connection.run hs₁ [a.ending.event] := by
  cases h : connection.run hs₁ [a.ending.event] <;> simp [run, hb, Machine.run_append, hr, h]

theorem not_unchanged_of_none {s : Shared} (h : a.run s = none) : ¬a.Unchanged s := by
  simp [Unchanged, h]

-- An aborted POST leaves the device as it was if and only if the connection is reset or its URI is
-- none that is saved, as long as everything fits into the arrays.
theorem unchanged_iff (a : Aborted) (s : Shared) : a.Unchanged s ↔ a.Ok := by
  by_cases hu : a.uri.length < 64
  case neg =>
    exact iff_of_false (not_unchanged_of_none <| begin_none s (by omega)) (fun ok => hu ok.uri)
  case pos =>
    have ⟨hs, hb, hl, hw, ht⟩ := begin_spec s hu
    have hc : totLen a.chains < hs.left := hl ▸ a.cut
    by_cases hp : (copied a.chains).length ≤ 4096
    case neg =>
      have hn : a.run s = none := by
        simp [run, hb, Machine.run_append, recv_none hc (by omega) (by omega)]
      refine iff_of_false (not_unchanged_of_none hn) (fun ok => ?_)
      have := ok.fits
      split at this <;> omega
    case pos =>
      have ⟨hs₁, hr, r⟩ := recv_spec hc (by omega)
      have hw₁ : hs₁.writePos = (copied a.chains).length := by rw [r.writePos, hw, Nat.zero_add]
      by_cases he : a.ending = .reset
      case pos =>
        refine iff_of_true ⟨{ hs₁ with left := 0 }, [], ?_, by simp, fun _ _ => rfl⟩ ?_
        · rw [run_eq hb hr, he]
          rfl
        · exact ⟨hu, by simpa [he] using hp, .inl he⟩
      case neg =>
        have hf := closed_eq (s := hs₁) (by rw [r.left]; omega) he
        by_cases hp₁ : (copied a.chains).length ≤ 4095
        case neg =>
          have hn : a.run s = none := by
            rw [run_eq hb hr, hf, finish_none (r.funkcija ▸ ht) (by omega)]
          refine iff_of_false (not_unchanged_of_none hn) (fun ok => ?_)
          have := ok.fits
          rw [if_neg he] at this
          omega
        case pos =>
          have ⟨hs₂, body, hd, _⟩ := finish_spec (h := hs₁) (r.funkcija ▸ ht) (by omega)
          have hrun := (run_eq hb hr).trans <| hf.trans hd
          constructor
          · intro ⟨_, ds, h, hn, _⟩
            rw [hrun, Option.some.injEq, Prod.mk.injEq] at h
            refine ⟨hu, by rwa [if_neg he], .inr ?_⟩
            exact hn _ (h.2 ▸ List.mem_singleton_self _)
          · intro ok
            have hn : ∀ d ∈ [Dispatch.mk (dispatch a.uri) body hs₁.writePos], d.handler = none := by
              simpa using ok.unsaved.resolve_left he
            exact ⟨hs₂, _, hrun, hn, fun _ _ => device_unchanged hn⟩

-- Closing the connection in the middle of the body saves the part that has arrived.
theorem closed_post_saved : ¬∀ (a : Aborted) s, a.Unchanged s := by
  intro h
  let a : Aborted := {
    uri           := ascii "/pass.sva"
    nul_not_mem   := by decide
    contentLength := 30
    chains        := [⟨ascii "<PASS>x", []⟩]
    cut           := by decide
    ending        := .closed
  }
  have hd : (a.run Shared.init).map (fun r => r.2.map Dispatch.handler) = some [some .pass] := by
    decide +kernel
  have ⟨_, ds, hr, hn, _⟩ := h a Shared.init
  simp only [hr, Option.map_some, Option.some.injEq] at hd
  have hp : some Handler.pass ∈ ds.map Dispatch.handler := hd ▸ List.mem_singleton_self _
  have ⟨d, hm, hs⟩ := List.mem_map.mp hp
  exact absurd (hn d hm) (by simp [hs])

end Aborted

end Post
