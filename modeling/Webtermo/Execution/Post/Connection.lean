import Webtermo.Execution.Post.Basic

namespace Post

-- A connection that receives a POST: the shared variables and `post_content_len_left`
structure Hs extends Shared where
  left : Nat

-- `http_post_request` for a given `Content-Length`
def httpPostRequest (s : Shared) (uri : Bytes) (contentLen : Nat) : Option Hs := do
  some { (← httpdPostBegin s uri) with left := contentLen }

def Hs.finish (hs : Hs) : Option (Hs × List Dispatch) := do
  let (s, d) ← httpdPostFinished hs.toShared
  some ({ s with left := 0 }, [d])

def httpPostRxpbuf (hs : Hs) (p : Pbuf) : Option (Hs × List Dispatch) := do
  let left := if hs.left < p.totLen then 0 else hs.left - p.totLen
  let s ← httpdPostReceiveData hs.toShared p
  if left = 0 then Hs.finish { s with left } else some ({ s with left }, [])

-- What TCP tells the server about the connection
inductive Tcp
  -- `http_recv` with a chain of pbufs
  | data (p : Pbuf)
  -- `http_recv` without a pbuf: the client has closed the connection.
  | closed
  -- `http_poll` has run out of retries.
  | timeout
  -- `http_err`
  | reset

-- `http_close_or_abort_conn`
def httpCloseOrAbortConn (hs : Hs) : Option (Hs × List Dispatch) :=
  if hs.left ≠ 0 then hs.finish else some (hs, [])

def connection : Machine Hs Tcp Dispatch where
  step hs
    | .data p            => if 0 < hs.left then httpPostRxpbuf hs p else some (hs, [])
    | .closed | .timeout => httpCloseOrAbortConn hs
    | .reset             => some ({ hs with left := 0 }, [])

def totLen (ps : List Pbuf) : Nat :=
  (ps.map Pbuf.totLen).sum

-- The bytes that are copied into `post_buffer`
def copied (ps : List Pbuf) : Bytes :=
  ps.flatMap Pbuf.payload

-- What a connection looks like after a part of its body.
structure Partial (hs hs₁ : Hs) (ps : List Pbuf) : Prop where
  left     : hs₁.left = hs.left - totLen ps
  funkcija : hs₁.funkcija = hs.funkcija
  writePos : hs₁.writePos = hs.writePos + (copied ps).length
  bytes    : hs₁.buffer.bytes.take hs₁.writePos = hs.buffer.bytes.take hs.writePos ++ copied ps

theorem totLen_cons : totLen (p :: ps) = p.totLen + totLen ps := by
  simp [totLen]

theorem copied_cons : copied (p :: ps) = p.payload ++ copied ps := by
  simp [copied]

variable {hs hs₁ hs₂ : Hs}

-- What one chain does when the body goes on after it.
structure Rx (hs hs₁ : Hs) (p : Pbuf) : Prop where
  left     : hs₁.left = hs.left - p.totLen
  funkcija : hs₁.funkcija = hs.funkcija
  writePos : hs₁.writePos = hs.writePos + p.payload.length
  bytes    : hs₁.buffer.bytes.take hs₁.writePos = hs.buffer.bytes.take hs.writePos ++ p.payload

theorem rxpbuf_spec {h : Hs} (ht : p.totLen < h.left) (hp : h.writePos + p.payload.length ≤ 4096) :
    ∃ h₁, connection.step h (.data p) = some (h₁, []) ∧ Rx h h₁ p := by
  have ⟨s, hs, hf, hw, hb⟩ := httpdPostReceiveData_spec hp
  have hl : ¬h.left < p.totLen := by omega
  have hn : h.left - p.totLen ≠ 0 := by omega
  have h₀ : 0 < h.left := by omega
  refine ⟨{ s with left := h.left - p.totLen }, ?_, rfl, hf, hw, hb⟩
  simp [connection, h₀, httpPostRxpbuf, hl, hs, hn]

theorem rxpbuf_none {h : Hs} (h₀ : 0 < h.left) (hp : 4096 < h.writePos + p.payload.length) :
    connection.step h (.data p) = none := by
  have hr : httpdPostReceiveData h.toShared p = none := by
    rw [← Option.not_isSome_iff_eq_none, httpdPostReceiveData_isSome_iff]
    omega
  simp [connection, h₀, httpPostRxpbuf, hr]

theorem Partial.cons (a : Rx hs hs₁ p) (b : Partial hs₁ hs₂ ps) : Partial hs hs₂ (p :: ps) where
  left     := by rw [b.left, a.left, totLen_cons, Nat.sub_sub]
  funkcija := b.funkcija.trans a.funkcija
  writePos := by rw [b.writePos, a.writePos, copied_cons, List.length_append, Nat.add_assoc]
  bytes    := by rw [b.bytes, a.bytes, copied_cons, List.append_assoc]

-- A part of the body leaves its first payloads in `post_buffer`, and nothing is saved.
theorem recv_spec (ht : totLen ps < hs.left) (hp : hs.writePos + (copied ps).length ≤ 4096) :
    ∃ hs₁, connection.run hs (ps.map .data) = some (hs₁, []) ∧ Partial hs hs₁ ps := by
  induction ps generalizing hs with
  | nil => exact ⟨hs, rfl, by simp [totLen], rfl, by simp [copied], by simp [copied]⟩
  | cons p ps ih =>
    rw [totLen_cons] at ht
    rw [copied_cons, List.length_append] at hp
    have ⟨hs₁, h₁, a⟩ := rxpbuf_spec (h := hs) (p := p) (by omega) (by omega)
    have hl : totLen ps < hs₁.left := by rw [a.left]; omega
    have ⟨hs₂, h₂, b⟩ := ih hl (by rw [a.writePos]; omega)
    exact ⟨hs₂, by simp [Machine.run_cons_of_step h₁, h₂], Partial.cons a b⟩

theorem recv_none (ht : totLen ps < hs.left) (h₀ : hs.writePos ≤ 4096)
    (hp : 4096 < hs.writePos + (copied ps).length) :
    connection.run hs (ps.map .data) = none := by
  induction ps generalizing hs with
  | nil => simp [copied] at hp; omega
  | cons p ps ih =>
    rw [totLen_cons] at ht
    rw [copied_cons, List.length_append] at hp
    by_cases hf : hs.writePos + p.payload.length ≤ 4096
    case pos =>
      have ⟨hs₁, h₁, a⟩ := rxpbuf_spec (h := hs) (p := p) (by omega) hf
      have hl : totLen ps < hs₁.left := by rw [a.left]; omega
      have h₂ := ih hl (by rw [a.writePos]; omega) (by rw [a.writePos]; omega)
      simp [Machine.run_cons_of_step h₁, h₂]
    case neg =>
      simp [Machine.run, rxpbuf_none (h := hs) (p := p) (by omega) (by omega)]

theorem httpPostRequest_spec (h : httpPostRequest s uri n = some hs) :
    hs.left = n ∧ hs.writePos = 0 ∧ s.funkcija.strcpy uri = some hs.funkcija := by
  simp only [httpPostRequest, httpdPostBegin, Option.bind_eq_bind, Option.bind_eq_some_iff,
    Option.some.injEq] at h
  obtain ⟨_, ⟨_, hf, hs'⟩, h⟩ := h
  exact ⟨by simp [← h], by simp [← h, ← hs'], by simp [← h, ← hs', hf]⟩

theorem finish_spec {h : Hs} (hu : h.funkcija.text 0 = some uri) (hp : h.writePos < 4096) :
    ∃ h₁ body, h.finish = some (h₁, [⟨dispatch uri, body, h.writePos⟩]) ∧
      body.bytes.take (h.writePos + 1) = h.buffer.bytes.take h.writePos ++ [0] := by
  have ⟨s, body, hs, hb⟩ := httpdPostFinished_spec hu hp
  exact ⟨{ s with left := 0 }, body, by simp [Hs.finish, hs], hb⟩

theorem finish_none {h : Hs} (hu : h.funkcija.text 0 = some uri) (hp : 4096 ≤ h.writePos) :
    h.finish = none := by
  have hn : httpdPostFinished h.toShared = none := by
    rw [← Option.not_isSome_iff_eq_none, httpdPostFinished_isSome_iff hu]
    omega
  simp [Hs.finish, hn]

-- The chain with the end of the body is followed by `httpd_post_finished`.
theorem rxpbuf_last {h : Hs} (hu : h.funkcija.text 0 = some uri) (h₀ : 0 < h.left)
    (ht : h.left ≤ p.totLen) (hp : h.writePos + p.payload.length < 4096) :
    ∃ h₁ body, connection.step h (.data p) =
        some (h₁, [⟨dispatch uri, body, h.writePos + p.payload.length⟩]) ∧
      body.bytes.take (h.writePos + p.payload.length + 1) =
        h.buffer.bytes.take h.writePos ++ p.payload ++ [0] := by
  have ⟨s, hs, hf, hw, hb⟩ := httpdPostReceiveData_spec (s := h.toShared) (p := p) (by omega)
  have hl : h.left - p.totLen = 0 := by omega
  have ⟨h₁, body, h₂, hd⟩ := finish_spec (h := { s with left := 0 }) (hf ▸ hu) (by simp [hw, hp])
  refine ⟨h₁, body, ?_, by rw [← hb, ← hw]; exact hd⟩
  simp [connection, h₀, httpPostRxpbuf, hl, hs, h₂, ← hw]

theorem rxpbuf_last_none {h : Hs} (hu : h.funkcija.text 0 = some uri) (h₀ : 0 < h.left)
    (ht : h.left ≤ p.totLen) (hp : 4096 ≤ h.writePos + p.payload.length) :
    connection.step h (.data p) = none := by
  by_cases hw : h.writePos + p.payload.length ≤ 4096
  case neg => exact rxpbuf_none h₀ (by omega)
  case pos =>
    have ⟨s, hs, hf, hw, _⟩ := httpdPostReceiveData_spec hw
    have hl : h.left - p.totLen = 0 := by omega
    have h₂ := finish_none (h := { s with left := 0 }) (hf ▸ hu) (by simp [hw, hp])
    simp [connection, h₀, httpPostRxpbuf, hl, hs, h₂]

end Post
