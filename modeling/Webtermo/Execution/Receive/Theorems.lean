import Webtermo.Execution.Receive.State

namespace Receive

open Post (Pbuf)

variable {s s₁ : State} {e : Event} {es : List Event} {x : Obs} {t o : List Obs}
  {p : Option Pbuf}

-- The bytes that a callback has been given
def received (c : Callback) (t : List Obs) : Bytes :=
  t.flatMap fun x => if x.callback = c then x.p.elim [] Pbuf.data else []

-- The bytes received so far are in `ibipretbuf` as far as it holds them, the tags are searched for in
-- them, the texts fit and the chain is freed once.
structure Lawful (past : List Obs) (x : Obs) : Prop where
  copied   : x.p.isSome →
    x.buf.bytes.take (received x.callback (past ++ [x])).length =
      (received x.callback (past ++ [x])).take 1024
  searched : x.callback = .wclRecv → x.p.isSome → x.done.searches.map (·.1) =
    [ascii "<status>", ascii "<credits>"]
  searches : ∀ r ∈ x.done.searches, r.2 = (received x.callback (past ++ [x])).take 1024
  status   : ∀ v ∈ x.done.status, v.length ≤ 31
  credit   : ∀ v ∈ x.done.credit, v.length ≤ 15
  freed    : x.frees = if x.p.isSome then 1 else 0

-- No call accesses anything outside of the buffers and the chains, or a chain that is not there.
def Law (s : State) (es : List Event) : Prop :=
  ∃ s₁ t, device.run s es = some (s₁, t) ∧ Always Lawful t

-- The loop over a chain leaves it at its end.
theorem wclRecv.loop_end (h : wclRecv.loop s payload next = some (s₁, p)) : p = none := by
  induction next generalizing s payload with
  | nil =>
    simp only [loop, Option.bind_eq_bind, Option.bind_eq_some_iff, Option.some.injEq,
      Prod.mk.injEq] at h
    have ⟨_, _, _, hp⟩ := h
    exact hp.symm
  | cons next rest ih =>
    simp only [loop, Option.bind_eq_bind, Option.bind_eq_some_iff] at h
    have ⟨_, _, h⟩ := h
    exact ih h

-- With a chain, the length of the pbuf behind its end is read.
theorem wclRecv_isSome_iff : (wclRecv s ok p).isSome ↔ ok = false ∨ p = none := by
  cases ok with
  | false => simp [wclRecv]
  | true =>
    cases p with
    | none => simp [wclRecv]
    | some p =>
      cases hl : wclRecv.loop s p.payload p.next with
      | none => simp [wclRecv, hl]
      | some r =>
        have hp : r.2 = none := wclRecv.loop_end hl
        simp [wclRecv, hl, hp]

-- The callback for the credit stays in its buffers only with an answer of one pbuf that leaves room for
-- a NUL, and with at most 15 characters behind the last LF. Then `ibipretbuf` has the answer.
theorem wclCreditRecv_spec (h : wclCreditRecv s true (some q) = some (s₁, d)) :
    q.data = q.payload ∧ q.totLen < 1024 ∧ s₁.ibipretbuf.bytes.take q.totLen = q.data ∧
      ∀ v ∈ d.credit, v.length ≤ 15 := by
  simp only [wclCreditRecv, wclCreditRecv.payloadBytes, Option.bind_eq_bind,
    Option.bind_eq_some_iff, Option.some.injEq, Prod.mk.injEq, Option.ite_none_right_eq_some] at h
  have ⟨_, ⟨hl, hd⟩, b₁, h₁, b₂, h₂, _, _, _, hc, hs, hdone⟩ := h
  have hn : q.next.flatten = [] := by
    rw [Pbuf.totLen, Pbuf.data, List.length_append] at hl
    exact List.length_eq_zero_iff.mp (by omega)
  have hp : q.data = q.payload := by
    simp [Pbuf.data, hn]
  have ht : q.totLen = q.payload.length := congrArg List.length hp
  rw [ht, List.take_length] at hd
  cases hd
  refine ⟨hp, Buffer.write_fits h₂, ?_, ?_⟩
  · calc s₁.ibipretbuf.bytes.take q.totLen
      _ = b₁.bytes.take q.totLen := by rw [← hs, Buffer.take_write h₂ (Nat.le_refl _)]
      _ = q.data                 := by simpa [ht, hp] using Buffer.take_write_append h₁
  · have := Buffer.strcpy_isSome_iff.mp <| Option.isSome_iff_exists.mpr ⟨_, hc⟩
    simpa [← hdone] using Nat.le_of_lt_succ this

theorem exec_eq_some (hp : e.p = none) : ∃ s₁, e.exec s = some (s₁, .nothing) := by
  unfold Event.exec
  split
  case h_1 => simp [hp, wclRecv]
  case h_2 => simp [hp, wclCreditRecv]
  case h_3 => exact ⟨_, rfl⟩

theorem step_obs (h : device.step s e = some (s₁, o)) : ∃ x, o = [x] ∧ x.p = e.p ∧ x.frees = 0 := by
  have ⟨(s₂, d), _, he⟩ := Option.map_eq_some_iff.mp h
  cases he
  exact ⟨_, rfl, rfl, rfl⟩

theorem step_freed (h : device.step s e = some (s₁, o)) :
    (∀ x ∈ o, x.frees = if x.p.isSome then 1 else 0) ↔ e.p = none := by
  have ⟨x, ho, hp, hf⟩ := step_obs h
  cases he : e.p <;> simp [ho, hp, hf, he]

theorem step_quiet (hp : e.p = none) (a : Always Lawful t) :
    ∃ s₁ o, device.step s e = some (s₁, o) ∧ Always Lawful (t ++ o) := by
  have ⟨s₁, h⟩ := exec_eq_some (s := s) hp
  refine ⟨s₁, [⟨e.callback, e.p, s₁.ibipretbuf, .nothing, 0⟩], by simp [device, h], a.concat ?_⟩
  constructor <;> simp [hp, Done.nothing]

-- Whatever the servers answer, the callbacks do as they should exactly if they are never given a pbuf,
-- so if all connections are closed without an answer.
theorem answer_law : Law s es ↔ ∀ e ∈ es, e.p = none := by
  constructor
  case mp =>
    intro ⟨s₁, t, hr, a⟩
    have freed : ∀ x ∈ t, x.frees = if x.p.isSome then 1 else 0 := by
      intro x hx
      have ⟨t₁, t₂, ht⟩ := List.append_of_mem hx
      exact a t₁ x t₂ ht |>.freed
    exact (Machine.run_emits_iff (fun _ => step_freed) hr).mp freed |>.forall hr
  case mpr =>
    intro h
    have g : device.Guarded (fun _ e => e.p = none) s es := .of_forall h
    have ⟨s₁, t, hr, a⟩ := device.run_total (t := []) (I := fun t _ => Always Lawful t)
      (fun a hp => step_quiet hp a) .nil g
    exact ⟨s₁, t, hr, a⟩

-- A server of the SMS service that answers with the status
def answer : Event :=
  ⟨.wclRecv, true, some ⟨ascii "<status>0</status>", []⟩⟩

def State.init : State :=
  ⟨.zero 1024, .zero 32, .zero 16, 0, fun _ => .waiting, .free⟩

theorem answer_unread : ¬∀ s es, Law s es := by
  intro h
  have ⟨_, _, hr, _⟩ := h .init [answer]
  have : device.run .init [answer] = none := by
    simp only [Machine.run_singleton, device, Event.exec, answer, Option.map_eq_none_iff]
    rw [← Option.not_isSome_iff_eq_none, wclRecv_isSome_iff]
    simp
  exact nomatch this ▸ hr

end Receive
