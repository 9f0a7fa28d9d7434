import Webtermo.Execution.Httpc.Theorems.Ledger

open Lwip

namespace Httpc

-- The pbufs that an event brings
def Event.ids : Event → List Nat
  | recv p _ => p.ids
  | _        => []

variable {c c₁ : Client} {r : Req} {t o : List Obs}

theorem after_received : received (c.after q r₁ o e).2 = received o := by
  cases r₁ <;> simp [Client.after]

theorem step_received {e : Event} (s : Sound c) (h : step c e = some (c₁, o)) : received o = e.ids := by
  obtain ⟨r, hr, h⟩ := Option.bind_eq_some_iff.mp h
  obtain ⟨hp, -⟩ := s.pcb r hr
  have of_some {x : Client × List Obs} {l : List Nat} (h : some x = some (c₁, o)) (hx : received x.2 = l) :
      received o = l := by
    cases h
    exact hx
  cases e with
  | dnsFound ipaddr connect a =>
    exact of_some h <| after_received.trans (dnsFound_books hp).input
  | connected write a =>
    obtain ⟨⟨r₁, o₁, e₁⟩, h₁, h⟩ := Option.bind_eq_some_iff.mp h
    exact of_some h <| after_received.trans (tcpConnected_books hp h₁).1.input
  | recv p a =>
    obtain ⟨⟨r₁, o₁, e₁⟩, h₁, h⟩ := Option.bind_eq_some_iff.mp h
    refine of_some h <| after_received.trans ?_
    rw [received_cons, (tcpRecv_books hp (s.headers r hr) h₁).1.input, List.append_nil]
    rfl
  | recvNull a => exact of_some h <| after_received.trans close_books.input
  | err err => exact of_some h <| after_received.trans (err_books hp).input
  | poll a => exact of_some h <| after_received.trans (tcpPoll_books hp).input
  | sent => exact of_some h <| after_received.trans rfl

-- What a client has held and what it gets is freed, handed on or held.
theorem step_conserves {e : Event} (l : Ledger t c) (hp : e.Possible c) (h : step c e = some (c₁, o)) :
    (c.held ++ e.ids).Perm (freed o ++ given o ++ c₁.held) := by
  have hl := l.pbufs
  have hl₁ := (step_ledger l hp h).pbufs
  rw [received_append, freed_append, given_append, step_received l.sound h] at hl₁
  rw [List.perm_iff_count] at hl hl₁ ⊢
  intro x
  have hl := hl x
  have hl₁ := hl₁ x
  simp only [List.count_append] at hl hl₁ ⊢
  omega

-- The requests that have been made, and the pbufs of the pool that are free. The application is that of
-- `WhatsApp.c`: `wappReceive` frees no pbuf, so the pool gets back what the clients free.
structure Device where
  clients : List Client
  pool    : List Nat

namespace Device

inductive Event
  | request (serverName uri : Bytes) (a : Start)
  | callback (i : Nat) (e : Httpc.Event)

-- A chain is made of pbufs that are free.
def Event.Possible (d : Device) : Event → Prop
  | request ..   => True
  | callback i e => ∃ c ∈ d.clients[i]?, e.Possible c ∧ e.Fits c ∧ e.ids.Subperm d.pool

def step (d : Device) : Event → Option (Device × List Obs)
  | .request serverName uri a =>
    let (c, o, _) := getFileDns serverName uri a
    some ({ d with clients := d.clients ++ [c] }, o)
  | .callback i e => do
    let c ← d.clients[i]?
    let (c, o) ← Httpc.step c e
    some (⟨d.clients.set i c, d.pool.diff e.ids ++ freed o⟩, o)

def requests : Machine Device Event Obs where
  step := step

def held (d : Device) : List Nat :=
  d.clients.flatMap Client.held

-- Every pbuf of the pool is free, with the application or held by a client.
structure Sound (pool : List Nat) (t : List Obs) (d : Device) : Prop where
  clients : ∀ c ∈ d.clients, c = gone ∨ ∃ t, Ledger t c
  pool    : pool.Perm (d.pool ++ given t ++ d.held)

variable {d d₁ : Device} {pool : List Nat}

theorem step_request {serverName uri : Bytes} {a : Start} (h : Sound pool t d) :
    ∃ d₁ o, step d (.request serverName uri a) = some (d₁, o) ∧ Sound pool (t ++ o) d₁ := by
  generalize hg : getFileDns serverName uri a = x
  obtain ⟨c, o, e⟩ := x
  refine ⟨{ d with clients := d.clients ++ [c] }, o, by simp only [step, hg], ?_⟩
  obtain ⟨hc, hh, ho⟩ : (c = gone ∨ ∃ t, Ledger t c) ∧ c.held = [] ∧ given o = [] := by
    obtain ha | hn := getFileDns_cases hg
    · obtain ⟨r, hr, f⟩ := ha.req
      refine ⟨.inr ⟨o, ha.ledger⟩, by simp [Client.held, hr, f.headers], ?_⟩
      obtain ⟨o₁, rfl, rfl | rfl⟩ := ha.trace <;> rfl
    · exact ⟨.inl hn.gone, by rw [hn.gone]; rfl, hn.pbufs.2.2⟩
  refine ⟨fun x hx => ?_, ?_⟩
  · obtain hx | hx := List.mem_append.mp hx
    · exact h.clients x hx
    · exact List.mem_singleton.mp hx ▸ hc
  · have := h.pool
    simpa [held, ho, hh] using this

theorem step_callback {i : Nat} {e : Httpc.Event} (h : Sound pool t d)
    (hp : (Event.callback i e).Possible d) :
    ∃ d₁ o, step d (.callback i e) = some (d₁, o) ∧ Sound pool (t ++ o) d₁ := by
  obtain ⟨c, hc, hp, hf, hs⟩ := hp
  have hc : d.clients[i]? = some c := hc
  obtain ⟨hi, rfl⟩ := List.getElem?_eq_some_iff.mp hc
  obtain hg | ⟨t₁, l⟩ := h.clients _ (List.getElem_mem hi)
  · obtain ⟨r, hr⟩ := hp.req (hg ▸ gone_sound)
    rw [hg] at hr
    cases hr
  obtain ⟨c₁, o, hstep⟩ := step_exists l.sound hp hf
  have hk := step_conserves l hp hstep
  refine ⟨⟨d.clients.set i c₁, d.pool.diff e.ids ++ freed o⟩, o, ?_, fun x hx => ?_, ?_⟩
  · simp only [step, hc, hstep, Option.bind_eq_bind, Option.bind_some]
  · obtain hx | rfl := List.mem_or_eq_of_mem_set hx
    · exact h.clients x hx
    · exact .inr ⟨_, step_ledger l hp hstep⟩
  · have hd : d.clients = d.clients.take i ++ d.clients[i] :: d.clients.drop (i + 1) := by
      rw [List.getElem_cons_drop, List.take_append_drop]
    have hd₁ : d.clients.set i c₁ = d.clients.take i ++ c₁ :: d.clients.drop (i + 1) :=
      List.set_eq_take_append_cons_drop.trans <| if_pos hi
    have hpool := h.pool
    simp only [held] at hpool ⊢
    rw [hd₁]
    rw [hd] at hpool
    rw [List.perm_iff_count] at hpool hk ⊢
    intro x
    have hpool := hpool x
    have hk := hk x
    have hs := hs.count_le x
    simp only [given_append, List.flatMap_append, List.flatMap_cons, List.count_append, List.count_diff]
      at hpool hk ⊢
    omega

-- Whatever requests are made and whatever is answered, in any order: the pbufs that the application has got
-- never return to the pool. There are at most as many of them as it had at first, and once there are as
-- many, no answer is received any more.
theorem pool_law {es : List Event} (g : requests.Guarded (fun d e => e.Possible d) ⟨[], pool⟩ es) :
    ∃ d₁ t, requests.run ⟨[], pool⟩ es = some (d₁, t) ∧
      pool.Perm (d₁.pool ++ given t ++ d₁.held) ∧ (given t).length ≤ pool.length ∧
      ((given t).length = pool.length →
        d₁.pool = [] ∧ ∀ i p a, ¬(Event.callback i (.recv p a)).Possible d₁) := by
  have hs : Sound pool [] ⟨[], pool⟩ := by
    refine ⟨fun x hx => absurd hx List.not_mem_nil, ?_⟩
    simp [held]
  obtain ⟨d₁, t, hr, h⟩ := Machine.run_total (I := Sound pool)
    (fun {t d e} h hp => by
      cases e with
      | request serverName uri a => exact step_request h
      | callback i e => exact step_callback h hp) hs g
  have hl := h.pool.length_eq
  simp only [List.length_append] at hl
  refine ⟨d₁, t, hr, h.pool, by rw [List.nil_append] at hl; omega, fun he => ?_⟩
  have hz : d₁.pool = [] := List.length_eq_zero_iff.mp (by rw [List.nil_append] at hl; omega)
  refine ⟨hz, fun i p a hp => ?_⟩
  obtain ⟨c, -, hp, -, hs⟩ := hp
  rw [hz] at hs
  have hn : p.ids = [] := List.subperm_nil.mp hs
  exact hp.2 <| List.map_eq_nil_iff.mp hn

instance {e : Event} : Decidable (e.Possible d) :=
  match e with
  | .request .. => isTrue trivial
  | .callback i e =>
    inferInstanceAs <| Decidable (∃ c ∈ d.clients[i]?, e.Possible c ∧ e.Fits c ∧ e.ids.Subperm d.pool)

-- A request that is answered with a chain
def answer (i : Nat) (p : Chain) : List Event :=
  .request (ascii "api.callmebot.com") (ascii "/whatsapp.php") ⟨true, true, true, .inProgress, .ok, .ok⟩ ::
    [.dnsFound true .ok fine, .connected .ok fine, .recv p fine, .recvNull fine].map (.callback i)

-- Three pbufs are not enough for a fourth answer.
def drained : List Event :=
  answer 0 [⟨1, ascii "HTTP/1.1 200 OK\r\n\r\n"⟩, ⟨2, ascii "queued"⟩] ++
  answer 1 [⟨1, ascii "HTTP/1.1 200 OK\r\n\r\n"⟩, ⟨3, ascii "queued"⟩] ++
  answer 2 [⟨1, ascii "HTTP/1.1 200 OK\r\n\r\nqueued"⟩]

theorem pool_law_drained : requests.Guarded (fun d e => e.Possible d) ⟨[], [1, 2, 3]⟩ drained ∧
    ∃ d₁ t, requests.run ⟨[], [1, 2, 3]⟩ drained = some (d₁, t) ∧
      [1, 2, 3].Perm (d₁.pool ++ given t ++ d₁.held) ∧ (given t).length ≤ [1, 2, 3].length ∧
      ((given t).length = [1, 2, 3].length →
        d₁.pool = [] ∧ ∀ i p a, ¬(Event.callback i (.recv p a)).Possible d₁) := by
  have g : requests.Guarded (fun d e => e.Possible d) ⟨[], [1, 2, 3]⟩ drained := by decide +kernel
  exact ⟨g, pool_law g⟩

end Device

end Httpc
