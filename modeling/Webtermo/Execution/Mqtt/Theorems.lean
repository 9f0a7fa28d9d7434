import Webtermo.Execution.Mqtt.State

namespace Mqtt

variable {s s₁ : State} {a : Answers} {o t : List Obs}

-- Where the thread comes to `mqtt_connect`, the name is not resolved, the link is down or the client
-- is connected.
def Quiet (s : State) : Event → Prop
  | .scan expired a => s.pt = .connect → expired → a.dns → a.link → s.isConnected a.null
  | .network _ _    => True

instance : Decidable (Quiet s e) := by
  cases e <;> unfold Quiet <;> infer_instance

-- The only client is the one that `mqtt_example_init` has created.
structure Sole (s : State) : Prop where
  client  : s.client = some 0
  clients : s.clients = 1

namespace State

@[simp]
theorem setConn_client : (s.setConn i c).client = s.client :=
  rfl

@[simp]
theorem setConn_clients : (s.setConn i c).clients = s.clients :=
  rfl

@[simp]
theorem clientConnect_client : (s.clientConnect tcp).client = s.client := by
  unfold clientConnect
  split <;> [rfl; split <;> rfl]

@[simp]
theorem clientConnect_clients : (s.clientConnect tcp).clients = s.clients := by
  unfold clientConnect
  split <;> [rfl; split <;> rfl]

theorem disconnect_client : s.disconnect.client = s.client := by
  unfold disconnect
  split <;> rfl

theorem disconnect_clients : s.disconnect.clients = s.clients := by
  unfold disconnect
  split <;> rfl

theorem network_client : (s.network i n).client = s.client := by
  cases n <;> simp only [network] <;> [split; split; skip] <;> rfl

theorem network_clients : (s.network i n).clients = s.clients := by
  cases n <;> simp only [network] <;> [split; split; skip] <;> rfl

end State

theorem Sole.of_eq (h : Sole s) (hc : s₁.client = s.client) (hn : s₁.clients = s.clients) : Sole s₁ where
  client  := hc.trans h.client
  clients := hn.trans h.clients

theorem Sole.disconnect (h : Sole s) : Sole s.disconnect :=
  h.of_eq State.disconnect_client State.disconnect_clients

theorem Sole.network (h : Sole s) : Sole (s.network i n) :=
  h.of_eq State.network_client State.network_clients

theorem Sole.publish (h : Sole s) : ∀ o ∈ mqttPublish s k, o.Ok := by
  simp only [mqttPublish, List.forall_mem_singleton]
  exact ⟨by simp [Call.Ok, h.client], Nat.le_of_eq h.clients⟩

-- The second client of a run is one too many, and without it `mqtt_client_connect` is given `NULL`.
theorem Sole.not_create (h : Sole s) : ¬∀ o ∈ (create s a).2, o.Ok := by
  intro ho
  have ⟨_, _, hc⟩ := List.forall_mem_cons.mp ho |>.imp_right List.forall_mem_cons.mp
  have hc := List.forall_mem_singleton.mp hc
  have hl := hc.clients
  have hn := hc.call
  cases hw : a.new <;> simp [State.clientNew, hw, Call.Ok, h.clients] at hl hn

-- The first client is created under the same conditions.
theorem create_first : (∀ o ∈ (mqttExampleInit a).2, o.Ok) ↔ a.new := by
  cases hw : a.new
  case false =>
    simp only [mqttExampleInit, create, List.forall_mem_cons, Bool.false_eq_true, iff_false]
    intro ⟨_, _, hc, _⟩
    exact hc.call <| by simp [State.clientNew, hw]
  case true =>
    simp only [mqttExampleInit, create, List.forall_mem_cons, iff_true]
    refine ⟨⟨?_, ?_⟩, ⟨trivial, ?_⟩, ⟨?_, ?_⟩, by simp⟩ <;> simp [State.clientNew, hw, Call.Ok]

theorem sole_first (h : a.new) : Sole (mqttExampleInit a).1 := by
  constructor <;> simp [mqttExampleInit, create, State.clientNew, h]

-- What `mqtt_connect` does when it finds the client that `mqtt_example_init` has created
theorem Sole.mqttConnect (h : Sole s) :
    ((∀ o ∈ (mqttConnect s a).2, o.Ok) ↔ (a.dns → a.link → s.isConnected a.null)) ∧
    ((a.dns → a.link → s.isConnected a.null) → Sole (Mqtt.mqttConnect s a).1) := by
  have ha : ∀ c, c.Ok → Obs.Ok ⟨c, s.clients⟩ := fun c hc => ⟨hc, Nat.le_of_eq h.clients⟩
  cases hd : a.dns
  case false => simpa [Mqtt.mqttConnect, hd] using h
  case true =>
    cases hl : a.link
    case false =>
      have ho := ha (.disconnect s.client) <| by simp [Call.Ok, h.client]
      simpa [Mqtt.mqttConnect, hd, hl, ho] using h.disconnect
    case true =>
      cases hc : s.isConnected a.null
      case false =>
        have hn : ¬∀ o ∈ (create s a).2, o.Ok := h.not_create
        simp only [Mqtt.mqttConnect, hd, hl, hc, Bool.false_eq_true, not_false_eq_true, if_true,
          List.forall_mem_cons, hn]
        simp
      case true =>
        have ho := ha (.isConnected s.client) trivial
        have hp := h.publish (k := 1)
        simp [Mqtt.mqttConnect, hd, hl, hc, ho]
        exact ⟨hp, h⟩

-- One pass of the thread
theorem Sole.ptMQTT (h : Sole s) :
    ((∀ o ∈ (ptMQTT s expired a).2, o.Ok) ↔ Quiet s (.scan expired a)) ∧
    (Quiet s (.scan expired a) → Sole (Mqtt.ptMQTT s expired a).1) := by
  have hi : ∀ {p}, Sole { s with pt := p } := h.of_eq rfl rfl
  cases hp : s.pt with
  | start    => simp [Mqtt.ptMQTT, Quiet, hp, hi]
  | publish₁ =>
    cases expired with
    | false => simp [Mqtt.ptMQTT, Quiet, hp, hi]
    | true  => simpa [Mqtt.ptMQTT, Quiet, hp, hi] using h.publish
  | publish₂ => cases expired <;> simp [Mqtt.ptMQTT, Quiet, hp, hi]
  | connect  =>
    cases expired with
    | false => simp [Mqtt.ptMQTT, Quiet, hp, h]
    | true  =>
      have ⟨he, hs⟩ := h.mqttConnect (a := a)
      simp only [Mqtt.ptMQTT, Quiet, hp, if_true, List.forall_mem_append, he, forall_const]
      refine ⟨⟨And.left, fun hq => ⟨hq, ?_⟩⟩, fun hq => (hs hq).of_eq rfl rfl⟩
      exact (hs hq).publish

theorem Sole.step (h : Sole s) (hs : mqtt.step s e = some (s₁, o)) :
    ((∀ w ∈ o, w.Ok) ↔ Quiet s e) ∧ (Quiet s e → Sole s₁) := by
  cases e with
  | scan expired a =>
    have hs : Mqtt.ptMQTT s expired a = (s₁, o) := Option.some.inj hs
    have he := @Sole.ptMQTT s a expired h
    rwa [hs] at he
  | network i n =>
    cases hs
    exact ⟨by simp [Quiet], fun _ => h.network⟩

-- The clients of a run stay at most one, no call is given `NULL` and no attempt is left behind exactly
-- if the first client is allocated and each cycle that could connect finds it connected.
theorem lifecycle_law :
    ∃ s₁ t, mqtt.run (mqttExampleInit a).1 es = some (s₁, t) ∧
      ((∀ o ∈ (mqttExampleInit a).2 ++ t, o.Ok) ↔
        a.new ∧ mqtt.Guarded Quiet (mqttExampleInit a).1 es) := by
  have ⟨s₁, t, hr⟩ : ∃ s₁ t, mqtt.run (mqttExampleInit a).1 es = some (s₁, t) :=
    Machine.run_exists fun _ e => by cases e <;> exact ⟨_, _, rfl⟩
  refine ⟨s₁, t, hr, ?_⟩
  simp only [List.forall_mem_append, create_first]
  exact and_congr_right fun ha => Machine.run_emits_iff_of_invariant Sole.step (sole_first ha) hr

-- The broker does not answer, and the first cycle creates a second client while the first one still
-- tries to connect.
theorem lifecycle_second_client :
    let a := ⟨true, true, true, true, false⟩
    ∃ s₁ t, mqtt.run (mqttExampleInit a).1 [.scan false a, .scan true a] = some (s₁, t) ∧
      (⟨.new <| some .tcpConnecting, 2⟩ ∈ t) ∧ ¬∀ o ∈ (mqttExampleInit a).2 ++ t, o.Ok := by
  refine ⟨_, _, rfl, ?_, ?_⟩
  case refine_1 => exact .tail _ <| .head _
  case refine_2 => decide +kernel

end Mqtt
