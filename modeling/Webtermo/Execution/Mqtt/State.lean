import Webtermo.Library.Run

namespace Mqtt

-- `conn_state` of a client
inductive Conn
  | tcpDisconnected
  | tcpConnecting
  | mqttConnecting
  | mqttConnected
  deriving DecidableEq

-- A connection attempt is under way.
def Conn.Pending (c : Conn) : Prop :=
  c = .tcpConnecting ∨ c = .mqttConnecting

instance {c : Conn} : Decidable c.Pending :=
  inferInstanceAs <| Decidable (_ ∨ _)

-- The line of `ptMQTT` that the thread waits in
inductive Point
  | start
  | connect
  | publish₁
  | publish₂
  deriving DecidableEq

-- The clients are numbered in the order in which `mqtt_client_new` allocates them.
structure State where
  client  : Option Nat := none
  clients : Nat := 0
  conn    : Nat → Conn := fun _ => .tcpDisconnected
  pt      : Point := .start

-- What a cycle finds: the name is resolved, the link is up, `mem_calloc` has memory and
-- `altcp_connect` takes the attempt. The last one is what `mqtt_client_is_connected` makes of the
-- memory behind `NULL`.
structure Answers where
  dns  : Bool
  link : Bool
  new  : Bool
  tcp  : Bool
  null : Bool

-- What the network does to a connection
inductive Network
  | established
  | accepted
  | closed

inductive Event
  | scan (expired : Bool) (a : Answers)
  | network (i : Nat) (n : Network)

-- The calls to the library, `new` with the state of the current client
inductive Call
  | new (conn : Option Conn)
  | setInpubCallback (client : Option Nat)
  | connect (client : Option Nat)
  | isConnected (client : Option Nat)
  | publish (client : Option Nat) (sensor : Nat)
  | disconnect (client : Option Nat)

-- A call, and the clients that are allocated and not freed after it
structure Obs where
  call    : Call
  clients : Nat

def Call.Ok : Call → Prop
  | .new conn                                      => ∀ c ∈ conn, ¬c.Pending
  | .connect client | .publish client _ | .disconnect client => client ≠ none
  | .setInpubCallback _ | .isConnected _           => True

structure Obs.Ok (o : Obs) : Prop where
  call    : o.call.Ok
  clients : o.clients ≤ 1

instance {c : Call} : Decidable c.Ok := by
  cases c <;> unfold Call.Ok <;> infer_instance

instance {o : Obs} : Decidable o.Ok :=
  decidable_of_iff (o.call.Ok ∧ o.clients ≤ 1) ⟨fun ⟨h₁, h₂⟩ => ⟨h₁, h₂⟩, fun h => ⟨h.1, h.2⟩⟩

namespace State

def setConn (s : State) (i : Nat) (c : Conn) : State :=
  { s with conn := Function.update s.conn i c }

-- `mqtt_client_new`
def clientNew (s : State) (new : Bool) : State :=
  if new then
    { s.setConn s.clients .tcpDisconnected with client := some s.clients, clients := s.clients + 1 }
  else
    { s with client := none }

-- `mqtt_client_connect`: a client that is not disconnected is left alone.
def clientConnect (s : State) (tcp : Bool) : State :=
  match s.client with
  | none   => s
  | some i => if s.conn i = .tcpDisconnected ∧ tcp then s.setConn i .tcpConnecting else s

-- `mqtt_disconnect`
def disconnect (s : State) : State :=
  match s.client with
  | none   => s
  | some i => s.setConn i .tcpDisconnected

-- `mqtt_client_is_connected`
def isConnected (s : State) (null : Bool) : Bool :=
  match s.client with
  | none   => null
  | some i => s.conn i = .mqttConnected

def network (s : State) (i : Nat) : Network → State
  | .established => if s.conn i = .tcpConnecting then s.setConn i .mqttConnecting else s
  | .accepted    => if s.conn i = .mqttConnecting then s.setConn i .mqttConnected else s
  | .closed      => s.setConn i .tcpDisconnected

end State

-- The body of `mqtt_example_init`, which `mqtt_connect` repeats
def create (s : State) (a : Answers) : State × List Obs :=
  let s₁ := s.clientNew a.new
  let s₂ := s₁.clientConnect a.tcp
  (s₂, [
    ⟨.new <| s.client.map s.conn, s₁.clients⟩,
    ⟨.setInpubCallback s₁.client, s₁.clients⟩,
    ⟨.connect s₁.client, s₂.clients⟩
  ])

def mqttExampleInit (a : Answers) : State × List Obs :=
  create {} a

def mqttPublish (s : State) (sensor : Nat) : List Obs :=
  [⟨.publish s.client sensor, s.clients⟩]

def mqttConnect (s : State) (a : Answers) : State × List Obs :=
  if a.dns then
    if a.link then
      let o := ⟨.isConnected s.client, s.clients⟩
      if ¬s.isConnected a.null then
        let (s, t) := create s a
        (s, o :: t)
      else
        (s, o :: mqttPublish s 1)
    else
      (s.disconnect, [⟨.disconnect s.client, s.clients⟩])
  else
    (s, [])

-- `ptMQTT`, where a timer that has just been set is not expired yet
def ptMQTT (s : State) (expired : Bool) (a : Answers) : State × List Obs :=
  match s.pt with
  | .start    => ({ s with pt := .connect }, [])
  | .connect  =>
    if expired then
      let (s, t) := mqttConnect s a
      ({ s with pt := .publish₁ }, t ++ mqttPublish s 1)
    else
      (s, [])
  | .publish₁ => if expired then ({ s with pt := .publish₂ }, mqttPublish s 2) else (s, [])
  | .publish₂ => if expired then ({ s with pt := .start }, []) else (s, [])

def mqtt : Machine State Event Obs where
  step s
    | .scan expired a => some <| ptMQTT s expired a
    | .network i n    => some (s.network i n, [])

end Mqtt
