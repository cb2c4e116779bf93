import CharSystem.Sys
import Mathlib.Data.Set.Image
import Mathlib.Logic.Function.Basic

/-!
# `MQClient` (`rabbit_mq.hpp`)

Any number of `MQClient`s, each with a connection and a channel of its own, and a broker. A client's
frames reach the broker in order, and the broker's deliveries reach the client in order.

* `MQClient.declareCombo`, `publish`, `consume`, `ack`: the frames that each method sends. The callback
  that `consume` installs calls `cb` and then `ack`.
* `Broker`: the broker is not part of the repository, and stands for any that keeps to AMQP. Its laws
  are about the copies of messages: those that it has put in queues, those that are ready there, and
  those that it has delivered and that are not acknowledged. Which queues there are, where messages go,
  who gets the next one and which frames are refused is left open.
* `Step`: the steps of the clients and of the broker, in any order. The broker closes a channel at any
  time (it refuses a frame, the network fails, the client is gone), and a client leaves at any time (its
  process ends, also by an `onError` callback, which calls `exit`). Neither sees at once what the other
  does.

The log of the methods is left out.
-/

namespace CharSystem

namespace Mq

/-- `AMQP::ExchangeType`. -/
inductive ExchangeType where
  | fanout
  | direct
  | topic
  | headers
  | consistentHash
  | messageDeduplication
  deriving DecidableEq, Repr

/-- What a client sends. -/
inductive Frame where
  | declareExchange (exchange : String) (type : ExchangeType)
  | declareQueue (queue : String)
  | bindQueue (exchange queue routingKey : String)
  | publish (exchange routingKey body : String)
  | consume (queue consumerTag : String)
  | ack (deliveryTag : Nat)
  deriving DecidableEq, Repr

namespace MQClient

/-- `declare_combo`, with its default arguments. -/
def declareCombo (exchange queue : String) (routingKey : Option String)
    (type : Option ExchangeType) : List Frame :=
  [.declareExchange exchange (type.getD .direct), .declareQueue queue,
    .bindQueue exchange queue (routingKey.getD "routing_key")]

/-- `publish`, with its default argument. -/
def publish (exchange msg : String) (routingKey : Option String) : List Frame :=
  [.publish exchange (routingKey.getD "routing_key") msg]

/-- `consume`. -/
def consume (queue : String) : List Frame := [.consume queue "consume-tag"]

/-- The second statement of the callback that `consume` installs. -/
def ack (deliveryTag : Nat) : List Frame := [.ack deliveryTag]

end MQClient

/-- A published message. -/
structure Message where
  exchange : String
  routingKey : String
  body : String
  deriving DecidableEq, Repr

/-- What a client gets of a delivery: the tag, and the copy of a message. -/
structure Delivery (Copy : Type) where
  deliveryTag : Nat
  msg : Copy
  deriving DecidableEq, Repr

/-- What happens at the broker: it reads a frame of the client `c`, makes a delivery to it, closes its
channel, or does something else. -/
inductive BrokerEvent (Copy : Type) where
  | receive (c : Nat) (f : Frame)
  | deliver (c : Nat) (d : Delivery Copy)
  | close (c : Nat)
  | other
  deriving DecidableEq, Repr

/-- **The broker**, and what AMQP says of it: a copy of a message that is put in a queue is ready until
it is delivered, a delivered one is kept until it is acknowledged or its channel is closed, and is then
gone or ready again. Assumed besides: the broker is not restarted (`declareQueue` makes queues that are
not durable), queues are not deleted or purged, and no limit or expiry is set for them. -/
structure Broker where
  State : Type
  /-- The copy of a message in a queue. -/
  Copy : Type
  decEq : DecidableEq Copy
  message : Copy → Message
  init : State
  step : State → BrokerEvent Copy → State → Prop
  /-- All copies that were put in a queue. -/
  put : State → Set Copy
  ready : State → Set Copy
  /-- The deliveries to a client that are not acknowledged. -/
  unacked : State → Nat → Set (Delivery Copy)
  /-- How many deliveries were made to a client. -/
  tags : State → Nat → Nat
  init_put : put init = ∅
  init_ready : ready init = ∅
  init_unacked : ∀ c, unacked init c = ∅
  init_tags : ∀ c, tags init c = 0
  /-- A `publish` puts new copies of its message in queues, and these are ready. -/
  receive_publish : ∀ s c f s', step s (.receive c f) s' → put s ⊆ put s' ∧
    ∀ m ∈ put s' \ put s, f = .publish (message m).exchange (message m).routingKey (message m).body
  receive_ready : ∀ s c f s', step s (.receive c f) s' → ready s' = ready s ∪ (put s' \ put s)
  /-- An `ack` ends the deliveries with its tag on its channel, and no other frame ends one. -/
  receive_ack : ∀ s c t s', step s (.receive c (.ack t)) s' →
    unacked s' = Function.update (unacked s) c {d ∈ unacked s c | d.deliveryTag ≠ t}
  receive_other : ∀ s c f s', step s (.receive c f) s' → (∀ t, f ≠ .ack t) → unacked s' = unacked s
  receive_tags : ∀ s c f s', step s (.receive c f) s' → tags s' = tags s
  /-- Delivery tags count the deliveries on a channel. -/
  deliver_tag : ∀ s c d s', step s (.deliver c d) s' → d.deliveryTag = tags s c + 1 ∧
    tags s' = Function.update (tags s) c (tags s c + 1)
  deliver_ready : ∀ s c d s', step s (.deliver c d) s' → d.msg ∈ ready s ∧ put s' = put s ∧
    ready s' = ready s \ {d.msg}
  deliver_unacked : ∀ s c d s', step s (.deliver c d) s' →
    unacked s' = Function.update (unacked s) c (insert d (unacked s c))
  /-- What was not acknowledged on a closed channel is ready again. -/
  close_ready : ∀ s c s', step s (.close c) s' → put s' = put s ∧ tags s' = tags s ∧
    ready s' = ready s ∪ Delivery.msg '' unacked s c
  close_unacked : ∀ s c s', step s (.close c) s' → unacked s' = Function.update (unacked s) c ∅
  other_eq : ∀ s s', step s .other s' → put s' = put s ∧ ready s' = ready s ∧
    unacked s' = unacked s ∧ tags s' = tags s

attribute [instance] Broker.decEq

/-- An `MQClient` and its connection. -/
structure Client (Copy : Type) where
  live : Bool
  /-- Frames that the broker has not read. -/
  outgoing : List Frame
  /-- Deliveries that the client has not read. -/
  incoming : List (Delivery Copy)
  /-- `cb` has been run for it, and `ack` has not. -/
  received : Option (Delivery Copy)

namespace Client

variable {Copy : Type}

/-- After the constructor. -/
def new : Client Copy where
  live := true
  outgoing := []
  incoming := []
  received := none

/-- After the client has left. What it has sent is on its way. -/
def left (k : Client Copy) : Client Copy where
  live := false
  outgoing := k.outgoing
  incoming := []
  received := none

/-- The client sends frames. -/
def send (k : Client Copy) (frames : List Frame) : Client Copy :=
  { k with outgoing := k.outgoing ++ frames }

/-- A delivery of the broker. It is lost if the client has left. -/
def give (k : Client Copy) (d : Delivery Copy) : Client Copy :=
  if k.live then { k with incoming := k.incoming ++ [d] } else k

end Client

/-- The broker, the clients, and the calls of their callbacks, oldest first. -/
structure State (B : Broker) where
  broker : B.State
  clients : Nat → Option (Client B.Copy)
  called : List (Nat × Delivery B.Copy)

namespace State

variable {B : Broker}

/-- Before the first client. -/
def init : State B where
  broker := B.init
  clients := fun _ => none
  called := []

/-- The client `c` becomes `k`. -/
def setClient (s : State B) (c : Nat) (k : Client B.Copy) : State B :=
  { s with clients := Function.update s.clients c (some k) }

end State

/-- Who makes a step. `publish` has what it returns. -/
inductive Label (Copy : Type) where
  | construct (c : Nat)
  | declareCombo (c : Nat) (exchange queue : String) (routingKey : Option String)
    (type : Option ExchangeType)
  | publish (c : Nat) (exchange msg : String) (routingKey : Option String) (ret : Bool)
  | consume (c : Nat) (queue : String)
  | callback (c : Nat)
  | ack (c : Nat)
  | leave (c : Nat)
  | broker (e : BrokerEvent Copy)
  deriving DecidableEq, Repr

/-- One step. The broker reads the frames of a client in the order in which they were sent, and none
that was sent before it closed the channel. -/
inductive Step (B : Broker) : State B → Label B.Copy → State B → Prop
  | construct {s : State B} {c : Nat} : s.clients c = none →
    Step B s (.construct c) (s.setClient c .new)
  | declareCombo {s : State B} {c : Nat} {k : Client B.Copy} {exchange queue : String}
    {routingKey : Option String} {type : Option ExchangeType} :
    s.clients c = some k → k.live = true →
    Step B s (.declareCombo c exchange queue routingKey type)
      (s.setClient c (k.send (MQClient.declareCombo exchange queue routingKey type)))
  | publish {s : State B} {c : Nat} {k : Client B.Copy} {exchange msg : String}
    {routingKey : Option String} : s.clients c = some k → k.live = true →
    Step B s (.publish c exchange msg routingKey true)
      (s.setClient c (k.send (MQClient.publish exchange msg routingKey)))
  /-- `_channel->publish` fails. -/
  | publishFailed {s : State B} {c : Nat} {exchange msg : String} {routingKey : Option String} :
    Step B s (.publish c exchange msg routingKey false) s
  | consume {s : State B} {c : Nat} {k : Client B.Copy} {queue : String} : s.clients c = some k →
    k.live = true →
    Step B s (.consume c queue) (s.setClient c (k.send (MQClient.consume queue)))
  /-- `cb(message.body(), message.bodySize())`. -/
  | callback {s : State B} {c : Nat} {k : Client B.Copy} {d : Delivery B.Copy}
    {rest : List (Delivery B.Copy)} :
    s.clients c = some k → k.live = true → k.received = none → k.incoming = d :: rest →
    Step B s (.callback c)
      { s.setClient c { k with incoming := rest, received := some d } with
        called := s.called ++ [(c, d)] }
  /-- `_channel->ack(deliveryTag)`. -/
  | ack {s : State B} {c : Nat} {k : Client B.Copy} {d : Delivery B.Copy} : s.clients c = some k →
    k.live = true → k.received = some d →
    Step B s (.ack c)
      (s.setClient c ({ k with received := none }.send (MQClient.ack d.deliveryTag)))
  | leave {s : State B} {c : Nat} {k : Client B.Copy} : s.clients c = some k → k.live = true →
    Step B s (.leave c) (s.setClient c k.left)
  | receive {s : State B} {c : Nat} {k : Client B.Copy} {f : Frame} {rest : List Frame}
    {b : B.State} : s.clients c = some k → k.outgoing = f :: rest →
    B.step s.broker (.receive c f) b →
    Step B s (.broker (.receive c f)) { s.setClient c { k with outgoing := rest } with broker := b }
  | deliver {s : State B} {c : Nat} {k : Client B.Copy} {d : Delivery B.Copy} {b : B.State} :
    s.clients c = some k → B.step s.broker (.deliver c d) b →
    Step B s (.broker (.deliver c d)) { s.setClient c (k.give d) with broker := b }
  | close {s : State B} {c : Nat} {k : Client B.Copy} {b : B.State} : s.clients c = some k →
    B.step s.broker (.close c) b →
    Step B s (.broker (.close c)) { s.setClient c { k with outgoing := [] } with broker := b }
  | other {s : State B} {b : B.State} : B.step s.broker .other b →
    Step B s (.broker .other) { s with broker := b }

/-- The clients and the broker. -/
abbrev sys (B : Broker) : Sys := ⟨State B, Label B.Copy, Step B⟩

/-- A run from the start of the broker. -/
structure Run (B : Broker) where
  labels : List (Label B.Copy)
  state : State B
  steps : (sys B).Steps .init labels state

end Mq

end CharSystem
