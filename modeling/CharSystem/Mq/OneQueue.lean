import CharSystem.Mq.Basic
import Mathlib.Data.List.Basic

/-!
# A broker with one queue

The smallest broker with the laws of `Broker`: every message goes to one queue, and whoever consumes
gets the oldest one. For the clients of `publish.cc` and `consume.cc`, which declare one exchange, one
queue and the binding with the default key, a broker does the same.

`helloRun`: a client declares, consumes and publishes, and its callback runs.
-/

namespace CharSystem

namespace Mq

/-- A message with its number. -/
structure Numbered where
  id : Nat
  message : Message
  deriving DecidableEq, Repr

/-- The state of the broker. -/
structure OneQueue where
  /-- All messages, oldest first. -/
  messages : List Message
  queue : List Numbered
  consumers : List Nat
  unacked : Nat → List (Delivery Numbered)
  tags : Nat → Nat

namespace OneQueue

/-- The queue is empty. -/
def init : OneQueue where
  messages := []
  queue := []
  consumers := []
  unacked := fun _ => []
  tags := fun _ => 0

/-- What the broker does with a frame. -/
def receive (b : OneQueue) (c : Nat) : Frame → OneQueue
  | .publish exchange routingKey body =>
    { b with
      messages := b.messages ++ [⟨exchange, routingKey, body⟩]
      queue := b.queue ++ [⟨b.messages.length, exchange, routingKey, body⟩] }
  | .consume _ _ => { b with consumers := c :: b.consumers }
  | .ack t =>
    { b with
      unacked := Function.update b.unacked c ((b.unacked c).filter (·.deliveryTag ≠ t)) }
  | _ => b

/-- A delivery has the next tag and the oldest message. -/
def Delivers (b : OneQueue) (c : Nat) (d : Delivery Numbered) : Prop :=
  c ∈ b.consumers ∧ d.deliveryTag = b.tags c + 1 ∧ b.queue.head? = some d.msg

/-- The broker after a delivery. -/
def deliver (b : OneQueue) (c : Nat) (d : Delivery Numbered) : OneQueue :=
  { b with
    queue := b.queue.filter (· ≠ d.msg)
    unacked := Function.update b.unacked c (b.unacked c ++ [d])
    tags := Function.update b.tags c (b.tags c + 1) }

/-- What a client had comes first again. -/
def close (b : OneQueue) (c : Nat) : OneQueue :=
  { b with
    queue := (b.unacked c).map (·.msg) ++ b.queue
    unacked := Function.update b.unacked c [] }

/-- What the broker can do. -/
inductive Does : OneQueue → BrokerEvent Numbered → OneQueue → Prop
  | receive {b : OneQueue} {c : Nat} {f : Frame} : Does b (.receive c f) (b.receive c f)
  | deliver {b : OneQueue} {c : Nat} {d : Delivery Numbered} : b.Delivers c d →
    Does b (.deliver c d) (b.deliver c d)
  | close {b : OneQueue} {c : Nat} : Does b (.close c) (b.close c)
  | other {b : OneQueue} : Does b .other b

/-- The messages with their numbers. -/
def all (b : OneQueue) : Set Numbered := {m | b.messages[m.id]? = some m.message}

/-- The messages in the queue. -/
def ready (b : OneQueue) : Set Numbered := {m | m ∈ b.queue}

/-- The deliveries to a client that are not acknowledged. -/
def held (b : OneQueue) (c : Nat) : Set (Delivery Numbered) := {d | d ∈ b.unacked c}

/-- The deliveries to a client that change. -/
theorem held_update (b : OneQueue) (c : Nat) (ds : List (Delivery Numbered)) :
    held { b with unacked := Function.update b.unacked c ds } =
      Function.update b.held c {d | d ∈ ds} := by
  funext c'
  by_cases hc : c' = c
  · subst hc
    simp [held]
  · simp [held, hc]

/-- A `publish` puts the message with the next number. -/
theorem all_publish (b : OneQueue) (c : Nat) (exchange routingKey body : String) (m : Numbered) :
    m ∈ (b.receive c (.publish exchange routingKey body)).all ↔
      m ∈ b.all ∨ m = ⟨b.messages.length, exchange, routingKey, body⟩ := by
  obtain ⟨id, message⟩ := m
  simp only [all, receive, Set.mem_ofPred_eq, Numbered.mk.injEq]
  rcases Nat.lt_trichotomy id b.messages.length with hlt | rfl | hlt
  · rw [List.getElem?_append_left hlt]
    simp [Nat.ne_of_lt hlt]
  · simp [eq_comm]
  · rw [List.getElem?_eq_none (by simpa using Nat.succ_le_of_lt hlt), List.getElem?_eq_none (Nat.le_of_lt hlt)]
    simp [Nat.ne_of_gt hlt]

theorem next_notMem (b : OneQueue) (message : Message) :
    (⟨b.messages.length, message⟩ : Numbered) ∉ b.all := by
  simp [all]

/-- Other frames put nothing. -/
theorem receive_eq (b : OneQueue) (c : Nat) {f : Frame}
    (hf : ∀ exchange routingKey body, f ≠ .publish exchange routingKey body) :
    (b.receive c f).all = b.all ∧ (b.receive c f).ready = b.ready := by
  cases f with
  | publish exchange routingKey body => exact absurd rfl (hf exchange routingKey body)
  | _ => exact ⟨rfl, rfl⟩

end OneQueue

open OneQueue in
/-- The broker with one queue keeps the laws. -/
def oneQueue : Broker where
  State := OneQueue
  Copy := Numbered
  decEq := inferInstance
  message := Numbered.message
  init := .init
  step := Does
  put := all
  ready := ready
  unacked := held
  tags := OneQueue.tags
  init_put := by
    ext m
    simp [all, init]
  init_ready := by
    ext m
    simp [ready, init]
  init_unacked c := by
    ext d
    simp [held, init]
  init_tags _ := rfl
  receive_publish s c f s' h := by
    cases h with
    | receive =>
      cases f with
      | publish exchange routingKey body =>
        refine ⟨fun m hm => (all_publish ..).mpr (.inl hm), fun m ⟨hm, hn⟩ => ?_⟩
        rw [((all_publish ..).mp hm).resolve_left hn]
      | _ => exact ⟨subset_rfl, fun m ⟨hm, hn⟩ => absurd hm hn⟩
  receive_ready s c f s' h := by
    cases h with
    | receive =>
      by_cases hf : ∃ exchange routingKey body, f = .publish exchange routingKey body
      · obtain ⟨exchange, routingKey, body, rfl⟩ := hf
        ext m
        have hall := all_publish s c exchange routingKey body m
        have hnew := s.next_notMem ⟨exchange, routingKey, body⟩
        simp only [Set.mem_union, Set.mem_sdiff, hall]
        simp only [ready, OneQueue.receive, Set.mem_ofPred_eq, List.mem_append, List.mem_singleton]
        constructor
        · rintro (hm | rfl)
          · exact .inl hm
          · exact .inr ⟨.inr rfl, hnew⟩
        · rintro (hm | ⟨hm, hn⟩)
          · exact .inl hm
          · exact .inr (hm.resolve_left hn)
      · obtain ⟨hall, hready⟩ := s.receive_eq c fun exchange routingKey body he =>
          hf ⟨exchange, routingKey, body, he⟩
        rw [hall, hready, Set.sdiff_self, Set.union_empty]
  receive_ack s c t s' h := by
    cases h with
    | receive =>
      refine (s.held_update c _).trans (congrArg _ ?_)
      ext d
      simp [held]
  receive_other s c f s' h hf := by
    cases h with
    | receive =>
      cases f with
      | ack t => exact absurd rfl (hf t)
      | _ => rfl
  receive_tags s c f s' h := by
    cases h with
    | receive => cases f <;> rfl
  deliver_tag s c d s' h := by
    cases h with
    | deliver hd => exact ⟨hd.2.1, rfl⟩
  deliver_ready s c d s' h := by
    cases h with
    | deliver hd =>
      refine ⟨List.mem_of_mem_head? hd.2.2, rfl, ?_⟩
      ext m
      simp [ready, OneQueue.deliver]
  deliver_unacked s c d s' h := by
    cases h with
    | deliver hd =>
      refine (held_update { s with
        queue := s.queue.filter (· ≠ d.msg), tags := Function.update s.tags c (s.tags c + 1) }
        c _).trans (congrArg _ ?_)
      ext d'
      simp [held, or_comm]
  close_ready s c s' h := by
    cases h with
    | close =>
      refine ⟨rfl, rfl, ?_⟩
      ext m
      simp [ready, held, OneQueue.close, or_comm]
  close_unacked s c s' h := by
    cases h with
    | close =>
      refine (held_update { s with queue := (s.unacked c).map (·.msg) ++ s.queue } c _).trans
        (congrArg _ ?_)
      ext d'
      simp
  other_eq s s' h := by
    cases h with
    | other => exact ⟨rfl, rfl, rfl, rfl⟩

/-- The message of `helloRun`. -/
def helloCopy : Numbered := ⟨0, "e", "routing_key", "hello"⟩

/-- One client declares, consumes and publishes, and acknowledges what it gets. -/
def helloRun : Run oneQueue where
  labels := [.construct 0, .declareCombo 0 "e" "q" none none, .consume 0 "q",
    .publish 0 "e" "hello" none true,
    .broker (.receive 0 (.declareExchange "e" .direct)), .broker (.receive 0 (.declareQueue "q")),
    .broker (.receive 0 (.bindQueue "e" "q" "routing_key")),
    .broker (.receive 0 (.consume "q" "consume-tag")),
    .broker (.receive 0 (.publish "e" "routing_key" "hello")),
    .broker (.deliver 0 ⟨1, helloCopy⟩), .callback 0, .ack 0]
  state := _
  steps :=
    .cons (.construct rfl) <| .cons (.declareCombo rfl rfl) <| .cons (.consume rfl rfl) <|
    .cons (.publish rfl rfl) <| .cons (.receive rfl rfl .receive) <|
    .cons (.receive rfl rfl .receive) <| .cons (.receive rfl rfl .receive) <|
    .cons (.receive rfl rfl .receive) <| .cons (.receive rfl rfl .receive) <|
    .cons (.deliver rfl (.deliver ⟨List.mem_singleton_self 0, rfl, rfl⟩)) <|
    .cons (.callback rfl rfl rfl rfl) <| .cons (.ack rfl rfl rfl) (.nil _)

end Mq

end CharSystem
