import CharSystem.Channel.Host
import CharSystem.Manager.Service

/-!
# The order of discovery events (`example/etcd_test`)

Two sequences of `onServiceOnline` and `onServiceOffline` that have the same events about each
(service, host), in the same order, end with the same nodes: the same hosts, each mapped to the
channel of the same event, and arrays that are permutations of one another
(`NodeEvents.channel_reorder`). Repeated onlines and offlines without an online are allowed.

A channel is identified by the address that its event brings, so the events of a sequence bring
distinct addresses (`NodeEvents.distinct`).
-/

namespace CharSystem

/-- A discovery event, with what the environment gives to the `append` of an online. -/
inductive NodeEvent where
  | online (serviceInstance host : String) (env : Alloc)
  | offline (serviceInstance host : String)
  deriving DecidableEq, Repr

namespace NodeEvent

/-- The handler call of an event. -/
def op : NodeEvent → ManagerOp
  | .online serviceInstance host env => .onServiceOnline serviceInstance host env
  | .offline serviceInstance host => .onServiceOffline serviceInstance host

/-- The service that an event is about. -/
def service (e : NodeEvent) : String := e.op.service

/-- The host that an event is about. -/
def host : NodeEvent → String
  | .online _ host _ => host
  | .offline _ host => host

/-- The `ServiceChannel` call of an event, if the service is followed. -/
def channelOp : NodeEvent → ChannelOp
  | .online _ host env => .append host env
  | .offline _ host => .remove host

/-- The event is about the host `host` of the service `s`. -/
def isAbout (s host : String) (e : NodeEvent) : Bool := e.host == host && e.service == s

/-- The address of the channel that an event creates, if its `Init` succeeds. -/
def newPtr? (e : NodeEvent) : Option Nat := e.channelOp.newPtr?

theorem host?_channelOp (e : NodeEvent) : e.channelOp.host? = some e.host := by
  cases e <;> rfl

end NodeEvent

/-- A sequence of discovery events whose channels are distinct. -/
structure NodeEvents where
  events : List NodeEvent
  distinct : (events.filterMap NodeEvent.newPtr?).Nodup

namespace ServiceManager

variable {k : Copy} {m : ServiceManager}

/-- A handler call changes no follow set. -/
theorem follow_step_event (e : NodeEvent) (s : String) :
    s ∈ (m.step k e.op).followServices ↔ s ∈ m.followServices := by
  rw [follow_step, or_iff_right]
  cases e <;> simp [NodeEvent.op]

theorem calls_event (e : NodeEvent) (s : String) :
    e.op.calls s m = if e.service = s ∧ s ∈ m.followServices then [e.channelOp] else [] := by
  cases e <;> rfl

/-- The calls that a sequence of events makes on the `ServiceChannel` of `s`. -/
theorem channelOps_events (es : List NodeEvent) (s : String) :
    m.channelOps k s (es.map NodeEvent.op) =
      if s ∈ m.followServices then (es.filter (·.service == s)).map NodeEvent.channelOp else [] := by
  induction es generalizing m with
  | nil => simp [channelOps, outputs]
  | cons e es ih =>
    have hrest := ih (m := m.step k e.op)
    simp only [channelOps, follow_step_event] at hrest
    rw [channelOps, List.map_cons, outputs, hrest, calls_event]
    by_cases hs : s ∈ m.followServices
    · by_cases he : e.service = s <;> simp [hs, he]
    · simp [hs]

end ServiceManager

namespace NodeEvents

/-- The calls that a sequence of events makes on the `ServiceChannel` of `s`, if `s` is followed. -/
def channelOps (es : NodeEvents) (s : String) : List ChannelOp :=
  (es.events.filter (·.service == s)).map NodeEvent.channelOp

theorem nodup_channelOps (es : NodeEvents) (s : String) :
    ((es.channelOps s).filterMap ChannelOp.newPtr?).Nodup := by
  rw [channelOps, List.filterMap_map]
  exact es.distinct.sublist (List.filter_sublist.filterMap _)

/-- The calls on one `ServiceChannel` are fresh. -/
theorem fresh_channelOps (es : NodeEvents) (s : String) :
    Along (ServiceChannel.step .etcdTest) ChannelOp.Fresh (.new s) (es.channelOps s) :=
  (ChannelRun.ofNodup .etcdTest s _ (es.nodup_channelOps s)).fresh

/-- The calls about a host are those of the events about it. -/
theorem filter_channelOps (es : NodeEvents) (s host : String) :
    (es.channelOps s).filter (·.host? == some host) =
      (es.events.filter (·.isAbout s host)).map NodeEvent.channelOp := by
  rw [channelOps, List.filter_map, List.filter_filter]
  congr 1
  refine List.filter_congr fun e _ => ?_
  simp [NodeEvent.isAbout, NodeEvent.host?_channelOp]

/-- **The order of events about different nodes does not matter.** `services` are declared, then
one of two sequences of events with the same events about each (service, host) happens. Every
service ends with the same recorded hosts, each mapped to the channel of the same event, and with
permutations of one array. -/
theorem channel_reorder (services : List String) (es es' : NodeEvents)
    (h : ∀ s host, es.events.filter (·.isAbout s host) = es'.events.filter (·.isAbout s host))
    (s : String) :
    let m := run (ServiceManager.step .etcdTest) (.following services) (es.events.map NodeEvent.op)
    let m' := run (ServiceManager.step .etcdTest) (.following services)
      (es'.events.map NodeEvent.op)
    (m.channel s).hosts = (m'.channel s).hosts ∧
      (m.channel s).rotatingArray.Perm (m'.channel s).rotatingArray := by
  simp only [ServiceManager.channel_run, ServiceManager.following_channel,
    ServiceManager.channelOps_events]
  by_cases hs : s ∈ (ServiceManager.following services).followServices
  · simp only [hs, ↓reduceIte]
    refine perm_of_filter_host (es.fresh_channelOps s) (es'.fresh_channelOps s) fun host => ?_
    refine ((es.filter_channelOps s host).trans ?_).trans (es'.filter_channelOps s host).symm
    rw [h s host]
  · simp only [hs, ↓reduceIte]
    exact ⟨trivial, .refl _⟩

/-- Two nodes of a service that come online in one order, -/
def twoOnlines : NodeEvents where
  events := [.online "/service/echo/1" "127.0.0.1:8080" ⟨1, 0⟩,
    .online "/service/echo/2" "127.0.0.1:8081" ⟨2, 0⟩]
  distinct := by decide

/-- and in the other order. -/
def twoOnlinesSwapped : NodeEvents where
  events := [.online "/service/echo/2" "127.0.0.1:8081" ⟨2, 0⟩,
    .online "/service/echo/1" "127.0.0.1:8080" ⟨1, 0⟩]
  distinct := by decide

theorem channel_reorder_twoOnlines :
    let m := run (ServiceManager.step .etcdTest) (.following ["/service/echo"])
      (twoOnlines.events.map NodeEvent.op)
    let m' := run (ServiceManager.step .etcdTest) (.following ["/service/echo"])
      (twoOnlinesSwapped.events.map NodeEvent.op)
    (m.channel "/service/echo").hosts = (m'.channel "/service/echo").hosts ∧
      (m.channel "/service/echo").rotatingArray.Perm (m'.channel "/service/echo").rotatingArray := by
  refine channel_reorder ["/service/echo"] twoOnlines twoOnlinesSwapped (fun s host => ?_) _
  by_cases hh : host = "127.0.0.1:8080"
  · subst hh
    simp [twoOnlines, twoOnlinesSwapped, NodeEvent.isAbout, NodeEvent.host, List.filter_cons]
  · simp [twoOnlines, twoOnlinesSwapped, NodeEvent.isAbout, NodeEvent.host, List.filter_cons,
      Ne.symm hh]

end NodeEvents

end CharSystem
