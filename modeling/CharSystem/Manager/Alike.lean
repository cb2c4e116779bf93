import CharSystem.Channel.Twin
import CharSystem.Manager.Reorder

/-!
# Runs whose channels have other addresses

Another run gets other addresses from `new`, so the channels of two runs are compared by the calls
that created them.

* `rotateAlike_filter`: services do not interfere. A run without the calls about other services has
  the same rotation of `s`.
* `createdBy_reorder`: events about different nodes can be reordered. A channel is given by its host
  and by the number of the event about this host that created it (`createdBy`).
-/

namespace CharSystem

/-! ## Services do not interfere -/

/-- A call without the address that `new` gives. -/
def ManagerOp.withoutPtr : ManagerOp → ManagerOp
  | .onServiceOnline serviceInstance host env =>
    .onServiceOnline serviceInstance host ⟨0, if env.ret = -1 then -1 else 0⟩
  | op => op

namespace ServiceManager

variable {k : Copy} {m m' : ServiceManager} {s : String}

theorem calls_withoutPtr (op : ManagerOp) (s : String) (m : ServiceManager) :
    (op.withoutPtr.calls s m).map ChannelOp.nodeOp = (op.calls s m).map ChannelOp.nodeOp := by
  cases op with
  | onServiceOnline serviceInstance host env =>
    simp only [ManagerOp.withoutPtr, ManagerOp.calls]
    split
    · by_cases hret : env.ret = -1 <;> simp [ChannelOp.nodeOp, hret]
    · rfl
  | _ => rfl

/-- The calls that reach a `ServiceChannel`, without addresses, depend on the calls without
addresses. -/
theorem channelOps_withoutPtr {ops ops' : List ManagerOp}
    (h : ops.map ManagerOp.withoutPtr = ops'.map ManagerOp.withoutPtr)
    (hs : s ∈ m.followServices ↔ s ∈ m'.followServices) :
    (m.channelOps k s ops).map ChannelOp.nodeOp = (m'.channelOps k s ops').map ChannelOp.nodeOp := by
  induction ops generalizing ops' m m' with
  | nil =>
    obtain rfl : ops' = [] := by simpa using h.symm
    rfl
  | cons op ops ih =>
    obtain ⟨op', ops', rfl⟩ : ∃ op' rest, ops' = op' :: rest := by
      cases ops' with
      | nil => simp at h
      | cons op' rest => exact ⟨op', rest, rfl⟩
    obtain ⟨hop, hops⟩ := List.cons.inj h
    have hcalls : (op.calls s m).map ChannelOp.nodeOp = (op'.calls s m').map ChannelOp.nodeOp := by
      rw [← calls_withoutPtr op, ← calls_withoutPtr op', hop, ManagerOp.calls_congr hs]
    have hfollow : s ∈ (m.step k op).followServices ↔ s ∈ (m'.step k op').followServices := by
      have hdeclared : op = .declared s ↔ op' = .declared s := by
        cases op <;> cases op' <;> simp_all [ManagerOp.withoutPtr]
      rw [follow_step, follow_step, hdeclared, hs]
    simp only [channelOps, outputs, List.map_append] at ih ⊢
    rw [hcalls, ih hops hfollow]

/-- Calls about other services do not reach the `ServiceChannel`. -/
theorem channelOps_filter (k : Copy) (m : ServiceManager) (s : String) (ops : List ManagerOp) :
    m.channelOps k s ops = m.channelOps k s (ops.filter (·.service == s)) :=
  (outputs_filter (R := Agree s) _ _ _ (fun m m' op h _ _ => ⟨h.step op, ManagerOp.calls_congr h.2 op⟩)
    (fun m m' op h _ ho => by
      have hs : op.service ≠ s := by simpa using ho
      exact ⟨h.step_other hs, ManagerOp.calls_of_ne hs⟩)
    (along_of_forall (fun _ _ => trivial) m ops) ⟨rfl, Iff.rfl⟩).1

/-- **Services do not interfere.** Delete from a run all calls about services other than `s`. Every run
of what is left, whatever addresses `new` gives, has the same rotation of `s`: the cursor, the nodes in
the array, and the result of the next `choose(s)`, each node given by the call that created it. -/
theorem rotateAlike_filter (r r' : ManagerRun k) (s : String)
    (h : r'.ops.map ManagerOp.withoutPtr =
      (r.ops.filter (·.service == s)).map ManagerOp.withoutPtr) :
    RotateAlike (ServiceManager.new.channelOps k s r.ops) (ServiceManager.new.channelOps k s r'.ops)
      (r.state.channel s) (r'.state.channel s) := by
  have hr := follows_run (fresh_channelOps r.fresh s)
  have hr' := follows_run (fresh_channelOps r'.fresh s)
  have hcalls : (ServiceManager.new.channelOps k s r'.ops).map ChannelOp.nodeOp =
      (ServiceManager.new.channelOps k s r.ops).map ChannelOp.nodeOp := by
    rw [channelOps_withoutPtr h Iff.rfl, ← channelOps_filter]
  rw [hcalls] at hr'
  rw [ManagerRun.state, channel_run, ManagerRun.state, channel_run]
  exact hr.alike hr'

end ServiceManager

/-! ## The order of events -/

/-- The call that created a channel, among the calls about its host. -/
def createdBy (ops : List ChannelOp) (c : Channelptr) : String × Option Nat :=
  (c.addr, creator (ops.filter (·.host? == some c.addr)) c.ptr)

/-- The channels of a host, and the one that the map has, given by their calls. -/
theorem createdBy_of_host {serviceName : String} {ops : List ChannelOp}
    (hn : (ops.filterMap ChannelOp.newPtr?).Nodup) (host : String) :
    let sc := run (ServiceChannel.step .etcdTest) (.new serviceName) ops
    let t := run Roster.step .new ((ops.filter (·.host? == some host)).map ChannelOp.nodeOp)
    (sc.channelsOf host).map (createdBy ops) = t.array.map (host, some ·) ∧
      (sc.hosts host).map (createdBy ops) = (t.hosts host).map (host, some ·) := by
  intro sc t
  have honly : ServiceChannel.OnlyHost host sc (run (ServiceChannel.step .etcdTest) (.new serviceName)
      (ops.filter (·.host? == some host))) :=
    channelsOf_run (.new serviceName) rfl (ChannelRun.ofNodup .etcdTest serviceName ops hn).fresh host
  have hn' : ((ops.filter (·.host? == some host)).filterMap ChannelOp.newPtr?).Nodup :=
    hn.sublist (List.filter_sublist.filterMap _)
  have hfollows : Follows (ops.filter (·.host? == some host))
      (run (ServiceChannel.step .etcdTest) (.new serviceName) (ops.filter (·.host? == some host))) t :=
    follows_run (ChannelRun.ofNodup .etcdTest serviceName _ hn').fresh
  -- A channel of the host is created by the same call in the run of the calls about the host.
  have hby : ∀ c : Channelptr, c.addr = host →
      createdBy ops c = (host, creator (ops.filter (·.host? == some host)) c.ptr) := by
    rintro c rfl
    rfl
  constructor
  · have hmap : (sc.channelsOf host).map (createdBy ops) =
        ((sc.channelsOf host).map (creator (ops.filter (·.host? == some host)) ·.ptr)).map (host, ·) := by
      rw [List.map_map]
      exact List.map_congr_left fun c hc => hby c (ServiceChannel.mem_channelsOf.mp hc).2
    rw [hmap, honly.array]
    rw [hfollows.array, List.map_map]
    rfl
  · rw [honly.hosts]
    cases ht : t.hosts host with
    | none =>
      rw [Option.map_none, Option.map_eq_none_iff, Option.eq_none_iff_forall_ne_some]
      intro c hc
      exact hfollows.leftover host c ht hc c (honly.right.mem host c hc) rfl
    | some i =>
      obtain ⟨c, -, hc, hcr⟩ := hfollows.recorded host i ht
      rw [hc, Option.map_some, hby c (honly.right.addr host c hc), hcr]
      rfl

/-- **The order of calls about different hosts does not matter**, whatever addresses `new` gives. -/
theorem createdBy_perm {serviceName : String} {ops ops' : List ChannelOp}
    (hn : (ops.filterMap ChannelOp.newPtr?).Nodup) (hn' : (ops'.filterMap ChannelOp.newPtr?).Nodup)
    (h : ∀ host, (ops.filter (·.host? == some host)).map ChannelOp.nodeOp =
      (ops'.filter (·.host? == some host)).map ChannelOp.nodeOp) :
    let sc := run (ServiceChannel.step .etcdTest) (.new serviceName) ops
    let sc' := run (ServiceChannel.step .etcdTest) (.new serviceName) ops'
    (∀ host, (sc.hosts host).map (createdBy ops) = (sc'.hosts host).map (createdBy ops')) ∧
      (sc.rotatingArray.map (createdBy ops)).Perm (sc'.rotatingArray.map (createdBy ops')) := by
  intro sc sc'
  refine ⟨fun host => ?_, perm_of_filter_key Prod.fst fun host => ?_⟩
  · rw [(createdBy_of_host hn host).2, (createdBy_of_host hn' host).2, h host]
  · have hleft : (sc.rotatingArray.map (createdBy ops)).filter (·.1 == host) =
        (sc.channelsOf host).map (createdBy ops) := List.filter_map
    have hright : (sc'.rotatingArray.map (createdBy ops')).filter (·.1 == host) =
        (sc'.channelsOf host).map (createdBy ops') := List.filter_map
    rw [hleft, hright, (createdBy_of_host hn host).1, (createdBy_of_host hn' host).1, h host]

/-- **The order of events about different nodes does not matter.** `services` are declared, then one of
two sequences of events happens, with the same events about each (service, host) but any addresses from
`new`. Every service ends with the same recorded hosts, each mapped to the channel of the same event,
and with permutations of one array. -/
theorem NodeEvents.createdBy_reorder (services : List String) (es es' : NodeEvents)
    (h : ∀ s host, (es.events.filter (·.isAbout s host)).map (·.channelOp.nodeOp) =
      (es'.events.filter (·.isAbout s host)).map (·.channelOp.nodeOp)) (s : String) :
    let m := run (ServiceManager.step .etcdTest) (.following services) (es.events.map NodeEvent.op)
    let m' := run (ServiceManager.step .etcdTest) (.following services)
      (es'.events.map NodeEvent.op)
    (∀ host, ((m.channel s).hosts host).map (createdBy (es.channelOps s)) =
        ((m'.channel s).hosts host).map (createdBy (es'.channelOps s))) ∧
      ((m.channel s).rotatingArray.map (createdBy (es.channelOps s))).Perm
        ((m'.channel s).rotatingArray.map (createdBy (es'.channelOps s))) := by
  simp only [ServiceManager.channel_run, ServiceManager.following_channel,
    ServiceManager.channelOps_events]
  by_cases hs : s ∈ (ServiceManager.following services).followServices
  · simp only [hs, ↓reduceIte]
    refine createdBy_perm (es.nodup_channelOps s) (es'.nodup_channelOps s) fun host => ?_
    rw [filter_channelOps, filter_channelOps, List.map_map, List.map_map]
    exact h s host
  · simp only [hs, ↓reduceIte]
    exact ⟨fun _ => rfl, .refl _⟩

end CharSystem
