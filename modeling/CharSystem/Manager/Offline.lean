import CharSystem.Channel.Inv
import CharSystem.Manager.Concurrent

/-!
# A node that has gone is not chosen, under every interleaving

`onServiceOffline` of a host removes the channel that the last `onServiceOnline` of that host
recorded. Threads may be inside other handlers and inside `choose` at the same time; a `choose` that
is called after `onServiceOffline` has returned does not give that channel
(`ManagerSteps.not_chosen_of_retired`).

* `ServiceChannel.Gone`, `ServiceChannel.RecordedAt`: what a `ServiceChannel` keeps about one address.
* `ServiceManager.Keeps`: what every call keeps, from the `onServiceOnline` to the
  `onServiceOffline`.
-/

namespace CharSystem

namespace ServiceChannel

variable {k : Copy} {sc : ServiceChannel} {op : ChannelOp} {host : String} {p : Nat}

/-- No channel in the array has the address `p`. -/
def Gone (p : Nat) (sc : ServiceChannel) : Prop := ∀ c ∈ sc.rotatingArray, c.ptr ≠ p

/-- The channel that is recorded for `host` has the address `p`. -/
def RecordedAt (p : Nat) (host : String) (sc : ServiceChannel) : Prop :=
  ∃ c, sc.hosts host = some c ∧ c.ptr = p

theorem Gone.step (h : Gone p sc) (hop : op.newPtr? ≠ some p) : Gone p (sc.step k op) := by
  intro c hc
  rcases step_mem hc with hc | ⟨host, env, rfl, hret, rfl⟩
  · exact h c hc
  · rw [ChannelOp.newPtr?, if_neg hret] at hop
    exact fun he => hop (congrArg some he)

/-- `remove` of the host. -/
theorem RecordedAt.remove (h : RecordedAt p host sc) (hi : sc.HeldInv) :
    Gone p (k.remove sc host).1 := by
  obtain ⟨c, hc, rfl⟩ := h
  obtain ⟨hosts, he, -⟩ := k.remove_recorded hc
  intro d hd hp
  rw [he] at hd
  -- The loop stops at a channel with the address of `c`, and there is no other.
  have hmem : d ∈ sc.rotatingArray := List.mem_of_mem_eraseIdx hd
  have hfind : sc.find c = sc.find d := by rw [find, find, hp]
  simp only [hfind, hi.eraseIdx_find hmem, List.mem_filter] at hd
  simp at hd

/-- Any call but a successful `append` for the host. -/
theorem RecordedAt.step (h : RecordedAt p host sc) (hi : sc.HeldInv)
    (hop : ∀ env, op = .append host env → env.ret = -1) :
    Gone p (sc.step k op) ∨ RecordedAt p host (sc.step k op) := by
  cases op with
  | choose => exact .inr (by rwa [RecordedAt, ServiceChannel.step, choose_hosts])
  | append host' env =>
    refine .inr ?_
    rw [ServiceChannel.step, Copy.append_eq]
    by_cases hret : env.ret = -1
    · rwa [if_pos hret]
    · have hne : host ≠ host' := fun he => hret (hop env (by rw [he]))
      rw [if_neg hret, RecordedAt, push_hosts, Function.update_of_ne hne]
      exact h
  | remove host' =>
    by_cases hh : host' = host
    · subst hh
      exact .inl (h.remove hi)
    · refine .inr ?_
      rw [ServiceChannel.step]
      cases hc : sc.hosts host' with
      | none => rwa [k.remove_notFound hc]
      | some c =>
        obtain ⟨hosts, he, -, hother⟩ := k.remove_recorded hc
        obtain ⟨d, hd, hp⟩ := h
        rw [he]
        exact ⟨d, (hother host (Ne.symm hh)).trans hd, hp⟩

end ServiceChannel

namespace ServiceManager

open ServiceChannel

variable {k : Copy} {m : ServiceManager} {op : ManagerOp} {s host : String} {p : Nat}

/-- A channel that is held was created by a call. -/
theorem holds_run {ops : List ManagerOp} {c : Channelptr}
    (h : ((run (step k) .new ops).channel s).Holds c) : ∃ op ∈ ops, op.newPtr? = some c.ptr := by
  induction ops using List.reverseRecOn with
  | nil =>
    rcases h with h | ⟨host, h⟩
    · cases h
    · cases h
  | append_singleton ops op ih =>
    rw [run_append, run_cons, run_nil] at h
    rcases holds_step h with h | h
    · obtain ⟨op', hop, hp⟩ := ih h
      exact ⟨op', List.mem_append_left _ hop, hp⟩
    · exact ⟨op, by simp, h⟩

/-- From the `onServiceOnline` for `host` with the address `p` on: the channel is recorded for its
host, or it has gone. -/
def Keeps (s host : String) (p : Nat) (m : ServiceManager) : Prop :=
  Gone p (m.channel s) ∨ RecordedAt p host (m.channel s) ∧ s ∈ m.followServices

/-- A call that creates no channel at `p`. -/
theorem gone_step (h : Gone p (m.channel s)) (hop : op.newPtr? ≠ some p) :
    Gone p ((m.step k op).channel s) := by
  rw [channel_step]
  rcases op.calls_cases s m with hc | ⟨call, hc, hp⟩
  · rw [hc, run_nil]
    exact h
  · rw [hc, run_cons, run_nil]
    exact h.step (hp ▸ hop)

theorem gone_run {ops : List ManagerOp} (h : Gone p (m.channel s))
    (hops : ∀ op ∈ ops, op.newPtr? ≠ some p) : Gone p ((run (step k) m ops).channel s) := by
  induction ops generalizing m with
  | nil => exact h
  | cons op ops ih =>
    exact ih (gone_step h (hops op List.mem_cons_self)) fun op' hop =>
      hops op' (List.mem_cons_of_mem op hop)

/-- **One call** that registers no channel for the host, and none at `p`. -/
theorem Keeps.step (h : m.Keeps s host p) (hi : (m.channel s).HeldInv) (hp : op.newPtr? ≠ some p)
    (hop : ∀ serviceInstance env, op = .onServiceOnline serviceInstance host env →
      getServiceName serviceInstance = s → env.ret = -1) : (m.step k op).Keeps s host p := by
  rcases h with h | ⟨hrec, hf⟩
  · exact .inl (gone_step h hp)
  · have hf' : s ∈ (m.step k op).followServices := (m.follow_step k op s).mpr (.inr hf)
    rw [Keeps, channel_step]
    rcases op.calls_cases s m with hc | ⟨call, hc, -⟩
    · rw [hc, run_nil]
      exact .inr ⟨hrec, hf'⟩
    · rw [hc, run_cons, run_nil]
      refine (hrec.step (k := k) hi fun env he => ?_).imp_right fun h => ⟨h, hf'⟩
      -- The call is about the host, so it comes from an `onServiceOnline`.
      subst he
      cases op with
      | onServiceOnline serviceInstance host' env' =>
        simp only [ManagerOp.calls] at hc
        split at hc
        · rename_i hs
          cases hc
          exact hop serviceInstance env rfl hs.1
        · cases hc
      | declared service => cases hc
      | choose service =>
        simp only [ManagerOp.calls] at hc
        split at hc <;> cases hc
      | onServiceOffline serviceInstance host' =>
        simp only [ManagerOp.calls] at hc
        split at hc <;> cases hc

/-- `onServiceOnline`. -/
theorem keeps_online {serviceInstance : String} {env : Alloc} (hs : getServiceName serviceInstance = s)
    (hret : env.ret ≠ -1) (hnew : Gone env.ptr (m.channel s)) :
    (m.step k (.onServiceOnline serviceInstance host env)).Keeps s host env.ptr := by
  rw [Keeps, channel_step, ManagerOp.calls]
  by_cases hf : s ∈ m.followServices
  · rw [if_pos ⟨hs, hf⟩, run_cons, run_nil, ServiceChannel.step, Copy.append_eq, if_neg hret]
    refine .inr ⟨⟨k.newPtr host env, ?_, rfl⟩, (m.follow_step k _ s).mpr (.inr hf)⟩
    rw [push_hosts, Function.update_self]
  · rw [if_neg fun h => hf h.2, run_nil]
    exact .inl hnew

/-- `onServiceOffline`. -/
theorem Keeps.offline (h : m.Keeps s host p) (hi : (m.channel s).HeldInv) {serviceInstance : String}
    (hs : getServiceName serviceInstance = s) :
    Gone p ((m.step k (.onServiceOffline serviceInstance host)).channel s) := by
  rcases h with h | ⟨hrec, hf⟩
  · exact gone_step h (by simp [ManagerOp.newPtr?])
  · rw [channel_step, ManagerOp.calls, if_pos ⟨hs, hf⟩, run_cons, run_nil]
    exact hrec.remove hi

/-- In every state of a fresh run. -/
theorem heldInv_channel {ops : List ManagerOp} (h : Along (step k) ManagerOp.Fresh .new ops)
    (s : String) : ((run (step k) .new ops).channel s).HeldInv := by
  rw [channel_run]
  exact heldInv_run (.new _) (fresh_channelOps h s)

/-- **A run** from the `onServiceOnline` to the `onServiceOffline`. -/
theorem keeps_run {pre ops : List ManagerOp} (hfresh : Along (step k) ManagerOp.Fresh .new (pre ++ ops))
    (h : (run (step k) .new pre).Keeps s host p) (hp : ∀ op ∈ ops, op.newPtr? ≠ some p)
    (hops : ∀ serviceInstance env, .onServiceOnline serviceInstance host env ∈ ops →
      getServiceName serviceInstance = s → env.ret = -1) :
    (run (step k) .new (pre ++ ops)).Keeps s host p := by
  induction ops using List.reverseRecOn with
  | nil => rwa [List.append_nil]
  | append_singleton ops op ih =>
    rw [← List.append_assoc] at hfresh ⊢
    have hfresh' := hfresh.left (List.prefix_append _ [op])
    rw [run_append, run_cons, run_nil]
    refine (ih hfresh' (fun op' hop => hp op' (List.mem_append_left _ hop))
      fun serviceInstance env hop => hops serviceInstance env (List.mem_append_left _ hop)).step
        (heldInv_channel hfresh' s) (hp op (by simp)) fun serviceInstance env he => ?_
    exact hops serviceInstance env (by simp [he])

/-- **A sequential run** in which `onServiceOffline` retires the channel at `p`. -/
theorem gone_of_retired {pre mid post : List ManagerOp} {online offline : String} {env : Alloc}
    (hfresh : Along (step k) ManagerOp.Fresh .new
      (pre ++ .onServiceOnline online host env :: mid ++ .onServiceOffline offline host :: post))
    (hs : getServiceName online = s) (hs' : getServiceName offline = s) (hret : env.ret ≠ -1)
    (hpre : ∀ op ∈ pre, op.newPtr? ≠ some env.ptr) (hmid : ∀ op ∈ mid, op.newPtr? ≠ some env.ptr)
    (hpost : ∀ op ∈ post, op.newPtr? ≠ some env.ptr)
    (hlast : ∀ serviceInstance env', .onServiceOnline serviceInstance host env' ∈ mid →
      getServiceName serviceInstance = s → env'.ret = -1) :
    Gone env.ptr ((run (step k) .new
      (pre ++ .onServiceOnline online host env :: mid ++ .onServiceOffline offline host :: post)).channel
        s) := by
  have hnew : Gone env.ptr ((run (step k) .new pre).channel s) := by
    intro c hc he
    obtain ⟨op, hop, hp⟩ := holds_run (.inl hc)
    exact hpre op hop (hp.trans (congrArg some he))
  have honline : (run (step k) .new (pre ++ [.onServiceOnline online host env])).Keeps s host
      env.ptr := by
    rw [run_append, run_cons, run_nil]
    exact keeps_online hs hret hnew
  have hfresh' := hfresh.left (List.prefix_append _ _)
  rw [List.append_cons] at hfresh'
  have hkeeps := keeps_run hfresh' honline hmid hlast
  rw [run_append, run_cons, List.append_cons pre]
  exact gone_run (hkeeps.offline (heldInv_channel hfresh' s) hs') hpost

end ServiceManager

namespace ManagerSteps

open ServiceManager ServiceChannel

variable {k : Copy}

/-- The channels of the run have different addresses. -/
def Distinct (r : ManagerSteps k) : Prop :=
  ∀ i j op op' p, .call i op ∈ r.events → .call j op' ∈ r.events → op.newPtr? = some p →
    op'.newPtr? = some p → i = j

/-- The call `o` of `onServiceOffline` retires the channel that the call `j` of `onServiceOnline`
created: `j` returned before it, and every other successful `onServiceOnline` of the host of the
service either returned before `j`, or was called after `o` returned. -/
structure Retires (r : ManagerSteps k) (s host : String) (env : Alloc) (j o : Nat) : Prop where
  online : ∃ serviceInstance, .call j (.onServiceOnline serviceInstance host env) ∈ r.events ∧
    getServiceName serviceInstance = s
  ret : env.ret ≠ -1
  offline : ∃ serviceInstance, .call o (.onServiceOffline serviceInstance host) ∈ r.events ∧
    getServiceName serviceInstance = s
  order : Before r.events j o
  last : ∀ j' serviceInstance env', .call j' (.onServiceOnline serviceInstance host env') ∈ r.events →
    getServiceName serviceInstance = s → env'.ret ≠ -1 →
      j' = j ∨ Before r.events j' j ∨ Before r.events o j'

/-- In the order of such a run, addresses are fresh. -/
theorem fresh_order (r : ManagerSteps k) (hd : r.Distinct)
    {h : List (HistEvent ManagerOp ManagerRet)} {order : List (Entry ManagerOp ManagerRet)}
    {m : ServiceManager} (hcall : ∀ e ∈ order, .call e.id e.op ∈ r.events)
    (hl : Linearization (exec k) .new h order m) :
    Along (ServiceManager.step k) ManagerOp.Fresh .new (order.map (·.op)) := by
  refine fresh_of_nodup ?_ fun s c hc => ?_
  · rw [List.filterMap_map, List.nodup_iff_pairwise_ne, List.pairwise_filterMap]
    refine (List.nodup_iff_pairwise_ne.mp hl.nodup.of_map).imp_of_mem ?_
    rintro e e' he he' hne p hp p' hp' rfl
    exact hne (List.inj_on_of_nodup_map hl.nodup he he'
      (hd e.id e'.id e.op e'.op p (hcall e he) (hcall e' he') hp hp'))
  · rcases hc with hc | ⟨host, hc⟩
    · cases hc
    · cases hc

/-- No other call of the order creates a channel at its address. -/
theorem other_calls (r : ManagerSteps k) (hd : r.Distinct)
    {h : List (HistEvent ManagerOp ManagerRet)} {order pre post : List (Entry ManagerOp ManagerRet)}
    {e : Entry ManagerOp ManagerRet} {m : ServiceManager} {p : Nat}
    (hcall : ∀ e ∈ order, .call e.id e.op ∈ r.events)
    (hl : Linearization (exec k) .new h order m) (horder : order = pre ++ e :: post)
    (hp : e.op.newPtr? = some p) : ∀ e' ∈ pre ++ post, e'.id ≠ e.id ∧ e'.op.newPtr? ≠ some p := by
  intro e' he'
  have hnodup : order.Nodup := hl.nodup.of_map
  rw [horder, List.nodup_middle, List.nodup_cons] at hnodup
  have hmem : e ∈ order := by simp [horder]
  have hmem' : e' ∈ order := by
    rw [horder, List.mem_append]
    exact (List.mem_append.mp he').imp_right (List.mem_cons_of_mem e)
  have hid : e'.id ≠ e.id := by
    intro heq
    obtain rfl := List.inj_on_of_nodup_map hl.nodup hmem' hmem heq
    exact hnodup.1 he'
  exact ⟨hid, fun hp' => hid (hd e'.id e.id e'.op e.op p (hcall e' hmem') (hcall e hmem) hp' hp)⟩

/-- **A node that has gone is not chosen.** In every run in which channels have different addresses:
once the `onServiceOffline` that retires a channel has returned, a `choose` of the service that is
called then does not give that channel, whatever other threads are doing. -/
theorem not_chosen_of_retired (r : ManagerSteps k) (hd : r.Distinct) {s host : String} {env : Alloc}
    {j o i : Nat} (hr : r.Retires s host env j o) (hi : .call i (.choose s) ∈ r.events)
    (hoi : Before r.events o i) {c : Channelptr}
    (hc : .ret i (.channelptr (.channel c)) ∈ r.events) : c.ptr ≠ env.ptr := by
  obtain ⟨rets, order, m, hrets, hl⟩ := r.exists_order
  obtain ⟨online, hj, hs⟩ := hr.online
  obtain ⟨offline, ho, hs'⟩ := hr.offline
  obtain ⟨rj, hej⟩ := hl.exists_ret (List.mem_append_left rets hj)
  obtain ⟨ro, heo⟩ := hl.exists_ret (List.mem_append_left rets ho)
  have hei : (⟨i, .choose s, .channelptr (.channel c)⟩ : Entry ManagerOp ManagerRet) ∈ order :=
    (hl.mem_iff _).mpr ⟨List.mem_append_left _ hi, List.mem_append_left _ hc⟩
  -- The three calls in the order: `j`, then `o`, then `i`.
  obtain ⟨front, back, horder⟩ := List.append_of_mem heo
  obtain ⟨pre, mid, rfl⟩ := List.append_of_mem (hl.mem_pre horder hej hr.order.append)
  obtain ⟨post, rest, rfl⟩ := List.append_of_mem (hl.mem_post horder hei hoi.append)
  have hcall : ∀ e ∈ order, .call e.id e.op ∈ r.events := fun e he =>
    r.call_mem hrets ((hl.mem_iff e).mp he).1
  have hfresh := r.fresh_order hd hcall hl
  have hfront : order = pre ++ ⟨j, .onServiceOnline online host env, rj⟩ :: (mid ++
      ⟨o, .onServiceOffline offline host, ro⟩ ::
        (post ++ ⟨i, .choose s, .channelptr (.channel c)⟩ :: rest)) := by
    rw [horder, List.append_assoc, List.cons_append]
  have hothers := r.other_calls hd hcall hl hfront (p := env.ptr) (if_neg hr.ret)
  have hnew : ∀ l : List (Entry ManagerOp ManagerRet), (∀ e ∈ l, e ∈ pre ∨ e ∈ mid ∨ e ∈ post) →
      ∀ op ∈ l.map (·.op), op.newPtr? ≠ some env.ptr := by
    intro l hsub op hop
    obtain ⟨e, he, rfl⟩ := List.mem_map.mp hop
    refine (hothers e ?_).2
    rcases hsub e he with he | he | he
    all_goals simp [he]
  have hgone : Gone env.ptr ((run (ServiceManager.step k) .new (pre.map (·.op) ++
      .onServiceOnline online host env :: mid.map (·.op) ++
        .onServiceOffline offline host :: post.map (·.op))).channel s) := by
    refine gone_of_retired ?_ hs hs' hr.ret (hnew pre fun e he => .inl he)
      (hnew mid fun e he => .inr (.inl he)) (hnew post fun e he => .inr (.inr he))
      fun serviceInstance env' hop hs'' => ?_
    · refine hfresh.left ⟨.choose s :: rest.map (·.op), ?_⟩
      rw [horder]
      simp
    · -- Another `onServiceOnline` between the two is ruled out.
      by_contra hret
      obtain ⟨e, he, heop⟩ := List.mem_map.mp hop
      have hcalle := hcall e (by rw [horder]; simp [he])
      rw [heop] at hcalle
      rcases hr.last e.id serviceInstance env' hcalle hs'' hret with hid | hb | hb
      · exact (hothers e (by simp [he])).1 hid
      · obtain ⟨mid₁, mid₂, rfl⟩ := List.append_of_mem he
        have hsplit : order = (pre ++ ⟨j, .onServiceOnline online host env, rj⟩ :: mid₁) ++
            e :: (mid₂ ++ ⟨o, .onServiceOffline offline host, ro⟩ ::
              (post ++ ⟨i, .choose s, .channelptr (.channel c)⟩ :: rest)) := by
          rw [horder]
          simp
        exact hl.not_before hsplit (List.mem_append_right pre List.mem_cons_self) hb.append
      · exact hl.not_before horder (by simp [he]) hb.append
  have hlegal := hl.legal
  rw [horder, ← List.cons_append, ← List.append_assoc] at hlegal
  have hchoose := ServiceManager.legal_split hlegal
  rw [ServiceManager.exec, ManagerRet.channelptr.injEq, choose_fst] at hchoose
  refine hgone c ?_
  have hmem := choose_mem hchoose
  simpa using hmem

end ManagerSteps

/-- A node goes offline while a thread chooses, and another thread chooses after that. -/
def retiredNode : ManagerSteps .etcdTest :=
  .ofTurns .etcdTest (startNodes ++
    .call 1 (.choose "/service/echo") ::
    .call 0 (.onServiceOffline "/service/echo/instance_1" "127.0.0.1:8081") ::
      List.replicate 7 (.go 0) ++ List.replicate 7 (.go 1) ++
    .call 2 (.choose "/service/echo") :: List.replicate 7 (.go 2)) (by decide +kernel)

/-- What happens after the nodes have started. -/
def retiredEvents : List (HistEvent ManagerOp ManagerRet) := [
  .call 3 (.choose "/service/echo"),
  .call 4 (.onServiceOffline "/service/echo/instance_1" "127.0.0.1:8081"), .ret 4 .void,
  .ret 3 (.channelptr (.channel (sharedNode 2))), .call 5 (.choose "/service/echo"),
  .ret 5 (.channelptr (.channel (sharedNode 2)))]

theorem retiredNode_events : retiredNode.events = sharedStarts ++ retiredEvents := by
  decide +kernel

/-- The two calls of `onServiceOnline`. -/
theorem retiredNode_online {i : Nat} {op : ManagerOp} (h : .call i op ∈ retiredNode.events) {p : Nat}
    (hp : op.newPtr? = some p) : i = p ∧
      (op = .onServiceOnline "/service/echo/instance_1" "127.0.0.1:8081" ⟨1, 0⟩ ∨
        op = .onServiceOnline "/service/echo/instance_2" "127.0.0.1:8082" ⟨2, 0⟩) := by
  rw [retiredNode_events] at h
  simp only [sharedStarts, retiredEvents, List.cons_append, List.nil_append, List.mem_cons,
    HistEvent.call.injEq, reduceCtorEq, false_or, List.not_mem_nil, or_false] at h
  rcases h with ⟨rfl, rfl⟩ | ⟨rfl, rfl⟩ | ⟨rfl, rfl⟩ | ⟨rfl, rfl⟩ | ⟨rfl, rfl⟩ | ⟨rfl, rfl⟩
  all_goals simp [ManagerOp.newPtr?] at hp ⊢
  all_goals exact hp

theorem retiredNode_retires :
    retiredNode.Retires "/service/echo" "127.0.0.1:8081" ⟨1, 0⟩ 1 4 where
  online := ⟨"/service/echo/instance_1", by rw [retiredNode_events]; decide, by decide⟩
  ret := by decide
  offline := ⟨"/service/echo/instance_1", by rw [retiredNode_events]; decide, by decide⟩
  order := ⟨sharedStarts, retiredEvents, .void,
    .onServiceOffline "/service/echo/instance_1" "127.0.0.1:8081", retiredNode_events, by decide,
    by decide⟩
  last := by
    intro j' serviceInstance env' hc _ hret
    have hp : (ManagerOp.onServiceOnline serviceInstance "127.0.0.1:8081" env').newPtr? =
        some env'.ptr := if_neg hret
    obtain ⟨hid, hop⟩ := retiredNode_online hc hp
    simp at hop
    exact .inl (by rw [hid, hop.2])

theorem not_chosen_retiredNode :
    .ret 5 (.channelptr (.channel (sharedNode 2))) ∈ retiredNode.events ∧ (sharedNode 2).ptr ≠ 1 := by
  have hret : .ret 5 (.channelptr (.channel (sharedNode 2))) ∈ retiredNode.events := by
    rw [retiredNode_events]
    decide
  have hafter : Before retiredNode.events 4 5 :=
    ⟨sharedStarts ++ retiredEvents.take 3, retiredEvents.drop 3, .void, .choose "/service/echo",
      by rw [retiredNode_events, List.append_assoc, List.take_append_drop], by decide, by decide⟩
  refine ⟨hret, retiredNode.not_chosen_of_retired (fun i j op op' p hi hj hp hp' => ?_)
    retiredNode_retires (by rw [retiredNode_events]; decide) hafter hret⟩
  rw [(retiredNode_online hi hp).1, (retiredNode_online hj hp').1]

end CharSystem
