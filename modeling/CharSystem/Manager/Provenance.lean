import CharSystem.Channel.Rotation
import CharSystem.Manager.Service

/-!
# Where a chosen channel comes from (`channel.hpp`, both copies)

Every channel in the array of a service was created by an `onServiceOnline` of an instance of that
service, after the service was declared (`ServiceManager.createdBy_of_mem`). In `example/etcd_test`
the channel is initialised with the host of that event. `append` of `example/brpc_test` gives a
fixed address to `Init`, so there a channel may lead to another node.

* `CreatedBy`: the event that created a channel.
* `ManagerRun.provenance_iff`: when `choose` gives only channels that lead to the host of their
  event.
* `remoteNode`: a node of `example/brpc_test` with another address.
-/

namespace CharSystem

/-- The calls `ops` have an `onServiceOnline` for `host` of an instance of `s`, after `declared(s)`,
that created `c`; and `c` has been in the array of `s` ever since. -/
def CreatedBy (k : Copy) (ops : List ManagerOp) (s : String) (c : Channelptr) (host : String) :
    Prop :=
  ∃ pre serviceInstance env post, ops = pre ++ .onServiceOnline serviceInstance host env :: post ∧
    getServiceName serviceInstance = s ∧ .declared s ∈ pre ∧ env.ret ≠ -1 ∧ c.ptr = env.ptr ∧
    ∀ post', post' <+: post →
      c ∈ ((run (ServiceManager.step k) .new
        (pre ++ .onServiceOnline serviceInstance host env :: post')).channel s).rotatingArray

/-- After the calls `ops`, a channel that `choose` gives was created by an event of its service, and
was initialised with the host of that event. -/
def Provenance (k : Copy) (ops : List ManagerOp) : Prop :=
  ∀ s c, ((run (ServiceManager.step k) .new ops).choose s).1 = .channel c →
    ∃ host, CreatedBy k ops s c host ∧ c.addr = host

/-- An effective `onServiceOnline` is for the host whose address `append` gives to `Init`. -/
def AddrIsHost (k : Copy) (m : ServiceManager) : ManagerOp → Prop
  | .onServiceOnline serviceInstance host env =>
    getServiceName serviceInstance ∈ m.followServices → env.ret ≠ -1 → k.initAddr host = host
  | _ => True

namespace ServiceManager

variable {k : Copy} {ops : List ManagerOp} {s : String} {c : Channelptr}

/-- A followed service was declared. -/
theorem mem_follow_run : s ∈ (run (step k) .new ops).followServices ↔ .declared s ∈ ops := by
  induction ops using List.reverseRecOn with
  | nil => simp [new]
  | append_singleton ops op ih =>
    rw [run_append, run_cons, run_nil, follow_step, ih, List.mem_append, List.mem_singleton, or_comm]
    exact or_congr_right eq_comm

/-- A channel in the array of `s` after a call was there before it, or is the channel of an
effective `onServiceOnline`. -/
theorem step_mem {m : ServiceManager} {op : ManagerOp}
    (h : c ∈ ((m.step k op).channel s).rotatingArray) : c ∈ (m.channel s).rotatingArray ∨
      ∃ serviceInstance host env, op = .onServiceOnline serviceInstance host env ∧
        getServiceName serviceInstance = s ∧ s ∈ m.followServices ∧ env.ret ≠ -1 ∧
        c = k.newPtr host env := by
  rw [channel_step] at h
  rcases op.calls_cases s m with hc | ⟨call, hc, -⟩
  · rw [hc] at h
    exact .inl h
  · rw [hc, run_cons, run_nil] at h
    refine (ServiceChannel.step_mem h).imp_right ?_
    rintro ⟨host, env, rfl, hret, rfl⟩
    cases op with
    | onServiceOnline serviceInstance host' env' =>
      simp only [ManagerOp.calls] at hc
      split at hc
      · rename_i hs
        cases hc
        exact ⟨serviceInstance, host, env, rfl, hs.1, hs.2, hret, rfl⟩
      · cases hc
    | declared service => cases hc
    | choose service =>
      simp only [ManagerOp.calls] at hc
      split at hc <;> cases hc
    | onServiceOffline serviceInstance host' =>
      simp only [ManagerOp.calls] at hc
      split at hc <;> cases hc

/-- **Every channel in an array was created by an event** of the service, after the service was
declared, and has been there since. -/
theorem createdBy_of_mem (h : c ∈ ((run (step k) .new ops).channel s).rotatingArray) :
    ∃ host, CreatedBy k ops s c host ∧ c.addr = k.initAddr host := by
  induction ops using List.reverseRecOn with
  | nil => cases h
  | append_singleton ops op ih =>
    have hnow := h
    rw [run_append, run_cons, run_nil] at h
    rcases step_mem h with h | ⟨serviceInstance, host, env, rfl, hs, hf, hret, rfl⟩
    · obtain ⟨host, ⟨pre, serviceInstance, env, post, rfl, hs, hd, hret, hp, hheld⟩, haddr⟩ := ih h
      refine ⟨host, ⟨pre, serviceInstance, env, post ++ [op], ?_, hs, hd, hret, hp,
        fun post' hpost => ?_⟩, haddr⟩
      · rw [List.append_assoc, List.cons_append]
      · rcases List.prefix_concat_iff.mp hpost with rfl | hpost
        · rwa [List.append_assoc, List.cons_append] at hnow
        · exact hheld post' hpost
    · refine ⟨host, ⟨ops, serviceInstance, env, [], rfl, hs, mem_follow_run.mp hf, hret, rfl,
        fun post' hpost => ?_⟩, rfl⟩
      rw [List.prefix_nil.mp hpost]
      exact hnow

/-- The calls that `choose(s)` makes on the `ServiceChannel` of `s`. -/
theorem channelOps_chooses (m : ServiceManager) (s : String) (n : Nat) :
    m.channelOps k s (List.replicate n (.choose s)) = List.replicate n .choose := by
  induction n generalizing m with
  | zero => rfl
  | succ n ih =>
    have hrest := ih (m.step k (.choose s))
    unfold channelOps at hrest ⊢
    rw [List.replicate_succ, outputs, hrest, ManagerOp.calls, if_pos rfl]
    rfl

end ServiceManager

open ServiceManager

/-- The channel of a fresh `onServiceOnline` has no other event. -/
theorem CreatedBy.host_eq {k : Copy} {pre : List ManagerOp} {serviceInstance s host host' : String}
    {env : Alloc} {c : Channelptr} {n : Nat} (hs : getServiceName serviceInstance = s)
    (hf : ManagerOp.Fresh (run (step k) .new pre) (.onServiceOnline serviceInstance host env))
    (hret : env.ret ≠ -1) (hc : c.ptr = env.ptr)
    (h : CreatedBy k (pre ++ .onServiceOnline serviceInstance host env :: List.replicate n (.choose s))
      s c host') : host' = host := by
  obtain ⟨pre', serviceInstance', env', post', he, -, -, -, -, hheld⟩ := h
  rcases List.append_eq_append_iff.mp he with ⟨l, rfl, hl⟩ | ⟨l, rfl, hl⟩
  · cases l with
    | nil => cases hl; rfl
    | cons op l =>
      have hmem : ManagerOp.onServiceOnline serviceInstance' host' env' ∈
          List.replicate n (ManagerOp.choose s) := by
        rw [(List.cons.inj hl).2]
        exact List.mem_append_right _ List.mem_cons_self
      cases List.eq_of_mem_replicate hmem
  · cases l with
    | nil => cases hl; rfl
    | cons op l =>
      -- The channel was in the array before the event, so its address was in use.
      obtain ⟨rfl, rfl⟩ := List.cons.inj hl
      have hin := hheld l (List.prefix_append _ _)
      rw [← hs] at hin
      exact absurd hc (hf hret c (.inl hin))

/-- **When chosen channels lead to the host of their event.** In every state that a run reaches, and
after any further calls of `choose`, a channel that `choose` gives was created by an
`onServiceOnline` of its service and initialised with the host of that event, exactly when every
effective `onServiceOnline` of the run is for the host whose address `append` gives to `Init`. -/
theorem ManagerRun.provenance_iff {k : Copy} (r : ManagerRun k) :
    (∀ ops, ops <+: r.ops → ∀ s n, Provenance k (ops ++ List.replicate n (.choose s))) ↔
      Along (step k) (AddrIsHost k) .new r.ops := by
  constructor
  · intro h
    refine along_iff.mpr fun pre op post he => ?_
    cases op with
    | onServiceOnline serviceInstance host env =>
      intro hf hret
      have hmem : k.newPtr host env ∈ ((run (step k) .new
          (pre ++ [.onServiceOnline serviceInstance host env])).channel
            (getServiceName serviceInstance)).rotatingArray := by
        rw [run_append, run_cons, run_nil, channel_step, ManagerOp.calls, if_pos ⟨rfl, hf⟩]
        simp [ServiceChannel.step, Copy.append_eq, hret]
      -- The new channel has its turn after some calls of `choose`.
      obtain ⟨n, hn⟩ := ServiceChannel.exists_choose k hmem
      rw [← channelOps_chooses _ (getServiceName serviceInstance), ← channel_run, ← run_append,
        ← choose_fst] at hn
      obtain ⟨host', hcreated, haddr⟩ :=
        h (pre ++ [.onServiceOnline serviceInstance host env]) ⟨post, by rw [he]; simp⟩ _ n _ _ hn
      rw [List.append_assoc, List.singleton_append] at hcreated
      have hfresh := along_iff.mp r.fresh pre _ post he
      exact haddr.trans (hcreated.host_eq rfl hfresh hret rfl)
    | _ => trivial
  · intro h ops hops s n s' c hc
    rw [choose_fst] at hc
    obtain ⟨host, hcreated, haddr⟩ := createdBy_of_mem (ServiceChannel.choose_mem hc)
    refine ⟨host, hcreated, haddr.trans ?_⟩
    obtain ⟨pre, serviceInstance, env, post, he, hs, hd, hret, -, -⟩ := hcreated
    have halong : Along (step k) (AddrIsHost k) .new (ops ++ List.replicate n (.choose s)) := by
      refine along_append.mpr ⟨h.left hops, along_iff.mpr fun pre op post he => ?_⟩
      have hop : op ∈ List.replicate n (.choose s) := by rw [he]; simp
      rw [List.eq_of_mem_replicate hop]
      trivial
    exact along_iff.mp halong pre _ post he (by rw [hs]; exact mem_follow_run.mpr hd) hret

/-- A node of `example/brpc_test` at another address. -/
def remoteNode : ManagerRun .brpcTest :=
  .ofNodup .brpcTest
    [.declared "/service/echo",
      .onServiceOnline "/service/echo/instance_1" "127.0.0.1:8081" ⟨1, 0⟩] (by decide)

/-- The channel of `remoteNode` leads to another address than that of the node. -/
theorem not_provenance : ¬ ∀ (k : Copy) (r : ManagerRun k), Provenance k r.ops := by
  intro h
  obtain ⟨host, ⟨pre, serviceInstance, env, post, he, -⟩, haddr⟩ :=
    h .brpcTest remoteNode "/service/echo" (Copy.brpcTest.newPtr "127.0.0.1:8081" ⟨1, 0⟩) (by decide)
  have hmem : .onServiceOnline serviceInstance host env ∈ remoteNode.ops := by
    rw [he]
    exact List.mem_append_right _ List.mem_cons_self
  have hhost : host = "127.0.0.1:8081" := by
    simp only [remoteNode, ManagerRun.ofNodup, List.mem_cons, reduceCtorEq, false_or,
      ManagerOp.onServiceOnline.injEq, List.not_mem_nil, or_false] at hmem
    exact hmem.2.1
  rw [hhost] at haddr
  revert haddr
  decide

end CharSystem
