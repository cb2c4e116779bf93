import CharSystem.Channel.Cursor
import CharSystem.Channel.Host
import CharSystem.Manager.Service

/-!
# The live hosts of a followed service (`example/etcd_test`)

A host is live in a service if the last effective event about it is an `onServiceOnline`
(`LiveIn`, read off the calls of the run). The intent of `ServiceManager` is `ServesLive`: the array
of a followed service has one channel of each live host and no other, and `choose` gives nothing but
these. A read past the end of the array is a violation too: it can give the channel that was erased.

Two kinds of calls break it. `onServiceOnline` for a host that is already recorded: `append`
overwrites the map entry and keeps the older channel in the array, and a later `onServiceOffline`
removes only the newer one. And `onServiceOffline` that leaves the cursor at the end of the array.

* `ManagerRun.always_servesLive_iff`: the states of a run serve the live hosts exactly when no online
  of the run reaches a `ServiceChannel` that has the host recorded (`ServiceManager.NotAgain`), and
  no offline leaves a cursor at the end of an array (`ServiceManager.CursorKept`).
* `repeatedOnline`: a run that is left with a channel of a host that went offline.
-/

namespace CharSystem

/-- `host` is live in `s` after the calls `ops`: of the handler calls about it that came when `s`
was followed, the last effective one is an `onServiceOnline` whose `Init` succeeded. -/
def LiveIn (ops : List ManagerOp) (s host : String) : Prop :=
  Live (ServiceManager.new.channelOps .etcdTest s ops) host

instance LiveIn.decidable (ops : List ManagerOp) (s host : String) : Decidable (LiveIn ops s host) :=
  Live.decidable _ _

/-- The state `m` after the calls `ops` serves the live hosts of `s` (module doc). -/
structure ServesLive (ops : List ManagerOp) (m : ServiceManager) (s : String) : Prop where
  live : ∀ host, LiveIn ops s host → ((m.channel s).channelsOf host).length = 1
  dead : ∀ host, ¬ LiveIn ops s host → (m.channel s).channelsOf host = []
  chosen : (m.choose s).1 = .null ∨ ∃ c, (m.choose s).1 = .channel c ∧ LiveIn ops s c.addr

/-- An effective `onServiceOnline` is for a host that is not recorded. -/
def ServiceManager.NotAgain (m : ServiceManager) : ManagerOp → Prop
  | .onServiceOnline serviceInstance host env =>
    getServiceName serviceInstance ∈ m.followServices → env.ret ≠ -1 →
      (m.channel (getServiceName serviceInstance)).hosts host = none
  | _ => True

/-- An effective `onServiceOffline` comes when the cursor of the service is at `0` or before the last
channel. -/
def ServiceManager.CursorKept (m : ServiceManager) : ManagerOp → Prop
  | .onServiceOffline serviceInstance host =>
    getServiceName serviceInstance ∈ m.followServices →
      (m.channel (getServiceName serviceInstance)).CursorKept (.remove host)
  | _ => True

namespace ServiceManager

variable {m : ServiceManager}

/-- Every service has one channel of each recorded host. -/
def OnePerHost (m : ServiceManager) : Prop := ∀ s, (m.channel s).OnePerHost

/-- In every service a `choose` would read inside the array. -/
def ChooseInRange (m : ServiceManager) : Prop := ∀ s, (m.channel s).ChooseInRange

theorem repInv_step {op : ManagerOp} (hi : ∀ s, (m.channel s).RepInv) (hf : op.Fresh m) (s : String) :
    ((m.step .etcdTest op).channel s).RepInv := by
  rw [channel_step]
  exact repInv_run (hi s) (fresh_calls hf s)

/-- The calls that an effective `onServiceOnline` makes. -/
theorem notAgain_iff (op : ManagerOp) :
    m.NotAgain op ↔ ∀ s, ∀ call ∈ op.calls s m, (m.channel s).NotAgain call := by
  cases op with
  | declared service => simp [NotAgain, ManagerOp.calls]
  | choose service => simp [NotAgain, ManagerOp.calls, ServiceChannel.NotAgain]
  | onServiceOnline serviceInstance host env =>
    simp only [NotAgain, ManagerOp.calls, List.mem_ite_nil_right, List.mem_singleton]
    constructor
    · rintro h s call ⟨⟨rfl, hs⟩, rfl⟩ hret
      exact h hs hret
    · exact fun h hs hret => h _ _ ⟨⟨rfl, hs⟩, rfl⟩ hret
  | onServiceOffline serviceInstance host =>
    refine iff_of_true trivial fun s call hc => ?_
    simp only [ManagerOp.calls, List.mem_ite_nil_right, List.mem_singleton] at hc
    obtain ⟨-, rfl⟩ := hc
    trivial

/-- **One call** keeps one channel of each recorded host in every service exactly when it is not an
effective online of a recorded host. -/
theorem OnePerHost.step_iff (h : m.OnePerHost) (hi : ∀ s, (m.channel s).RepInv) (op : ManagerOp) :
    (m.step .etcdTest op).OnePerHost ↔ m.NotAgain op := by
  rw [notAgain_iff]
  refine forall_congr' fun s => ?_
  rw [channel_step]
  rcases op.calls_cases s m with hc | ⟨call, hc, -⟩
  · simpa [hc] using h s
  · simpa [hc] using (h s).step_iff (hi s) call

/-- The calls that an effective `onServiceOffline` makes. -/
theorem cursorKept_iff (op : ManagerOp) :
    m.CursorKept op ↔ ∀ s, ∀ call ∈ op.calls s m, (m.channel s).CursorKept call := by
  cases op with
  | declared service => simp [CursorKept, ManagerOp.calls]
  | choose service => simp [CursorKept, ManagerOp.calls, ServiceChannel.CursorKept]
  | onServiceOnline serviceInstance host env =>
    refine iff_of_true trivial fun s call hc => ?_
    simp only [ManagerOp.calls, List.mem_ite_nil_right, List.mem_singleton] at hc
    obtain ⟨-, rfl⟩ := hc
    trivial
  | onServiceOffline serviceInstance host =>
    simp only [CursorKept, ManagerOp.calls, List.mem_ite_nil_right, List.mem_singleton]
    constructor
    · rintro h s call ⟨⟨rfl, hs⟩, rfl⟩
      exact h hs
    · exact fun h hs => h _ _ ⟨⟨rfl, hs⟩, rfl⟩

theorem cursorRestarts_step {op : ManagerOp} (hr : ∀ s, (m.channel s).CursorRestarts)
    (hi : ∀ s, (m.channel s).RepInv) (h : m.ChooseInRange) (s : String) :
    ((m.step .etcdTest op).channel s).CursorRestarts := by
  rw [channel_step]
  rcases op.calls_cases s m with hc | ⟨call, hc, -⟩
  · simpa [hc] using hr s
  · simpa [hc] using (hr s).step (hi s) (h s) call

/-- **One call** keeps every cursor in range exactly when it is not an effective offline that leaves a
cursor at the end of its array. -/
theorem ChooseInRange.step_iff (h : m.ChooseInRange) (hr : ∀ s, (m.channel s).CursorRestarts)
    (hi : ∀ s, (m.channel s).RepInv) (op : ManagerOp) :
    (m.step .etcdTest op).ChooseInRange ↔ m.CursorKept op := by
  rw [cursorKept_iff]
  refine forall_congr' fun s => ?_
  rw [channel_step]
  rcases op.calls_cases s m with hc | ⟨call, hc, -⟩
  · simpa [hc] using h s
  · simpa [hc] using (h s).step_iff (hr s) (hi s) call

/-- A run serves the live hosts when every service has one channel of each recorded host and a cursor
in range. -/
theorem servesLive_iff {ops : List ManagerOp} (hf : Along (step .etcdTest) ManagerOp.Fresh .new ops) :
    (∀ s ∈ (run (step .etcdTest) .new ops).followServices,
      ServesLive ops (run (step .etcdTest) .new ops) s) ↔
      (run (step .etcdTest) .new ops).OnePerHost ∧ (run (step .etcdTest) .new ops).ChooseInRange := by
  -- The recorded hosts of a service are its live hosts.
  have hlive : ∀ s host, LiveIn ops s host ↔
      (((run (step .etcdTest) .new ops).channel s).hosts host).isSome := fun s host => by
    rw [channel_run]
    exact (hosts_isSome_iff (fresh_channelOps hf s) host).symm
  constructor
  · intro h
    refine ⟨fun s host => ?_, fun s => ?_⟩
    · by_cases hs : s ∈ (run (step .etcdTest) .new ops).followServices
      · by_cases hl : LiveIn ops s host
        · rw [(h s hs).live host hl, if_pos ((hlive s host).mp hl)]
        · rw [(h s hs).dead host hl, if_neg (fun hn => hl ((hlive s host).mpr hn))]
          rfl
      · rw [channel_of_notMem ops hs]
        rfl
    · by_cases hs : s ∈ (run (step .etcdTest) .new ops).followServices
      · have hc := (h s hs).chosen
        rw [choose_fst] at hc
        refine ServiceChannel.chooseInRange_of_ne fun ho => ?_
        rcases hc with hc | ⟨c, hc, -⟩
        · rw [ho] at hc; cases hc
        · rw [ho] at hc; cases hc
      · rw [channel_of_notMem ops hs]
        exact fun hne => absurd rfl hne
  · rintro ⟨h, hrange⟩ s -
    refine ⟨fun host hl => ?_, fun host hl => ?_, ?_⟩
    · rw [h s host, if_pos ((hlive s host).mp hl)]
    · have hlen := h s host
      rw [if_neg (fun hn => hl ((hlive s host).mpr hn))] at hlen
      exact List.eq_nil_of_length_eq_zero hlen
    · rw [choose_fst]
      by_cases hnil : ((run (step .etcdTest) .new ops).channel s).rotatingArray = []
      · exact .inl (by rw [ServiceChannel.choose_nil hnil])
      · obtain ⟨-, c, hmem, hc⟩ := hrange s hnil
        exact .inr ⟨c, hc, (hlive s c.addr).mpr ((h s).isSome hmem)⟩

end ServiceManager

/-- **When a manager serves the live hosts.** In every state that a run reaches every followed
service has exactly one channel of each live host and no other, and `choose` gives one of these or
null, exactly when no effective online of the run is for a host that is already recorded and each
effective offline of a recorded host comes when the cursor is at `0` or before the last channel. -/
theorem ManagerRun.always_servesLive_iff (r : ManagerRun .etcdTest) :
    (∀ ops, ops <+: r.ops → ∀ s ∈ (run (ServiceManager.step .etcdTest) .new ops).followServices,
      ServesLive ops (run (ServiceManager.step .etcdTest) .new ops) s) ↔
    Along (ServiceManager.step .etcdTest) (fun m op => m.NotAgain op ∧ m.CursorKept op) .new r.ops := by
  have hiff := always_iff_along (P := fun m => m.OnePerHost ∧ m.ChooseInRange)
    (I := fun m => (∀ s, (m.channel s).RepInv) ∧ ∀ s, (m.channel s).CursorRestarts)
    (fun _ _ hi hf h => ⟨ServiceManager.repInv_step hi.1 hf,
      ServiceManager.cursorRestarts_step hi.2 hi.1 h.2⟩)
    (fun _ op hi _ h => and_congr (h.1.step_iff hi.1 op) (h.2.step_iff hi.2 hi.1 op))
    r.fresh ⟨fun s => .new s, fun _ _ => rfl⟩ ⟨fun s => .new s, fun _ hne => absurd rfl hne⟩
  rw [← hiff]
  exact forall_congr' fun ops => forall_congr' fun hp => ServiceManager.servesLive_iff (r.fresh.left hp)

/-- A host comes online twice and goes offline once. -/
def repeatedOnline : ManagerRun .etcdTest :=
  .ofNodup .etcdTest
    [.declared "/service/echo",
      .onServiceOnline "/service/echo/instance_1" "127.0.0.1:8080" ⟨1, 0⟩,
      .onServiceOnline "/service/echo/instance_1" "127.0.0.1:8080" ⟨2, 0⟩,
      .onServiceOffline "/service/echo/instance_1" "127.0.0.1:8080"] (by decide)

/-- After `repeatedOnline` the array has a channel of the host that went offline. -/
theorem not_servesLive : ¬ ∀ r : ManagerRun .etcdTest, ∀ s ∈ r.state.followServices,
    ServesLive r.ops r.state s := by
  intro h
  have hs : "/service/echo" ∈ repeatedOnline.state.followServices := by decide
  have hdead : ¬ LiveIn repeatedOnline.ops "/service/echo" "127.0.0.1:8080" := by decide
  have hstale : (repeatedOnline.state.channel "/service/echo").channelsOf "127.0.0.1:8080" ≠ [] := by
    decide
  exact hstale ((h repeatedOnline _ hs).dead _ hdead)

end CharSystem
