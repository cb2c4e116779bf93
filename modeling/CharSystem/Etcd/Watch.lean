import CharSystem.Etcd.Basic
import CharSystem.Manager.Service
import CharSystem.Sys

/-!
# Two services, two watchers, one manager (`discovery.cc`)

A client that follows two services has a `Discovery` on the name of each, bound to one
`ServiceManager`. An event goes to every watcher whose `base_dir` is a string prefix of its key, and
`getServiceName` splits the key at the last `/`. The intent is that every change of an instance
makes one effective call, for the service under whose name the instance registered (`ExactlyOnce`).
The watcher on `/service/echo` also gets the events of `/service/echo2`, so it fails where a key of
one service starts with the name of the other.

* `WatchStep`: a commit, or the delivery of one event by one watcher, in any order. (A response with
  several events is several deliveries: `Discovery.callback_ofEvents_append`.)
* `WatchInv`: for each change, the events still queued and the calls made are as many as the
  watchers that select its key.
* `WatchRun.exactlyOnce_iff`: when a finished run is exactly-once.
-/

namespace CharSystem

/-- The two services. -/
inductive Side where
  | first
  | second
  deriving DecidableEq, Repr

/-- The other service. -/
def Side.other : Side → Side
  | .first => .second
  | .second => .first

/-- The name of an instance within its service: a string without `/`. -/
structure InstanceId where
  id : String
  noSlash : '/' ∉ id.toList

/-- A change of an instance: a put of a host, or a delete. -/
structure InstanceChange where
  side : Side
  instanceId : InstanceId
  host : Option String

namespace InstanceChange

variable (name : Side → String)

/-- The key of the instance, registered under the name of its service. -/
def key (c : InstanceChange) : String := instanceKey (name c.side) c.instanceId.id

/-- The change of the registry. -/
def change (c : InstanceChange) : Change :=
  match c.host with
  | some host => .put (c.key name) host
  | none => .delete (c.key name)

theorem change_key (c : InstanceChange) : (c.change name).key = c.key name := by
  unfold change
  cases c.host <;> rfl

theorem getServiceName_key (c : InstanceChange) : getServiceName (c.key name) = name c.side :=
  getServiceName_instanceKey c.instanceId.noSlash

/-- The watcher of a service selects the keys of its instances. -/
theorem selects_own (c : InstanceChange) : selects (name c.side) (c.key name) = true := by
  rw [selects, List.isPrefixOf_iff_prefix, key, toList_instanceKey]
  exact List.prefix_append _ _

/-- How many watchers select the key. -/
def selecting (c : InstanceChange) : Nat :=
  (if selects (name .first) (c.key name) then 1 else 0) +
    if selects (name .second) (c.key name) then 1 else 0

theorem selecting_eq (c : InstanceChange) :
    c.selecting name = 1 + if selects (name c.side.other) (c.key name) then 1 else 0 := by
  have hown := c.selects_own name
  unfold selecting
  cases hs : c.side with
  | first => rw [hs] at hown; rw [if_pos hown]; rfl
  | second => rw [hs] at hown; rw [if_pos hown, Nat.add_comm]; rfl

end InstanceChange

/-- The manager, and the calls that passed its follow check, each with the number of its change. -/
structure Handled where
  manager : ServiceManager
  passed : List (Nat × ManagerOp)

/-- A call of a handler for the change `n`. -/
def Handled.record (h : Handled) (n : Nat) (op : ManagerOp) (result : ServiceManager × HandlerExit) :
    Handled where
  manager := result.1
  passed := if result.2 = .notFollowed then h.passed else h.passed ++ [(n, op)]

/-- The `Discovery` of `discovery.cc`, for the event of the change `n`. -/
def recordingDiscovery (n : Nat) (env : Alloc) : Discovery Handled where
  putCb := some fun key value h => h.record n (.onServiceOnline key value env)
    (h.manager.onServiceOnline .etcdTest key value env)
  delCb := some fun key value h => h.record n (.onServiceOffline key value)
    (h.manager.onServiceOffline .etcdTest key value)

/-- The registry, the changes committed so far, the events that each watcher has still to deliver
(with the number of their change), and the manager. -/
structure WatchState where
  reg : Registry
  committed : List InstanceChange
  queue : Side → List (Nat × Event)
  handled : Handled

/-- The start: both watchers exist, and no change is committed since. -/
def WatchState.init (reg : Registry) (manager : ServiceManager) : WatchState :=
  ⟨reg, [], fun _ => [], ⟨manager, []⟩⟩

/-- A commit: every watcher that selects the key queues the event. -/
def WatchState.commit (s : WatchState) (name : Side → String) (c : InstanceChange) (ev : Event) :
    WatchState :=
  { s with
    reg := (c.change name).apply s.reg
    committed := s.committed ++ [c]
    queue := fun side =>
      if selects (name side) ev.kv.key then s.queue side ++ [(s.committed.length, ev)]
      else s.queue side }

/-- The delivery of the event `ev` of the change `n`, which leaves `rest` queued. -/
def WatchState.deliver (s : WatchState) (side : Side) (env : Alloc) (n : Nat) (ev : Event)
    (rest : List (Nat × Event)) : WatchState :=
  { s with
    queue := Function.update s.queue side rest
    handled := (recordingDiscovery n env).callback s.handled (.ofEvents [ev]) }

/-- Who makes a step: a client, or the watcher of a service. -/
inductive WatchLabel where
  | commit (c : InstanceChange)
  | deliver (side : Side) (env : Alloc)

/-- One step. A watcher delivers the oldest event of its queue. -/
inductive WatchStep (name : Side → String) : WatchState → WatchLabel → WatchState → Prop
  | commit {s : WatchState} {c : InstanceChange} {ev : Event} :
    (c.change name).event s.reg = some ev →
    WatchStep name s (.commit c) (s.commit name c ev)
  | deliver {s : WatchState} {side : Side} {env : Alloc} {n : Nat} {ev : Event}
    {rest : List (Nat × Event)} : s.queue side = (n, ev) :: rest →
    WatchStep name s (.deliver side env) (s.deliver side env n ev rest)

/-- Two services with a watcher each. -/
abbrev watchSys (name : Side → String) : Sys := ⟨WatchState, WatchLabel, WatchStep name⟩

/-! ## Events and calls are conserved -/

namespace WatchState

/-- The events of the change `n` still queued, and the calls that it has made. -/
def total (s : WatchState) (n : Nat) : Nat :=
  (s.queue .first).countP (·.1 == n) + (s.queue .second).countP (·.1 == n) +
    s.handled.passed.countP (·.1 == n)

end WatchState

/-- The invariant of the system (module doc): what is queued and handled comes from the committed
changes, and `total` is as many as the watchers that select the key. -/
structure WatchInv (name : Side → String) (s : WatchState) : Prop where
  followed : ∀ side, name side ∈ s.handled.manager.followServices
  queued : ∀ side n ev, (n, ev) ∈ s.queue side →
    ∃ c reg, s.committed[n]? = some c ∧ (c.change name).event reg = some ev
  passed : ∀ n op, (n, op) ∈ s.handled.passed → ∃ c, s.committed[n]? = some c ∧
    op.service = name c.side
  total : ∀ n, s.total n = (s.committed[n]?).elim 0 (·.selecting name)

/-- An event of a followed service makes one call that passes the follow check, for its service. -/
theorem Handled.callback_event {name : Side → String} {h : Handled}
    (hf : ∀ side, name side ∈ h.manager.followServices) {c : InstanceChange} {reg : Registry}
    {ev : Event} (he : (c.change name).event reg = some ev) (n : Nat) (env : Alloc) :
    ∃ op, op.service = name c.side ∧
      (recordingDiscovery n env).callback h (.ofEvents [ev]) =
        ⟨h.manager.step .etcdTest op, h.passed ++ [(n, op)]⟩ := by
  have hkey : getServiceName ev.kv.key = name c.side := by
    rw [Change.event_key he, c.change_key, c.getServiceName_key]
  have hmem : getServiceName ev.kv.key ∈ h.manager.followServices := hkey ▸ hf c.side
  rw [Discovery.callback_ofEvents, run_cons, run_nil]
  rcases Change.onEvent_event (recordingDiscovery n env) h he with ⟨value, -, hd⟩ | ⟨prev, -, -, hd⟩
  · refine ⟨.onServiceOnline ev.kv.key value env, hkey, ?_⟩
    have hpass : (h.manager.onServiceOnline .etcdTest ev.kv.key value env).2 ≠ .notFollowed :=
      fun hn => (ServiceManager.onServiceOnline_notFollowed ..).mp hn hmem
    rw [hd]
    simp only [Discovery.put, recordingDiscovery, record, if_neg hpass]
    rfl
  · refine ⟨.onServiceOffline ev.kv.key prev, hkey, ?_⟩
    have hpass : (h.manager.onServiceOffline .etcdTest ev.kv.key prev).2 ≠ .notFollowed :=
      fun hn => (ServiceManager.onServiceOffline_notFollowed ..).mp hn hmem
    rw [hd]
    simp only [Discovery.del, recordingDiscovery, record, if_neg hpass]
    rfl

namespace WatchInv

variable {name : Side → String} {s t : WatchState} {l : WatchLabel}

/-- A commit queues its event at the watchers that select its key. -/
theorem commit (h : WatchInv name s) {c : InstanceChange} {ev : Event}
    (he : (c.change name).event s.reg = some ev) :
    WatchInv name (s.commit name c ev) := by
  have hkey : ev.kv.key = c.key name := by rw [Change.event_key he, c.change_key]
  have hkeep : ∀ n c', s.committed[n]? = some c' → (s.committed ++ [c])[n]? = some c' :=
    fun n c' hn => by rw [List.getElem?_append_left (List.getElem?_eq_some_iff.mp hn).1, hn]
  refine ⟨h.followed, fun side n ev' hmem => ?_, fun n op hmem => ?_, fun n => ?_⟩
  · have hcases : (n, ev') ∈ s.queue side ∨ (n, ev') = (s.committed.length, ev) := by
      unfold WatchState.commit at hmem
      dsimp only at hmem
      split at hmem
      · simpa using hmem
      · exact .inl hmem
    rcases hcases with hmem | hnew
    · obtain ⟨c', reg, hn, hev⟩ := h.queued side n ev' hmem
      exact ⟨c', reg, hkeep n c' hn, hev⟩
    · cases hnew
      exact ⟨c, s.reg, by simp [WatchState.commit], he⟩
  · obtain ⟨c', hn, hop⟩ := h.passed n op hmem
    exact ⟨c', hkeep n c' hn, hop⟩
  · have hcount : ∀ side, ((if selects (name side) ev.kv.key then
          s.queue side ++ [(s.committed.length, ev)] else s.queue side).countP (·.1 == n)) =
        (s.queue side).countP (·.1 == n) +
          if n = s.committed.length ∧ selects (name side) (c.key name) then 1 else 0 := by
      intro side
      rw [hkey]
      by_cases hsel : selects (name side) (c.key name) = true
      · by_cases hn : n = s.committed.length
        · simp [hsel, hn]
        · simp [hsel, hn, Ne.symm hn]
      · simp [hsel]
    have htotal := h.total n
    simp only [WatchState.total, WatchState.commit] at htotal ⊢
    rw [hcount, hcount]
    by_cases hn : n = s.committed.length
    · subst hn
      rw [List.getElem?_eq_none (Nat.le_refl _)] at htotal
      simp only [Option.elim_none] at htotal
      simp only [true_and, List.getElem?_concat_length, Option.elim_some,
        InstanceChange.selecting]
      omega
    · have hget : (s.committed ++ [c])[n]? = s.committed[n]? := by
        rcases Nat.lt_or_gt_of_ne hn with hlt | hgt
        · exact List.getElem?_append_left hlt
        · rw [List.getElem?_eq_none (by rw [List.length_append, List.length_singleton]; omega),
            List.getElem?_eq_none (by omega)]
      simp only [hn, false_and, if_false, Nat.add_zero]
      rw [htotal, hget]

/-- A delivery turns a queued event into a call. -/
theorem deliver (h : WatchInv name s) {side : Side} {env : Alloc} {n : Nat} {ev : Event}
    {rest : List (Nat × Event)} (hq : s.queue side = (n, ev) :: rest) :
    WatchInv name (s.deliver side env n ev rest) := by
  obtain ⟨c, reg, hn, he⟩ := h.queued side n ev (hq ▸ List.mem_cons_self)
  obtain ⟨op, hop, hcb⟩ := Handled.callback_event h.followed he n env
  unfold WatchState.deliver
  rw [hcb]
  refine ⟨fun side' => (ServiceManager.follow_step ..).mpr (.inr (h.followed side')),
    fun side' n' ev' hmem => ?_, fun n' op' hmem => ?_, fun n' => ?_⟩
  · refine h.queued side' n' ev' ?_
    have hmem : (n', ev') ∈ Function.update s.queue side rest side' := hmem
    by_cases hs : side' = side
    · subst hs
      rw [Function.update_self] at hmem
      exact hq ▸ List.mem_cons_of_mem _ hmem
    · rwa [Function.update_of_ne hs] at hmem
  · rw [List.mem_append, List.mem_singleton] at hmem
    rcases hmem with hmem | hnew
    · exact h.passed n' op' hmem
    · cases hnew
      exact ⟨c, hn, hop⟩
  · refine Eq.trans ?_ (h.total n')
    simp only [WatchState.total, List.countP_append, List.countP_singleton]
    cases side with
    | first =>
      rw [Function.update_self, Function.update_of_ne (by decide), hq]
      simp only [List.countP_cons]
      omega
    | second =>
      rw [Function.update_self, Function.update_of_ne (by decide), hq]
      simp only [List.countP_cons]
      omega

theorem step (h : WatchInv name s) (hst : WatchStep name s l t) : WatchInv name t := by
  cases hst with
  | commit he => exact h.commit he
  | deliver hq => exact h.deliver hq

theorem steps (h : WatchInv name s) {ls : List WatchLabel} (hs : (watchSys name).Steps s ls t) :
    WatchInv name t :=
  hs.invariant (I := fun _ t => WatchInv name t) h fun _ _ _ _ ht hst => ht.step hst

end WatchInv

/-- A run of two services, declared in one manager, that ends when both watchers have delivered all
their events. -/
structure WatchRun where
  name : Side → String
  distinct : name .first ≠ name .second
  reg : Registry
  manager : ServiceManager
  declared : ∀ side, name side ∈ manager.followServices
  labels : List WatchLabel
  state : WatchState
  steps : (watchSys name).Steps (.init reg manager) labels state
  delivered : ∀ side, state.queue side = []

namespace WatchRun

variable (r : WatchRun)

/-- Every change made exactly one call that passed the follow check, for the service under whose
name the instance is registered. -/
def ExactlyOnce : Prop :=
  ∀ n c, r.state.committed[n]? = some c → ∃ op,
    r.state.handled.passed.filter (·.1 == n) = [(n, op)] ∧ op.service = r.name c.side

theorem inv : WatchInv r.name r.state := by
  refine WatchInv.steps ⟨r.declared, fun _ _ _ h => ?_, fun _ _ h => ?_, fun _ => rfl⟩ r.steps
  · cases h
  · cases h

/-- The calls of a change are as many as the watchers that select its key. -/
theorem length_passed {n : Nat} {c : InstanceChange} (hn : r.state.committed[n]? = some c) :
    (r.state.handled.passed.filter (·.1 == n)).length =
      1 + if selects (r.name c.side.other) (c.key r.name) then 1 else 0 := by
  have htotal := r.inv.total n
  rw [hn, WatchState.total, r.delivered, r.delivered] at htotal
  rw [← List.countP_eq_length_filter, ← c.selecting_eq]
  simpa using htotal

/-- **When every change is applied exactly once.** A finished run is exactly-once exactly when no
key that it changes starts with the name of the other service. -/
theorem exactlyOnce_iff : r.ExactlyOnce ↔
    ∀ c ∈ r.state.committed, selects (r.name c.side.other) (c.key r.name) = false := by
  constructor
  · intro h c hc
    obtain ⟨n, hn⟩ := List.mem_iff_getElem?.mp hc
    obtain ⟨op, hop, -⟩ := h n c hn
    have hlen := r.length_passed hn
    rw [hop] at hlen
    cases hsel : selects (r.name c.side.other) (c.key r.name) with
    | false => rfl
    | true => simp [hsel] at hlen
  · intro h n c hn
    have hlen := r.length_passed hn
    rw [h c (List.mem_of_getElem? hn)] at hlen
    obtain ⟨⟨n', op⟩, hop⟩ := List.length_eq_one_iff.mp hlen
    have hmem : (n', op) ∈ r.state.handled.passed.filter (·.1 == n) := by simp [hop]
    obtain ⟨hpassed, hn'⟩ := List.mem_filter.mp hmem
    obtain rfl : n' = n := by simpa using hn'
    obtain ⟨c', hc', hservice⟩ := r.inv.passed n' op hpassed
    obtain rfl : c = c' := Option.some.inj (hn.symm.trans hc')
    exact ⟨op, hop, hservice⟩

end WatchRun

/-- Two services, one name a string prefix of the other. -/
def echoNames : Side → String
  | .first => "/service/echo"
  | .second => "/service/echo2"

/-- An instance of `/service/echo2` registers. -/
def echo2Online : InstanceChange := ⟨.second, ⟨"instance_1", by decide⟩, some "127.0.0.1:8080"⟩

/-- The event of `echo2Online`. -/
def echo2Event : Event where
  eventType := .PUT
  kv := ⟨"/service/echo2/instance_1", "127.0.0.1:8080"⟩
  prevKv := ⟨"", ""⟩

/-- The put of `echo2Online`, and its event at both watchers. -/
def sharedPrefix : WatchRun where
  name := echoNames
  distinct := by decide
  reg := fun _ => none
  manager := .following ["/service/echo", "/service/echo2"]
  declared
    | .first => by decide
    | .second => by decide
  labels := [.commit echo2Online, .deliver .first ⟨1, 0⟩, .deliver .second ⟨2, 0⟩]
  state := ((WatchState.init _ _).commit echoNames echo2Online echo2Event
    |>.deliver .first ⟨1, 0⟩ 0 echo2Event []).deliver .second ⟨2, 0⟩ 0 echo2Event []
  steps := .snoc (.snoc (.snoc (.nil _) (WatchStep.commit (by decide)))
    (WatchStep.deliver (by decide))) (WatchStep.deliver (by decide))
  delivered
    | .first => by decide
    | .second => by decide

/-- The put of `sharedPrefix` makes two calls that pass the follow check. -/
theorem not_exactlyOnce : ¬ ∀ r : WatchRun, r.ExactlyOnce := by
  intro h
  have hn : sharedPrefix.state.committed[0]? = some echo2Online := rfl
  obtain ⟨op, hop, -⟩ := h sharedPrefix 0 echo2Online hn
  have hlen := sharedPrefix.length_passed hn
  have hsel : selects (sharedPrefix.name echo2Online.side.other)
      (echo2Online.key sharedPrefix.name) = true := by decide
  rw [hop, hsel] at hlen
  cases hlen

end CharSystem
