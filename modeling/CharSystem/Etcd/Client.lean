import CharSystem.Etcd.Lag
import CharSystem.Etcd.Mirror

/-!
# A client of the registry (`discovery.cc`)

A client has one `Discovery`, bound to a `ServiceManager`, and threads that call `choose`.

* `DeployStep`: the steps of the client and of everybody else, in any order. What others do to the
  registry (a `registry` of a provider, the end of a lease, any other client) is a commit. Nothing is
  assumed about who commits what and when. Assumed of etcd is what `StartStep` says; of brpc, that
  `Init` with the host of an event succeeds and its channel is a new one.
* The constructor of `Discovery` goes on if `ls` fails, without any entry (`lsFailed`).
-/

namespace CharSystem

/-- The registry with the `Discovery` of a client, and its manager. -/
structure Deployment where
  start : StartState
  manager : ServiceManager

/-- A registry with the content `reg`, and a manager that follows `services`. -/
def Deployment.init (reg : Registry) (services : List String) : Deployment where
  start := .init reg
  manager := .following services

/-- Who makes a step: anybody with a commit, the `Discovery`, or a thread of the client. -/
inductive DeployLabel where
  | commit (c : Change)
  | lsFailed
  | discovery (l : StartLabel) (envs : List Alloc)
  | choose (service : String)
  deriving DecidableEq, Repr

/-- The call of the manager that a call of a callback is. -/
def Call.op (env : Alloc) : Call → ManagerOp
  | .put key value => .onServiceOnline key value env
  | .del key value => .onServiceOffline key value

/-- The calls of the manager, each with what `new` and `Init` give to it. -/
def managerOps (calls : List Call) (envs : List Alloc) : List ManagerOp :=
  List.zipWith Call.op envs calls

/-- One step. A step of the `Discovery` makes the new calls of its callbacks on the manager. -/
inductive DeployStep (baseDir : String) : Deployment → DeployLabel → Deployment → Prop
  | commit {d : Deployment} {c : Change} {s : StartState} : StartStep baseDir d.start (.commit c) s →
    DeployStep baseDir d (.commit c) { d with start := s }
  /-- `resp.is_ok() == false`. -/
  | lsFailed {d : Deployment} : d.start.phase = .beforeLs →
    DeployStep baseDir d .lsFailed { d with start := { d.start with phase := .replay [] } }
  | discovery {d : Deployment} {l : StartLabel} {s : StartState} {calls : List Call}
    {envs : List Alloc} : commits [l] = [] → StartStep baseDir d.start l s →
    s.calls = d.start.calls ++ calls → envs.length = calls.length → (∀ env ∈ envs, env.ret ≠ -1) →
    Along (ServiceManager.step .etcdTest) ManagerOp.Fresh d.manager (managerOps calls envs) →
    DeployStep baseDir d (.discovery l envs)
      { d with
        start := s
        manager := run (ServiceManager.step .etcdTest) d.manager (managerOps calls envs) }
  | choose {d : Deployment} {service : String} :
    DeployStep baseDir d (.choose service)
      { d with manager := d.manager.step .etcdTest (.choose service) }

/-- The registry and one client. -/
abbrev deploySys (baseDir : String) : Sys := ⟨Deployment, DeployLabel, DeployStep baseDir⟩

/-- The callbacks of `discovery.cc` make the calls that a recording `Discovery` records. -/
theorem boundDiscovery_onEvent (env : Alloc) (m : ServiceManager) (ev : Event) :
    (boundDiscovery env).onEvent m ev =
      run (ServiceManager.step .etcdTest) m (ev.calls.map (Call.op env)) := by
  unfold Event.calls Discovery.onEvent
  cases ev.eventType <;> rfl

theorem boundDiscovery_put (env : Alloc) (m : ServiceManager) (v : Value) :
    (boundDiscovery env).put m v =
      run (ServiceManager.step .etcdTest) m (v.calls.map (Call.op env)) := rfl

end CharSystem
