import CharSystem.Channel.Basic
import CharSystem.Manager.ServiceName
import Mathlib.Data.Finset.Insert

/-!
# `ServiceManager`: the services that a client follows (`channel.hpp`)

The model of a sequential run: each call runs to its end before the next one (the threads are in
`CharSystem/Manager/Threads.lean`). The two copies of `channel.hpp` have the same `ServiceManager`;
the copy decides what `append` and `remove` of its `ServiceChannel` do.

* `_follow_services` is a finite set, `_services` a partial function. `make_shared` does not return
  a null pointer, so `onServiceOnline` does not reach its `!service` branch.
* `ManagerOp` is a call and `ServiceManager.exec` runs it: the new state and the result.
* **The abstract manager** (`Directory`): every service has a `ServiceChannel` from the start, and
  a handler only reads the follow set. `exec_directory`: the source refines it, since an absent
  `ServiceChannel` behaves like a new one.
-/

namespace CharSystem

/-- `class ServiceManager`, without its mutex. -/
structure ServiceManager where
  followServices : Finset String
  services : String → Option ServiceChannel

/-- How `onServiceOnline` and `onServiceOffline` ended: the service is not followed, it has no
`ServiceChannel` (`onServiceOffline` only), or the event reached the `ServiceChannel`. -/
inductive HandlerExit where
  | notFollowed
  | noManager
  | handled
  deriving DecidableEq, Repr

namespace ServiceManager

/-- The constructor. -/
def new : ServiceManager where
  followServices := ∅
  services := fun _ => none

/-- `declared`. -/
def declared (m : ServiceManager) (service : String) : ServiceManager :=
  { m with followServices := insert service m.followServices }

/-- `choose`: the result and the new state. -/
def choose (m : ServiceManager) (serviceName : String) : ChooseResult × ServiceManager :=
  match m.services serviceName with
  | none => (.null, m)
  | some sc =>
    (sc.choose.1, { m with services := Function.update m.services serviceName (some sc.choose.2) })

/-- `onServiceOnline`, in the copy `k`. `env` is for the `append` that it may call. -/
def onServiceOnline (k : Copy) (m : ServiceManager) (serviceInstance host : String) (env : Alloc) :
    ServiceManager × HandlerExit :=
  let serviceName := getServiceName serviceInstance
  if serviceName ∉ m.followServices then (m, .notFollowed)
  else
    let service := match m.services serviceName with
      | none => .new serviceName
      | some sc => sc
    ({ m with
        services := Function.update m.services serviceName (some (k.append service host env)) },
      .handled)

/-- `onServiceOffline`, in the copy `k`. -/
def onServiceOffline (k : Copy) (m : ServiceManager) (serviceInstance host : String) :
    ServiceManager × HandlerExit :=
  let serviceName := getServiceName serviceInstance
  if serviceName ∉ m.followServices then (m, .notFollowed)
  else
    match m.services serviceName with
    | none => (m, .noManager)
    | some service =>
      ({ m with
          services := Function.update m.services serviceName (some (k.remove service host).1) },
        .handled)

end ServiceManager

/-- A call of a `ServiceManager` method. -/
inductive ManagerOp where
  | declared (service : String)
  | choose (serviceName : String)
  | onServiceOnline (serviceInstance host : String) (env : Alloc)
  | onServiceOffline (serviceInstance host : String)
  deriving DecidableEq, Repr

/-- What a call returns. -/
inductive ManagerRet where
  | void
  | channelptr (r : ChooseResult)
  deriving DecidableEq, Repr

namespace ServiceManager

/-- A call: the new state and what it returns. -/
def exec (k : Copy) (m : ServiceManager) : ManagerOp → ServiceManager × ManagerRet
  | .declared service => (m.declared service, .void)
  | .choose serviceName => ((m.choose serviceName).2, .channelptr (m.choose serviceName).1)
  | .onServiceOnline serviceInstance host env =>
    ((m.onServiceOnline k serviceInstance host env).1, .void)
  | .onServiceOffline serviceInstance host => ((m.onServiceOffline k serviceInstance host).1, .void)

/-- The state after a call. -/
def step (k : Copy) (m : ServiceManager) (op : ManagerOp) : ServiceManager := (m.exec k op).1

/-- The `ServiceChannel` of a service; a service without one has an empty one. -/
def channel (m : ServiceManager) (service : String) : ServiceChannel :=
  (m.services service).getD (.new service)

end ServiceManager

/-- What `new` guarantees of a call: the channel that it creates differs from every channel that the
service still holds. -/
def ManagerOp.Fresh (m : ServiceManager) : ManagerOp → Prop
  | .onServiceOnline serviceInstance host env =>
    ChannelOp.Fresh (m.channel (getServiceName serviceInstance)) (.append host env)
  | _ => True

/-- A run of a new `ServiceManager` of a copy. -/
structure ManagerRun (k : Copy) where
  ops : List ManagerOp
  fresh : Along (ServiceManager.step k) ManagerOp.Fresh .new ops

/-- The state that the run reaches. -/
def ManagerRun.state {k : Copy} (r : ManagerRun k) : ServiceManager :=
  run (ServiceManager.step k) .new r.ops

/-! ## The abstract manager -/

/-- The abstract manager (module doc). -/
@[ext] structure Directory where
  followServices : Finset String
  channel : String → ServiceChannel

namespace Directory

/-- The service's `ServiceChannel` replaced. -/
def set (d : Directory) (service : String) (sc : ServiceChannel) : Directory :=
  { d with channel := Function.update d.channel service sc }

/-- A registry event about a service: its `ServiceChannel` gets it if the service is followed. -/
def handle (d : Directory) (service : String) (f : ServiceChannel → ServiceChannel) : Directory :=
  if service ∈ d.followServices then d.set service (f (d.channel service)) else d

/-- A call. -/
def exec (k : Copy) (d : Directory) : ManagerOp → Directory × ManagerRet
  | .declared service => ({ d with followServices := insert service d.followServices }, .void)
  | .choose service =>
    (d.set service (d.channel service).choose.2, .channelptr (d.channel service).choose.1)
  | .onServiceOnline serviceInstance host env =>
    (d.handle (getServiceName serviceInstance) (k.append · host env), .void)
  | .onServiceOffline serviceInstance host =>
    (d.handle (getServiceName serviceInstance) (fun sc => (k.remove sc host).1), .void)

theorem handle_of_mem {d : Directory} {service : String} (h : service ∈ d.followServices)
    (f : ServiceChannel → ServiceChannel) : d.handle service f = d.set service (f (d.channel service)) :=
  if_pos h

theorem handle_of_notMem {d : Directory} {service : String} (h : service ∉ d.followServices)
    (f : ServiceChannel → ServiceChannel) : d.handle service f = d :=
  if_neg h

@[simp] theorem set_self (d : Directory) (service : String) :
    d.set service (d.channel service) = d := by
  simp [set]

end Directory

/-- What a client can tell of a manager. -/
def ServiceManager.directory (m : ServiceManager) : Directory := ⟨m.followServices, m.channel⟩

namespace ServiceManager

variable {m : ServiceManager} {service : String} {sc : ServiceChannel}

theorem channel_of_none (h : m.services service = none) : m.channel service = .new service := by
  simp [channel, h]

theorem channel_of_some (h : m.services service = some sc) : m.channel service = sc := by
  simp [channel, h]

@[simp] theorem directory_followServices : m.directory.followServices = m.followServices := rfl
@[simp] theorem directory_channel : m.directory.channel = m.channel := rfl

/-- The directory after a `ServiceChannel` is stored. -/
theorem directory_update (m : ServiceManager) (service : String) (sc : ServiceChannel) :
    ({ m with services := Function.update m.services service (some sc) } : ServiceManager).directory
      = m.directory.set service sc := by
  refine Directory.ext rfl (funext fun s => ?_)
  by_cases hs : s = service
  · subst hs; simp [directory, Directory.set, channel]
  · simp [directory, Directory.set, channel, Function.update_of_ne hs]

theorem choose_directory (m : ServiceManager) (service : String) :
    (m.choose service).2.directory = m.directory.set service (m.channel service).choose.2 ∧
      (m.choose service).1 = (m.channel service).choose.1 := by
  unfold ServiceManager.choose
  cases hs : m.services service with
  | none =>
    have hc : (m.channel service).choose = (.null, m.channel service) :=
      ServiceChannel.choose_nil (by rw [channel_of_none hs]; rfl)
    rw [hc, ← directory_channel, Directory.set_self]
    exact ⟨rfl, rfl⟩
  | some sc =>
    rw [channel_of_some hs]
    exact ⟨directory_update m service sc.choose.2, rfl⟩

theorem onServiceOnline_directory (k : Copy) (m : ServiceManager)
    (serviceInstance host : String) (env : Alloc) :
    (m.onServiceOnline k serviceInstance host env).1.directory =
      m.directory.handle (getServiceName serviceInstance) (k.append · host env) := by
  unfold onServiceOnline
  by_cases hf : getServiceName serviceInstance ∈ m.followServices
  · rw [if_neg (not_not.mpr hf), Directory.handle_of_mem hf, directory_update]
    cases hs : m.services (getServiceName serviceInstance) with
    | none => rw [directory_channel, channel_of_none hs]
    | some sc => rw [directory_channel, channel_of_some hs]
  · rw [if_pos hf, Directory.handle_of_notMem hf]

theorem onServiceOffline_directory (k : Copy) (m : ServiceManager) (serviceInstance host : String) :
    (m.onServiceOffline k serviceInstance host).1.directory =
      m.directory.handle (getServiceName serviceInstance) fun sc => (k.remove sc host).1 := by
  unfold onServiceOffline
  by_cases hf : getServiceName serviceInstance ∈ m.followServices
  · rw [if_neg (not_not.mpr hf), Directory.handle_of_mem hf]
    cases hs : m.services (getServiceName serviceInstance) with
    | none =>
      have hnone : (m.channel (getServiceName serviceInstance)).hosts host = none := by
        rw [channel_of_none hs]; rfl
      have hr := k.remove_notFound hnone
      rw [directory_channel, hr, ← directory_channel, Directory.set_self]
    | some sc => rw [directory_channel, channel_of_some hs, directory_update]
  · rw [if_pos hf, Directory.handle_of_notMem hf]

/-- The follow check of `onServiceOnline`. -/
theorem onServiceOnline_notFollowed (k : Copy) (m : ServiceManager) (serviceInstance host : String)
    (env : Alloc) : (m.onServiceOnline k serviceInstance host env).2 = .notFollowed ↔
      getServiceName serviceInstance ∉ m.followServices := by
  unfold onServiceOnline
  by_cases hf : getServiceName serviceInstance ∈ m.followServices
  · simp [hf]
  · simp [hf]

/-- The follow check of `onServiceOffline`. -/
theorem onServiceOffline_notFollowed (k : Copy) (m : ServiceManager) (serviceInstance host : String) :
    (m.onServiceOffline k serviceInstance host).2 = .notFollowed ↔
      getServiceName serviceInstance ∉ m.followServices := by
  unfold onServiceOffline
  by_cases hf : getServiceName serviceInstance ∈ m.followServices
  · refine iff_of_false ?_ (not_not.mpr hf)
    rw [if_neg (not_not.mpr hf)]
    cases m.services (getServiceName serviceInstance) with
    | none => exact HandlerExit.noConfusion
    | some sc => exact HandlerExit.noConfusion
  · simp [hf]

/-- **The source refines the abstract manager**: a call gives the same result, and leaves the
directory that the abstract call gives. -/
theorem exec_directory (k : Copy) (m : ServiceManager) (op : ManagerOp) :
    ((m.exec k op).1.directory, (m.exec k op).2) = m.directory.exec k op := by
  cases op with
  | declared service => rfl
  | choose service =>
    obtain ⟨h1, h2⟩ := m.choose_directory service
    simp only [exec, Directory.exec, directory_channel, h1, h2]
  | onServiceOnline serviceInstance host env =>
    simp only [exec, onServiceOnline_directory]
    rfl
  | onServiceOffline serviceInstance host =>
    simp only [exec, onServiceOffline_directory]
    rfl

theorem step_directory (k : Copy) (m : ServiceManager) (op : ManagerOp) :
    (m.step k op).directory = (m.directory.exec k op).1 := by
  rw [← exec_directory]
  rfl

end ServiceManager

end CharSystem
