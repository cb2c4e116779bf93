import CharSystem.Conc.Deadlock
import CharSystem.Manager.Basic
import Mathlib.Data.Fintype.Card

/-!
# Threads that use a `ServiceManager` (`channel.hpp`)

The methods of `ServiceManager` as programs of threads, with the mutex of the manager and the mutex
of each `ServiceChannel`. A section under a mutex is one atomic step: no other thread reads or
writes what the mutex protects. `_services` has pointers, so a handler goes on with the
`ServiceChannel` that it found after it has left the section of the manager, and `choose` takes the
mutex of the `ServiceChannel` inside the section of the manager.

* `Shared`: what the threads share. The `ServiceChannel` objects are in `channels`, by address; a
  `ServiceChannel` is created at a free address and never destroyed, since `_services` keeps it.
* `ManagerOp.code`: the code of each method, with every early return.
* `ManagerThreads.lockSafe`: the threads never deadlock. The mutex of the manager comes before that
  of any `ServiceChannel`.
-/

namespace CharSystem

/-- `_mt` of the manager, and `_mt` of the `ServiceChannel` at an address. -/
inductive Mutex where
  | manager
  | channel (a : Nat)
  deriving DecidableEq, Repr

/-- What the threads share. `next`: the addresses from `next` on are free. -/
structure Shared where
  followServices : Finset String
  services : String → Option Nat
  channels : Nat → ServiceChannel
  next : Nat

namespace Shared

/-- A new `ServiceManager`. -/
def new : Shared := ⟨∅, fun _ => none, fun _ => .new "", 0⟩

/-- `_follow_services.insert(service)`. -/
def insertFollow (s : Shared) (service : String) : Shared :=
  { s with followServices := insert service s.followServices }

/-- `_services[service_name] = std::make_shared<ServiceChannel>(service_name)`. -/
def makeShared (s : Shared) (serviceName : String) : Shared :=
  { s with
    services := Function.update s.services serviceName (some s.next)
    channels := Function.update s.channels s.next (.new serviceName)
    next := s.next + 1 }

/-- The `ServiceChannel` at `a` becomes `sc`. -/
def setChannel (s : Shared) (a : Nat) (sc : ServiceChannel) : Shared :=
  { s with channels := Function.update s.channels a sc }

end Shared

/-- The code of a method. -/
abbrev Code := Prog Shared Mutex ManagerRet

namespace Code

/-- `declared`. -/
def declared (service : String) : Code :=
  .acquire .manager <| .act fun s =>
    (s.insertFollow service, .release .manager <| .ret .void)

/-- `ServiceChannel::choose` at `a`, called from a section of the manager. -/
def channelChoose (a : Nat) : Code :=
  .acquire (.channel a) <| .act fun s =>
    (s.setChannel a (s.channels a).choose.2,
      .release (.channel a) <| .release .manager <| .ret (.channelptr (s.channels a).choose.1))

/-- `choose`. -/
def choose (serviceName : String) : Code :=
  .acquire .manager <| .act fun s =>
    match s.services serviceName with
    | none => (s, .release .manager <| .ret (.channelptr .null))
    | some a => (s, channelChoose a)

/-- `ServiceChannel::append` at `a`: the channel and its `Init`, then the section. -/
def append (k : Copy) (a : Nat) (host : String) (env : Alloc) : Code :=
  .act fun s =>
    if env.ret = -1 then (s, .ret .void)
    else
      (s, .acquire (.channel a) <| .act fun s =>
        (s.setChannel a ((s.channels a).push host (k.newPtr host env)),
          .release (.channel a) <| .ret .void))

/-- `ServiceChannel::remove` at `a`. -/
def remove (k : Copy) (a : Nat) (host : String) : Code :=
  .acquire (.channel a) <| .act fun s =>
    (s.setChannel a (k.remove (s.channels a) host).1, .release (.channel a) <| .ret .void)

/-- `onServiceOnline`. The `append` comes after the section of the manager. -/
def onServiceOnline (k : Copy) (serviceInstance host : String) (env : Alloc) : Code :=
  .acquire .manager <| .act fun s =>
    if getServiceName serviceInstance ∉ s.followServices then (s, .release .manager <| .ret .void)
    else
      match s.services (getServiceName serviceInstance) with
      | none =>
        (s.makeShared (getServiceName serviceInstance),
          .release .manager <| append k s.next host env)
      | some a => (s, .release .manager <| append k a host env)

/-- `onServiceOffline`. The `remove` comes after the section of the manager. -/
def onServiceOffline (k : Copy) (serviceInstance host : String) : Code :=
  .acquire .manager <| .act fun s =>
    if getServiceName serviceInstance ∉ s.followServices then (s, .release .manager <| .ret .void)
    else
      match s.services (getServiceName serviceInstance) with
      | none => (s, .release .manager <| .ret .void)
      | some a => (s, .release .manager <| remove k a host)

end Code

/-- The code of a call. -/
def ManagerOp.code (k : Copy) : ManagerOp → Code
  | .declared service => .declared service
  | .choose serviceName => .choose serviceName
  | .onServiceOnline serviceInstance host env => .onServiceOnline k serviceInstance host env
  | .onServiceOffline serviceInstance host => .onServiceOffline k serviceInstance host

/-- A state of the threads of a manager. -/
abbrev ThreadState := Config Shared Mutex ManagerOp ManagerRet

/-! ## Deadlock -/

/-- The mutex of the manager is taken before that of a `ServiceChannel` (`false < true`). -/
def Mutex.rank : Mutex → Bool
  | .manager => false
  | .channel _ => true

namespace Code

variable {k : Copy} {a : Nat} {host : String}

theorem channelChoose_disciplined :
    Disciplined Mutex.rank [.manager] (channelChoose a) := by
  refine .acquire (fun l hl => ?_) (.act fun _ => .release (.release (.ret _)))
  rw [List.mem_singleton] at hl
  subst hl
  exact Bool.false_lt_true

theorem append_disciplined {env : Alloc} : Disciplined Mutex.rank [] (append k a host env) := by
  refine .act fun s => ?_
  by_cases hret : env.ret = -1
  · rw [if_pos hret]
    exact .ret _
  · rw [if_neg hret]
    exact .acquire (fun _ hl => nomatch hl) (.act fun _ => .release (.ret _))

theorem remove_disciplined : Disciplined Mutex.rank [] (remove k a host) :=
  .acquire (fun _ hl => nomatch hl) (.act fun _ => .release (.ret _))

/-- Every method follows the lock order and releases what it acquires, on every return. -/
theorem disciplined (k : Copy) (op : ManagerOp) : Disciplined Mutex.rank [] (op.code k) := by
  cases op with
  | declared service =>
    exact .acquire (fun _ hl => nomatch hl) (.act fun _ => .release (.ret _))
  | choose serviceName =>
    refine .acquire (fun _ hl => nomatch hl) (.act fun s => ?_)
    cases s.services serviceName with
    | none => exact .release (.ret _)
    | some a => exact channelChoose_disciplined
  | onServiceOnline serviceInstance host env =>
    refine .acquire (fun _ hl => nomatch hl) (.act fun s => ?_)
    by_cases hf : getServiceName serviceInstance ∈ s.followServices
    · rw [if_neg (not_not.mpr hf)]
      cases s.services (getServiceName serviceInstance) with
      | none => exact .release append_disciplined
      | some a => exact .release append_disciplined
    · rw [if_pos hf]
      exact .release (.ret _)
  | onServiceOffline serviceInstance host =>
    refine .acquire (fun _ hl => nomatch hl) (.act fun s => ?_)
    by_cases hf : getServiceName serviceInstance ∈ s.followServices
    · rw [if_neg (not_not.mpr hf)]
      cases s.services (getServiceName serviceInstance) with
      | none => exact .release (.ret _)
      | some a => exact .release remove_disciplined
    · rw [if_pos hf]
      exact .release (.ret _)

end Code

/-- A state that threads reach from a new manager, any number of them, each with any calls. -/
structure ManagerThreads (k : Copy) where
  state : ThreadState
  reach : (threadSys (ManagerOp.code k)).Reach (· = Config.init .new) state

/-- **The manager never deadlocks on its own locks.** In every state that the threads reach, if an
operation is unfinished then some thread can take its next step; no thread is about to acquire a
mutex that it holds; and a thread that has finished its operation holds no mutex. -/
theorem ManagerThreads.lockSafe {k : Copy} (c : ManagerThreads k) :
    LockSafe (ManagerOp.code k) c.state :=
  lockSafe_of_disciplined (Code.disciplined k) c.reach

end CharSystem
