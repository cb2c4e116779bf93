import CharSystem.Conc.LinPoint
import CharSystem.Manager.Threads

/-!
# The `ServiceManager` is linearizable (`channel.hpp`)

`onServiceOnline` and `onServiceOffline` leave the section of the manager before they enter that of
the `ServiceChannel`, so each is two atomic steps (three with `Init`), between which any other
operation may run. Every run whose operations have returned is still a sequential run of
`ServiceManager`, in an order that respects real time.

* `Shared.directory`: the abstract manager of what the threads share. A service that has no
  `ServiceChannel` and one that has a new one have the same directory, so the early creation of a
  `ServiceChannel` is not seen.
* `Shared.le`: what a handler learns in the section of the manager stays true: a followed service
  stays followed, and a service keeps its `ServiceChannel`.
* `ManagerOp.linPoint`: where each method takes effect. Its step on the `ServiceChannel`, or the
  return that comes before it.
* `ManagerHistory.linearizable`: the result.
-/

namespace CharSystem

namespace Shared

/-- The abstract manager. -/
def directory (s : Shared) : Directory where
  followServices := s.followServices
  channel := fun service =>
    match s.services service with
    | none => .new service
    | some a => s.channels a

/-- Services have different `ServiceChannel`s, at addresses in use. -/
structure Inv (s : Shared) : Prop where
  lt : ∀ service a, s.services service = some a → a < s.next
  inj : ∀ service service' a, s.services service = some a → s.services service' = some a →
    service = service'

instance : Preorder Shared where
  le s t := s.followServices ⊆ t.followServices ∧
    ∀ service a, s.services service = some a → t.services service = some a
  le_refl s := ⟨Finset.Subset.refl _, fun _ _ h => h⟩
  le_trans s t u h h' := ⟨h.1.trans h'.1, fun service a hs => h'.2 service a (h.2 service a hs)⟩

variable {s t : Shared} {service serviceName : String} {a : Nat}

theorem mem_of_le (h : s ≤ t) (hs : service ∈ s.followServices) : service ∈ t.followServices :=
  h.1 hs

theorem services_of_le (h : s ≤ t) (hs : s.services service = some a) :
    t.services service = some a :=
  h.2 service a hs

theorem directory_channel_of_none (h : s.services service = none) :
    s.directory.channel service = .new service := by
  simp [directory, h]

theorem directory_channel_of_some (h : s.services service = some a) :
    s.directory.channel service = s.channels a := by
  simp [directory, h]

/-! ## What the steps do -/

theorem inv_new : Inv new := ⟨fun _ _ h => (by cases h), fun _ _ _ h => (by cases h)⟩

theorem insertFollow_inv (hi : s.Inv) (service : String) : (s.insertFollow service).Inv :=
  ⟨hi.lt, hi.inj⟩

theorem le_insertFollow (s : Shared) (service : String) : s ≤ s.insertFollow service :=
  ⟨Finset.subset_insert _ _, fun _ _ h => h⟩

theorem setChannel_inv (hi : s.Inv) (a : Nat) (sc : ServiceChannel) : (s.setChannel a sc).Inv :=
  ⟨hi.lt, hi.inj⟩

theorem le_setChannel (s : Shared) (a : Nat) (sc : ServiceChannel) : s ≤ s.setChannel a sc :=
  ⟨Finset.Subset.refl _, fun _ _ h => h⟩

/-- A step on the `ServiceChannel` of a service. -/
theorem directory_setChannel (hi : s.Inv) (h : s.services service = some a) (sc : ServiceChannel) :
    (s.setChannel a sc).directory = s.directory.set service sc := by
  refine Directory.ext rfl (funext fun service' => ?_)
  by_cases hs : service' = service
  · subst hs
    simp [directory, setChannel, Directory.set, h]
  · cases h' : s.services service' with
    | none => simp [directory, setChannel, Directory.set, h', Function.update_of_ne hs]
    | some a' =>
      have ha : a' ≠ a := fun he => hs (hi.inj service' service a (he ▸ h') h)
      simp [directory, setChannel, Directory.set, h', Function.update_of_ne hs,
        Function.update_of_ne ha]

theorem makeShared_services (s : Shared) (serviceName : String) :
    (s.makeShared serviceName).services serviceName = some s.next :=
  Function.update_self ..

theorem makeShared_inv (hi : s.Inv) (serviceName : String) : (s.makeShared serviceName).Inv := by
  have hcases : ∀ service a, (s.makeShared serviceName).services service = some a →
      service = serviceName ∧ a = s.next ∨ s.services service = some a ∧ a < s.next := by
    intro service a h
    by_cases hs : service = serviceName
    · subst hs
      rw [makeShared_services] at h
      exact .inl ⟨rfl, (Option.some.inj h).symm⟩
    · have h : s.services service = some a := (Function.update_of_ne hs ..).symm.trans h
      exact .inr ⟨h, hi.lt service a h⟩
  refine ⟨fun service a h => ?_, fun service service' a h h' => ?_⟩
  · show a < s.next + 1
    rcases hcases service a h with ⟨-, rfl⟩ | ⟨-, hlt⟩
    · omega
    · omega
  · rcases hcases service a h with ⟨rfl, ha⟩ | ⟨hs, hlt⟩
    · rcases hcases service' a h' with ⟨rfl, -⟩ | ⟨-, hlt'⟩
      · rfl
      · omega
    · rcases hcases service' a h' with ⟨-, ha'⟩ | ⟨hs', -⟩
      · omega
      · exact hi.inj service service' a hs hs'

theorem le_makeShared (h : s.services serviceName = none) : s ≤ s.makeShared serviceName := by
  refine ⟨Finset.Subset.refl _, fun service a hs => ?_⟩
  have hne : service ≠ serviceName := by
    rintro rfl
    rw [h] at hs
    cases hs
  exact (Function.update_of_ne hne ..).trans hs

/-- The creation of a `ServiceChannel` is not seen. -/
theorem directory_makeShared (hi : s.Inv) (h : s.services serviceName = none) :
    (s.makeShared serviceName).directory = s.directory := by
  refine Directory.ext rfl (funext fun service => ?_)
  by_cases hs : service = serviceName
  · subst hs
    simp [directory, makeShared, h]
  · cases h' : s.services service with
    | none => simp [directory, makeShared, h', Function.update_of_ne hs]
    | some a =>
      have ha : a ≠ s.next := (hi.lt service a h').ne
      simp [directory, makeShared, h', Function.update_of_ne hs, Function.update_of_ne ha]

end Shared

/-! ## Linearization points -/

/-- The program has one linearization point, for the abstract manager. -/
abbrev HasLinPoint (k : Copy) (st : OpStatus ManagerOp ManagerRet) (p : Code) (s : Shared) : Prop :=
  LinPoint (Directory.exec k) Shared.directory Shared.Inv st p s

namespace Code

variable {k : Copy} {s : Shared} {a : Nat}

/-- `choose` on a `ServiceChannel` takes effect in its section. -/
theorem channelChoose_linPoint {serviceName : String} (h : s.services serviceName = some a) :
    HasLinPoint k (.called (.choose serviceName)) (channelChoose a) s := by
  refine .acquire (.act fun t hst hi => ?_)
  have ht := Shared.services_of_le hst h
  refine ⟨.done _ _, Shared.setChannel_inv hi _ _, Shared.le_setChannel t _ _, .of_eq ?_,
    .release (.release .ret)⟩
  rw [Shared.directory_setChannel hi ht, Directory.exec, Shared.directory_channel_of_some ht]

/-- `append` takes effect in its section, or when `Init` fails. -/
theorem append_linPoint {serviceInstance host : String} {env : Alloc}
    (hf : getServiceName serviceInstance ∈ s.followServices)
    (h : s.services (getServiceName serviceInstance) = some a) :
    HasLinPoint k (.called (.onServiceOnline serviceInstance host env)) (append k a host env) s := by
  refine .act fun t hst hi => ?_
  have ht := Shared.services_of_le hst h
  have hft : getServiceName serviceInstance ∈ t.directory.followServices := Shared.mem_of_le hst hf
  by_cases hret : env.ret = -1
  · rw [if_pos hret]
    refine ⟨.done _ _, hi, le_refl t, .of_eq ?_, .ret⟩
    rw [Directory.exec, Directory.handle_of_mem hft, Copy.append_eq, if_pos hret,
      Directory.set_self]
  · rw [if_neg hret]
    refine ⟨_, hi, le_refl t, .stutter _, .acquire (.act fun u htu hi => ?_)⟩
    have hu := Shared.services_of_le htu ht
    have hfu : getServiceName serviceInstance ∈ u.directory.followServices := Shared.mem_of_le htu hft
    refine ⟨.done _ _, Shared.setChannel_inv hi _ _, Shared.le_setChannel u _ _, .of_eq ?_,
      .release .ret⟩
    rw [Shared.directory_setChannel hi hu, Directory.exec, Directory.handle_of_mem hfu,
      Copy.append_eq, if_neg hret, Shared.directory_channel_of_some hu]

/-- `remove` takes effect in its section. -/
theorem remove_linPoint {serviceInstance host : String}
    (hf : getServiceName serviceInstance ∈ s.followServices)
    (h : s.services (getServiceName serviceInstance) = some a) :
    HasLinPoint k (.called (.onServiceOffline serviceInstance host)) (remove k a host) s := by
  refine .acquire (.act fun t hst hi => ?_)
  have ht := Shared.services_of_le hst h
  have hft : getServiceName serviceInstance ∈ t.directory.followServices := Shared.mem_of_le hst hf
  refine ⟨.done _ _, Shared.setChannel_inv hi _ _, Shared.le_setChannel t _ _, .of_eq ?_,
    .release .ret⟩
  rw [Shared.directory_setChannel hi ht, Directory.exec, Directory.handle_of_mem hft,
    Shared.directory_channel_of_some ht]

theorem declared_linPoint (service : String) :
    HasLinPoint k (.called (.declared service)) (declared service) s :=
  .acquire (.act fun t _ hi => ⟨.done _ _, Shared.insertFollow_inv hi service,
    Shared.le_insertFollow t service, .of_eq rfl, .release .ret⟩)

/-- `choose` takes effect in the section of the manager if the service has no `ServiceChannel`. -/
theorem choose_linPoint (serviceName : String) :
    HasLinPoint k (.called (.choose serviceName)) (choose serviceName) s := by
  refine .acquire (.act fun t _ hi => ?_)
  cases ht : t.services serviceName with
  | none =>
    have hnull : (t.directory.channel serviceName).choose =
        (.null, t.directory.channel serviceName) :=
      ServiceChannel.choose_nil (by rw [Shared.directory_channel_of_none ht]; rfl)
    refine ⟨.done _ _, hi, le_refl t, .of_eq ?_, .release .ret⟩
    rw [Directory.exec, hnull, Directory.set_self]
  | some a => exact ⟨_, hi, le_refl t, .stutter _, channelChoose_linPoint ht⟩

/-- A handler takes effect in the section of the manager if the service is not followed. -/
theorem onServiceOnline_linPoint (serviceInstance host : String) (env : Alloc) :
    HasLinPoint k (.called (.onServiceOnline serviceInstance host env))
      (onServiceOnline k serviceInstance host env) s := by
  refine .acquire (.act fun t _ hi => ?_)
  by_cases hf : getServiceName serviceInstance ∈ t.followServices
  · rw [if_neg (not_not.mpr hf)]
    cases ht : t.services (getServiceName serviceInstance) with
    | none =>
      refine ⟨_, Shared.makeShared_inv hi _, Shared.le_makeShared ht, ?_,
        .release (append_linPoint hf (t.makeShared_services _))⟩
      rw [Shared.directory_makeShared hi ht]
      exact .stutter _
    | some a => exact ⟨_, hi, le_refl t, .stutter _, .release (append_linPoint hf ht)⟩
  · rw [if_pos hf]
    refine ⟨.done _ _, hi, le_refl t, .of_eq ?_, .release .ret⟩
    rw [Directory.exec, Directory.handle_of_notMem hf]

/-- As `onServiceOnline`; also if the service has no `ServiceChannel`. -/
theorem onServiceOffline_linPoint (serviceInstance host : String) :
    HasLinPoint k (.called (.onServiceOffline serviceInstance host))
      (onServiceOffline k serviceInstance host) s := by
  refine .acquire (.act fun t _ hi => ?_)
  by_cases hf : getServiceName serviceInstance ∈ t.followServices
  · rw [if_neg (not_not.mpr hf)]
    cases ht : t.services (getServiceName serviceInstance) with
    | none =>
      have hnone : (t.directory.channel (getServiceName serviceInstance)).hosts host = none := by
        rw [Shared.directory_channel_of_none ht]
        rfl
      have hft : getServiceName serviceInstance ∈ t.directory.followServices := hf
      refine ⟨.done _ _, hi, le_refl t, .of_eq ?_, .release .ret⟩
      rw [Directory.exec, Directory.handle_of_mem hft, k.remove_notFound hnone, Directory.set_self]
    | some a => exact ⟨_, hi, le_refl t, .stutter _, .release (remove_linPoint hf ht)⟩
  · rw [if_pos hf]
    refine ⟨.done _ _, hi, le_refl t, .of_eq ?_, .release .ret⟩
    rw [Directory.exec, Directory.handle_of_notMem hf]

end Code

/-- Every method has a linearization point. -/
theorem ManagerOp.linPoint (k : Copy) (op : ManagerOp) (s : Shared) :
    HasLinPoint k (.called op) (op.code k) s := by
  cases op with
  | declared service => exact Code.declared_linPoint service
  | choose serviceName => exact Code.choose_linPoint serviceName
  | onServiceOnline serviceInstance host env =>
    exact Code.onServiceOnline_linPoint serviceInstance host env
  | onServiceOffline serviceInstance host => exact Code.onServiceOffline_linPoint serviceInstance host

/-- A run of threads from a new manager, any number of them, each with any calls, that ends when
every operation has returned. -/
structure ManagerHistory (k : Copy) where
  labels : List (ThreadLabel ManagerOp ManagerRet)
  state : ThreadState
  steps : (threadSys (ManagerOp.code k)).Steps (Config.init .new) labels state
  finished : ∀ t, state.thread t = none

/-- The calls and returns of the run. -/
def ManagerHistory.events {k : Copy} (h : ManagerHistory k) : List (HistEvent ManagerOp ManagerRet) :=
  h.labels.filterMap ThreadLabel.event

/-- **The manager is linearizable.** The operations of every run, in a total order that respects
real time, are a sequential run of a new `ServiceManager` in which every call has the same result,
and which ends with the same follow set and the same `ServiceChannel` of every service, where a
service without a `ServiceChannel` counts as one with a new one. -/
theorem ManagerHistory.linearizable {k : Copy} (h : ManagerHistory k) :
    ∃ m, Linearizable (ServiceManager.exec k) .new h.events m ∧
      m.directory = h.state.shared.directory := by
  have hlin := linearizable_of_linPoint (fun op s _ => ManagerOp.linPoint k op s) Shared.inv_new
    h.steps h.finished
  exact Linearizable.lift (π := ServiceManager.directory) (fun m op => m.exec_directory k op) hlin

end CharSystem
