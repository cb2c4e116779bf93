import CharSystem.Manager.Basic

/-!
# Failed calls (`channel.hpp`)

A call of a `ServiceManager` that takes one of its failure branches (`ManagerOp.Fails`) is not seen
by any later call. Most of these branches leave the state as it was; an `onServiceOnline` whose
`Init` fails leaves an empty `ServiceChannel` for a service that had none. Two managers with the
same `Directory` cannot be told apart, and the directory has an empty `ServiceChannel` for both.
-/

namespace CharSystem

/-- The call takes a failure branch: a handler for a service that is not followed; `onServiceOnline`
with an `Init` that fails; `onServiceOffline` without a `ServiceChannel`, or for a host that is not
recorded; `choose` of a service without a `ServiceChannel`, or without nodes. -/
def ManagerOp.Fails (m : ServiceManager) : ManagerOp → Prop
  | .declared _ => False
  | .choose serviceName => ∀ sc, m.services serviceName = some sc → sc.rotatingArray = []
  | .onServiceOnline serviceInstance _ env =>
    getServiceName serviceInstance ∉ m.followServices ∨ env.ret = -1
  | .onServiceOffline serviceInstance host =>
    getServiceName serviceInstance ∉ m.followServices ∨
      ∀ sc, m.services (getServiceName serviceInstance) = some sc → sc.hosts host = none

namespace ServiceManager

variable {k : Copy} {m m' : ServiceManager}

/-- What a sequence of calls returns. -/
def returns (k : Copy) (m : ServiceManager) (ops : List ManagerOp) : List ManagerRet :=
  outputs (step k) (fun m op => [(m.exec k op).2]) m ops

/-- No sequence of calls tells the managers apart. -/
def ObsEq (k : Copy) (m m' : ServiceManager) : Prop := ∀ ops, m.returns k ops = m'.returns k ops

/-- The returns are those of the abstract manager. -/
theorem returns_directory (m : ServiceManager) (ops : List ManagerOp) :
    m.returns k ops =
      outputs (fun d op => (d.exec k op).1) (fun d op => [(d.exec k op).2]) m.directory ops := by
  refine outputs_refines (fun m op => m.step_directory k op) (fun m op => ?_) m ops
  rw [← exec_directory]

theorem obsEq_of_directory (h : m.directory = m'.directory) : ObsEq k m m' := by
  intro ops
  rw [returns_directory, returns_directory, h]

/-- An absent `ServiceChannel` has no nodes. -/
theorem channel_of_forall {P : ServiceChannel → Prop} {service : String} (hnew : P (.new service))
    (h : ∀ sc, m.services service = some sc → P sc) : P (m.channel service) := by
  cases hs : m.services service with
  | none => rwa [channel_of_none hs]
  | some sc =>
    rw [channel_of_some hs]
    exact h sc hs

/-- **A failed call** leaves the abstract manager as it was. -/
theorem step_directory_of_fails {op : ManagerOp} (h : op.Fails m) :
    (m.step k op).directory = m.directory := by
  rw [step_directory]
  cases op with
  | declared service => cases h
  | choose service =>
    have harray : (m.channel service).rotatingArray = [] :=
      channel_of_forall (P := fun sc => sc.rotatingArray = []) rfl h
    simp only [Directory.exec, directory_channel, ServiceChannel.choose_nil harray]
    exact m.directory.set_self service
  | onServiceOnline serviceInstance host env =>
    simp only [Directory.exec]
    by_cases hf : getServiceName serviceInstance ∈ m.directory.followServices
    · have hret : env.ret = -1 := h.resolve_left (not_not.mpr hf)
      rw [Directory.handle_of_mem hf, Copy.append_eq, if_pos hret, Directory.set_self]
    · exact Directory.handle_of_notMem hf _
  | onServiceOffline serviceInstance host =>
    simp only [Directory.exec]
    by_cases hf : getServiceName serviceInstance ∈ m.directory.followServices
    · have hhost : (m.channel (getServiceName serviceInstance)).hosts host = none :=
        channel_of_forall (P := fun sc => sc.hosts host = none) rfl
          (h.resolve_left (not_not.mpr hf))
      rw [Directory.handle_of_mem hf, directory_channel, k.remove_notFound hhost,
        ← directory_channel, Directory.set_self]
    · exact Directory.handle_of_notMem hf _

end ServiceManager

/-- **Failed calls are invisible.** In every state that a run reaches, a call that takes a failure
branch leaves a state that no later sequence of calls can tell from it. -/
theorem ManagerRun.obsEq_of_fails {k : Copy} (r : ManagerRun k) {op : ManagerOp}
    (h : op.Fails r.state) : r.state.ObsEq k (r.state.step k op) :=
  ServiceManager.obsEq_of_directory (ServiceManager.step_directory_of_fails h).symm

/-- The first node of a declared service, not yet online. -/
def declaredOnly : ManagerRun .etcdTest := .mk [.declared "/service/echo"] ⟨trivial, trivial⟩

/-- Its `Init` fails, and leaves an empty `ServiceChannel`. -/
theorem obsEq_of_fails_declaredOnly : declaredOnly.state.ObsEq .etcdTest
    (declaredOnly.state.step .etcdTest
      (.onServiceOnline "/service/echo/instance_1" "127.0.0.1:8080" ⟨1, -1⟩)) :=
  declaredOnly.obsEq_of_fails (.inr rfl)

end CharSystem
