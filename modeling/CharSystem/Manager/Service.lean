import CharSystem.Manager.Basic
import Mathlib.Data.List.Induction

/-!
# The services of a manager, one by one

Every call of a `ServiceManager` method is about one service (`ManagerOp.service`), and its effect
on the `ServiceChannel` of a service is a call of that `ServiceChannel` or nothing
(`ManagerOp.calls`). So the `ServiceChannel` of a service goes through a run of its own
(`ServiceManager.channel_run`), and what is proved of a `ServiceChannel` holds in a manager.

* `follow_step`: the follow set changes only by `declared`.
* `outputs_chosen_filter`: **services do not interfere**. The results of `choose(s)` in a run are
  those in the run without the calls about other services.
-/

namespace CharSystem

namespace ManagerOp

/-- The service that a call is about. -/
def service : ManagerOp → String
  | .declared service => service
  | .choose serviceName => serviceName
  | .onServiceOnline serviceInstance _ _ => getServiceName serviceInstance
  | .onServiceOffline serviceInstance _ => getServiceName serviceInstance

/-- The calls of the `ServiceChannel` of `s` that a call makes: a handler reaches it only if `s` is
followed at that time. -/
def calls (s : String) (m : ServiceManager) : ManagerOp → List ChannelOp
  | .declared _ => []
  | .choose serviceName => if serviceName = s then [.choose] else []
  | .onServiceOnline serviceInstance host env =>
    if getServiceName serviceInstance = s ∧ s ∈ m.followServices then [.append host env] else []
  | .onServiceOffline serviceInstance host =>
    if getServiceName serviceInstance = s ∧ s ∈ m.followServices then [.remove host] else []

/-- The results of `choose(s)` that a call gives. -/
def chosen (s : String) (m : ServiceManager) : ManagerOp → List ChooseResult
  | .choose serviceName => if serviceName = s then [(m.choose serviceName).1] else []
  | _ => []

theorem calls_of_ne {s : String} {m : ServiceManager} {op : ManagerOp} (h : op.service ≠ s) :
    op.calls s m = [] := by
  cases op with
  | declared service => rfl
  | choose service => exact if_neg h
  | onServiceOnline serviceInstance host env => exact if_neg fun hs => h hs.1
  | onServiceOffline serviceInstance host => exact if_neg fun hs => h hs.1

/-- The address of the channel that a call creates, if its `Init` succeeds. -/
def newPtr? : ManagerOp → Option Nat
  | .onServiceOnline _ _ env => if env.ret = -1 then none else some env.ptr
  | _ => none

/-- A call makes at most one call of the `ServiceChannel` of `s`, which creates the same channel. -/
theorem calls_cases (s : String) (m : ServiceManager) (op : ManagerOp) :
    op.calls s m = [] ∨ ∃ call, op.calls s m = [call] ∧ call.newPtr? = op.newPtr? := by
  cases op with
  | declared service => exact .inl rfl
  | choose service =>
    by_cases h : service = s
    · exact .inr ⟨_, if_pos h, rfl⟩
    · exact .inl (if_neg h)
  | onServiceOnline serviceInstance host env =>
    by_cases h : getServiceName serviceInstance = s ∧ s ∈ m.followServices
    · exact .inr ⟨_, if_pos h, rfl⟩
    · exact .inl (if_neg h)
  | onServiceOffline serviceInstance host =>
    by_cases h : getServiceName serviceInstance = s ∧ s ∈ m.followServices
    · exact .inr ⟨_, if_pos h, rfl⟩
    · exact .inl (if_neg h)

/-- A call reads only the follow set to decide which `ServiceChannel` it calls. -/
theorem calls_congr {s : String} {m m' : ServiceManager}
    (h : s ∈ m.followServices ↔ s ∈ m'.followServices) (op : ManagerOp) :
    op.calls s m = op.calls s m' := by
  cases op <;> simp only [calls, h]

end ManagerOp

namespace ServiceManager

variable (k : Copy) (m : ServiceManager)

theorem follow_step (op : ManagerOp) (s : String) :
    s ∈ (m.step k op).followServices ↔ op = .declared s ∨ s ∈ m.followServices := by
  have h : (m.step k op).followServices = (m.directory.exec k op).1.followServices :=
    congrArg Directory.followServices (m.step_directory k op)
  rw [h]
  cases op with
  | declared service => simp [Directory.exec, eq_comm]
  | choose service => simp [Directory.exec, Directory.set]
  | onServiceOnline serviceInstance host env =>
    simp only [Directory.exec, Directory.handle, reduceCtorEq, false_or]
    split <;> rfl
  | onServiceOffline serviceInstance host =>
    simp only [Directory.exec, Directory.handle, reduceCtorEq, false_or]
    split <;> rfl

/-- An event of a service reaches the `ServiceChannel` of that service only, and only if the service
is followed. -/
theorem channel_handle (d : Directory) (service s : String) (f : ServiceChannel → ServiceChannel) :
    (d.handle service f).channel s =
      if service = s ∧ s ∈ d.followServices then f (d.channel s) else d.channel s := by
  by_cases hf : service ∈ d.followServices
  · rw [Directory.handle_of_mem hf]
    by_cases hs : service = s
    · subst hs; simp [Directory.set, hf]
    · simp [Directory.set, hs, Function.update_of_ne (Ne.symm hs)]
  · rw [Directory.handle_of_notMem hf, if_neg]
    rintro ⟨rfl, h⟩
    exact hf h

/-- **What a call does to the `ServiceChannel` of `s`.** -/
theorem channel_step (op : ManagerOp) (s : String) :
    (m.step k op).channel s = run (ServiceChannel.step k) (m.channel s) (op.calls s m) := by
  have h : (m.step k op).channel = (m.directory.exec k op).1.channel :=
    congrArg Directory.channel (m.step_directory k op)
  rw [h]
  cases op with
  | declared service => rfl
  | choose service =>
    by_cases hs : service = s
    · subst hs
      simp [Directory.exec, Directory.set, ManagerOp.calls, ServiceChannel.step]
    · simp [Directory.exec, Directory.set, ManagerOp.calls, hs, Function.update_of_ne (Ne.symm hs)]
  | onServiceOnline serviceInstance host env =>
    refine (channel_handle m.directory _ s _).trans ?_
    by_cases hr : getServiceName serviceInstance = s ∧ s ∈ m.followServices
    · rw [ManagerOp.calls, if_pos hr]
      exact if_pos hr
    · rw [ManagerOp.calls, if_neg hr]
      exact if_neg hr
  | onServiceOffline serviceInstance host =>
    refine (channel_handle m.directory _ s _).trans ?_
    by_cases hr : getServiceName serviceInstance = s ∧ s ∈ m.followServices
    · rw [ManagerOp.calls, if_pos hr]
      exact if_pos hr
    · rw [ManagerOp.calls, if_neg hr]
      exact if_neg hr

/-- The calls that reach the `ServiceChannel` of `s` in a run. -/
def channelOps (s : String) (ops : List ManagerOp) : List ChannelOp :=
  outputs (ServiceManager.step k) (fun m op => op.calls s m) m ops

/-- **The `ServiceChannel` of a service in a run** goes through the calls that reach it. -/
theorem channel_run (s : String) (ops : List ManagerOp) :
    (run (step k) m ops).channel s = run (ServiceChannel.step k) (m.channel s) (m.channelOps k s ops) :=
  run_component (π := fun m => m.channel s) (fun m op => m.channel_step k op s) m ops

variable {k m}

/-- Calls about other services. -/
theorem channel_run_of_ne {s : String} {ops : List ManagerOp} (h : ∀ op ∈ ops, op.service ≠ s) :
    (run (step k) m ops).channel s = m.channel s := by
  induction ops generalizing m with
  | nil => rfl
  | cons op ops ih =>
    rw [run_cons, ih fun op' hop => h op' (List.mem_cons_of_mem op hop), channel_step,
      ManagerOp.calls_of_ne (h op List.mem_cons_self), run_nil]

/-- A fresh call of the manager is fresh for the `ServiceChannel` that it reaches. -/
theorem fresh_calls {op : ManagerOp} (h : op.Fresh m) (s : String) :
    Along (ServiceChannel.step k) ChannelOp.Fresh (m.channel s) (op.calls s m) := by
  cases op with
  | declared service => trivial
  | choose service =>
    simp only [ManagerOp.calls]
    split
    · exact ⟨trivial, trivial⟩
    · trivial
  | onServiceOnline serviceInstance host env =>
    simp only [ManagerOp.calls]
    split
    · rename_i hs
      exact ⟨by rw [← hs.1]; exact h, trivial⟩
    · trivial
  | onServiceOffline serviceInstance host =>
    simp only [ManagerOp.calls]
    split
    · exact ⟨trivial, trivial⟩
    · trivial

/-- The `ServiceChannel` of every service in a run is fresh. -/
theorem fresh_channelOps {ops : List ManagerOp} (h : Along (step k) ManagerOp.Fresh m ops)
    (s : String) :
    Along (ServiceChannel.step k) ChannelOp.Fresh (m.channel s) (m.channelOps k s ops) :=
  along_component (π := fun m => m.channel s) (fun m op => m.channel_step k op s)
    (fun _ _ h => fresh_calls h s) h

/-- A service that is not followed has no nodes. -/
theorem channel_of_notMem (ops : List ManagerOp) {s : String}
    (hs : s ∉ (run (step k) .new ops).followServices) :
    (run (step k) .new ops).channel s = .new s := by
  induction ops using List.reverseRecOn with
  | nil => rfl
  | append_singleton ops op ih =>
    rw [run_append, run_cons, run_nil] at hs ⊢
    rw [follow_step, not_or] at hs
    rw [channel_step, ih hs.2]
    cases op with
    | declared service => rfl
    | choose service =>
      simp only [ManagerOp.calls]
      split <;> rfl
    | onServiceOnline serviceInstance host env =>
      rw [ManagerOp.calls, if_neg fun h => hs.2 h.2]
      rfl
    | onServiceOffline serviceInstance host =>
      rw [ManagerOp.calls, if_neg fun h => hs.2 h.2]
      rfl

/-- A new `ServiceManager` that follows `services`. -/
def following (services : List String) : ServiceManager := services.foldl declared .new

theorem following_channel (services : List String) (s : String) :
    (following services).channel s = .new s := by
  have h : ∀ m : ServiceManager, (services.foldl declared m).channel s = m.channel s := by
    induction services with
    | nil => exact fun _ => rfl
    | cons service services ih => exact fun m => ih (m.declared service)
  exact h .new

theorem mem_following {services : List String} {s : String} :
    s ∈ (following services).followServices ↔ s ∈ services := by
  have h : ∀ m : ServiceManager, s ∈ (services.foldl declared m).followServices ↔
      s ∈ m.followServices ∨ s ∈ services := by
    induction services with
    | nil => exact fun m => by simp
    | cons service services ih =>
      intro m
      rw [List.foldl_cons, ih, declared, Finset.mem_insert, List.mem_cons, or_comm (a := s = service),
        or_assoc]
  exact (h .new).trans (by simp [new])

/-! ## Services do not interfere -/

/-- `choose` reads the `ServiceChannel` of its service. -/
theorem choose_fst (m : ServiceManager) (service : String) :
    (m.choose service).1 = (m.channel service).choose.1 :=
  (m.choose_directory service).2

/-- Two managers that a client of `s` cannot tell apart: the same `ServiceChannel` of `s`, and the
same answer to whether `s` is followed. -/
def Agree (s : String) (m m' : ServiceManager) : Prop :=
  m.channel s = m'.channel s ∧ (s ∈ m.followServices ↔ s ∈ m'.followServices)

theorem Agree.chosen_eq {s : String} {m m' : ServiceManager} (h : Agree s m m') (op : ManagerOp) :
    op.chosen s m = op.chosen s m' := by
  cases op with
  | choose service =>
    simp only [ManagerOp.chosen]
    split
    · rename_i hs
      subst hs
      rw [choose_fst, choose_fst, h.1]
    · rfl
  | _ => rfl

/-- A call about `s` on both sides. -/
theorem Agree.step {s : String} {m m' : ServiceManager} (h : Agree s m m') (op : ManagerOp) :
    Agree s (m.step k op) (m'.step k op) := by
  refine ⟨?_, by rw [follow_step, follow_step, h.2]⟩
  rw [channel_step, channel_step, h.1, ManagerOp.calls_congr h.2]

/-- A call about another service on one side. -/
theorem Agree.step_other {s : String} {m m' : ServiceManager} (h : Agree s m m') {op : ManagerOp}
    (hs : op.service ≠ s) : Agree s (m.step k op) m' := by
  refine ⟨by rw [channel_step, ManagerOp.calls_of_ne hs, run_nil, h.1], ?_⟩
  rw [follow_step, h.2, or_iff_right]
  rintro rfl
  exact hs rfl

/-! ## Fresh addresses -/

theorem holds_step {op : ManagerOp} {s : String} {c : Channelptr}
    (h : ((m.step k op).channel s).Holds c) :
    (m.channel s).Holds c ∨ op.newPtr? = some c.ptr := by
  rw [channel_step] at h
  rcases op.calls_cases s m with hc | ⟨call, hc, hp⟩
  · rw [hc] at h
    exact .inl h
  · rw [hc] at h
    rw [← hp]
    exact ServiceChannel.step_holds h

/-- Calls whose new channels have distinct addresses are fresh. -/
theorem fresh_of_nodup {ops : List ManagerOp} (hn : (ops.filterMap ManagerOp.newPtr?).Nodup)
    (hm : ∀ s c, (m.channel s).Holds c → c.ptr ∉ ops.filterMap ManagerOp.newPtr?) :
    Along (step k) ManagerOp.Fresh m ops := by
  have h := along_notHolds_of_nodup (step k)
    (fun m p => ∃ s c, (m.channel s).Holds c ∧ c.ptr = p) ManagerOp.newPtr?
    (fun m op p ⟨s, c, hc, hp⟩ => (holds_step hc).imp (fun h => ⟨s, c, h, hp⟩) fun h => by rw [h, hp])
    hn fun p ⟨s, c, hc, hp⟩ => hp ▸ hm s c hc
  refine h.imp fun m op _ hop => ?_
  cases op with
  | onServiceOnline serviceInstance host env =>
    exact fun hret c hc he => hop env.ptr (if_neg hret) ⟨_, c, hc, he⟩
  | _ => trivial

end ServiceManager

/-- A run whose new channels have distinct addresses. -/
def ManagerRun.ofNodup (k : Copy) (ops : List ManagerOp)
    (hn : (ops.filterMap ManagerOp.newPtr?).Nodup) : ManagerRun k where
  ops := ops
  fresh := ServiceManager.fresh_of_nodup hn fun s c hc => by
    rcases hc with hc | ⟨host, hc⟩
    · cases hc
    · cases hc

/-- **Services do not interfere.** Delete from a run all calls about services other than `s`: the
calls of `choose(s)` give the same results, and the run ends with the same `ServiceChannel` of `s`
and the same answer to whether `s` is followed. -/
theorem outputs_chosen_filter (k : Copy) (m : ServiceManager) (s : String) (ops : List ManagerOp) :
    outputs (ServiceManager.step k) (fun m op => op.chosen s m) m ops =
      outputs (ServiceManager.step k) (fun m op => op.chosen s m) m (ops.filter (·.service == s)) ∧
    (run (ServiceManager.step k) m ops).Agree s
      (run (ServiceManager.step k) m (ops.filter (·.service == s))) := by
  refine outputs_filter _ _ _ (fun m m' op h _ _ => ⟨h.step op, h.chosen_eq op⟩)
    (fun m m' op h _ ho => ?_) (along_of_forall (fun _ _ => trivial) m ops) ⟨rfl, Iff.rfl⟩
  have hs : op.service ≠ s := by simpa using ho
  refine ⟨h.step_other hs, ?_⟩
  cases op with
  | choose service => exact if_neg hs
  | _ => rfl

end CharSystem
