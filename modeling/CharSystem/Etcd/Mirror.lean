import CharSystem.Channel.Inv
import CharSystem.Etcd.Basic
import CharSystem.Manager.Service

/-!
# The manager as a mirror of the registry (`discovery.cc`)

`discovery.cc` binds `put_cb` to `onServiceOnline` and `del_cb` to `onServiceOffline`. The intent is
that the hosts of a followed service are the values of its registry entries (`Mirrors`). The
registry is keyed by instance and the manager by host, which breaks it in two ways: overwriting an
entry takes no host offline, and deleting one of several entries with the same host takes the host
offline.

* `MirrorState.step`: one change, and the notification of its event.
* `Mirrors.step_iff`: when one change keeps the mirror.
* `MirrorRun.always_mirrors_iff`: when a run keeps it.
* `movedInstance`: an instance that moves to another host.
-/

namespace CharSystem

/-- The registry and the manager. -/
structure MirrorState where
  reg : Registry
  manager : ServiceManager

/-- The `Discovery` of `discovery.cc`. `env` is for the `append` that a call makes. -/
def boundDiscovery (env : Alloc) : Discovery ServiceManager where
  putCb := some fun key value sm => (sm.onServiceOnline .etcdTest key value env).1
  delCb := some fun key value sm => (sm.onServiceOffline .etcdTest key value).1

/-- One change: if it commits, `callback` gets its event. -/
def MirrorState.step (w : MirrorState) (input : Change × Alloc) : MirrorState :=
  match input.1.event w.reg with
  | none => w
  | some ev =>
    { reg := input.1.apply w.reg
      manager := (boundDiscovery input.2).callback w.manager (.ofEvents [ev]) }

/-- The call that the event of a change makes. -/
def Change.calls (reg : Registry) (env : Alloc) : Change → List ManagerOp
  | .put key value => [.onServiceOnline key value env]
  | .delete key =>
    match reg key with
    | some prev => [.onServiceOffline key prev]
    | none => []

/-- Every `Init` succeeds, and `new` gives fresh addresses. -/
def MirrorState.Env (w : MirrorState) (input : Change × Alloc) : Prop :=
  input.2.ret ≠ -1 ∧ ∀ op ∈ input.1.calls w.reg input.2, op.Fresh w.manager

/-- The service `s` has an entry with the value `host`. -/
def Registered (reg : Registry) (s host : String) : Prop :=
  ∃ key, getServiceName key = s ∧ reg key = some host

/-- The service `s` has an entry with the value `host` under another key. -/
def Elsewhere (reg : Registry) (s key host : String) : Prop :=
  ∃ key', key' ≠ key ∧ getServiceName key' = s ∧ reg key' = some host

/-- The recorded hosts of `s` are the values of its registry entries. -/
def Mirrors (s : String) (w : MirrorState) : Prop :=
  ∀ host, ((w.manager.channel s).hosts host).isSome ↔ Registered w.reg s host

/-- The condition on a change: a host that leaves the entry of a key of `s` leaves the manager
exactly if no other entry of `s` has it. An overwritten host stays in the manager, a deleted one
leaves. -/
def KeepsHosts (s : String) (w : MirrorState) (input : Change × Alloc) : Prop :=
  getServiceName input.1.key = s → ∀ prev, w.reg input.1.key = some prev →
    match input.1 with
    | .put key value => prev ≠ value → Elsewhere w.reg s key prev
    | .delete key => ¬ Elsewhere w.reg s key prev

/-! ## One change -/

theorem getServiceName_call {c : Change} {reg : Registry} {env : Alloc} {op : ManagerOp}
    (h : op ∈ c.calls reg env) : op.service = getServiceName c.key := by
  cases c with
  | put key value =>
    rw [Change.calls, List.mem_singleton] at h
    subst h
    rfl
  | delete key =>
    simp only [Change.calls] at h
    split at h
    · rw [List.mem_singleton] at h
      subst h
      rfl
    · cases h

/-- A change updates the registry and makes its call. -/
theorem MirrorState.step_eq (w : MirrorState) (c : Change) (env : Alloc) :
    w.step (c, env) =
      ⟨c.apply w.reg, run (ServiceManager.step .etcdTest) w.manager (c.calls w.reg env)⟩ := by
  cases c with
  | put key value => rfl
  | delete key =>
    simp only [MirrorState.step, Change.event, Change.calls]
    cases hreg : w.reg key with
    | some prev => rfl
    | none =>
      have hsame : (Change.delete key).apply w.reg = w.reg := by
        rw [Change.apply, ← hreg, Function.update_eq_self]
      rw [hsame]
      rfl

theorem MirrorState.step_reg (w : MirrorState) (c : Change) (env : Alloc) :
    (w.step (c, env)).reg = c.apply w.reg :=
  congrArg MirrorState.reg (w.step_eq c env)

theorem MirrorState.step_manager (w : MirrorState) (c : Change) (env : Alloc) :
    (w.step (c, env)).manager =
      run (ServiceManager.step .etcdTest) w.manager (c.calls w.reg env) :=
  congrArg MirrorState.manager (w.step_eq c env)

section Registered

variable {reg : Registry} {s key host : String}

/-- An entry of `s` is under the key or under another one. -/
theorem registered_iff (hs : getServiceName key = s) :
    Registered reg s host ↔ reg key = some host ∨ Elsewhere reg s key host := by
  constructor
  · rintro ⟨key', hs', hreg⟩
    by_cases hk : key' = key
    · exact .inl (hk ▸ hreg)
    · exact .inr ⟨key', hk, hs', hreg⟩
  · rintro (hreg | ⟨key', -, hs', hreg⟩)
    · exact ⟨key, hs, hreg⟩
    · exact ⟨key', hs', hreg⟩

/-- A change of one key leaves the entries under the others. -/
theorem elsewhere_apply (c : Change) : Elsewhere (c.apply reg) s c.key host ↔ Elsewhere reg s c.key host := by
  refine exists_congr fun key' => and_congr_right fun hk => ?_
  rw [Change.apply_of_ne reg (Ne.symm hk)]

/-- A change of a key of another service. -/
theorem registered_apply_of_ne {c : Change} (hs : getServiceName c.key ≠ s) :
    Registered (c.apply reg) s host ↔ Registered reg s host := by
  refine exists_congr fun key' => and_congr_right fun hs' => ?_
  rw [Change.apply_of_ne reg]
  rintro rfl
  exact hs hs'

end Registered

/-- What the results assume of the manager: `s` is followed, and its `ServiceChannel` has the
representation invariant. -/
structure MirrorState.Follows (s : String) (w : MirrorState) : Prop where
  mem : s ∈ w.manager.followServices
  inv : (w.manager.channel s).RepInv

namespace MirrorState

variable {s : String} {w : MirrorState}

theorem Follows.step (h : Follows s w) {input : Change × Alloc} (henv : w.Env input) :
    Follows s (w.step input) := by
  obtain ⟨c, env⟩ := input
  rw [step_eq]
  have hf : Along (ServiceManager.step .etcdTest) ManagerOp.Fresh w.manager (c.calls w.reg env) := by
    have hmem := henv.2
    cases c with
    | put key value => exact ⟨hmem _ List.mem_cons_self, trivial⟩
    | delete key =>
      simp only [Change.calls]
      split
      · exact ⟨trivial, trivial⟩
      · trivial
  refine ⟨?_, ?_⟩
  · exact hf.invariant (I := fun m => s ∈ m.followServices)
      (fun m op hm _ => (m.follow_step .etcdTest op s).mpr (.inr hm)) h.mem
  · rw [ServiceManager.channel_run]
    exact repInv_run h.inv (ServiceManager.fresh_channelOps hf s)

/-- A put of a key of `s` records its host. -/
theorem Follows.put_hosts (h : Follows s w) {key value : String} {env : Alloc}
    (hs : getServiceName key = s) (hret : env.ret ≠ -1) (host : String) :
    (((w.step (.put key value, env)).manager.channel s).hosts host).isSome ↔
      value = host ∨ ((w.manager.channel s).hosts host).isSome := by
  have hcall : ManagerOp.calls s w.manager (.onServiceOnline key value env) = [.append value env] :=
    if_pos ⟨hs, h.mem⟩
  rw [step_manager, Change.calls, run_cons, run_nil, ServiceManager.channel_step, hcall, run_cons, run_nil,
    h.inv.step_hosts]
  by_cases hv : value = host
  · simp [ChannelOp.effect, hret, hv]
  · simp [ChannelOp.effect, hv]

/-- A delete of a key of `s` removes its host. -/
theorem Follows.delete_hosts (h : Follows s w) {key prev : String} {env : Alloc}
    (hs : getServiceName key = s) (hprev : w.reg key = some prev) (host : String) :
    (((w.step (.delete key, env)).manager.channel s).hosts host).isSome ↔
      prev ≠ host ∧ ((w.manager.channel s).hosts host).isSome := by
  have hcall : ManagerOp.calls s w.manager (.onServiceOffline key prev) = [.remove prev] :=
    if_pos ⟨hs, h.mem⟩
  have hcalls : (Change.delete key).calls w.reg env = [.onServiceOffline key prev] := by
    simp [Change.calls, hprev]
  rw [step_manager, hcalls, run_cons, run_nil, ServiceManager.channel_step, hcall, run_cons, run_nil,
    h.inv.step_hosts]
  simp [ChannelOp.effect]

/-- A channel held after a change was held before it, or is the new one. -/
theorem holds_step {input : Change × Alloc} {c : Channelptr}
    (h : ((w.step input).manager.channel s).Holds c) :
    (w.manager.channel s).Holds c ∨ input.2.ptr = c.ptr := by
  obtain ⟨change, env⟩ := input
  rw [step_manager] at h
  cases change with
  | put key value =>
    refine (ServiceManager.holds_step h).imp_right fun he => ?_
    simp only [ManagerOp.newPtr?] at he
    split at he
    · cases he
    · exact Option.some.inj he
  | delete key =>
    simp only [Change.calls] at h
    split at h
    · exact (ServiceManager.holds_step h).imp_right fun he => by cases he
    · exact .inl h

end MirrorState

namespace Mirrors

variable {s : String} {w : MirrorState} {key : String} {env : Alloc}

/-- A put of a key of `s` keeps the mirror if the host that it overwrites is in another entry. -/
theorem put_iff (h : Mirrors s w) (hf : w.Follows s) {value : String} (hk : getServiceName key = s)
    (hret : env.ret ≠ -1) : Mirrors s (w.step (.put key value, env)) ↔
      ∀ prev, w.reg key = some prev → prev ≠ value → Elsewhere w.reg s key prev := by
  have hnew : ∀ host, (((w.step (.put key value, env)).manager.channel s).hosts host).isSome ↔
      value = host ∨ w.reg key = some host ∨ Elsewhere w.reg s key host := fun host => by
    rw [hf.put_hosts hk hret, h host, registered_iff hk]
  have hput : ∀ host, Registered (w.step (.put key value, env)).reg s host ↔
      value = host ∨ Elsewhere w.reg s key host := fun host => by
    have hsh : Elsewhere ((Change.put key value).apply w.reg) s key host ↔ Elsewhere w.reg s key host :=
      elsewhere_apply (.put key value)
    rw [MirrorState.step_reg, registered_iff hk, Change.apply_self_put, Option.some.injEq]
    exact or_congr_right hsh
  constructor
  · intro hm prev hprev hne
    have hp := (hput prev).mp ((hm prev).mp ((hnew prev).mpr (.inr (.inl hprev))))
    exact hp.resolve_left fun he => hne he.symm
  · intro hok host
    rw [hnew, hput]
    constructor
    · rintro (he | hprev | hsh)
      · exact .inl he
      · by_cases he : host = value
        · exact .inl he.symm
        · exact .inr (hok host hprev he)
      · exact .inr hsh
    · exact Or.imp_right .inr

/-- A delete of a key of `s` keeps the mirror if the host of its entry is in no other entry. -/
theorem delete_iff (h : Mirrors s w) (hf : w.Follows s) (hk : getServiceName key = s) :
    Mirrors s (w.step (.delete key, env)) ↔
      ∀ prev, w.reg key = some prev → ¬ Elsewhere w.reg s key prev := by
  cases hprev : w.reg key with
  | none =>
    -- The delete commits nothing.
    have hsame : w.step (.delete key, env) = w := by
      simp [MirrorState.step, Change.event, hprev]
    exact iff_of_true (by rwa [hsame]) fun prev he => by cases he
  | some prev =>
    have hnew : ∀ host, (((w.step (.delete key, env)).manager.channel s).hosts host).isSome ↔
        prev ≠ host ∧ (prev = host ∨ Elsewhere w.reg s key host) := fun host => by
      rw [hf.delete_hosts hk hprev, h host, registered_iff hk, hprev, Option.some.injEq]
    have hdel : ∀ host, Registered (w.step (.delete key, env)).reg s host ↔
        Elsewhere w.reg s key host := fun host => by
      have hsh : Elsewhere ((Change.delete key).apply w.reg) s key host ↔ Elsewhere w.reg s key host :=
        elsewhere_apply (.delete key)
      rw [MirrorState.step_reg, registered_iff hk, Change.apply_self_delete]
      exact (or_iff_right (by simp)).trans hsh
    constructor
    · intro hm prev' hprev' hsh
      obtain rfl : prev = prev' := Option.some.inj hprev'
      exact ((hnew prev).mp ((hm prev).mpr ((hdel prev).mpr hsh))).1 rfl
    · intro hok host
      have hn : ¬ Elsewhere w.reg s key prev := hok prev rfl
      rw [hnew, hdel]
      constructor
      · rintro ⟨hne, he | hsh⟩
        · exact absurd he hne
        · exact hsh
      · intro hsh
        exact ⟨fun he => hn (he ▸ hsh), .inr hsh⟩

/-- **One change** keeps the mirror of `s` exactly when it meets `KeepsHosts`. -/
theorem step_iff (h : Mirrors s w) (hf : w.Follows s) {input : Change × Alloc} (henv : w.Env input) :
    Mirrors s (w.step input) ↔ KeepsHosts s w input := by
  obtain ⟨c, env⟩ := input
  by_cases hs : getServiceName c.key = s
  · cases c with
    | put key value =>
      exact (h.put_iff hf hs henv.1).trans ⟨fun hok _ => hok, fun hok => hok hs⟩
    | delete key =>
      exact (h.delete_iff hf hs).trans ⟨fun hok _ => hok, fun hok => hok hs⟩
  · -- A change of a key of another service.
    refine iff_of_true (fun host => ?_) fun hs' => absurd hs' hs
    rw [MirrorState.step_reg, registered_apply_of_ne hs, MirrorState.step_manager,
      ServiceManager.channel_run_of_ne fun op hop => by rwa [getServiceName_call hop]]
    exact h host

end Mirrors

/-- A run from an empty registry, with a manager that follows `services`, `s` among them. -/
structure MirrorRun (s : String) where
  services : List String
  followed : s ∈ services
  inputs : List (Change × Alloc)
  env : Along MirrorState.step MirrorState.Env ⟨fun _ => none, .following services⟩ inputs

/-- Changes whose `append`s succeed and get distinct addresses. -/
theorem env_of_nodup {services : List String} {inputs : List (Change × Alloc)}
    (hret : ∀ input ∈ inputs, input.2.ret ≠ -1) (hn : (inputs.map (·.2.ptr)).Nodup) :
    Along MirrorState.step MirrorState.Env ⟨fun _ => none, .following services⟩ inputs := by
  refine (along_notHolds_of_nodup MirrorState.step
    (fun w p => ∃ s c, (w.manager.channel s).Holds c ∧ c.ptr = p) (fun input => some input.2.ptr)
    ?_ (by simpa using hn) ?_).imp ?_
  · rintro w input p ⟨s, c, hc, rfl⟩
    exact (MirrorState.holds_step hc).imp (fun h => ⟨s, c, h, rfl⟩) fun h => by rw [h]
  · rintro p ⟨s, c, hc, -⟩
    rw [ServiceManager.following_channel] at hc
    rcases hc with hc | ⟨host, hc⟩
    · cases hc
    · cases hc
  · rintro w ⟨c, env⟩ hmem hnew
    refine ⟨hret _ hmem, fun op hop => ?_⟩
    cases c with
    | put key value =>
      rw [Change.calls, List.mem_singleton] at hop
      subst hop
      exact fun _ c hc he => hnew env.ptr rfl ⟨_, c, hc, he⟩
    | delete key =>
      simp only [Change.calls] at hop
      split at hop
      · rw [List.mem_singleton] at hop
        subst hop
        trivial
      · cases hop

/-- The state before the first change. -/
def MirrorRun.start {s : String} (r : MirrorRun s) : MirrorState :=
  ⟨fun _ => none, .following r.services⟩

/-- **When the manager mirrors the registry.** After every prefix of a run the recorded hosts of `s`
are the values of its registry entries, exactly when every overwritten host is in another entry of
`s` and no deleted one is. -/
theorem MirrorRun.always_mirrors_iff {s : String} (r : MirrorRun s) :
    Always MirrorState.step (Mirrors s) r.start r.inputs ↔
      Along MirrorState.step (KeepsHosts s) r.start r.inputs := by
  have hf : r.start.Follows s :=
    ⟨ServiceManager.mem_following.mpr r.followed, by
      rw [start, ServiceManager.following_channel]; exact .new s⟩
  refine always_iff_along (fun _ _ hi henv _ => hi.step henv)
    (fun _ _ hi henv h => h.step_iff hi henv) r.env hf fun host => ?_
  rw [start, ServiceManager.following_channel]
  refine iff_of_false (by simp [ServiceChannel.new]) ?_
  rintro ⟨key, -, he⟩
  cases he

/-- An instance registers again with another host. -/
def movedInstance : MirrorRun "/service/echo" where
  services := ["/service/echo"]
  followed := by decide
  inputs :=
    [(.put "/service/echo/instance_1" "127.0.0.1:8080", ⟨1, 0⟩),
      (.put "/service/echo/instance_1" "127.0.0.1:8081", ⟨2, 0⟩)]
  env := env_of_nodup (by decide) (by decide)

/-- After `movedInstance` the manager still has the old host. -/
theorem not_always_mirrors : ¬ ∀ (s : String) (r : MirrorRun s),
    Always MirrorState.step (Mirrors s) r.start r.inputs := by
  intro h
  have hm := h "/service/echo" movedInstance movedInstance.inputs (List.prefix_refl _)
  obtain ⟨key, -, hkey⟩ := (hm "127.0.0.1:8080").mp (by decide)
  have hreg : (run MirrorState.step movedInstance.start movedInstance.inputs).reg =
      Function.update (Function.update (fun _ => none) "/service/echo/instance_1"
        (some "127.0.0.1:8080")) "/service/echo/instance_1" (some "127.0.0.1:8081") := rfl
  rw [hreg] at hkey
  by_cases hk : key = "/service/echo/instance_1"
  · rw [hk, Function.update_self] at hkey
    revert hkey
    decide
  · rw [Function.update_of_ne hk, Function.update_of_ne hk] at hkey
    cases hkey

end CharSystem
