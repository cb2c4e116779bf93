import CharSystem.Manager.Service

/-!
# Where a registry event goes

* `ServiceManager.RoutedTo`: what a handler that acts for a service does, and leaves.
* `RoutesTo k key s`: both handlers of the copy `k` act for `s` on an event of `key`, in every
  state.
* `serviceName_routes`: an instance that registered under `s/id` is handled for `s`, and every key
  is handled for exactly one service.
-/

namespace CharSystem

/-- A handler gave `r` in the state `m`, and acted for the service `s`: it read whether `s` is
followed, and then `f` happened to the `ServiceChannel` of `s`, and nothing to another service. -/
structure ServiceManager.RoutedTo (m : ServiceManager) (s : String)
    (f : ServiceChannel → ServiceChannel) (r : ServiceManager × HandlerExit) : Prop where
  exit : r.2 = .notFollowed ↔ s ∉ m.followServices
  channel : r.1.channel s = if s ∈ m.followServices then f (m.channel s) else m.channel s
  others : ∀ s', s' ≠ s → r.1.services s' = m.services s'
  followServices : r.1.followServices = m.followServices

/-- The handlers act for `s` on an event of `key`. -/
def RoutesTo (k : Copy) (key s : String) : Prop :=
  ∀ (m : ServiceManager) (host : String) (env : Alloc),
    m.RoutedTo s (k.append · host env) (m.onServiceOnline k key host env) ∧
    m.RoutedTo s (fun sc => (k.remove sc host).1) (m.onServiceOffline k key host)

namespace ServiceManager

variable (k : Copy) (m : ServiceManager) (key host : String)

/-- What a handler does to the `ServiceChannel` of its service. -/
theorem channel_of_handle {r : ServiceManager} {s : String} {f : ServiceChannel → ServiceChannel}
    (h : r.directory = m.directory.handle s f) :
    r.channel s = if s ∈ m.followServices then f (m.channel s) else m.channel s := by
  have hc : r.channel = (m.directory.handle s f).channel := congrArg Directory.channel h
  rw [hc, channel_handle]
  simp only [true_and, directory_followServices, directory_channel]

theorem onServiceOnline_routedTo (env : Alloc) :
    m.RoutedTo (getServiceName key) (k.append · host env) (m.onServiceOnline k key host env) where
  exit := m.onServiceOnline_notFollowed k key host env
  channel := m.channel_of_handle (m.onServiceOnline_directory k key host env)
  others s' hs := by
    by_cases hf : getServiceName key ∈ m.followServices
    · simp [onServiceOnline, hf, Function.update_of_ne hs]
    · simp [onServiceOnline, hf]
  followServices := by
    by_cases hf : getServiceName key ∈ m.followServices
    · simp [onServiceOnline, hf]
    · simp [onServiceOnline, hf]

theorem onServiceOffline_routedTo :
    m.RoutedTo (getServiceName key) (fun sc => (k.remove sc host).1)
      (m.onServiceOffline k key host) where
  exit := m.onServiceOffline_notFollowed k key host
  channel := m.channel_of_handle (m.onServiceOffline_directory k key host)
  others s' hs := by
    by_cases hf : getServiceName key ∈ m.followServices
    · cases hc : m.services (getServiceName key) with
      | none => simp [onServiceOffline, hf, hc]
      | some sc => simp [onServiceOffline, hf, hc, Function.update_of_ne hs]
    · simp [onServiceOffline, hf]
  followServices := by
    by_cases hf : getServiceName key ∈ m.followServices
    · cases hc : m.services (getServiceName key) with
      | none => simp [onServiceOffline, hf, hc]
      | some sc => simp [onServiceOffline, hf, hc]
    · simp [onServiceOffline, hf]

end ServiceManager

theorem routesTo_getServiceName (k : Copy) (key : String) : RoutesTo k key (getServiceName key) :=
  fun m host env =>
    ⟨m.onServiceOnline_routedTo k key host env, m.onServiceOffline_routedTo k key host⟩

/-- No other service: a client that declared only `s` tells it from `s'`. -/
theorem RoutesTo.unique {k : Copy} {key s s' : String} (h : RoutesTo k key s)
    (h' : RoutesTo k key s') : s' = s := by
  have hs := (h (ServiceManager.new.declared s) "" ⟨0, 0⟩).1.exit
  have hs' := (h' (ServiceManager.new.declared s) "" ⟨0, 0⟩).1.exit
  have hiff := not_iff_not.mp (hs.symm.trans hs')
  have hmem := hiff.mp (Finset.mem_insert_self s _)
  simpa [ServiceManager.declared, ServiceManager.new] using hmem

/-- **Keys and services.** The service name of a registered key is the one that it was registered
under, every key splits in one way, and both handlers act for the service name of a key and for no
other service. -/
theorem serviceName_routes :
    (∀ s id, '/' ∉ id.toList → getServiceName (instanceKey s id) = s ∧
      ∀ k, RoutesTo k (instanceKey s id) s) ∧
    (∀ key, '/' ∉ key.toList ∧ getServiceName key = key ∨
      (∃! id, key = instanceKey (getServiceName key) id) ∧
        ∀ id, key = instanceKey (getServiceName key) id → '/' ∉ id.toList) ∧
    ∀ k key, ∃! s, RoutesTo k key s := by
  refine ⟨fun s id hid => ?_, getServiceName_splits, fun k key => ?_⟩
  · have hname : getServiceName (instanceKey s id) = s := getServiceName_instanceKey hid
    refine ⟨hname, fun k => ?_⟩
    have hroutes := routesTo_getServiceName k (instanceKey s id)
    rwa [hname] at hroutes
  · exact ⟨_, routesTo_getServiceName k key, fun s hs => (routesTo_getServiceName k key).unique hs⟩

end CharSystem
