import CharSystem.Channel.Rotation
import CharSystem.Etcd.Matches

/-!
# From the registry to `choose` (`discovery.cc`)

The whole path: the commits of the providers, the registry, the `Discovery` of a client, its
`ServiceManager`, `choose`. Steps come in any order (`DeployStep`). An instance's host is its own
(`OwnHosts`), and the `Discovery` has missed no change when it creates its `Watcher`
(`SyncedDeployment.synced`; `StartRun.mirrors_iff` is about the changes that it misses).

* `SyncedDeployment.hosts_eq_earlier`: at any time the recorded hosts are those registered at an
  earlier commit, and when the events are delivered, those registered now.
* `SyncedDeployment.choose_registered`: then `choose` with its cursor in range gives a registered
  host, if no instance is put again while its entry is there (`Anew`).
* `SyncedDeployment.chooses_count`: and it gives all of them equally often.
-/

namespace CharSystem

/-- What a step is for the registry and the `Discovery`. -/
def DeployLabel.start : DeployLabel → List StartLabel
  | .commit c => [.commit c]
  | .discovery l _ => [l]
  | _ => []

/-- The commits of the steps. -/
def deployCommits (ls : List DeployLabel) : List Change := commits (ls.flatMap DeployLabel.start)

/-- `key` has been put with `value`. -/
def Puts (reg : Registry) (ls : List DeployLabel) (key value : String) : Prop :=
  reg key = some value ∨ .commit (.put key value) ∈ ls

section Steps

variable {baseDir : String} {d d' : Deployment} {l : DeployLabel} {ls : List DeployLabel}
  {P : String → String → Prop} {reg : Registry} {services : List String}

theorem DeployStep.start_steps (h : DeployStep baseDir d l d') (hl : l ≠ .lsFailed) :
    (startSys baseDir).Steps d.start l.start d'.start := by
  cases h with
  | commit hst => exact .snoc (.nil _) hst
  | discovery hc hst => exact .snoc (.nil _) hst
  | lsFailed hp => exact absurd rfl hl
  | choose => exact .nil _

/-- `ls` comes before the creation of the `Watcher`. -/
theorem DeployStep.ne_lsFailed (h : DeployStep baseDir d l d') (hd : d.start.phase.Watching) :
    l ≠ .lsFailed := by
  rintro rfl
  cases h with
  | lsFailed hp => rw [hp] at hd; cases hd

theorem deployCommits_concat (ls : List DeployLabel) (l : DeployLabel) :
    deployCommits (ls ++ [l]) = deployCommits ls ++ commits l.start := by
  unfold deployCommits
  rw [List.flatMap_append, commits_append, List.flatMap_singleton]

/-- **How far the `Discovery` lags**, in a run from the creation of the `Watcher`. -/
theorem lag_deploy (h : (deploySys baseDir).Steps d ls d') (hd : d.start.phase = .watching []) :
    Lag baseDir d.start (deployCommits ls) d'.start := by
  refine h.invariant (I := fun ls t => Lag baseDir d.start (deployCommits ls) t.start)
    ⟨rfl, [], [], rfl, (List.append_nil _).symm, hd⟩ fun ls t l u ht hst => ?_
  have hl : l ≠ .lsFailed := by
    refine DeployStep.ne_lsFailed hst ?_
    obtain ⟨seen, queued, -, -, hp⟩ := ht.cut
    rw [hp]
    trivial
  rw [deployCommits_concat]
  exact ht.steps (DeployStep.start_steps hst hl)

/-- What the manager records is what the calls amount to. -/
structure Deployment.Inv (P : String → String → Prop) (services : List String) (d : Deployment) :
    Prop where
  within : d.start.Within P
  follows : d.manager.Follows P services (view d.start.calls)

/-- The calls of a step of the `Discovery` are within the pairs. -/
theorem within_calls {s : StartState} {calls calls' : List Call} (h : s.Within P)
    (hc : s.calls = calls ++ calls') : ∀ c ∈ calls', P c.key c.host := fun c hm =>
  h.calls c (List.mem_append_left _ (hc ▸ List.mem_append_right _ hm))

/-- **One step** and the recorded hosts. -/
theorem Deployment.Inv.step (h : d.Inv P services) (own : ∀ s ∈ services, OwnHosts P s)
    (hs : DeployStep baseDir d l d') (hP : ∀ key value, l = .commit (.put key value) → P key value) :
    d'.Inv P services := by
  obtain ⟨hwithin, hfollows⟩ := h
  cases hs with
  | @commit c s hst =>
    refine ⟨hst.within hwithin fun key value he => hP key value ?_, ?_⟩
    · rw [StartLabel.commit.inj he]
    · rw [show s.calls = d.start.calls from hst.commit_calls]
      exact hfollows
  | lsFailed hp =>
    refine ⟨⟨hwithin.reg, fun c hm => hwithin.calls c ?_⟩, hfollows⟩
    simpa [StartState.eventual, hp, StartPhase.pending] using hm
  | @discovery sl s calls envs hc hst hcalls hlen henvs hf =>
    have hw : s.Within P := hst.within hwithin fun key value he => by
      subst he
      cases hc
    refine ⟨hw, ?_⟩
    rw [hcalls, view_append]
    exact (hfollows.run own hlen (within_calls hw hcalls) henvs hf).1
  | choose => exact ⟨hwithin, hfollows.choose _⟩

/-- The manager has one channel of each recorded host, and every put is new. -/
structure Deployment.Served (baseDir : String) (d : Deployment) : Prop where
  synced : d.start.Synced baseDir
  one : d.manager.OnePerHost

/-- What the calls of a step of the `Discovery` do to the manager. -/
theorem Deployment.Inv.onePerHost (h : d.Inv P services) (own : ∀ s ∈ services, OwnHosts P s)
    (hone : d.manager.OnePerHost) {s : StartState} (hw : s.Within P) (honce : s.Once)
    {calls : List Call} {envs : List Alloc} (hcalls : s.calls = d.start.calls ++ calls)
    (hlen : envs.length = calls.length) (henvs : ∀ env ∈ envs, env.ret ≠ -1)
    (hf : Along (ServiceManager.step .etcdTest) ManagerOp.Fresh d.manager (managerOps calls envs)) :
    (run (ServiceManager.step .etcdTest) d.manager (managerOps calls envs)).OnePerHost := by
  refine (h.follows.run own hlen (within_calls hw hcalls) henvs hf).2 hone ?_
  unfold StartState.Once StartState.eventual at honce
  rw [hcalls, List.append_assoc, along_append, along_append] at honce
  exact honce.2.1

/-- **One step** and the channels of the manager. -/
theorem Deployment.Served.step (h : d.Served baseDir) (hi : d.Inv P services)
    (own : ∀ s ∈ services, OwnHosts P s) (hs : DeployStep baseDir d l d')
    (hl : ∀ envs, l ≠ .discovery .watch envs)
    (hput : d.start.phase.Watching → ∀ key value, l = .commit (.put key value) →
      d.start.reg key = none)
    (hP : ∀ key value, l = .commit (.put key value) → P key value) : d'.Served baseDir := by
  have hi' := hi.step own hs hP
  cases hs with
  | commit hst =>
    refine ⟨hst.synced h.synced nofun fun hw key value he => hput hw key value ?_, h.one⟩
    rw [StartLabel.commit.inj he]
  | lsFailed hp =>
    refine ⟨⟨?_, fun hn => (by cases hn), fun hw => hw.elim⟩, h.one⟩
    have honce := h.synced.once
    unfold StartState.Once StartState.eventual at honce ⊢
    rwa [hp] at honce
  | @discovery sl s calls envs hc hst hcalls hlen henvs hf =>
    have hsynced : s.Synced baseDir :=
      hst.synced h.synced (fun he => hl envs (by rw [he])) fun _ key value he => by
        subst he
        cases hc
    exact ⟨hsynced, hi.onePerHost own h.one hi'.within hsynced.once hcalls hlen henvs hf⟩
  | choose =>
    exact ⟨h.synced, (h.one.step_iff hi.follows.rep _).mpr trivial⟩

/-- **At the creation of the `Watcher`.** -/
theorem Deployment.Served.watch {envs : List Alloc} (h : d.Served baseDir) (hi : d.Inv P services)
    (own : ∀ s ∈ services, OwnHosts P s) (hs : DeployStep baseDir d (.discovery .watch envs) d')
    (hview : view d'.start.calls = d'.start.reg.under baseDir) : d'.Served baseDir := by
  have hi' := hi.step own hs nofun
  cases hs with
  | discovery hc hst hcalls hlen henvs hf =>
    have hsynced := hst.synced_watch h.synced hview
    exact ⟨hsynced, hi.onePerHost own h.one hi'.within hsynced.once hcalls hlen henvs hf⟩

/-- A `Discovery` that has its `Watcher` keeps it. -/
theorem DeployStep.watching (h : DeployStep baseDir d l d') (hd : d.start.phase.Watching) :
    d'.start.phase.Watching :=
  (h.start_steps (h.ne_lsFailed hd)).invariant (I := fun _ t => t.phase.Watching) hd
    fun _ _ _ _ ht hst => (StartStep.watching hst ht).1

theorem DeployStep.watch_phase {envs : List Alloc}
    (h : DeployStep baseDir d (.discovery .watch envs) d') : d'.start.phase = .watching [] := by
  cases h with
  | discovery _ hst => exact hst.watch_phase

/-- A `Discovery` creates one `Watcher`. -/
theorem DeployStep.not_watch {envs : List Alloc} (h : DeployStep baseDir d (.discovery .watch envs) d') :
    ¬ d.start.phase.Watching := by
  cases h with
  | discovery _ hst =>
    rw [hst.watch_eventual.1]
    exact id

theorem inv_steps (h : (deploySys baseDir).Steps d ls d') (hd : d.Inv P services)
    (own : ∀ s ∈ services, OwnHosts P s)
    (hP : ∀ key value, .commit (.put key value) ∈ ls → P key value) : d'.Inv P services := by
  refine h.invariant (I := fun ls t =>
    (∀ key value, .commit (.put key value) ∈ ls → P key value) → t.Inv P services)
    (fun _ => hd) (fun ls t l u ht hst hl => ?_) hP
  refine (ht fun key value hm => hl key value (List.mem_append_left _ hm)).step own hst ?_
  rintro key value rfl
  exact hl key value (by simp)

theorem Deployment.Inv.init (hreg : ∀ key value, reg key = some value → P key value)
    (services : List String) : (Deployment.init reg services).Inv P services where
  within := ⟨hreg, fun _ h => by cases h⟩
  follows := by
    have hch : ∀ s, (Deployment.init reg services).manager.channel s = .new s :=
      ServiceManager.following_channel services
    refine ⟨fun s => ServiceManager.mem_following, fun s => ?_, fun _ _ h => (by cases h), fun s _ host => ?_⟩
    · rw [hch]
      exact .new s
    · rw [hch]
      exact iff_of_false nofun fun ⟨_, _, h⟩ => by cases h

theorem Deployment.Served.init (reg : Registry) (services : List String) :
    (Deployment.init reg services).Served baseDir where
  synced := ⟨trivial, fun _ => rfl, fun h => h.elim⟩
  one s := by
    rw [show (Deployment.init reg services).manager.channel s = .new s from
      ServiceManager.following_channel services s]
    exact .new s

end Steps

/-! ## The results of `choose` -/

/-- The host of the channel that `choose` gives. -/
def ChooseResult.host? : ChooseResult → Option String
  | .channel c => some c.addr
  | _ => none

namespace ServiceChannel

variable {sc : ServiceChannel}

/-- `choose` with its cursor in range gives the channel of a recorded host, or null when no host is
recorded. -/
theorem OnePerHost.choose_cases (h : sc.OnePerHost)
    (hcursor : sc.rotatingArray ≠ [] → sc.rotationCount < sc.rotatingArray.length) :
    (∃ c, sc.choose.1 = .channel c ∧ (sc.hosts c.addr).isSome) ∨
      sc.choose.1 = .null ∧ ∀ host, sc.hosts host = none := by
  by_cases hnil : sc.rotatingArray = []
  · refine .inr ⟨by rw [choose_nil hnil], fun host => ?_⟩
    have hlen := h host
    by_contra hne
    rw [if_pos (Option.isSome_iff_ne_none.mpr hne)] at hlen
    simp [channelsOf, hnil] at hlen
  · obtain ⟨-, c, hc, hchoose⟩ := chooseInRange_iff.mpr hcursor hnil
    exact .inl ⟨c, hchoose, h.isSome hc⟩

/-- Full turns give every recorded host equally often. -/
theorem OnePerHost.count_chooses (h : sc.OnePerHost) (hi : sc.RepInv)
    (hcursor : sc.rotatingArray ≠ [] → sc.rotationCount < sc.rotatingArray.length)
    {hosts : List String} (hn : hosts.Nodup)
    (hmem : ∀ host, host ∈ hosts ↔ (sc.hosts host).isSome) (k : Nat) :
    ∀ host ∈ hosts, ((sc.chooses (k * hosts.length)).map ChooseResult.host?).count
      (some host) = k := by
  intro host hhost
  have hperm := h.perm hn hmem
  have hlen : sc.rotatingArray.length = hosts.length := by simpa using hperm.length_eq
  have hne : sc.rotatingArray ≠ [] :=
    List.ne_nil_of_length_pos (hlen ▸ List.length_pos_of_mem hhost)
  have hturns := (chooses_mul hi (hcursor hne) k).1
  rw [hlen] at hturns
  -- One turn gives every recorded host once.
  have hone : ((sc.rotatingArray.rotate sc.rotationCount).map fun c => some c.addr).count
      (some host) = 1 := by
    have hmap : (sc.rotatingArray.rotate sc.rotationCount).map (fun c => some c.addr) =
        ((sc.rotatingArray.rotate sc.rotationCount).map (·.addr)).map some := by
      rw [List.map_map]
      rfl
    have hrot : ((sc.rotatingArray.rotate sc.rotationCount).map (·.addr)).Perm hosts :=
      ((List.rotate_perm _ _).map _).trans hperm
    rw [hmap, List.count_map_of_injective _ _ (Option.some_injective _), hrot.count_eq]
    exact List.count_eq_one_of_mem hn hhost
  rw [hturns, List.map_flatten, List.map_replicate, List.map_map, List.count_flatten,
    List.map_replicate, List.sum_replicate_nat]
  exact (congrArg (k * ·) hone).trans (Nat.mul_one k)

end ServiceChannel

namespace ServiceManager

/-- The results of the next `n` calls of `choose(service)`. -/
def chooses (m : ServiceManager) (service : String) : Nat → List ChooseResult
  | 0 => []
  | n + 1 => (m.choose service).1 :: (m.choose service).2.chooses service n

theorem chooses_eq (m : ServiceManager) (s : String) (n : Nat) :
    m.chooses s n = (m.channel s).chooses n := by
  induction n generalizing m with
  | zero => rfl
  | succ n ih =>
    have hch : (m.choose s).2.channel s = (m.channel s).choose.2 := by
      have h := m.channel_step .etcdTest (.choose s) s
      rwa [ManagerOp.calls, if_pos rfl] at h
    rw [chooses, ServiceChannel.chooses, choose_fst, ih, hch]

end ServiceManager

/-- A run of the registry and a client that follows `services`, whose calls amount to the content
under `base_dir` when the `Watcher` is created, and whose instances have their own hosts. -/
structure SyncedDeployment (baseDir : String) where
  reg : Registry
  services : List String
  before : List DeployLabel
  after : List DeployLabel
  atWatch : Deployment
  state : Deployment
  start : (deploySys baseDir).Steps (.init reg services) (before ++ [.discovery .watch []]) atWatch
  synced : view atWatch.start.calls = atWatch.start.reg.under baseDir
  steps : (deploySys baseDir).Steps atWatch after state
  own : ∀ s ∈ services, OwnHosts (Puts reg (before ++ [.discovery .watch []] ++ after)) s

namespace SyncedDeployment

variable {baseDir : String} (r : SyncedDeployment baseDir)

/-- The steps of the run. -/
def labels : List DeployLabel := r.before ++ [.discovery .watch []] ++ r.after

/-- An instance of the service `s` that the `Discovery` selects is registered with `host`. -/
def Serves (s host : String) : Prop := Registered (r.state.start.reg.under baseDir) s host

/-- After the creation of the `Watcher`, no instance is put while its entry is there. -/
def Anew : Prop := ∀ as bs key value, r.after = as ++ .commit (.put key value) :: bs →
  run Change.apply r.atWatch.start.reg (deployCommits as) key = none

theorem whole : (deploySys baseDir).Steps (.init r.reg r.services) r.labels r.state :=
  r.start.append r.steps

theorem atWatch_phase : r.atWatch.start.phase = .watching [] := by
  obtain ⟨t, -, hw⟩ := r.start.snoc_inv
  exact DeployStep.watch_phase hw

theorem inv : r.state.Inv (Puts r.reg r.labels) r.services :=
  inv_steps r.whole (.init (fun _ _ => .inl) r.services) r.own fun _ _ => .inr

/-- **The recorded hosts lag behind the registry, and nothing else.** At any time, whatever is still
queued, the hosts that the manager records for a followed service are those that the registry had
after some of the commits, the oldest first. When the events are delivered, they are the hosts of the
instances that are registered. -/
theorem hosts_eq_earlier :
    (∃ seen queued, deployCommits r.after = seen ++ queued ∧ ∀ s ∈ r.services,
      r.state.manager.Matches s
        ((run Change.apply r.atWatch.start.reg seen).under baseDir)) ∧
    (r.state.start.phase = .watching [] → ∀ s ∈ r.services, ∀ host,
      ((r.state.manager.channel s).hosts host).isSome ↔ r.Serves s host) := by
  have hhosts := r.inv.follows.hosts
  have hlag := lag_deploy r.steps r.atWatch_phase
  refine ⟨?_, fun hempty s hs host => ?_⟩
  · obtain ⟨seen, queued, hc, hview, -⟩ := hlag.view_eq r.synced
    exact ⟨seen, queued, hc, fun s hs => hview ▸ hhosts s hs⟩
  · rw [hhosts s hs host, hlag.view_of_empty r.synced hempty]
    rfl

/-! ## What `choose` gives -/

variable {r}

/-- Before the creation of the `Watcher`. -/
theorem served_before {reg : Registry} {services : List String} {ls : List DeployLabel}
    {d : Deployment} {P : String → String → Prop}
    (h : (deploySys baseDir).Steps (.init reg services) ls d) (own : ∀ s ∈ services, OwnHosts P s)
    (hreg : ∀ key value, reg key = some value → P key value)
    (hP : ∀ key value, .commit (.put key value) ∈ ls → P key value) :
    d.start.phase.Watching ∨ d.Served baseDir := by
  refine (h.invariant (I := fun ls t => (∀ key value, .commit (.put key value) ∈ ls → P key value) →
    t.Inv P services ∧ (t.start.phase.Watching ∨ t.Served baseDir))
    (fun _ => ⟨.init hreg services, .inr (.init reg services)⟩)
    (fun ls t l u ht hst hl => ?_) hP).2
  obtain ⟨hi, ht⟩ := ht fun key value hm => hl key value (List.mem_append_left _ hm)
  have hPl : ∀ key value, l = .commit (.put key value) → P key value := by
    rintro key value rfl
    exact hl key value (by simp)
  refine ⟨hi.step own hst hPl, ?_⟩
  by_cases hw : t.start.phase.Watching
  · exact .inl (DeployStep.watching hst hw)
  · by_cases he : ∃ envs, l = .discovery .watch envs
    · obtain ⟨envs, rfl⟩ := he
      left
      rw [DeployStep.watch_phase hst]
      trivial
    · exact .inr ((ht.resolve_left hw).step hi own hst (fun envs h => he ⟨envs, h⟩)
        (fun h => absurd h hw) hPl)

theorem served_atWatch :
    r.atWatch.Served baseDir ∧ r.atWatch.Inv (Puts r.reg r.labels) r.services := by
  obtain ⟨t, ht, hw⟩ := r.start.snoc_inv
  have hP : ∀ key value, .commit (.put key value) ∈ r.before → Puts r.reg r.labels key value :=
    fun key value hm => .inr (List.mem_append_left _ (List.mem_append_left _ hm))
  have hi : t.Inv (Puts r.reg r.labels) r.services :=
    inv_steps ht (.init (fun _ _ => .inl) r.services) r.own hP
  have hserved := (served_before ht r.own (fun _ _ => .inl) hP).resolve_left (DeployStep.not_watch hw)
  exact ⟨hserved.watch hi r.own hw r.synced, hi.step r.own hw nofun⟩

/-- **One channel of each recorded host**, at any time. -/
theorem served (h : r.Anew) : r.state.Served baseDir := by
  obtain ⟨h0, hi0⟩ := r.served_atWatch
  have hw0 : r.atWatch.start.phase.Watching := by
    rw [r.atWatch_phase]
    trivial
  -- The invariant for a start `ls` of the steps after the creation of the `Watcher`.
  refine (r.steps.invariant (I := fun ls t => ls <+: r.after →
    t.Served baseDir ∧ t.Inv (Puts r.reg r.labels) r.services ∧ t.start.phase.Watching ∧
      t.start.reg = run Change.apply r.atWatch.start.reg (deployCommits ls))
    (fun _ => ⟨h0, hi0, hw0, rfl⟩) (fun ls t l u ht hst hl => ?_) (List.prefix_refl _)).1
  obtain ⟨hserved, hi, hw, hreg⟩ := ht ((List.prefix_append ls [l]).trans hl)
  have hP : ∀ key value, l = .commit (.put key value) → Puts r.reg r.labels key value := by
    rintro key value rfl
    exact .inr (List.mem_append_right _ (hl.subset (by simp)))
  refine ⟨hserved.step hi r.own hst (fun envs he => ?_) (fun _ key value he => ?_) hP,
    hi.step r.own hst hP, DeployStep.watching hst hw, ?_⟩
  · subst he
    exact DeployStep.not_watch hst hw
  · subst he
    obtain ⟨bs, hbs⟩ := hl
    rw [hreg]
    exact h ls bs key value (by rw [← hbs]; simp)
  · rw [deployCommits_concat, run_append, ← hreg]
    exact reg_steps (DeployStep.start_steps hst (DeployStep.ne_lsFailed hst hw))

/-- Two providers register after the client has created its `Watcher`. -/
def twoProviders : SyncedDeployment "/service/echo" where
  reg := fun _ => none
  services := ["/service/echo"]
  before := [.discovery .ls []]
  after := [.commit (.put "/service/echo/a" "10.0.0.1:80"),
    .commit (.put "/service/echo/b" "10.0.0.2:80"), .discovery .deliver [⟨1, 0⟩, ⟨2, 0⟩]]
  atWatch := { Deployment.init (fun _ => none) ["/service/echo"] with
    start := ⟨fun _ => none, .watching [], []⟩ }
  state :=
    { start :=
        { reg := run Change.apply (fun _ => none)
            [.put "/service/echo/a" "10.0.0.1:80", .put "/service/echo/b" "10.0.0.2:80"]
          phase := .watching []
          calls := [.put "/service/echo/a" "10.0.0.1:80", .put "/service/echo/b" "10.0.0.2:80"] }
      manager := run (ServiceManager.step .etcdTest) (.following ["/service/echo"])
        [.onServiceOnline "/service/echo/a" "10.0.0.1:80" ⟨1, 0⟩,
          .onServiceOnline "/service/echo/b" "10.0.0.2:80" ⟨2, 0⟩] }
  start := by
    have hl : Lists (fun _ => none) "/service/echo" [] :=
      ⟨List.nodup_nil, fun key value => by simp [Registry.under]⟩
    exact .snoc (.snoc (.nil _) (DeployStep.discovery rfl (StartStep.ls rfl hl) rfl rfl nofun trivial))
      (DeployStep.discovery rfl (StartStep.watch rfl) rfl rfl nofun trivial)
  synced := by
    funext key
    simp [Registry.under, view]
  steps := by
    have hfresh : Along (ServiceManager.step .etcdTest) ManagerOp.Fresh (.following ["/service/echo"])
        [.onServiceOnline "/service/echo/a" "10.0.0.1:80" ⟨1, 0⟩,
          .onServiceOnline "/service/echo/b" "10.0.0.2:80" ⟨2, 0⟩] :=
      ServiceManager.fresh_of_nodup (by decide) fun s c hc => by
        rw [ServiceManager.following_channel] at hc
        rcases hc with hc | ⟨host, hc⟩
        · cases hc
        · cases hc
    have henvs : ∀ env ∈ [(⟨1, 0⟩ : Alloc), ⟨2, 0⟩], env.ret ≠ -1 := by decide
    refine .snoc (.snoc (.snoc (.nil _) (DeployStep.commit (StartStep.commit rfl)))
      (DeployStep.commit (StartStep.commit rfl))) ?_
    exact @DeployStep.discovery _ _ _ _ [.put "/service/echo/a" "10.0.0.1:80",
      .put "/service/echo/b" "10.0.0.2:80"] _ rfl (@StartStep.deliver _ _
        [⟨.PUT, ⟨"/service/echo/a", "10.0.0.1:80"⟩, ⟨"", ""⟩⟩,
          ⟨.PUT, ⟨"/service/echo/b", "10.0.0.2:80"⟩, ⟨"", ""⟩⟩] [] rfl) rfl rfl henvs hfresh
  own s hs := by
    rintro key value key' value' (h | h) (h' | h') - -
    · cases h
    · cases h
    · cases h'
    · simp only [List.cons_append, List.nil_append, List.mem_cons, List.not_mem_nil, reduceCtorEq,
        DeployLabel.commit.injEq, Change.put.injEq, false_or, or_false] at h h'
      obtain ⟨rfl, rfl⟩ | ⟨rfl, rfl⟩ := h <;> obtain ⟨rfl, rfl⟩ | ⟨rfl, rfl⟩ := h' <;> decide

theorem anew_twoProviders : twoProviders.Anew := by
  rintro (_ | ⟨_, _ | ⟨_, _ | ⟨_, as⟩⟩⟩) bs key value h
  · cases h
    rfl
  · cases h
    decide
  · cases h
  · simp [twoProviders] at h

/-- The hosts of the two providers. -/
theorem serves_twoProviders (host : String) :
    host ∈ ["10.0.0.1:80", "10.0.0.2:80"] ↔ twoProviders.Serves "/service/echo" host := by
  constructor
  · rintro h
    rcases List.mem_cons.mp h with rfl | h
    · exact ⟨"/service/echo/a", by decide, by decide⟩
    · obtain rfl := List.mem_singleton.mp h
      exact ⟨"/service/echo/b", by decide, by decide⟩
  · rintro ⟨key, -, hk⟩
    have hreg : twoProviders.state.start.reg key = some host := by
      unfold Registry.under at hk
      split at hk
      · exact hk
      · cases hk
    rcases twoProviders.inv.within.reg key host hreg with h | h
    · cases h
    · simp only [labels, twoProviders, List.cons_append, List.nil_append, List.mem_cons,
        List.not_mem_nil, reduceCtorEq, DeployLabel.commit.injEq, Change.put.injEq, false_or,
        or_false] at h
      obtain ⟨-, rfl⟩ | ⟨-, rfl⟩ := h <;> decide

/-- **`choose` gives registered hosts.** When the events are delivered, and no instance was put again
while its entry was there, `choose` of a followed service with its cursor in range gives the channel
of a registered host, or null when no host is registered. -/
theorem choose_registered (h : r.Anew) (hempty : r.state.start.phase = .watching []) {s : String}
    (hs : s ∈ r.services) (hcursor : (r.state.manager.channel s).rotatingArray ≠ [] →
      (r.state.manager.channel s).rotationCount < (r.state.manager.channel s).rotatingArray.length) :
    (∃ c, (r.state.manager.choose s).1 = .channel c ∧ r.Serves s c.addr) ∨
      (r.state.manager.choose s).1 = .null ∧ ∀ host, ¬ r.Serves s host := by
  have hhosts := r.hosts_eq_earlier.2 hempty s hs
  rw [ServiceManager.choose_fst]
  rcases ((served h).one s).choose_cases hcursor with ⟨c, hc, hsome⟩ | ⟨hnull, hnone⟩
  · exact .inl ⟨c, hc, (hhosts c.addr).mp hsome⟩
  · refine .inr ⟨hnull, fun host hserves => ?_⟩
    have hsome := (hhosts host).mpr hserves
    rw [hnone] at hsome
    cases hsome

theorem choose_registered_twoProviders :
    (∃ c, (twoProviders.state.manager.choose "/service/echo").1 = .channel c ∧
        twoProviders.Serves "/service/echo" c.addr) ∨
      (twoProviders.state.manager.choose "/service/echo").1 = .null ∧
        ∀ host, ¬ twoProviders.Serves "/service/echo" host :=
  choose_registered anew_twoProviders rfl (List.mem_singleton_self _) (by decide +kernel)

/-- **`choose` gives the registered hosts equally often.** In the same situation the next `k` times as
many calls as there are hosts give every host exactly `k` times. -/
theorem chooses_count (h : r.Anew) (hempty : r.state.start.phase = .watching []) {s : String}
    (hs : s ∈ r.services) (hcursor : (r.state.manager.channel s).rotatingArray ≠ [] →
      (r.state.manager.channel s).rotationCount < (r.state.manager.channel s).rotatingArray.length)
    {hosts : List String} (hn : hosts.Nodup) (hmem : ∀ host, host ∈ hosts ↔ r.Serves s host)
    (k : Nat) : ∀ host ∈ hosts, ((r.state.manager.chooses s (k * hosts.length)).map
      ChooseResult.host?).count (some host) = k := by
  intro host hhost
  have hhosts := r.hosts_eq_earlier.2 hempty s hs
  rw [ServiceManager.chooses_eq]
  exact ((served h).one s).count_chooses (r.inv.follows.rep s) hcursor hn
    (fun host' => (hmem host').trans (hhosts host').symm) k host hhost

theorem chooses_count_twoProviders :
    ((twoProviders.state.manager.chooses "/service/echo" (3 * 2)).map
      ChooseResult.host?).count (some "10.0.0.1:80") = 3 :=
  chooses_count anew_twoProviders rfl (List.mem_singleton_self _) (by decide +kernel)
    (show ["10.0.0.1:80", "10.0.0.2:80"].Nodup by decide) serves_twoProviders 3 _
    List.mem_cons_self

end SyncedDeployment

end CharSystem
