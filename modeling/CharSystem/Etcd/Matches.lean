import CharSystem.Channel.Host
import CharSystem.Etcd.Client
import CharSystem.Manager.Live

/-!
# The calls of a `Discovery` and the recorded hosts (`discovery.cc`)

A `Discovery` is bound to a `ServiceManager`. Of the calls of its callbacks and of the hosts that the
manager records:

* `StartState.Within`: every call is about a key and a host that were put.
* `StartState.Once`: a put is for a key without an entry in the map that the calls before it amount
  to. `StartStep.synced` is when a step keeps it.
* `ServiceManager.Matches`: the recorded hosts of a service are the values of its keys in a map. Where
  an instance's host is its own (`OwnHosts`), every call keeps it.
* `ServiceManager.Follows.run`: a manager after the calls of a response.
-/

namespace CharSystem

/-- The key of a call. -/
def Call.key : Call → String
  | .put key _ => key
  | .del key _ => key

/-- The host of a call. -/
def Call.host : Call → String
  | .put _ value => value
  | .del _ value => value

/-- Every entry, and every call made or to come, is about a pair of a key and a host in `P`. -/
structure StartState.Within (P : String → String → Prop) (s : StartState) : Prop where
  reg : ∀ key value, s.reg key = some value → P key value
  calls : ∀ c ∈ s.eventual, P c.key c.host

/-- A put is for a key without an entry. -/
def Call.New (content : Registry) : Call → Prop
  | .put key _ => content key = none
  | .del _ _ => True

/-- Every put of the calls made or to come is for a key without an entry. -/
def StartState.Once (s : StartState) : Prop :=
  Along Call.apply Call.New (fun _ => none) s.eventual

section Calls

variable {baseDir : String} {P : String → String → Prop} {s t : StartState} {l : StartLabel}

/-- Only `ls` and commits add to the calls made or to come. -/
theorem StartStep.eventual_eq (h : StartStep baseDir s l t) (hc : commits [l] = []) (hl : l ≠ .ls) :
    t.eventual = s.eventual := by
  cases h with
  | commit _ => cases hc
  | ls _ _ => exact absurd rfl hl
  | @replay v rest hp =>
    simp [StartState.eventual, hp, StartPhase.pending, Value.calls, recorder, Discovery.put]
  | watch hp => simp [StartState.eventual, hp, StartPhase.pending]
  | @deliver events queue hp =>
    unfold StartState.eventual
    rw [hp]
    simp only [StartPhase.pending]
    rw [recorder_callback, List.flatMap_append, List.append_assoc]

/-- A commit adds the calls of its event, or nothing. -/
theorem StartStep.commit_eventual {c : Change} (h : StartStep baseDir s (.commit c) t) :
    t.eventual = s.eventual ∨ s.phase.Watching ∧ selects baseDir c.key = true ∧
      ∃ ev, c.event s.reg = some ev ∧ t.eventual = s.eventual ++ ev.calls := by
  cases h with
  | @commit c ev he =>
    unfold StartState.eventual
    cases hp : s.phase with
    | beforeLs => exact .inl rfl
    | replay rest => exact .inl rfl
    | watching queue =>
      simp only [StartPhase.notify]
      split
      · rename_i hsel
        refine .inr ⟨trivial, c.event_key he ▸ hsel, ev, he, ?_⟩
        simp [StartPhase.pending]
      · exact .inl rfl

/-- `ls` adds the calls of the replay. -/
theorem StartStep.ls_eventual (h : StartStep baseDir s .ls t) : s.phase = .beforeLs ∧
    ∃ values, Lists s.reg baseDir values ∧ t.eventual = s.eventual ++ values.flatMap Value.calls := by
  cases h with
  | @ls values hp hl =>
    refine ⟨hp, values, hl, ?_⟩
    simp [StartState.eventual, hp, StartPhase.pending]

/-- The call of the event of a change. -/
theorem event_calls {reg : Registry} {c : Change} {ev : Event} (h : c.event reg = some ev) :
    (∃ key value, c = .put key value ∧ ev.calls = [.put key value]) ∨
      ∃ key value, c = .delete key ∧ reg key = some value ∧ ev.calls = [.del key value] := by
  unfold Event.calls
  rcases c.onEvent_event recorder [] h with ⟨value, hc, he⟩ | ⟨prev, hc, hreg, he⟩
  · exact .inl ⟨_, value, hc, he⟩
  · exact .inr ⟨_, prev, hc, hreg, he⟩

/-- Only the creation of the `Watcher` starts the watch. -/
theorem StartStep.watching_of (h : StartStep baseDir s l t) (hl : l ≠ .watch)
    (ht : t.phase.Watching) : s.phase.Watching := by
  cases h with
  | commit _ =>
    cases hp : s.phase with
    | watching queue => trivial
    | _ =>
      rw [hp] at ht
      exact ht
  | watch hp => exact absurd rfl hl
  | deliver hp =>
    rw [hp]
    trivial
  | _ => cases ht

/-- **A step stays within the pairs** that are put. -/
theorem StartStep.within (h : StartStep baseDir s l t) (hs : s.Within P)
    (hput : ∀ key value, l = .commit (.put key value) → P key value) : t.Within P := by
  cases l with
  | commit c =>
    constructor
    · intro key value hk
      rw [h.reg_eq] at hk
      cases c with
      | put k v =>
        by_cases hkey : key = k
        · subst hkey
          simp only [commits, List.filterMap_cons, List.filterMap_nil, run_cons, run_nil, Change.apply,
            Function.update_self, Option.some.injEq] at hk
          exact hk ▸ hput key v rfl
        · exact hs.reg key value (by simpa [commits, Change.apply, hkey] using hk)
      | delete k =>
        by_cases hkey : key = k
        · subst hkey
          simp [commits, Change.apply] at hk
        · exact hs.reg key value (by simpa [commits, Change.apply, hkey] using hk)
    · intro call hc
      rcases h.commit_eventual with he | ⟨-, -, ev, hev, he⟩
      · exact hs.calls call (he ▸ hc)
      · rw [he, List.mem_append] at hc
        refine hc.elim (hs.calls call) fun hc => ?_
        rcases event_calls hev with ⟨key, value, rfl, hcalls⟩ | ⟨key, value, rfl, hreg, hcalls⟩
        · rw [hcalls] at hc
          obtain rfl := List.mem_singleton.mp hc
          exact hput key value rfl
        · rw [hcalls] at hc
          obtain rfl := List.mem_singleton.mp hc
          exact hs.reg key value hreg
  | ls =>
    obtain ⟨-, values, hl, he⟩ := h.ls_eventual
    refine ⟨fun key value hk => hs.reg key value (by rwa [h.reg_eq] at hk), fun call hc => ?_⟩
    rw [he, List.mem_append] at hc
    refine hc.elim (hs.calls call) fun hc => ?_
    obtain ⟨v, hv, hc⟩ := List.mem_flatMap.mp hc
    obtain rfl := List.mem_singleton.mp hc
    refine hs.reg v.key v.asString ?_
    have hunder := (hl.mem_iff v.key v.asString).mp hv
    unfold Registry.under at hunder
    split at hunder
    · exact hunder
    · cases hunder
  | _ =>
    refine ⟨fun key value hk => hs.reg key value (by rwa [h.reg_eq] at hk), fun call hc => ?_⟩
    rw [h.eventual_eq rfl (by simp)] at hc
    exact hs.calls call hc

/-- The replay of a listing puts every key once. -/
theorem along_new_values {values : List Value} (hn : (values.map (·.key)).Nodup) {m : Registry}
    (hm : ∀ v ∈ values, m v.key = none) :
    Along Call.apply Call.New m (values.flatMap Value.calls) := by
  induction values generalizing m with
  | nil => trivial
  | cons v values ih =>
    rw [List.map_cons, List.nodup_cons] at hn
    rw [List.flatMap_cons]
    refine along_cons.mpr ⟨hm v List.mem_cons_self, ih hn.2 fun w hw => ?_⟩
    have hne : w.key ≠ v.key := fun he => hn.1 (he ▸ List.mem_map_of_mem hw)
    exact (Function.update_of_ne hne _ _).trans (hm w (List.mem_cons_of_mem v hw))

/-- What is kept until a key with an entry is put again: every put is new, and what the `Watcher`
has seen is the content. -/
structure StartState.Synced (baseDir : String) (s : StartState) : Prop where
  once : s.Once
  calls : s.phase = .beforeLs → s.calls = []
  view : s.phase.Watching → CharSystem.view s.eventual = s.reg.under baseDir

/-- **A step keeps puts new** if a commit puts a key without an entry. -/
theorem StartStep.synced (h : StartStep baseDir s l t) (hs : s.Synced baseDir) (hl : l ≠ .watch)
    (hput : s.phase.Watching → ∀ key value, l = .commit (.put key value) → s.reg key = none) :
    t.Synced baseDir where
  once := by
    have honce := hs.once
    unfold StartState.Once at honce ⊢
    cases l with
    | commit c =>
      rcases h.commit_eventual with he | ⟨hw, hsel, ev, hev, he⟩
      · rwa [he]
      · rw [he, along_append]
        refine ⟨honce, ?_⟩
        change Along Call.apply Call.New (CharSystem.view s.eventual) ev.calls
        rcases event_calls hev with ⟨key, value, rfl, hc⟩ | ⟨key, value, rfl, -, hc⟩
        · rw [hc, hs.view hw]
          exact along_cons.mpr ⟨(if_pos hsel).trans (hput hw key value rfl), trivial⟩
        · rw [hc]
          exact along_cons.mpr ⟨trivial, trivial⟩
    | ls =>
      obtain ⟨hp, values, hl, he⟩ := h.ls_eventual
      have hnil : s.eventual = [] := by
        simp [StartState.eventual, hp, hs.calls hp, StartPhase.pending]
      rw [he, hnil]
      exact along_new_values hl.nodup fun _ _ => rfl
    | _ => rwa [h.eventual_eq rfl (by simp)]
  calls := h.beforeLs hs.calls
  view ht := by
    have hw := h.watching_of hl ht
    rw [(h.watching hw).2, hs.view hw, h.reg_eq]
    cases l with
    | commit c =>
      by_cases hsel : selects baseDir c.key = true
      · simp [commits, hsel, under_apply hsel]
      · simp [commits, hsel, under_apply_of_not hsel]
    | _ => rfl

/-- **At the creation of the `Watcher`.** -/
theorem StartStep.synced_watch (h : StartStep baseDir s .watch t) (hs : s.Synced baseDir)
    (hview : CharSystem.view t.calls = t.reg.under baseDir) : t.Synced baseDir where
  once := by
    have honce := hs.once
    unfold StartState.Once at honce ⊢
    rwa [h.eventual_eq rfl (by simp)]
  calls hp := by rw [h.watch_phase] at hp; cases hp
  view _ := by
    rw [← hview]
    simp [StartState.eventual, h.watch_phase, StartPhase.pending]

/-- A commit makes no call. -/
theorem StartStep.commit_calls {c : Change} (h : StartStep baseDir s (.commit c) t) :
    t.calls = s.calls := by
  cases h with
  | commit he => rfl

end Calls

/-! ## One call -/

/-- In the service `s` an instance's host is its own: one key, one host. -/
def OwnHosts (P : String → String → Prop) (s : String) : Prop :=
  ∀ key value key' value', P key value → P key' value' → getServiceName key = s →
    getServiceName key' = s → (key = key' ↔ value = value')

/-- The recorded hosts of `s` are the values of its keys in `content`. -/
def ServiceManager.Matches (m : ServiceManager) (s : String) (content : Registry) : Prop :=
  ∀ host, ((m.channel s).hosts host).isSome ↔ ∃ key, getServiceName key = s ∧ content key = some host

namespace ServiceManager

variable {P : String → String → Prop} {m : ServiceManager} {s : String} {content : Registry}
  {c : Call} {env : Alloc}

/-- A call of another service, or none. -/
theorem Matches.step_of_calls (h : m.Matches s content) {op : ManagerOp} (hi : (m.channel s).RepInv)
    (hop : op.calls s m = [] ∨ op.calls s m = [.choose]) :
    (m.step .etcdTest op).Matches s content := by
  intro host
  rw [channel_step, ← h host]
  rcases hop with hop | hop
  · rw [hop, run_nil]
  · rw [hop, run_cons, run_nil, hi.step_hosts]
    simp [ChannelOp.effect]

/-- **One call of a callback.** -/
theorem Matches.step (h : m.Matches s content) (own : OwnHosts P s) (hi : (m.channel s).RepInv)
    (hs : s ∈ m.followServices) (hc : P c.key c.host)
    (hP : ∀ key value, content key = some value → P key value) (henv : env.ret ≠ -1) :
    (m.step .etcdTest (c.op env)).Matches s (c.apply content) := by
  intro host
  rw [channel_step]
  cases c with
  | put key value =>
    by_cases hk : getServiceName key = s
    · have hcalls : ((Call.put key value).op env).calls s m = [.append value env] := if_pos ⟨hk, hs⟩
      rw [hcalls, run_cons, run_nil, hi.step_hosts, h host]
      simp only [ChannelOp.effect, Call.apply]
      constructor
      · rintro (hv | ⟨hv, key', hs', hkey'⟩)
        · have hv : value = host := by simpa [henv] using hv
          exact ⟨key, hk, by rw [Function.update_self, hv]⟩
        · refine ⟨key', hs', ?_⟩
          rw [Function.update_of_ne, hkey']
          -- The key had no other host before.
          rintro rfl
          have hv' := (own _ _ _ _ hc (hP _ _ hkey') hk hs').mp rfl
          simp [Call.host] at hv'
          simp [hv', henv] at hv
      · rintro ⟨key', hs', hkey'⟩
        by_cases hkk : key' = key
        · subst hkk
          rw [Function.update_self, Option.some.injEq] at hkey'
          exact .inl (by simp [hkey', henv])
        · rw [Function.update_of_ne hkk] at hkey'
          by_cases hv : value = host
          · exact .inl (by simp [hv, henv])
          · exact .inr ⟨by simp [hv], key', hs', hkey'⟩
    · have hcalls : ((Call.put key value).op env).calls s m = [] := if_neg fun hn => hk hn.1
      rw [hcalls, run_nil, h host]
      refine exists_congr fun key' => and_congr_right fun hs' => ?_
      have hne : key' ≠ key := fun he => hk (he ▸ hs')
      rw [Call.apply, Function.update_of_ne hne]
  | del key value =>
    by_cases hk : getServiceName key = s
    · have hcalls : ((Call.del key value).op env).calls s m = [.remove value] := if_pos ⟨hk, hs⟩
      rw [hcalls, run_cons, run_nil, hi.step_hosts, h host]
      simp only [ChannelOp.effect, Call.apply]
      constructor
      · rintro (hv | ⟨hv, key', hs', hkey'⟩)
        · split at hv <;> cases hv
        · refine ⟨key', hs', ?_⟩
          rw [Function.update_of_ne, hkey']
          rintro rfl
          have hv' := (own _ _ _ _ hc (hP _ _ hkey') hk hs').mp rfl
          simp [Call.host] at hv'
          simp [hv'] at hv
      · rintro ⟨key', hs', hkey'⟩
        have hkk : key' ≠ key := by
          rintro rfl
          rw [Function.update_self] at hkey'
          cases hkey'
        rw [Function.update_of_ne hkk] at hkey'
        refine .inr ⟨?_, key', hs', hkey'⟩
        -- Another key does not have the host.
        refine if_neg fun hv => hkk ?_
        exact (own _ _ _ _ (hP _ _ hkey') hc hs' hk).mpr hv.symm
    · have hcalls : ((Call.del key value).op env).calls s m = [] := if_neg fun hn => hk hn.1
      rw [hcalls, run_nil, h host]
      refine exists_congr fun key' => and_congr_right fun hs' => ?_
      have hne : key' ≠ key := fun he => hk (he ▸ hs')
      rw [Call.apply, Function.update_of_ne hne]

/-- A put of a key without an entry is for a host that is not recorded. -/
theorem Matches.notAgain (h : ∀ s ∈ m.followServices, m.Matches s content)
    (own : ∀ s ∈ m.followServices, OwnHosts P s) (hc : P c.key c.host)
    (hP : ∀ key value, content key = some value → P key value) (hnew : c.New content) :
    m.NotAgain (c.op env) := by
  cases c with
  | put key value =>
    intro hs _
    by_contra hn
    obtain ⟨key', hs', hkey'⟩ := (h _ hs value).mp (Option.isSome_iff_ne_none.mpr hn)
    obtain rfl := (own _ hs _ _ _ _ (hP _ _ hkey') hc hs' rfl).mpr rfl
    rw [Call.New, hkey'] at hnew
    cases hnew
  | del key value => trivial

/-- A manager that follows `services`, and the map `content` that the calls amount to. -/
structure Follows (P : String → String → Prop) (services : List String) (m : ServiceManager)
    (content : Registry) : Prop where
  follow : ∀ s, s ∈ m.followServices ↔ s ∈ services
  rep : ∀ s, (m.channel s).RepInv
  within : ∀ key value, content key = some value → P key value
  hosts : ∀ s ∈ services, m.Matches s content

variable {services : List String}

/-- A manager after one call of a callback. -/
theorem Follows.step (h : m.Follows P services content) (own : ∀ s ∈ services, OwnHosts P s)
    (hc : P c.key c.host) (henv : env.ret ≠ -1) (hf : (c.op env).Fresh m) :
    (m.step .etcdTest (c.op env)).Follows P services (c.apply content) where
  follow s := by
    rw [follow_step, or_iff_right, h.follow]
    cases c <;> exact nofun
  rep := repInv_step h.rep hf
  within key value hk := by
    cases c with
    | put k v =>
      by_cases hkey : key = k
      · subst hkey
        rw [Call.apply, Function.update_self, Option.some.injEq] at hk
        exact hk ▸ hc
      · exact h.within key value ((Function.update_of_ne hkey _ _).symm.trans hk)
    | del k v =>
      by_cases hkey : key = k
      · subst hkey
        rw [Call.apply, Function.update_self] at hk
        cases hk
      · exact h.within key value ((Function.update_of_ne hkey _ _).symm.trans hk)
  hosts s hs := (h.hosts s hs).step (own s hs) (h.rep s) ((h.follow s).mpr hs) hc h.within henv

/-- **A manager after the calls of the callbacks.** -/
theorem Follows.run {calls : List Call} {envs : List Alloc} (h : m.Follows P services content)
    (own : ∀ s ∈ services, OwnHosts P s) (hlen : envs.length = calls.length)
    (hP : ∀ c ∈ calls, P c.key c.host) (henvs : ∀ env ∈ envs, env.ret ≠ -1)
    (hf : Along (ServiceManager.step .etcdTest) ManagerOp.Fresh m (managerOps calls envs)) :
    (CharSystem.run (ServiceManager.step .etcdTest) m (managerOps calls envs)).Follows P services
        (CharSystem.run Call.apply content calls) ∧
      (m.OnePerHost → Along Call.apply Call.New content calls →
        (CharSystem.run (ServiceManager.step .etcdTest) m (managerOps calls envs)).OnePerHost) := by
  induction calls generalizing m content envs with
  | nil =>
    obtain rfl := List.length_eq_zero_iff.mp hlen
    exact ⟨h, fun hone _ => hone⟩
  | cons c calls ih =>
    obtain ⟨env, envs, rfl⟩ := List.exists_cons_of_length_eq_add_one hlen
    have hops : managerOps (c :: calls) (env :: envs) = c.op env :: managerOps calls envs := rfl
    rw [hops] at hf ⊢
    obtain ⟨hf1, hf2⟩ := along_cons.mp hf
    have hc := hP c List.mem_cons_self
    have hstep := h.step own hc (henvs env List.mem_cons_self) hf1
    obtain ⟨h1, h2⟩ := ih hstep (by simpa using hlen) (fun c' hm => hP c' (List.mem_cons_of_mem c hm))
      (fun env' hm => henvs env' (List.mem_cons_of_mem env hm)) hf2
    refine ⟨h1, fun hone hnew => ?_⟩
    obtain ⟨hnew1, hnew2⟩ := along_cons.mp hnew
    refine h2 ((hone.step_iff h.rep _).mpr ?_) hnew2
    exact Matches.notAgain (fun s hs => h.hosts s ((h.follow s).mp hs))
      (fun s hs => own s ((h.follow s).mp hs)) hc h.within hnew1

/-- A call of `choose`. -/
theorem Follows.choose (h : m.Follows P services content) (service : String) :
    (m.step .etcdTest (.choose service)).Follows P services content where
  follow s := by rw [follow_step, or_iff_right nofun, h.follow]
  rep := repInv_step h.rep trivial
  within := h.within
  hosts s hs := by
    refine (h.hosts s hs).step_of_calls (h.rep s) ?_
    by_cases he : service = s
    · exact .inr (if_pos he)
    · exact .inl (if_neg he)

end ServiceManager

end CharSystem
