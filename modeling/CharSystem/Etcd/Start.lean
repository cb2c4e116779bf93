import CharSystem.Etcd.Basic
import CharSystem.Sys

/-!
# The start of a `Discovery` (`etcd.hpp`)

The constructor reads a snapshot (`ls`), replays it through `put_cb`, and creates the `Watcher`.
Other clients commit changes at any time. The `Watcher` gets no start revision, so it delivers
exactly the events committed after its creation, and a change that is committed between `ls` and
the creation of the `Watcher` reaches no callback.

* `StartStep`: the steps of the constructor, of the watcher and of the other clients, in any order.
  Assumed of etcd: `ls` gives the content at one revision (`Lists`), and the watcher delivers its
  events in commit order, in responses of any size.
* `StartState.eventual`: the callbacks made so far and those still to come of what is already
  read or queued. Only `ls` and the commits that the watcher sees add to it.
* `StartRun.mirrors_iff`: when the calls of a finished run amount to the registry's content.
* `lostPut`: a run that loses a put.
-/

namespace CharSystem

/-- A call of one of the two callbacks. -/
inductive Call where
  | put (key value : String)
  | del (key value : String)
  deriving DecidableEq, Repr

/-- A `Discovery` whose callbacks record their calls. -/
def recorder : Discovery (List Call) where
  putCb := some fun key value calls => calls ++ [.put key value]
  delCb := some fun key value calls => calls ++ [.del key value]

/-- `put_cb` inserts, `del_cb` erases. -/
def Call.apply (view : Registry) : Call → Registry
  | .put key value => Function.update view key (some value)
  | .del key _ => Function.update view key none

/-- The calls applied to an empty map. -/
def view (calls : List Call) : Registry := run Call.apply (fun _ => none) calls

/-- The content under `base_dir`. -/
def Registry.under (reg : Registry) (baseDir : String) : Registry :=
  fun key => if selects baseDir key then reg key else none

/-- `values` lists the content under `base_dir`. -/
structure Lists (reg : Registry) (baseDir : String) (values : List Value) : Prop where
  nodup : (values.map (·.key)).Nodup
  mem_iff : ∀ key value, ⟨key, value⟩ ∈ values ↔ reg.under baseDir key = some value

/-- Where the constructor is. `rest`: what the replay has not reached. `queue`: the events that the
`Watcher` has still to deliver. -/
inductive StartPhase where
  | beforeLs
  | replay (rest : List Value)
  | watching (queue : List Event)
  deriving DecidableEq, Repr

/-- What a commit changes for the `Watcher`. -/
def StartPhase.notify (baseDir : String) (ev : Event) : StartPhase → StartPhase
  | .watching queue => if selects baseDir ev.kv.key then .watching (queue ++ [ev]) else .watching queue
  | p => p

/-- The registry, the constructor and the calls made so far. -/
structure StartState where
  reg : Registry
  phase : StartPhase
  calls : List Call

/-- Before the constructor. -/
def StartState.init (reg : Registry) : StartState := ⟨reg, .beforeLs, []⟩

/-- Who makes a step: a client, the constructor (`ls`, one call of the replay, the creation of the
`Watcher`), or the watcher with its next response. -/
inductive StartLabel where
  | commit (c : Change)
  | ls
  | replay
  | watch
  | deliver
  deriving DecidableEq, Repr

/-- One step. A commit is an event for the `Watcher` from its creation on. -/
inductive StartStep (baseDir : String) : StartState → StartLabel → StartState → Prop
  | commit {s : StartState} {c : Change} {ev : Event} : c.event s.reg = some ev →
    StartStep baseDir s (.commit c)
      { s with reg := c.apply s.reg, phase := s.phase.notify baseDir ev }
  | ls {s : StartState} {values : List Value} : s.phase = .beforeLs → Lists s.reg baseDir values →
    StartStep baseDir s .ls { s with phase := .replay values }
  | replay {s : StartState} {v : Value} {rest : List Value} : s.phase = .replay (v :: rest) →
    StartStep baseDir s .replay { s with phase := .replay rest, calls := recorder.put s.calls v }
  | watch {s : StartState} : s.phase = .replay [] →
    StartStep baseDir s .watch { s with phase := .watching [] }
  | deliver {s : StartState} {events queue : List Event} : s.phase = .watching (events ++ queue) →
    StartStep baseDir s .deliver
      { s with phase := .watching queue, calls := recorder.callback s.calls (.ofEvents events) }

/-- The start of a `Discovery` on `base_dir`. -/
abbrev startSys (baseDir : String) : Sys := ⟨StartState, StartLabel, StartStep baseDir⟩

/-- The changes that the steps commit. -/
def commits (ls : List StartLabel) : List Change :=
  ls.filterMap fun
    | .commit c => some c
    | _ => none

@[simp] theorem commits_append (ls ls' : List StartLabel) :
    commits (ls ++ ls') = commits ls ++ commits ls' := List.filterMap_append

/-! ## The calls -/

/-- The calls of an event. -/
def Event.calls (ev : Event) : List Call := recorder.onEvent [] ev

theorem recorder_onEvent (calls : List Call) (ev : Event) :
    recorder.onEvent calls ev = calls ++ ev.calls := by
  unfold Event.calls Discovery.onEvent
  cases ev.eventType with
  | PUT => rfl
  | DELETE_ => rfl
  | INVALID => exact (List.append_nil calls).symm

theorem recorder_callback (calls : List Call) (events : List Event) :
    recorder.callback calls (.ofEvents events) = calls ++ events.flatMap Event.calls := by
  rw [Discovery.callback_ofEvents]
  induction events generalizing calls with
  | nil => simp
  | cons ev events ih => simp [ih, recorder_onEvent]

@[simp] theorem view_append (calls calls' : List Call) :
    view (calls ++ calls') = run Call.apply (view calls) calls' :=
  run_append _ _ _ _

/-- The calls of the event of a change do to the map what the change does to the registry. -/
theorem run_calls_event {reg : Registry} {c : Change} {ev : Event} (h : c.event reg = some ev)
    (m : Registry) : run Call.apply m ev.calls = c.apply m := by
  unfold Event.calls
  rcases c.onEvent_event recorder [] h with ⟨value, hc, he⟩ | ⟨prev, hc, -, he⟩
  · rw [hc, he]; rfl
  · rw [hc, he]; rfl

/-- The calls that replay a value. -/
def Value.calls (v : Value) : List Call := recorder.put [] v

theorem run_values_of_notMem (m : Registry) {values : List Value} {key : String}
    (h : key ∉ values.map (·.key)) : run Call.apply m (values.flatMap Value.calls) key = m key := by
  induction values generalizing m with
  | nil => rfl
  | cons v values ih =>
    rw [List.map_cons, List.mem_cons, not_or] at h
    rw [List.flatMap_cons, run_append, ih _ h.2]
    exact Function.update_of_ne h.1 _ _

theorem run_values_of_mem (m : Registry) {values : List Value} {v : Value} (hv : v ∈ values)
    (hn : (values.map (·.key)).Nodup) :
    run Call.apply m (values.flatMap Value.calls) v.key = some v.asString := by
  induction values generalizing m with
  | nil => cases hv
  | cons v' values ih =>
    rw [List.map_cons, List.nodup_cons] at hn
    rw [List.flatMap_cons, run_append]
    rcases List.mem_cons.mp hv with rfl | hv
    · rw [run_values_of_notMem _ hn.1]
      exact Function.update_self ..
    · exact ih _ hv hn.2

/-- The replay of a listing. -/
theorem Lists.view_eq {reg : Registry} {baseDir : String} {values : List Value}
    (h : Lists reg baseDir values) : view (values.flatMap Value.calls) = reg.under baseDir := by
  funext key
  cases hk : reg.under baseDir key with
  | some value =>
    have hv : (⟨key, value⟩ : Value) ∈ values := (h.mem_iff key value).mpr hk
    exact run_values_of_mem _ hv h.nodup
  | none =>
    refine run_values_of_notMem _ fun hm => ?_
    obtain ⟨v, hv, rfl⟩ := List.mem_map.mp hm
    rw [(h.mem_iff v.key v.asString).mp hv] at hk
    cases hk

/-! ## The steps -/

/-- The calls still to come of what is read or queued. -/
def StartPhase.pending : StartPhase → List Call
  | .beforeLs => []
  | .replay rest => rest.flatMap Value.calls
  | .watching queue => queue.flatMap Event.calls

/-- The calls made and those still to come. -/
def StartState.eventual (s : StartState) : List Call := s.calls ++ s.phase.pending

/-- The constructor has created the `Watcher`. -/
def StartPhase.Watching : StartPhase → Prop
  | .watching _ => True
  | _ => False

namespace StartStep

variable {baseDir : String} {s t : StartState} {l : StartLabel}

/-- The registry changes by the commits. -/
theorem reg_eq (h : StartStep baseDir s l t) : t.reg = run Change.apply s.reg (commits [l]) := by
  cases h <;> rfl

/-- Before `ls` no callback is made. -/
theorem beforeLs (h : StartStep baseDir s l t) (hs : s.phase = .beforeLs → s.calls = [])
    (ht : t.phase = .beforeLs) : t.calls = [] := by
  cases h with
  | @commit c ev _ =>
    refine hs ?_
    cases hp : s.phase with
    | beforeLs => rfl
    | replay rest => rw [hp] at ht; cases ht
    | watching queue =>
      simp only [hp, StartPhase.notify] at ht
      split at ht <;> cases ht
  | _ => cases ht

/-- Between `ls` and the creation of the `Watcher` a commit adds nothing. -/
theorem replaying (h : StartStep baseDir s l t) (hs : s.phase ≠ .beforeLs) :
    t.phase ≠ .beforeLs ∧ (¬ t.phase.Watching → t.eventual = s.eventual ∧ ¬ s.phase.Watching) := by
  cases h with
  | @commit c ev _ =>
    cases hp : s.phase with
    | beforeLs => exact absurd hp hs
    | replay rest =>
      exact ⟨by simp [StartPhase.notify], fun _ =>
        ⟨by simp [StartState.eventual, hp, StartPhase.notify], by simp [StartPhase.Watching]⟩⟩
    | watching queue =>
      simp only [StartPhase.notify]
      split <;> exact ⟨by simp, fun hn => absurd trivial hn⟩
  | ls hp _ => exact absurd hp hs
  | @replay v rest hp =>
    refine ⟨by simp, fun _ => ⟨?_, by simp [hp, StartPhase.Watching]⟩⟩
    simp [StartState.eventual, hp, StartPhase.pending, Value.calls, recorder, Discovery.put]
  | watch hp => exact ⟨by simp, fun hn => absurd trivial hn⟩
  | deliver hp => exact ⟨by simp, fun hn => absurd trivial hn⟩

/-- The creation of the `Watcher` adds nothing. -/
theorem watch_eventual (h : StartStep baseDir s .watch t) :
    s.phase = .replay [] ∧ t.phase.Watching ∧ t.eventual = s.eventual := by
  cases h with
  | watch hp => exact ⟨hp, trivial, by simp [StartState.eventual, hp, StartPhase.pending]⟩

/-- **After the creation of the `Watcher`** the eventual calls follow every commit under
`base_dir`. -/
theorem watching (h : StartStep baseDir s l t) (hs : s.phase.Watching) :
    t.phase.Watching ∧ view t.eventual =
      run Change.apply (view s.eventual) ((commits [l]).filter (selects baseDir ·.key)) := by
  cases h with
  | @commit c ev he =>
    cases hp : s.phase with
    | beforeLs => rw [hp] at hs; cases hs
    | replay rest => rw [hp] at hs; cases hs
    | watching queue =>
      have hkey := c.event_key he
      have hcalls := run_calls_event he
      by_cases hsel : selects baseDir c.key = true
      · simp [StartPhase.notify, StartPhase.Watching, StartState.eventual, StartPhase.pending, hp,
          hkey, hsel, commits, hcalls]
      · simp [StartPhase.notify, StartPhase.Watching, StartState.eventual, StartPhase.pending, hp,
          hkey, hsel, commits]
  | ls hp _ => rw [hp] at hs; cases hs
  | replay hp => rw [hp] at hs; cases hs
  | watch hp => rw [hp] at hs; cases hs
  | @deliver events queue hp =>
    refine ⟨trivial, ?_⟩
    have he : s.calls ++ s.phase.pending =
        recorder.callback s.calls (.ofEvents events) ++ queue.flatMap Event.calls := by
      rw [recorder_callback, hp, StartPhase.pending, List.flatMap_append, List.append_assoc]
    exact congrArg view he.symm

end StartStep

/-! ## The runs -/

section Runs

variable {baseDir : String} {s t : StartState} {ls : List StartLabel}

theorem reg_steps (h : (startSys baseDir).Steps s ls t) :
    t.reg = run Change.apply s.reg (commits ls) := by
  refine h.invariant (I := fun ls t => t.reg = run Change.apply s.reg (commits ls)) rfl
    fun ls t l u ht hst => ?_
  rw [StartStep.reg_eq hst, ht, commits_append, run_append]

theorem beforeLs_steps {reg : Registry} (h : (startSys baseDir).Steps (.init reg) ls t)
    (ht : t.phase = .beforeLs) : t.calls = [] :=
  h.invariant (I := fun _ t => t.phase = .beforeLs → t.calls = []) (fun _ => rfl)
    (fun _ _ _ _ ht hst => StartStep.beforeLs hst ht) ht

theorem replaying_steps (h : (startSys baseDir).Steps s ls t) (hs : s.phase ≠ .beforeLs)
    (ht : ¬ t.phase.Watching) : t.eventual = s.eventual := by
  refine (h.invariant (I := fun _ t => t.phase ≠ .beforeLs ∧
    (¬ t.phase.Watching → t.eventual = s.eventual)) ⟨hs, fun _ => rfl⟩
    fun ls t l u ht hst => ?_).2 ht
  obtain ⟨hu, he⟩ := StartStep.replaying hst ht.1
  exact ⟨hu, fun hn => (he hn).1.trans (ht.2 (he hn).2)⟩

theorem watching_steps (h : (startSys baseDir).Steps s ls t) (hs : s.phase.Watching) :
    view t.eventual =
      run Change.apply (view s.eventual) ((commits ls).filter (selects baseDir ·.key)) := by
  refine (h.invariant (I := fun ls t => t.phase.Watching ∧ view t.eventual =
    run Change.apply (view s.eventual) ((commits ls).filter (selects baseDir ·.key))) ⟨hs, rfl⟩
    fun ls t l u ht hst => ?_).2
  obtain ⟨hu, he⟩ := StartStep.watching hst ht.1
  exact ⟨hu, by rw [he, ht.2, commits_append, List.filter_append, run_append]⟩

end Runs

/-- A run that starts before the constructor and ends when the `Watcher` has delivered all its
events. The constructor makes one `ls` and creates one `Watcher` (`StartRun.of_steps`). -/
structure StartRun (baseDir : String) where
  reg : Registry
  before : List StartLabel
  between : List StartLabel
  after : List StartLabel
  state : StartState
  steps : (startSys baseDir).Steps (.init reg) (before ++ .ls :: (between ++ .watch :: after)) state
  delivered : state.phase = .watching []

namespace StartRun

variable {baseDir : String} (r : StartRun baseDir)

/-- The registry at `ls`. -/
def atLs : Registry := run Change.apply r.reg (commits r.before)

/-- The registry at the creation of the `Watcher`. -/
def atWatch : Registry := run Change.apply r.atLs (commits r.between)

/-- The calls amount to the content under `base_dir`. -/
def Mirrors : Prop := view r.state.calls = r.state.reg.under baseDir

/-- The registry and the calls at the end of a run. -/
theorem result : r.state.reg = run Change.apply r.atWatch (commits r.after) ∧
    view r.state.calls = run Change.apply (r.atLs.under baseDir)
      ((commits r.after).filter (selects baseDir ·.key)) := by
  obtain ⟨s1, s2, h1, hls, h⟩ := r.steps.split
  obtain ⟨s3, s4, h3, hw, h4⟩ := h.split
  obtain ⟨hp3, hp4, he4⟩ := StartStep.watch_eventual hw
  have hr1 : s1.reg = r.atLs := reg_steps h1
  have hr2 : s2.reg = r.atLs := (StartStep.reg_eq hls).trans hr1
  have hr3 : s3.reg = r.atWatch := by rw [reg_steps h3, hr2]; rfl
  have hr4 : s4.reg = r.atWatch := (StartStep.reg_eq hw).trans hr3
  refine ⟨by rw [reg_steps h4, hr4], ?_⟩
  -- Before the Watcher the eventual calls are the replay of the listing.
  have he2 : view s2.eventual = r.atLs.under baseDir ∧ s2.phase ≠ .beforeLs := by
    cases hls with
    | @ls values hp hl =>
      refine ⟨?_, by simp⟩
      rw [← hr1, ← hl.view_eq]
      simp [StartState.eventual, StartPhase.pending, beforeLs_steps h1 hp]
  have he3 : s3.eventual = s2.eventual :=
    replaying_steps h3 he2.2 (by simp [hp3, StartPhase.Watching])
  have hend : r.state.calls = r.state.eventual := by
    simp [StartState.eventual, r.delivered, StartPhase.pending]
  rw [hend, watching_steps h4 hp4, he4, he3, he2.1]

/-- **When no change is lost.** The calls of a finished run amount to the content of the registry
under `base_dir` exactly when every key under `base_dir` that changed between `ls` and the creation
of the `Watcher` is changed again after it. -/
theorem mirrors_iff : r.Mirrors ↔ ∀ key, selects baseDir key = true → r.atLs key ≠ r.atWatch key →
    ∃ c ∈ commits r.after, c.key = key := by
  obtain ⟨hreg, hview⟩ := r.result
  unfold Mirrors
  rw [funext_iff]
  refine forall_congr' fun key => ?_
  rw [hview, Registry.under]
  by_cases hsel : selects baseDir key = true
  · have hp : ∀ c : Change, c.key = key → selects baseDir c.key = true := fun c hc => by rwa [hc]
    have hunder : r.atLs.under baseDir key = r.atLs key := if_pos hsel
    rw [if_pos hsel, hreg]
    by_cases hc : ∃ c ∈ commits r.after, c.key = key
    · exact iff_of_true (Change.run_apply_filter hp (.inl hc)) fun _ _ => hc
    · -- No later event about the key: the view has the entry of `ls`.
      have hn : ∀ c ∈ commits r.after, c.key ≠ key := fun c hm he => hc ⟨c, hm, he⟩
      rw [Change.run_apply_of_notMem _ fun c hm => hn c (List.mem_of_mem_filter hm),
        Change.run_apply_of_notMem _ hn, hunder]
      exact ⟨fun he _ hne => absurd he hne, fun h => not_not.mp fun hne => hc (h hsel hne)⟩
  · have hn : ∀ c ∈ (commits r.after).filter (selects baseDir ·.key), c.key ≠ key := by
      rintro c hm rfl
      exact hsel (List.mem_filter.mp hm).2
    rw [if_neg hsel, Change.run_apply_of_notMem _ hn]
    exact iff_of_true (if_neg hsel) fun hs => absurd hs hsel

/-- The steps that a run has made when the constructor is in a phase. -/
theorem passed {baseDir : String} {reg : Registry} {ls : List StartLabel} {t : StartState}
    (h : (startSys baseDir).Steps (.init reg) ls t) :
    (∀ rest, t.phase = .replay rest → ∃ as bs, ls = as ++ .ls :: bs) ∧
    (t.phase.Watching → ∃ as bs cs, ls = as ++ .ls :: (bs ++ .watch :: cs)) := by
  refine h.invariant (I := fun ls t =>
    (∀ rest, t.phase = .replay rest → ∃ as bs, ls = as ++ .ls :: bs) ∧
    (t.phase.Watching → ∃ as bs cs, ls = as ++ .ls :: (bs ++ .watch :: cs)))
    ⟨fun _ hp => (by cases hp), fun hp => (by cases hp)⟩ fun ls t l u ht hst => ?_
  -- A step in the same phase is one more label at the end.
  have hr : ∀ rest, t.phase = .replay rest → ∃ as bs, ls ++ [l] = as ++ .ls :: bs := fun rest hp => by
    obtain ⟨as, bs, rfl⟩ := ht.1 rest hp
    exact ⟨as, bs ++ [l], by simp⟩
  have hw : t.phase.Watching → ∃ as bs cs, ls ++ [l] = as ++ .ls :: (bs ++ .watch :: cs) := fun hp => by
    obtain ⟨as, bs, cs, rfl⟩ := ht.2 hp
    exact ⟨as, bs, cs ++ [l], by simp⟩
  cases hst with
  | @commit c ev he =>
    cases hp : t.phase with
    | beforeLs => exact ⟨fun _ h => (by cases h), fun h => (by cases h)⟩
    | replay rest => exact ⟨fun _ _ => hr rest hp, fun h => by cases h⟩
    | watching queue =>
      refine ⟨fun rest h => ?_, fun _ => hw (by rw [hp]; trivial)⟩
      simp only [StartPhase.notify] at h
      split at h <;> cases h
  | ls hp hl => exact ⟨fun _ _ => ⟨ls, [], rfl⟩, fun h => by cases h⟩
  | replay hp => exact ⟨fun _ _ => hr _ hp, fun h => by cases h⟩
  | watch hp =>
    obtain ⟨as, bs, rfl⟩ := ht.1 _ hp
    exact ⟨fun _ h => (by cases h), fun _ => ⟨as, bs, [], by simp⟩⟩
  | deliver hp => exact ⟨fun _ h => (by cases h), fun _ => hw (by rw [hp]; trivial)⟩

/-- Every run that ends with all events delivered is a `StartRun`. -/
theorem of_steps {baseDir : String} {reg : Registry} {ls : List StartLabel} {t : StartState}
    (h : (startSys baseDir).Steps (.init reg) ls t) (hd : t.phase = .watching []) :
    ∃ r : StartRun baseDir, r.reg = reg ∧ r.state = t ∧
      ls = r.before ++ .ls :: (r.between ++ .watch :: r.after) := by
  obtain ⟨as, bs, cs, rfl⟩ := (passed h).2 (by rw [hd]; trivial)
  exact ⟨⟨reg, as, bs, cs, t, h, hd⟩, rfl, rfl, rfl⟩

end StartRun

/-- A node registers after `ls` and before the creation of the `Watcher`. -/
def lostPut : StartRun "/service/echo" where
  reg := fun _ => none
  before := []
  between := [.commit (.put "/service/echo/instance_1" "127.0.0.1:8080")]
  after := []
  state :=
    { reg := (Change.put "/service/echo/instance_1" "127.0.0.1:8080").apply fun _ => none
      phase := .watching []
      calls := [] }
  steps := by
    have hl : Lists (fun _ => none) "/service/echo" [] :=
      ⟨List.nodup_nil, fun key value => by simp [Registry.under]⟩
    exact .snoc (.snoc (.snoc (.nil _) (StartStep.ls rfl hl)) (StartStep.commit rfl))
      (StartStep.watch rfl)
  delivered := rfl

/-- The put of `lostPut` reaches no callback. -/
theorem not_mirrors : ¬ ∀ (baseDir : String) (r : StartRun baseDir), r.Mirrors := by
  intro h
  have hk := congrFun (h "/service/echo" lostPut) "/service/echo/instance_1"
  revert hk
  decide

end CharSystem
