import CharSystem.Etcd.Start

/-!
# How far a `Discovery` lags (`etcd.hpp`)

After the creation of the `Watcher` the callbacks follow the commits, some time later. At any time the
calls made so far amount to the content that the registry had at some earlier commit: no commit is
seen before an older one, and none is skipped.

* `sent`: the events that the `Watcher` gets of a list of changes.
* `run_calls_sent`: their calls do to the content under `base_dir` what the changes do.
* `Lag`: what is delivered and what is queued are a cut of the commits. Every step keeps it.
* `SyncedRun.calls_eq_earlier`: the calls as the content at an earlier commit.
-/

namespace CharSystem

/-- The events of the changes `cs` that the `Watcher` gets. -/
def sent (baseDir : String) (reg : Registry) (cs : List Change) : List Event :=
  outputs Change.apply (fun reg c => (c.event reg).toList.filter (selects baseDir ·.kv.key)) reg cs

theorem sent_append (baseDir : String) (reg : Registry) (cs cs' : List Change) :
    sent baseDir reg (cs ++ cs') = sent baseDir reg cs ++ sent baseDir (run Change.apply reg cs) cs' :=
  outputs_append ..

/-- A change gives at most one event. -/
theorem sent_split {baseDir : String} {reg : Registry} {cs : List Change} {events queue : List Event}
    (h : sent baseDir reg cs = events ++ queue) : ∃ cs1 cs2, cs = cs1 ++ cs2 ∧
      sent baseDir reg cs1 = events ∧ sent baseDir (run Change.apply reg cs1) cs2 = queue := by
  refine outputs_split _ (fun reg c => ?_) h
  refine Nat.le_trans (List.length_filter_le _ _) ?_
  cases c.event reg with
  | none => exact Nat.zero_le _
  | some ev => exact Nat.le_refl _

/-- A change of a key outside `base_dir`. -/
theorem under_apply_of_not {baseDir : String} {reg : Registry} {c : Change}
    (h : ¬ selects baseDir c.key = true) : (c.apply reg).under baseDir = reg.under baseDir := by
  funext key
  unfold Registry.under
  split
  · rename_i hs
    exact Change.apply_of_ne reg fun he => h (he ▸ hs)
  · rfl

/-- A change of a key under `base_dir`. -/
theorem under_apply {baseDir : String} {reg : Registry} {c : Change}
    (h : selects baseDir c.key = true) :
    (c.apply reg).under baseDir = c.apply (reg.under baseDir) := by
  funext key
  by_cases hk : c.key = key
  · subst hk
    unfold Registry.under
    rw [if_pos h]
    cases c <;> simp [Change.key]
  · rw [Change.apply_of_ne _ hk]
    unfold Registry.under
    rw [Change.apply_of_ne _ hk]

/-- A change that commits nothing. -/
theorem apply_of_event_none {reg : Registry} {c : Change} (h : c.event reg = none) :
    c.apply reg = reg := by
  cases c with
  | put key value => cases h
  | delete key =>
    simp only [Change.event] at h
    split at h
    · cases h
    · rename_i hn
      rw [Change.apply, ← hn, Function.update_eq_self]

/-- **The calls of the events** do to the content under `base_dir` what the changes do. -/
theorem run_calls_sent (baseDir : String) (reg : Registry) (cs : List Change) :
    run Call.apply (reg.under baseDir) ((sent baseDir reg cs).flatMap Event.calls) =
      (run Change.apply reg cs).under baseDir := by
  induction cs generalizing reg with
  | nil => rfl
  | cons c cs ih =>
    have hcons : sent baseDir reg (c :: cs) =
        (c.event reg).toList.filter (selects baseDir ·.kv.key) ++ sent baseDir (c.apply reg) cs := rfl
    rw [hcons, List.flatMap_append, run_append, run_cons, ← ih (c.apply reg)]
    congr 1
    cases he : c.event reg with
    | none => rw [apply_of_event_none he]; rfl
    | some ev =>
      have hkey := c.event_key he
      by_cases hs : selects baseDir c.key = true
      · simp [hkey, hs, run_calls_event he, under_apply hs]
      · simp [hkey, hs, under_apply_of_not hs]

/-- The commits so far fall into those whose events have been delivered (`seen`) and those whose
events are queued. `s` is the state at the creation of the `Watcher`. -/
structure Lag (baseDir : String) (s : StartState) (cs : List Change) (t : StartState) : Prop where
  reg : t.reg = run Change.apply s.reg cs
  cut : ∃ seen queued, cs = seen ++ queued ∧
    t.calls = s.calls ++ (sent baseDir s.reg seen).flatMap Event.calls ∧
    t.phase = .watching (sent baseDir (run Change.apply s.reg seen) queued)

/-- **One step** after the creation of the `Watcher`. -/
theorem Lag.step {baseDir : String} {s t u : StartState} {cs : List Change} {l : StartLabel}
    (h : Lag baseDir s cs t) (hst : StartStep baseDir t l u) :
    Lag baseDir s (cs ++ commits [l]) u := by
  obtain ⟨hreg, seen, queued, rfl, hcalls, hphase⟩ := h
  refine ⟨by rw [hst.reg_eq, hreg, run_append _ _ (seen ++ queued)], ?_⟩
  cases hst with
  | @commit c ev he =>
    refine ⟨seen, queued ++ [c], by simp [commits], hcalls, ?_⟩
    have hlast : sent baseDir (run Change.apply s.reg (seen ++ queued)) [c] =
        if selects baseDir ev.kv.key then [ev] else [] := by
      rw [← hreg]
      simp [sent, outputs, he, List.filter_cons]
    rw [sent_append, ← run_append, hlast, hphase]
    simp only [StartPhase.notify]
    split
    · rfl
    · rw [List.append_nil]
  | ls hp _ => rw [hp] at hphase; cases hphase
  | replay hp => rw [hp] at hphase; cases hphase
  | watch hp => rw [hp] at hphase; cases hphase
  | @deliver events queue hp =>
    -- The delivered events are those of the oldest queued commits.
    rw [hp] at hphase
    have hq : sent baseDir (run Change.apply s.reg seen) queued = events ++ queue :=
      (StartPhase.watching.inj hphase).symm
    obtain ⟨cs1, cs2, rfl, hev, hqueue⟩ := sent_split hq
    refine ⟨seen ++ cs1, cs2, by simp [commits], ?_, ?_⟩
    · rw [recorder_callback, hcalls, sent_append, hev, List.flatMap_append, List.append_assoc]
    · rw [run_append, hqueue]

/-- More steps. -/
theorem Lag.steps {baseDir : String} {s t u : StartState} {cs : List Change} {ls : List StartLabel}
    (h : Lag baseDir s cs t) (hst : (startSys baseDir).Steps t ls u) :
    Lag baseDir s (cs ++ commits ls) u := by
  refine hst.invariant (I := fun ls u => Lag baseDir s (cs ++ commits ls) u)
    (by simpa [commits] using h) fun ls u l v hu hst => ?_
  rw [commits_append, ← List.append_assoc]
  exact hu.step hst

/-- **What is delivered and what is queued** in a run from the creation of the `Watcher`. -/
theorem lag_steps {baseDir : String} {s t : StartState} {ls : List StartLabel}
    (h : (startSys baseDir).Steps s ls t) (hs : s.phase = .watching []) :
    Lag baseDir s (commits ls) t :=
  (show Lag baseDir s [] s from ⟨rfl, [], [], rfl, (List.append_nil _).symm, hs⟩).steps h

/-- The calls are those of an earlier commit, if they were the content when the `Watcher` was
created. -/
theorem Lag.view_eq {baseDir : String} {s t : StartState} {cs : List Change} (h : Lag baseDir s cs t)
    (hs : view s.calls = s.reg.under baseDir) : ∃ seen queued, cs = seen ++ queued ∧
      view t.calls = (run Change.apply s.reg seen).under baseDir ∧
      t.phase = .watching (sent baseDir (run Change.apply s.reg seen) queued) := by
  obtain ⟨-, seen, queued, hc, hcalls, hq⟩ := h
  exact ⟨seen, queued, hc, by rw [hcalls, view_append, hs, run_calls_sent], hq⟩

/-- When the queue is empty the calls are the content now. -/
theorem Lag.view_of_empty {baseDir : String} {s t : StartState} {cs : List Change}
    (h : Lag baseDir s cs t) (hs : view s.calls = s.reg.under baseDir) (ht : t.phase = .watching []) :
    view t.calls = t.reg.under baseDir := by
  obtain ⟨seen, queued, hc, hview, hq⟩ := h.view_eq hs
  -- The queued commits have no event, so they are outside `base_dir` or change nothing.
  have hnone : sent baseDir (run Change.apply s.reg seen) queued = [] :=
    StartPhase.watching.inj (hq.symm.trans ht)
  have hrest := run_calls_sent baseDir (run Change.apply s.reg seen) queued
  rw [hnone] at hrest
  rw [hview, h.reg, hc, run_append]
  exact hrest

theorem StartStep.watch_phase {baseDir : String} {s t : StartState} (h : StartStep baseDir s .watch t) :
    t.phase = .watching [] := by
  cases h
  rfl

/-- **At the creation of the `Watcher`** the calls amount to the content that `ls` has listed. -/
theorem view_atWatch {baseDir : String} {reg : Registry} {as bs : List StartLabel} {t : StartState}
    (h : (startSys baseDir).Steps (.init reg) (as ++ .ls :: (bs ++ [.watch])) t) :
    view t.calls = (run Change.apply reg (commits as)).under baseDir ∧
      t.reg = run Change.apply reg (commits (as ++ bs)) ∧ t.phase = .watching [] := by
  obtain ⟨s1, s2, h1, hls, h2⟩ := h.split
  obtain ⟨s3, h3, hw⟩ := h2.snoc_inv
  obtain ⟨hp3, -, he⟩ := StartStep.watch_eventual hw
  have hphase := StartStep.watch_phase hw
  have hr2 : s2.reg = run Change.apply reg (commits as) :=
    (StartStep.reg_eq hls).trans (reg_steps h1)
  refine ⟨?_, ?_, hphase⟩
  · have h2' : view s2.eventual = (run Change.apply reg (commits as)).under baseDir ∧
        s2.phase ≠ .beforeLs := by
      cases hls with
      | @ls values hp hl =>
        refine ⟨?_, by simp⟩
        have hr1 : s1.reg = run Change.apply reg (commits as) := reg_steps h1
        rw [← hr1, ← hl.view_eq]
        simp [StartState.eventual, StartPhase.pending, beforeLs_steps h1 hp]
    have h3' : s3.eventual = s2.eventual :=
      replaying_steps h3 h2'.2 (by simp [hp3, StartPhase.Watching])
    have hcalls : t.eventual = t.calls := by simp [StartState.eventual, hphase, StartPhase.pending]
    rw [← hcalls, he, h3', h2'.1]
  · rw [StartStep.reg_eq hw, reg_steps h3, hr2, commits_append, run_append]
    rfl

/-- A run whose calls amount to the content under `base_dir` when the `Watcher` is created. -/
structure SyncedRun (baseDir : String) where
  reg : Registry
  before : List StartLabel
  after : List StartLabel
  atWatch : StartState
  state : StartState
  start : (startSys baseDir).Steps (.init reg) (before ++ [.watch]) atWatch
  synced : view atWatch.calls = atWatch.reg.under baseDir
  steps : (startSys baseDir).Steps atWatch after state

namespace SyncedRun

variable {baseDir : String} (r : SyncedRun baseDir)

/-- A run without a commit between `ls` and the creation of the `Watcher`. -/
def ofQuiet {reg : Registry} {as bs after : List StartLabel} {atWatch state : StartState}
    (start : (startSys baseDir).Steps (.init reg) (as ++ .ls :: bs ++ [.watch]) atWatch)
    (quiet : commits bs = []) (steps : (startSys baseDir).Steps atWatch after state) :
    SyncedRun baseDir where
  reg := reg
  before := as ++ .ls :: bs
  after := after
  atWatch := atWatch
  state := state
  start := start
  synced := by
    rw [List.append_assoc, List.cons_append] at start
    obtain ⟨hview, hreg, -⟩ := view_atWatch start
    rw [hview, hreg, commits_append, quiet, List.append_nil]
  steps := steps

/-- **The calls lag behind the registry, and nothing else.** At any time, whatever is still queued,
the calls made so far amount to the content under `base_dir` after some of the commits, the oldest
first. When the queue is empty they amount to the content now. -/
theorem calls_eq_earlier : ∃ seen queued, commits r.after = seen ++ queued ∧
    view r.state.calls = (run Change.apply r.atWatch.reg seen).under baseDir ∧
    (r.state.phase = .watching [] → view r.state.calls = r.state.reg.under baseDir) := by
  obtain ⟨t, -, hw⟩ := r.start.snoc_inv
  have hlag := lag_steps r.steps (StartStep.watch_phase hw)
  obtain ⟨seen, queued, hc, hview, -⟩ := hlag.view_eq r.synced
  exact ⟨seen, queued, hc, hview, hlag.view_of_empty r.synced⟩

/-- A registry with one instance. -/
def oneProvider : Registry := (Change.put "/service/echo/a" "10.0.0.1:80").apply fun _ => none

/-- Nobody commits before the creation of the `Watcher`. -/
theorem steps_oneProvider : (startSys "/service/echo").Steps (.init oneProvider)
    ([] ++ .ls :: [.replay] ++ [.watch])
    ⟨oneProvider, .watching [], [.put "/service/echo/a" "10.0.0.1:80"]⟩ := by
  have hl : Lists oneProvider "/service/echo" [⟨"/service/echo/a", "10.0.0.1:80"⟩] := by
    refine ⟨by simp, fun key value => ?_⟩
    rw [List.mem_singleton, Value.mk.injEq]
    unfold Registry.under oneProvider
    by_cases hk : key = "/service/echo/a"
    · subst hk
      simp [show selects "/service/echo" "/service/echo/a" = true by decide, eq_comm]
    · rw [Change.apply_of_ne _ (Ne.symm hk)]
      simp [hk]
  exact .snoc (.snoc (.snoc (.nil _) (StartStep.ls rfl hl)) (StartStep.replay rfl))
    (StartStep.watch rfl)

/-- Then two more instances register. The event of one of them has been delivered. -/
theorem steps_lateProviders : (startSys "/service/echo").Steps
    ⟨oneProvider, .watching [], [.put "/service/echo/a" "10.0.0.1:80"]⟩
    [.commit (.put "/service/echo/b" "10.0.0.2:80"), .commit (.put "/service/echo/c" "10.0.0.3:80"),
      .deliver]
    ⟨run Change.apply oneProvider
        [.put "/service/echo/b" "10.0.0.2:80", .put "/service/echo/c" "10.0.0.3:80"],
      .watching [⟨.PUT, ⟨"/service/echo/c", "10.0.0.3:80"⟩, ⟨"", ""⟩⟩],
      [.put "/service/echo/a" "10.0.0.1:80", .put "/service/echo/b" "10.0.0.2:80"]⟩ :=
  .snoc (.snoc (.snoc (.nil _) (StartStep.commit rfl)) (StartStep.commit rfl))
    (@StartStep.deliver _ _ [⟨.PUT, ⟨"/service/echo/b", "10.0.0.2:80"⟩, ⟨"", ""⟩⟩] _ rfl)

/-- The run with three instances. -/
def lateProviders : SyncedRun "/service/echo" := ofQuiet steps_oneProvider rfl steps_lateProviders

theorem calls_eq_earlier_lateProviders : ∃ seen queued,
    commits lateProviders.after = seen ++ queued ∧
    view lateProviders.state.calls =
      (run Change.apply lateProviders.atWatch.reg seen).under "/service/echo" ∧
    (lateProviders.state.phase = .watching [] →
      view lateProviders.state.calls = lateProviders.state.reg.under "/service/echo") :=
  lateProviders.calls_eq_earlier

end SyncedRun

end CharSystem
