import CharSystem.Conc.Finish
import CharSystem.Manager.Linear
import CharSystem.Manager.Provenance
import Mathlib.Data.List.TakeWhile
import Mathlib.Data.Set.Card

/-!
# What callers of a `ServiceManager` can rely on, under every interleaving

* `ManagerSteps.completes`: every call can be completed, in few steps and without new calls.
* `ManagerSteps.linearizable_open`: a run whose operations are not all finished is linearizable too.
* `ManagerSteps.choose_origin`: where a channel comes from that a thread got.
* `ManagerHistory.chooses_inTurn`, `ManagerHistory.balanced`: threads that only choose share out the
  nodes of a service evenly.
-/

namespace CharSystem

/-- A run of threads from a new manager, any number of them, each with any calls. Operations may be
unfinished. -/
structure ManagerSteps (k : Copy) where
  labels : List (ThreadLabel ManagerOp ManagerRet)
  state : ThreadState
  steps : (threadSys (ManagerOp.code k)).Steps (Config.init .new) labels state

/-- The calls and returns of the run. -/
def ManagerSteps.events {k : Copy} (r : ManagerSteps k) : List (HistEvent ManagerOp ManagerRet) :=
  r.labels.filterMap ThreadLabel.event

/-- The run of a schedule. -/
def ManagerSteps.ofTurns (k : Copy) (ms : List (Turn ManagerOp))
    (h : (Config.play (ManagerOp.code k) (Config.init .new) ms).isSome = true) : ManagerSteps k where
  labels := ((Config.play (ManagerOp.code k) (Config.init .new) ms).get h).1
  state := ((Config.play (ManagerOp.code k) (Config.init .new) ms).get h).2
  steps := Config.play_steps (Option.some_get h).symm

/-- A schedule after which its threads have no operation. -/
def ManagerHistory.ofTurns (k : Copy) (ms : List (Turn ManagerOp))
    (h : (Config.play (ManagerOp.code k) (Config.init .new) ms).isSome = true)
    (hidle : ∀ m ∈ ms, ((ManagerSteps.ofTurns k ms h).state.thread m.thread).isNone = true) :
    ManagerHistory k where
  labels := (ManagerSteps.ofTurns k ms h).labels
  state := (ManagerSteps.ofTurns k ms h).state
  steps := (ManagerSteps.ofTurns k ms h).steps
  finished t := by
    by_cases ht : ∃ m ∈ ms, m.thread = t
    · obtain ⟨m, hm, rfl⟩ := ht
      exact Option.isNone_iff_eq_none.mp (hidle m hm)
    · exact Config.play_thread (Option.some_get h).symm fun m hm he => ht ⟨m, hm, he⟩

theorem ManagerHistory.ofTurns_events (k : Copy) (ms : List (Turn ManagerOp))
    (h : (Config.play (ManagerOp.code k) (Config.init .new) ms).isSome = true)
    (hidle : ∀ m ∈ ms, ((ManagerSteps.ofTurns k ms h).state.thread m.thread).isNone = true) :
    (ofTurns k ms h hidle).events = (ManagerSteps.ofTurns k ms h).events := rfl

/-- One thread starts two nodes. -/
def startNodes : List (Turn ManagerOp) :=
  .call 0 (.declared "/service/echo") :: List.replicate 4 (.go 0) ++
  .call 0 (.onServiceOnline "/service/echo/instance_1" "127.0.0.1:8081" ⟨1, 0⟩) ::
    List.replicate 8 (.go 0) ++
  .call 0 (.onServiceOnline "/service/echo/instance_2" "127.0.0.1:8082" ⟨2, 0⟩) ::
    List.replicate 8 (.go 0)

/-- Then two threads choose. Two of their calls overlap. -/
def sharedNodes : List (Turn ManagerOp) :=
  startNodes ++
  .call 1 (.choose "/service/echo") :: .call 2 (.choose "/service/echo") ::
    List.replicate 7 (.go 2) ++ List.replicate 7 (.go 1) ++
  .call 1 (.choose "/service/echo") :: List.replicate 7 (.go 1)

/-- The run of `sharedNodes`. -/
def sharedSteps : ManagerSteps .etcdTest :=
  .ofTurns .etcdTest sharedNodes (by decide +kernel)

/-- The same run, in which all operations have returned. -/
def sharedHistory : ManagerHistory .etcdTest :=
  .ofTurns .etcdTest sharedNodes (by decide +kernel) (by decide +kernel)

/-- The events of `startNodes`. -/
def sharedStarts : List (HistEvent ManagerOp ManagerRet) := [
  .call 0 (.declared "/service/echo"), .ret 0 .void,
  .call 1 (.onServiceOnline "/service/echo/instance_1" "127.0.0.1:8081" ⟨1, 0⟩), .ret 1 .void,
  .call 2 (.onServiceOnline "/service/echo/instance_2" "127.0.0.1:8082" ⟨2, 0⟩), .ret 2 .void]

/-- The events behind. -/
def sharedChooses : List (HistEvent ManagerOp ManagerRet) := [
  .call 3 (.choose "/service/echo"), .call 4 (.choose "/service/echo"),
  .ret 4 (.channelptr (.channel (Copy.etcdTest.newPtr "127.0.0.1:8081" ⟨1, 0⟩))),
  .ret 3 (.channelptr (.channel (Copy.etcdTest.newPtr "127.0.0.1:8082" ⟨2, 0⟩))),
  .call 5 (.choose "/service/echo"),
  .ret 5 (.channelptr (.channel (Copy.etcdTest.newPtr "127.0.0.1:8081" ⟨1, 0⟩)))]

theorem sharedSteps_events : sharedSteps.events = sharedStarts ++ sharedChooses := by
  decide +kernel

theorem sharedHistory_events : sharedHistory.events = sharedStarts ++ sharedChooses :=
  (ManagerHistory.ofTurns_events ..).trans sharedSteps_events

/-- The two nodes. -/
def sharedNode (n : Nat) : Channelptr :=
  Copy.etcdTest.newPtr (if n = 1 then "127.0.0.1:8081" else "127.0.0.1:8082") ⟨n, 0⟩

/-! ## Every call returns -/

namespace Code

variable {k : Copy} {a : Nat} {host : String}

theorem channelChoose_within : (channelChoose a).Within 5 :=
  .acquire (.act fun _ => .release (.release (.ret _)))

theorem append_within {env : Alloc} : (append k a host env).Within 5 := by
  refine .act fun s => ?_
  by_cases hret : env.ret = -1
  · rw [if_pos hret]
    exact .ret _
  · rw [if_neg hret]
    exact .acquire (.act fun _ => .release (.ret _))

theorem remove_within : (remove k a host).Within 4 :=
  .acquire (.act fun _ => .release (.ret _))

/-- No method has more than eight steps, on any path. -/
theorem within (k : Copy) (op : ManagerOp) : (op.code k).Within 8 := by
  cases op with
  | declared service => exact .acquire (.act fun _ => .release (.ret _))
  | choose serviceName =>
    refine .acquire (.act fun s => ?_)
    cases s.services serviceName with
    | none => exact .release (.ret _)
    | some a => exact channelChoose_within.mono (by omega)
  | onServiceOnline serviceInstance host env =>
    refine .acquire (.act fun s => ?_)
    by_cases hf : getServiceName serviceInstance ∈ s.followServices
    · rw [if_neg (not_not.mpr hf)]
      cases s.services (getServiceName serviceInstance) with
      | none => exact .release append_within
      | some a => exact .release append_within
    · rw [if_pos hf]
      exact .release (.ret _)
  | onServiceOffline serviceInstance host =>
    refine .acquire (.act fun s => ?_)
    by_cases hf : getServiceName serviceInstance ∈ s.followServices
    · rw [if_neg (not_not.mpr hf)]
      cases s.services (getServiceName serviceInstance) with
      | none => exact .release (.ret _)
      | some a => exact .release (remove_within.mono (by omega))
    · rw [if_pos hf]
      exact .release (.ret _)

end Code

/-- The events of steps that are not calls. -/
theorem rets_of_not_calls {ls : List (ThreadLabel ManagerOp ManagerRet)}
    (h : ∀ l ∈ ls, l.isCall = false) {ev : HistEvent ManagerOp ManagerRet}
    (hev : ev ∈ ls.filterMap ThreadLabel.event) : ∃ id r, ev = .ret id r := by
  obtain ⟨l, hl, he⟩ := List.mem_filterMap.mp hev
  have hcall := h l hl
  cases l with
  | call t id op => cases hcall
  | internal t => cases he
  | ret t id r => exact ⟨id, r, (Option.some.inj he).symm⟩

/-- **Every call can be completed.** A run has at most eight steps for each call, the call not counted. So,
without new calls, a schedule comes to an end, and it ends when every operation has returned: as long
as one has not, some thread can take a step. From every state of a run, such an end is reached. -/
theorem ManagerSteps.completes {k : Copy} (r : ManagerSteps k) :
    r.labels.length ≤ 9 * callCount r.labels ∧
    (∀ t, r.state.thread t ≠ none → ∃ u, r.state.CanStep (ManagerOp.code k) u) ∧
    ∃ h : ManagerHistory k, ∃ rest, h.labels = r.labels ++ rest ∧ ∀ l ∈ rest, l.isCall = false := by
  obtain ⟨n, -, hle⟩ := length_of_within (Code.within k) r.steps
  obtain ⟨rest, state, steps, hrest, hnone⟩ :=
    completes_of_disciplined (Code.disciplined k) (Code.within k) r.steps
  have hsafe := lockSafe_of_disciplined (Code.disciplined k) ⟨_, r.labels, rfl, r.steps⟩
  exact ⟨by omega, hsafe.progress, ⟨r.labels ++ rest, state, steps, hnone⟩, rest, rfl, hrest⟩

/-! ## Runs with unfinished operations -/

/-- The order of a finished run. -/
theorem ManagerHistory.exists_order {k : Copy} (h : ManagerHistory k) :
    ∃ order m, Linearization (ServiceManager.exec k) .new h.events order m ∧
      m.directory = h.state.shared.directory := by
  have hlin := linearizable_of_linPoint (fun op s _ => ManagerOp.linPoint k op s) Shared.inv_new
    h.steps h.finished
  have hlift : ∃ m, Linearizable (ServiceManager.exec k) .new h.events m ∧
      m.directory = h.state.shared.directory :=
    Linearizable.lift (π := ServiceManager.directory) (fun m op => m.exec_directory k op) hlin
  obtain ⟨m, ⟨order, hl⟩, hm⟩ := hlift
  exact ⟨order, m, hl, hm⟩

namespace ManagerSteps

variable {k : Copy} (r : ManagerSteps k)

/-- The run, to the end of its operations. -/
theorem exists_order : ∃ rets order m,
    (∀ ev ∈ rets, ∃ id ret, ev = .ret id ret) ∧
    Linearization (ServiceManager.exec k) .new (r.events ++ rets) order m := by
  obtain ⟨-, -, h, rest, hlabels, hcalls⟩ := r.completes
  obtain ⟨order, m, hl, -⟩ := h.exists_order
  refine ⟨rest.filterMap ThreadLabel.event, order, m, fun ev => rets_of_not_calls hcalls, ?_⟩
  rwa [ManagerHistory.events, hlabels, List.filterMap_append] at hl

/-- The calls of the longer history are those of the run. -/
theorem call_mem {rets : List (HistEvent ManagerOp ManagerRet)}
    (hrets : ∀ ev ∈ rets, ∃ id ret, ev = .ret id ret) {i : Nat} {op : ManagerOp}
    (h : .call i op ∈ r.events ++ rets) : .call i op ∈ r.events := by
  refine (List.mem_append.mp h).resolve_right fun hm => ?_
  obtain ⟨id, ret, hev⟩ := hrets _ hm
  cases hev

/-- **Unfinished operations.** In every state that threads reach, the history of the run, with
results for the operations that have not returned, is linearizable. -/
theorem linearizable_open : ∃ rets m, (∀ ev ∈ rets, ∃ id ret, ev = .ret id ret) ∧
    Linearizable (ServiceManager.exec k) .new (r.events ++ rets) m := by
  obtain ⟨rets, order, m, hrets, hl⟩ := r.exists_order
  exact ⟨rets, m, hrets, order, hl⟩

end ManagerSteps

/-- An entry of a sequential run of a manager. -/
theorem ServiceManager.legal_split {k : Copy} {m : ServiceManager}
    {pre post : List (Entry ManagerOp ManagerRet)} {e : Entry ManagerOp ManagerRet}
    (h : Legal (exec k) .new (pre ++ e :: post) m) :
    ((run (step k) .new (pre.map (·.op))).exec k e.op).2 = e.ret := by
  obtain ⟨m', hpre, hr, -⟩ := Legal.append_iff.mp h
  have hrun : run (step k) .new (pre.map (·.op)) = m' := hpre.foldl_eq
  rw [hrun]
  exact hr

/-- **Where a chosen channel comes from.** In every run, a channel that `choose(s)` has returned was
created by a call of `onServiceOnline` for an instance of `s`, whose `Init` succeeded with the
address that `append` gives for its host. The service was declared. None of the three came after
another in real time: `choose` had not returned when `onServiceOnline` was called, nor when
`declared` was, and `onServiceOnline` had not returned when `declared` was called. -/
theorem ManagerSteps.choose_origin {k : Copy} (r : ManagerSteps k) {i : Nat} {s : String}
    {c : Channelptr} (hc : .call i (.choose s) ∈ r.events)
    (hr : .ret i (.channelptr (.channel c)) ∈ r.events) :
    ∃ j serviceInstance host env d,
      .call j (.onServiceOnline serviceInstance host env) ∈ r.events ∧
      getServiceName serviceInstance = s ∧ env.ret ≠ -1 ∧
      c.ptr = env.ptr ∧ c.addr = k.initAddr host ∧ .call d (.declared s) ∈ r.events ∧
      ¬ Before r.events i j ∧ ¬ Before r.events i d ∧ ¬ Before r.events j d := by
  obtain ⟨rets, order, m, hrets, hl⟩ := r.exists_order
  have he : (⟨i, .choose s, .channelptr (.channel c)⟩ : Entry ManagerOp ManagerRet) ∈ order :=
    (hl.mem_iff _).mpr ⟨List.mem_append_left _ hc, List.mem_append_left _ hr⟩
  obtain ⟨pre, post, horder⟩ := List.append_of_mem he
  -- The channel is in the array when the `choose` takes effect.
  have hret := ServiceManager.legal_split (horder ▸ hl.legal)
  simp only [ServiceManager.exec, ManagerRet.channelptr.injEq, ServiceManager.choose_fst] at hret
  obtain ⟨host, ⟨ops, serviceInstance, env, ops', hpre, hs, hd, hinit, hp, -⟩, haddr⟩ :=
    ServiceManager.createdBy_of_mem (ServiceChannel.choose_mem hret)
  obtain ⟨before, rest, rfl, hbefore, hrest⟩ := List.map_eq_append_iff.mp hpre
  obtain ⟨online, after, rfl, honline, -⟩ := List.map_eq_cons_iff.mp hrest
  obtain ⟨decl, hdecl, hdop⟩ := List.mem_map.mp (hbefore ▸ hd)
  have hcall : ∀ e ∈ order, .call e.id e.op ∈ r.events := fun e he =>
    r.call_mem hrets ((hl.mem_iff e).mp he).1
  have honlineMem : online ∈ order := by simp [horder]
  have hdeclMem : decl ∈ order := by simp [horder, hdecl]
  refine ⟨online.id, serviceInstance, host, env, decl.id, honline ▸ hcall online honlineMem, hs,
    hinit, hp, haddr, hdop ▸ hcall decl hdeclMem, fun hb => ?_, fun hb => ?_, fun hb => ?_⟩
  · exact hl.not_before horder (by simp) hb.append
  · exact hl.not_before horder (by simp [hdecl]) hb.append
  · rw [List.append_assoc] at horder
    exact hl.not_before horder hdecl hb.append

theorem choose_origin_shared : ∃ j serviceInstance host env d,
    .call j (.onServiceOnline serviceInstance host env) ∈ sharedSteps.events ∧
    getServiceName serviceInstance = "/service/echo" ∧ env.ret ≠ -1 ∧
    (sharedNode 1).ptr = env.ptr ∧ (sharedNode 1).addr = Copy.etcdTest.initAddr host ∧
    .call d (.declared "/service/echo") ∈ sharedSteps.events ∧
    ¬ Before sharedSteps.events 4 j ∧ ¬ Before sharedSteps.events 4 d ∧
    ¬ Before sharedSteps.events j d :=
  sharedSteps.choose_origin (by rw [sharedSteps_events]; decide) (by rw [sharedSteps_events]; decide)

/-! ## Threads that only choose -/

theorem ncard_of_nodup {l : List Nat} (h : l.Nodup) : ({i | i ∈ l} : Set Nat).ncard = l.length := by
  rw [← List.toFinset_card_of_nodup h, ← Set.ncard_coe_finset, List.coe_toFinset]

namespace ServiceChannel

variable {k : Copy} {sc : ServiceChannel}

/-- Only `choose` moves the cursor. -/
theorem step_rotationCount {op : ChannelOp} (h : op ≠ .choose) :
    (sc.step k op).rotationCount = sc.rotationCount := by
  cases op with
  | choose => exact absurd rfl h
  | append host env =>
    rw [step, Copy.append_eq]
    split
    · rfl
    · rfl
  | remove host =>
    rw [step]
    cases hh : sc.hosts host with
    | none => rw [k.remove_notFound hh]
    | some c =>
      obtain ⟨hosts, he, -⟩ := k.remove_recorded hh
      rw [he]

/-- What `choose` gives at the `n`-th call, from the start of the array. -/
def turn (a : List Channelptr) (n : Nat) : ChooseResult :=
  match a[n % a.length]? with
  | none => .null
  | some c => .channel c

theorem chooses_nil (h : sc.rotatingArray = []) (n : Nat) :
    sc.chooses n = List.replicate n .null := by
  induction n with
  | zero => rfl
  | succ n ih => rw [chooses, choose_nil h, ih, List.replicate_succ]

theorem chooses_eq_turn (h : sc.rotationCount = 0) (n : Nat) :
    sc.chooses n = (List.range n).map (turn sc.rotatingArray) := by
  by_cases hnil : sc.rotatingArray = []
  · rw [chooses_nil hnil, hnil]
    exact (List.eq_replicate_iff.mpr ⟨by simp, by simp [turn]⟩).symm
  · have hpos : 0 < sc.rotatingArray.length := List.length_pos_iff.mpr hnil
    rw [chooses_eq hnil, Rotor.shows_eq (by rw [rotor_pos, h]; exact hpos), List.map_map]
    refine List.map_congr_left fun n _ => ?_
    have hlt : n % sc.rotatingArray.length < sc.rotatingArray.length := Nat.mod_lt n hpos
    simp [turn, h, List.getElem?_eq_getElem hlt, ChooseResult.ofShown]

/-- The share of a channel in the next `n` calls of `choose`. -/
theorem count_chooses (h : sc.rotationCount = 0) (n : Nat) (c : Channelptr) :
    (sc.chooses n).count (.channel c) =
      n / sc.rotatingArray.length * sc.rotatingArray.count c +
        (sc.rotatingArray.take (n % sc.rotatingArray.length)).count c := by
  by_cases hnil : sc.rotatingArray = []
  · rw [chooses_nil hnil, hnil]
    simp [List.count_replicate]
  · have hpos : 0 < sc.rotatingArray.length := List.length_pos_iff.mpr hnil
    have hshare := Rotor.count_shows (r := sc.rotor) (by rw [rotor_pos, h]; exact hpos) n c
    rw [rotor_items, rotor_pos, h, List.rotate_zero] at hshare
    rw [chooses_eq hnil, ← hshare]
    exact List.count_map_of_injective _ _ ChooseResult.ofShown_injective (some c)

end ServiceChannel

namespace ServiceManager

variable {k : Copy} {m m' : ServiceManager} {s : String}

/-- The calls before the first `choose(s)` leave the cursor. -/
theorem rotationCount_run {ops : List ManagerOp} (h : ∀ op ∈ ops, op ≠ .choose s) :
    ((run (step k) m ops).channel s).rotationCount = (m.channel s).rotationCount := by
  induction ops generalizing m with
  | nil => rfl
  | cons op ops ih =>
    rw [run_cons, ih fun op' hop => h op' (List.mem_cons_of_mem op hop), channel_step]
    rcases op.calls_cases s m with hc | ⟨call, hc, -⟩
    · rw [hc, run_nil]
    · rw [hc, run_cons, run_nil]
      refine ServiceChannel.step_rotationCount fun he => h op List.mem_cons_self ?_
      cases op with
      | choose service =>
        simp only [ManagerOp.calls] at hc
        split at hc
        · rename_i hs
          rw [hs]
        · cases hc
      | declared service => cases hc
      | onServiceOnline serviceInstance host env =>
        simp only [ManagerOp.calls, he] at hc
        split at hc <;> cases hc
      | onServiceOffline serviceInstance host =>
        simp only [ManagerOp.calls, he] at hc
        split at hc <;> cases hc

/-- The entries of `choose(s)`. -/
def choosesOf (s : String) (order : List (Entry ManagerOp ManagerRet)) :
    List (Entry ManagerOp ManagerRet) :=
  order.filter (·.op = .choose s)

theorem mem_choosesOf {order : List (Entry ManagerOp ManagerRet)}
    {e : Entry ManagerOp ManagerRet} : e ∈ choosesOf s order ↔ e ∈ order ∧ e.op = .choose s := by
  simp [choosesOf]

/-- When no other call is about `s`, the array stays, and `choose(s)` turns through it. -/
theorem legal_chooses {order : List (Entry ManagerOp ManagerRet)}
    (h : Legal (exec k) m order m') (hs : ∀ e ∈ order, e.op.service = s → e.op = .choose s) :
    (choosesOf s order).map (·.ret) =
        ((m.channel s).chooses (choosesOf s order).length).map .channelptr ∧
      (m'.channel s).rotatingArray = (m.channel s).rotatingArray := by
  induction order generalizing m with
  | nil =>
    obtain rfl : m = m' := h
    exact ⟨rfl, rfl⟩
  | cons e order ih =>
    obtain ⟨hr, hl⟩ := h
    obtain ⟨hrets, harray⟩ := ih hl fun e' he => hs e' (List.mem_cons_of_mem e he)
    have hstep : ((m.exec k e.op).1.channel s) = run (ServiceChannel.step k) (m.channel s)
        (e.op.calls s m) := m.channel_step k e.op s
    rw [hstep] at hrets harray
    by_cases he : e.op = .choose s
    · have hfilter : choosesOf s (e :: order) = e :: choosesOf s order := by
        simp [choosesOf, he]
      have hcalls : e.op.calls s m = [.choose] := by rw [he, ManagerOp.calls, if_pos rfl]
      have hret : e.ret = .channelptr (m.channel s).choose.1 := by
        rw [← hr, he, exec, choose_fst]
      rw [hcalls, run_cons, run_nil] at hrets harray
      rw [hfilter, List.map_cons, hrets, List.length_cons, ServiceChannel.chooses, List.map_cons,
        hret]
      exact ⟨rfl, harray.trans (ServiceChannel.choose_rotatingArray ..)⟩
    · have hfilter : choosesOf s (e :: order) = choosesOf s order := by
        simp [choosesOf, he]
      have hne : e.op.service ≠ s := fun hes => he (hs e List.mem_cons_self hes)
      rw [ManagerOp.calls_of_ne hne, run_nil] at hrets harray
      rw [hfilter]
      exact ⟨hrets, harray⟩

end ServiceManager

namespace ManagerHistory

open ServiceManager

variable {k : Copy} (h : ManagerHistory k) {s : String}

/-- The channels of `s` at the end of the run. -/
def nodes (s : String) : List Channelptr := (h.state.shared.directory.channel s).rotatingArray

/-- The calls of `choose(s)`. -/
def chosen (s : String) : Set Nat := {i | .call i (.choose s) ∈ h.events}

/-- The calls of `choose(s)` that returned `c`. -/
def got (s : String) (c : Channelptr) : Set Nat :=
  {i | .call i (.choose s) ∈ h.events ∧ .ret i (.channelptr (.channel c)) ∈ h.events}

/-- Every other call about `s` returned before any `choose(s)` was called. -/
def Settled (s : String) : Prop :=
  ∀ i op j, .call i op ∈ h.events → op.service = s → op ≠ .choose s →
    .call j (.choose s) ∈ h.events → Before h.events i j

variable {h}

theorem settled_shared : sharedHistory.Settled "/service/echo" := by
  intro i op j hi _ hne hj
  rw [sharedHistory_events] at hi hj ⊢
  have hret : ∃ r, .ret i r ∈ sharedStarts := by
    rcases List.mem_append.mp hi with hi | hi
    · simp only [sharedStarts, List.mem_cons, HistEvent.call.injEq, reduceCtorEq, false_or,
        List.not_mem_nil, or_false] at hi
      rcases hi with ⟨rfl, -⟩ | ⟨rfl, -⟩ | ⟨rfl, -⟩
      all_goals exact ⟨.void, by decide⟩
    · simp only [sharedChooses, List.mem_cons, HistEvent.call.injEq, reduceCtorEq, false_or,
        List.not_mem_nil, or_false] at hi
      rcases hi with ⟨-, rfl⟩ | ⟨-, rfl⟩ | ⟨-, rfl⟩
      all_goals exact absurd rfl hne
  obtain ⟨r, hr⟩ := hret
  refine ⟨sharedStarts, sharedChooses, r, .choose "/service/echo", rfl, hr, ?_⟩
  refine (List.mem_append.mp hj).resolve_left ?_
  simp [sharedStarts]

/-- The order, cut in front of the first `choose(s)`: what is about `s` behind it is `choose(s)`. -/
theorem exists_cut (hs : h.Settled s) {order : List (Entry ManagerOp ManagerRet)}
    {m : ServiceManager} (hl : Linearization (exec k) .new h.events order m) :
    ∃ pre post, order = pre ++ post ∧ (∀ e ∈ pre, e.op ≠ .choose s) ∧
      ∀ e ∈ post, e.op.service = s → e.op = .choose s := by
  let before : Entry ManagerOp ManagerRet → Bool := fun e => e.op ≠ .choose s
  have hsplit : order = order.takeWhile before ++ order.dropWhile before :=
    List.takeWhile_append_dropWhile.symm
  refine ⟨_, _, hsplit, fun e he => by simpa [before] using List.mem_takeWhile_imp he,
    fun e he hes => ?_⟩
  by_contra hne
  cases hdrop : order.dropWhile before with
  | nil =>
    rw [hdrop] at he
    cases he
  | cons b rest =>
    have hb : b.op = .choose s := by
      have hhead := List.head?_dropWhile_not before order
      rw [hdrop] at hhead
      simpa [before] using hhead
    rw [hdrop] at he hsplit
    have hrest : e ∈ rest := (List.mem_cons.mp he).resolve_left fun heq => hne (heq ▸ hb)
    obtain ⟨l, l', rfl⟩ := List.append_of_mem hrest
    have heOrder : e ∈ order := by rw [hsplit]; simp
    have hbOrder : b ∈ order := by rw [hsplit]; simp
    have hcall := ((hl.mem_iff b).mp hbOrder).1
    rw [hb] at hcall
    rw [← List.cons_append, ← List.append_assoc] at hsplit
    exact hl.not_before hsplit (by simp)
      (hs e.id e.op b.id ((hl.mem_iff e).mp heOrder).1 hes hne hcall)

/-- In the order of the run, the calls of `choose(s)` turn through the nodes. -/
theorem exists_turns (hs : h.Settled s) : ∃ order m, ∃ sc : ServiceChannel,
    Linearization (exec k) .new h.events order m ∧ sc.rotatingArray = h.nodes s ∧
    sc.rotationCount = 0 ∧ (choosesOf s order).map (·.ret) =
      (sc.chooses (choosesOf s order).length).map .channelptr := by
  obtain ⟨order, m, hl, hm⟩ := h.exists_order
  obtain ⟨pre, post, rfl, hpre, hpost⟩ := exists_cut hs hl
  obtain ⟨m₀, hlpre, hlpost⟩ := Legal.append_iff.mp hl.legal
  have hrun : run (step k) .new (pre.map (·.op)) = m₀ := hlpre.foldl_eq
  obtain ⟨hrets, harray⟩ := legal_chooses hlpost hpost
  have hchooses : choosesOf s (pre ++ post) = choosesOf s post := by
    have hnone : choosesOf s pre = [] :=
      List.filter_eq_nil_iff.mpr fun e he => by simpa using hpre e he
    rw [choosesOf, List.filter_append, ← choosesOf, hnone, List.nil_append, choosesOf]
  refine ⟨pre ++ post, m, m₀.channel s, hl, ?_, ?_, by rw [hchooses, hrets]⟩
  · rw [← harray, nodes, ← hm, directory_channel]
  · rw [← hrun, rotationCount_run fun op hop => ?_]
    · rfl
    · obtain ⟨e, he, rfl⟩ := List.mem_map.mp hop
      exact hpre e he

/-- The calls of `choose(s)` in the order of a run. -/
theorem mem_ids {order : List (Entry ManagerOp ManagerRet)} {m : ServiceManager}
    (hl : Linearization (exec k) .new h.events order m) (i : Nat) :
    i ∈ (choosesOf s order).map (·.id) ↔ .call i (.choose s) ∈ h.events := by
  simp only [List.mem_map, mem_choosesOf]
  constructor
  · rintro ⟨e, ⟨he, hop⟩, rfl⟩
    have hcall := ((hl.mem_iff e).mp he).1
    rwa [hop] at hcall
  · intro hc
    obtain ⟨r, hr⟩ := hl.exists_ret hc
    exact ⟨_, ⟨hr, rfl⟩, rfl⟩

theorem nodup_ids {order : List (Entry ManagerOp ManagerRet)} {m : ServiceManager}
    (hl : Linearization (exec k) .new h.events order m) : ((choosesOf s order).map (·.id)).Nodup :=
  hl.nodup.sublist (List.filter_sublist.map _)

/-- The calls of `choose(s)` that gave `c`. -/
theorem mem_ids_filter {order : List (Entry ManagerOp ManagerRet)} {m : ServiceManager}
    (hl : Linearization (exec k) .new h.events order m) (r : ManagerRet) (i : Nat) :
    i ∈ ((choosesOf s order).filter (·.ret = r)).map (·.id) ↔
      .call i (.choose s) ∈ h.events ∧ .ret i r ∈ h.events := by
  simp only [List.mem_map, List.mem_filter, mem_choosesOf, decide_eq_true_eq]
  constructor
  · rintro ⟨e, ⟨⟨he, hop⟩, rfl⟩, rfl⟩
    have hevents := (hl.mem_iff e).mp he
    rwa [hop] at hevents
  · rintro ⟨hc, hr⟩
    exact ⟨⟨i, .choose s, r⟩, ⟨⟨(hl.mem_iff _).mpr ⟨hc, hr⟩, rfl⟩, rfl⟩, rfl⟩

/-- **Threads that only choose get the nodes in turn.** If every other call about `s` returned before
any `choose(s)` was called, then the calls of `choose(s)`, from any threads and however they
interleave, are in an order that respects real time, and the `n`-th of them gives the `n`-th node of
the array, counted in circles from its start. -/
theorem chooses_inTurn (h : ManagerHistory k) {s : String} (hs : h.Settled s) :
    ∃ ids : List Nat, ids.Nodup ∧ (∀ i, i ∈ ids ↔ .call i (.choose s) ∈ h.events) ∧
      (∀ i ∈ ids, ∀ j ∈ ids, Before h.events i j → [i, j].Sublist ids) ∧
      ∀ n i, ids[n]? = some i →
        .ret i (.channelptr (ServiceChannel.turn (h.nodes s) n)) ∈ h.events := by
  obtain ⟨order, m, sc, hl, harray, hcursor, hrets⟩ := exists_turns hs
  refine ⟨(choosesOf s order).map (·.id), nodup_ids hl, mem_ids hl, ?_, fun n i hi => ?_⟩
  · intro i hi j hj hb
    obtain ⟨e, he, rfl⟩ := List.mem_map.mp hi
    obtain ⟨e', he', rfl⟩ := List.mem_map.mp hj
    obtain ⟨heOrder, hop⟩ := mem_choosesOf.mp he
    obtain ⟨heOrder', hop'⟩ := mem_choosesOf.mp he'
    have hpair : choosesOf s [e, e'] = [e, e'] := by simp [choosesOf, hop, hop']
    have hsub : (choosesOf s [e, e']).Sublist (choosesOf s order) :=
      (hl.before e heOrder e' heOrder' hb).filter _
    rw [hpair] at hsub
    exact hsub.map (·.id)
  · rw [List.getElem?_map, Option.map_eq_some_iff] at hi
    obtain ⟨e, he, rfl⟩ := hi
    have hlt : n < (choosesOf s order).length := (List.getElem?_eq_some_iff.mp he).1
    have hret := congrArg (·[n]?) hrets
    simp only [ServiceChannel.chooses_eq_turn hcursor, harray, List.getElem?_map, he,
      List.getElem?_range hlt, Option.map_some, Option.some.injEq] at hret
    rw [← hret]
    exact ((hl.mem_iff e).mp (mem_choosesOf.mp (List.mem_of_getElem? he)).1).2

theorem chooses_inTurn_shared :
    ∃ ids : List Nat, ids.Nodup ∧
      (∀ i, i ∈ ids ↔ .call i (.choose "/service/echo") ∈ sharedHistory.events) ∧
      (∀ i ∈ ids, ∀ j ∈ ids, Before sharedHistory.events i j → [i, j].Sublist ids) ∧
      ∀ n i, ids[n]? = some i →
        .ret i (.channelptr (ServiceChannel.turn (sharedHistory.nodes "/service/echo") n)) ∈
          sharedHistory.events :=
  sharedHistory.chooses_inTurn settled_shared

/-- **Threads that only choose share out the nodes evenly.** Under the same condition, of `N` calls
of `choose(s)` each of `l` nodes gets `N / l`, and one more if its place is among the first `N % l`,
whatever the interleaving. -/
theorem balanced (h : ManagerHistory k) {s : String} (hs : h.Settled s) (c : Channelptr) :
    (h.got s c).ncard =
      (h.chosen s).ncard / (h.nodes s).length * (h.nodes s).count c +
        ((h.nodes s).take ((h.chosen s).ncard % (h.nodes s).length)).count c := by
  obtain ⟨order, m, sc, hl, harray, hcursor, hrets⟩ := exists_turns hs
  have hchosen : h.chosen s = {i | i ∈ (choosesOf s order).map (·.id)} :=
    Set.ext fun i => (mem_ids hl i).symm
  have hgot : h.got s c =
      {i | i ∈ ((choosesOf s order).filter (·.ret = .channelptr (.channel c))).map (·.id)} :=
    Set.ext fun i => (mem_ids_filter hl _ i).symm
  have hcount : ((choosesOf s order).filter (·.ret = .channelptr (.channel c))).length =
      (sc.chooses (choosesOf s order).length).count (.channel c) := by
    rw [← List.count_map_of_injective _ ManagerRet.channelptr (fun _ _ => ManagerRet.channelptr.inj),
      ← hrets, List.count_eq_countP, List.countP_map, List.countP_eq_length_filter]
    rfl
  rw [hgot, hchosen, ncard_of_nodup (nodup_ids hl), List.length_map,
    ncard_of_nodup ((nodup_ids hl).sublist (List.filter_sublist.map _)), List.length_map, hcount,
    ServiceChannel.count_chooses hcursor, harray]

theorem nodes_shared :
    sharedHistory.nodes "/service/echo" = [sharedNode 1, sharedNode 2] := by
  decide +kernel

theorem chosen_shared : sharedHistory.chosen "/service/echo" = {i | i ∈ [3, 4, 5]} := by
  ext i
  rw [ManagerHistory.chosen, sharedHistory_events]
  simp [sharedStarts, sharedChooses]

/-- Three calls: the first node has two of them. -/
theorem balanced_shared : (sharedHistory.got "/service/echo" (sharedNode 1)).ncard = 2 ∧
    (sharedHistory.got "/service/echo" (sharedNode 2)).ncard = 1 := by
  rw [sharedHistory.balanced settled_shared, sharedHistory.balanced settled_shared,
    chosen_shared, ncard_of_nodup (by decide), nodes_shared]
  decide

end ManagerHistory

end CharSystem
