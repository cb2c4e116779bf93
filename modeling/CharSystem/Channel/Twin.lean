import CharSystem.Channel.Inv

/-!
# The two copies of `ServiceChannel` rotate alike

`remove` of `example/brpc_test` may leave a host in the map whose channel is no longer in the array.
Such an entry changes nothing that `choose` sees: a later `remove` of the host does not find its
channel, and a later `append` overwrites it.

* `creator`: the number of the call that created a channel. Two runs get different addresses from
  `new`, so their channels are compared by the calls that created them.
* `Roster`: the abstract machine. Its channels are the numbers of their calls.
* `Follows.step`: both copies follow the roster, if an entry of the map without a channel in the
  array may be left over.
* `TwinRun.rotateAlike`: two runs of the same calls, one for each copy, have the same rotation.
-/

namespace CharSystem

/-- A call without the address that `new` gives: an `append` and whether its `Init` succeeds. -/
inductive NodeOp where
  | append (host : String) (ok : Bool)
  | remove (host : String)
  | choose
  deriving DecidableEq, Repr

/-- A call, without the address. -/
def ChannelOp.nodeOp : ChannelOp → NodeOp
  | .append host env => .append host (env.ret ≠ -1)
  | .remove host => .remove host
  | .choose => .choose

/-- The number of the call that created the channel at an address: the last successful `append` that
got the address. -/
def creator (ops : List ChannelOp) (ptr : Nat) : Option Nat :=
  (ops.zipIdx.filterMap fun op => if op.1.newPtr? = some ptr then some op.2 else none).getLast?

/-- What `choose` returns, with a channel given by the call that created it. -/
inductive Chosen where
  | null
  | channel (call : Option Nat)
  | outOfRange
  deriving DecidableEq, Repr

/-- A result, with the call that created its channel. -/
def ChooseResult.byCreator (ops : List ChannelOp) : ChooseResult → Chosen
  | .null => .null
  | .channel c => .channel (creator ops c.ptr)
  | .outOfRange => .outOfRange

/-! ## Creators -/

section Creator

variable {ops : List ChannelOp} {op : ChannelOp} {ptr : Nat}

theorem creator_concat : creator (ops ++ [op]) ptr =
    if op.newPtr? = some ptr then some ops.length else creator ops ptr := by
  unfold creator
  rw [List.zipIdx_append, List.filterMap_append, List.getLast?_append]
  by_cases h : op.newPtr? = some ptr
  · simp [h]
  · simp [h]

theorem creator_lt {i : Nat} (h : creator ops ptr = some i) : i < ops.length := by
  induction ops using List.reverseRecOn with
  | nil => cases h
  | append_singleton ops op ih =>
    rw [creator_concat] at h
    rw [List.length_append, List.length_singleton]
    split at h
    · cases h
      omega
    · have hlt := ih h
      omega

/-- A call creates one channel. -/
theorem creator_inj {ptr' i : Nat} (h : creator ops ptr = some i) (h' : creator ops ptr' = some i) :
    ptr = ptr' := by
  induction ops using List.reverseRecOn with
  | nil => cases h
  | append_singleton ops op ih =>
    rw [creator_concat] at h h'
    split at h
    · cases h
      split at h'
      · rename_i hp hp'
        exact Option.some.inj (hp.symm.trans hp')
      · have hlt := creator_lt h'
        omega
    · split at h'
      · cases h'
        have hlt := creator_lt h
        omega
      · exact ih h h'

/-- A call leaves the creators of the channels that are held. -/
theorem creator_held {sc : ServiceChannel} (hf : op.Fresh sc) {c : Channelptr} (hc : sc.Holds c) :
    creator (ops ++ [op]) c.ptr = creator ops c.ptr := by
  rw [creator_concat, if_neg]
  cases op with
  | append host env =>
    simp only [ChannelOp.newPtr?]
    split
    · exact nofun
    · rename_i hret
      exact fun he => hf hret c hc (Option.some.inj he).symm
  | remove host => exact nofun
  | choose => exact nofun

end Creator

/-! ## The abstract machine -/

/-- The nodes of a service, each given by the call that created it. `count`: the calls so far. -/
structure Roster where
  count : Nat
  array : List Nat
  cursor : Nat
  hosts : String → Option Nat

namespace Roster

/-- Before the first call. -/
def new : Roster := ⟨0, [], 0, fun _ => none⟩

/-- One call. -/
def step (t : Roster) : NodeOp → Roster
  | .append host ok =>
    if ok then
      { t with
        count := t.count + 1
        array := t.array ++ [t.count]
        hosts := Function.update t.hosts host (some t.count) }
    else { t with count := t.count + 1 }
  | .remove host =>
    match t.hosts host with
    | none => { t with count := t.count + 1 }
    | some i =>
      { t with
        count := t.count + 1
        array := t.array.filter (· ≠ i)
        hosts := Function.update t.hosts host none }
  | .choose =>
    if t.array.length = 0 then { t with count := t.count + 1 }
    else { t with count := t.count + 1, cursor := (t.cursor + 1) % t.array.length }

/-- What `choose` gives. -/
def chosen (t : Roster) : Chosen :=
  if t.array.length = 0 then .null
  else
    match t.array[t.cursor]? with
    | some i => .channel (some i)
    | none => .outOfRange

variable {t : Roster} {host : String}

theorem step_append : t.step (.append host true) =
    { t with
      count := t.count + 1
      array := t.array ++ [t.count]
      hosts := Function.update t.hosts host (some t.count) } := rfl

theorem step_append_failed : t.step (.append host false) = { t with count := t.count + 1 } := rfl

theorem step_remove_none (h : t.hosts host = none) :
    t.step (.remove host) = { t with count := t.count + 1 } := by
  simp only [step, h]

theorem step_remove_some {i : Nat} (h : t.hosts host = some i) : t.step (.remove host) =
    { t with
      count := t.count + 1
      array := t.array.filter (· ≠ i)
      hosts := Function.update t.hosts host none } := by
  simp only [step, h]

end Roster

/-! ## Both copies follow it -/

/-- The state of a copy after `ops`, and the roster. An entry of the map that the roster does not
have is left over: its channel is not in the array. -/
structure Follows (ops : List ChannelOp) (sc : ServiceChannel) (t : Roster) : Prop where
  held : sc.HeldInv
  count : t.count = ops.length
  cursor : t.cursor = sc.rotationCount
  array : sc.rotatingArray.map (creator ops ·.ptr) = t.array.map some
  recorded : ∀ host i, t.hosts host = some i →
    ∃ c ∈ sc.rotatingArray, sc.hosts host = some c ∧ creator ops c.ptr = some i
  leftover : ∀ host c, t.hosts host = none → sc.hosts host = some c →
    ∀ d ∈ sc.rotatingArray, d.ptr ≠ c.ptr

namespace Follows

variable {k : Copy} {ops : List ChannelOp} {sc : ServiceChannel} {t : Roster} {host : String}

theorem init (serviceName : String) : Follows [] (.new serviceName) .new where
  held := .new serviceName
  count := rfl
  cursor := rfl
  array := rfl
  recorded _ _ h := by cases h
  leftover _ _ _ h := by cases h

theorem length_eq (h : Follows ops sc t) : sc.rotatingArray.length = t.array.length := by
  have hlen := congrArg List.length h.array
  simpa using hlen

/-- A call that changes neither the array nor what the map has for a host of the roster. -/
theorem frame (h : Follows ops sc t) {op : ChannelOp} (hf : op.Fresh sc) {sc' : ServiceChannel}
    {t' : Roster} (hheld : sc'.HeldInv) (hcount : t'.count = t.count + 1)
    (hcursor : t'.cursor = sc'.rotationCount) (harray : sc'.rotatingArray = sc.rotatingArray)
    (hold : ∀ host c, sc'.hosts host = some c → sc.hosts host = some c)
    (hkept : ∀ host i, t.hosts host = some i → sc'.hosts host = sc.hosts host)
    (htarray : t'.array = t.array) (hthosts : t'.hosts = t.hosts) :
    Follows (ops ++ [op]) sc' t' where
  held := hheld
  count := by rw [hcount, h.count, List.length_append, List.length_singleton]
  cursor := hcursor
  array := by
    rw [harray, htarray, ← h.array]
    exact List.map_congr_left fun c hc => creator_held hf (.inl hc)
  recorded host i hi := by
    rw [hthosts] at hi
    obtain ⟨c, hc, hrec, hcr⟩ := h.recorded host i hi
    exact ⟨c, harray ▸ hc, (hkept host i hi).trans hrec, by rw [creator_held hf (.inl hc), hcr]⟩
  leftover host c hi hc := by
    rw [hthosts] at hi
    rw [harray]
    exact h.leftover host c hi (hold host c hc)

/-- A successful `append`. -/
theorem append (h : Follows ops sc t) {env : Alloc} (hret : env.ret ≠ -1)
    (hf : ChannelOp.Fresh sc (.append host env)) :
    Follows (ops ++ [.append host env]) (sc.push host (k.newPtr host env))
      (t.step (.append host true)) := by
  have hnew : creator (ops ++ [.append host env]) env.ptr = some t.count := by
    have hptr : (ChannelOp.append host env).newPtr? = some env.ptr := if_neg hret
    rw [creator_concat, if_pos hptr, h.count]
  have hne := hf hret
  refine ⟨h.held.push hne, ?_, h.cursor, ?_, fun host' i hi => ?_, fun host' c hi hc d hd => ?_⟩
  · simp [Roster.step_append, h.count]
  · have hkept : sc.rotatingArray.map (creator (ops ++ [.append host env]) ·.ptr) =
        sc.rotatingArray.map (creator ops ·.ptr) :=
      List.map_congr_left fun c hc => creator_held hf (.inl hc)
    rw [ServiceChannel.push_rotatingArray, List.map_append, List.map_singleton, hkept, h.array,
      Roster.step_append, List.map_append, List.map_singleton]
    exact congrArg (fun x => t.array.map some ++ [x]) hnew
  · simp only [Roster.step_append] at hi
    rw [ServiceChannel.push_rotatingArray, ServiceChannel.push_hosts]
    rcases update_some_eq_some.mp hi with ⟨rfl, rfl⟩ | ⟨hh, hi⟩
    · rw [Function.update_self]
      exact ⟨_, List.mem_append_right _ (List.mem_singleton_self _), rfl, hnew⟩
    · rw [Function.update_of_ne hh]
      obtain ⟨c, hc, hrec, hcr⟩ := h.recorded host' i hi
      exact ⟨c, List.mem_append_left _ hc, hrec, by rw [creator_held hf (.inl hc), hcr]⟩
  · simp only [Roster.step_append] at hi
    rw [ServiceChannel.push_hosts] at hc
    rw [ServiceChannel.push_rotatingArray, List.mem_append, List.mem_singleton] at hd
    have hh : host' ≠ host := by
      rintro rfl
      rw [Function.update_self] at hi
      cases hi
    rw [Function.update_of_ne hh] at hi hc
    rcases hd with hd | rfl
    · exact h.leftover host' c hi hc d hd
    · exact (hne c (.inr ⟨host', hc⟩)).symm

/-- The arrays without a channel. -/
theorem array_filter (h : Follows ops sc t) {c : Channelptr} {i : Nat}
    (hc : creator ops c.ptr = some i) :
    (sc.rotatingArray.filter (·.ptr ≠ c.ptr)).map (creator ops ·.ptr) =
      (t.array.filter (· ≠ i)).map some := by
  have hcond : sc.rotatingArray.filter (·.ptr ≠ c.ptr) =
      sc.rotatingArray.filter ((· ≠ some i) ∘ (creator ops ·.ptr)) := by
    refine List.filter_congr fun d _ => ?_
    have hiff : d.ptr = c.ptr ↔ creator ops d.ptr = some i :=
      ⟨fun hd => by rw [hd, hc], fun hd => creator_inj hd hc⟩
    simp [hiff]
  rw [hcond, ← List.filter_map, h.array, List.filter_map]
  refine congrArg (List.map some) (List.filter_congr fun j _ => ?_)
  simp

/-- A `remove` of a host that the roster has. -/
theorem remove (h : Follows ops sc t) {i : Nat} (hi : t.hosts host = some i) :
    Follows (ops ++ [.remove host]) (k.remove sc host).1 (t.step (.remove host)) := by
  obtain ⟨c, hmem, hrec, hcr⟩ := h.recorded host i hi
  have hheld := h.held.remove k host
  have hcreator : ∀ p, creator (ops ++ [.remove host]) p = creator ops p := fun p => by
    rw [creator_concat]
    rfl
  obtain ⟨hosts, he, hold, hother⟩ := k.remove_recorded hrec
  rw [he, h.held.eraseIdx_find hmem] at hheld ⊢
  rw [Roster.step_remove_some hi]
  refine ⟨hheld, ?_, h.cursor, ?_, fun host' j hj => ?_, fun host' d hd hd' e hmem' => ?_⟩
  · simp [h.count]
  · simp only [hcreator]
    exact h.array_filter hcr
  · obtain ⟨hh, hj⟩ := update_none_eq_some.mp hj
    obtain ⟨d, hd, hrec', hcr'⟩ := h.recorded host' j hj
    refine ⟨d, List.mem_filter.mpr ⟨hd, ?_⟩, by rw [← hrec']; exact hother host' hh, ?_⟩
    · simpa using fun hp => hh (h.held.inj host' host d c hrec' hrec hp)
    · rw [hcreator, hcr']
  · obtain ⟨hmem', hp⟩ := List.mem_filter.mp hmem'
    simp only at hd hd'
    by_cases hh : host' = host
    · subst hh
      obtain rfl : c = d := Option.some.inj (hrec.symm.trans (hold host' d hd'))
      simpa using hp
    · rw [Function.update_of_ne hh] at hd
      rw [hother host' hh] at hd'
      exact h.leftover host' d hd hd' e hmem'

/-- A `remove` of a host that the roster does not have: the map has no entry, or one left over. -/
theorem remove_none (h : Follows ops sc t) (hi : t.hosts host = none) :
    Follows (ops ++ [.remove host]) (k.remove sc host).1 (t.step (.remove host)) := by
  have hf : ChannelOp.Fresh sc (.remove host) := trivial
  have hheld := h.held.remove k host
  rw [Roster.step_remove_none hi]
  cases hc : sc.hosts host with
  | none =>
    rw [k.remove_notFound hc]
    exact h.frame hf h.held rfl h.cursor rfl (fun _ _ h => h) (fun _ _ _ => rfl) rfl rfl
  | some c =>
    obtain ⟨hosts, he, hold, hother⟩ := k.remove_recorded hc
    -- the loop of `remove` finds nothing
    have hfind : sc.find c = sc.rotatingArray.length := by
      refine List.findIdx_eq_length.mpr fun d hd => ?_
      simpa using h.leftover host c hi hc d hd
    rw [he, List.eraseIdx_of_length_le (by omega)] at hheld ⊢
    refine h.frame hf hheld rfl h.cursor rfl hold (fun host' i hi' => ?_) rfl rfl
    refine hother host' ?_
    rintro rfl
    rw [hi] at hi'
    cases hi'

/-- **One call.** -/
theorem step (h : Follows ops sc t) {op : ChannelOp} (hf : op.Fresh sc) :
    Follows (ops ++ [op]) (sc.step k op) (t.step op.nodeOp) := by
  cases op with
  | append host env =>
    rw [ServiceChannel.step, Copy.append_eq]
    by_cases hret : env.ret = -1
    · rw [if_pos hret]
      have hop : (ChannelOp.append host env).nodeOp = .append host false := by
        simp [ChannelOp.nodeOp, hret]
      rw [hop, Roster.step_append_failed]
      exact h.frame hf h.held rfl h.cursor rfl (fun _ _ h => h) (fun _ _ _ => rfl) rfl rfl
    · rw [if_neg hret]
      have hop : (ChannelOp.append host env).nodeOp = .append host true := by
        simp [ChannelOp.nodeOp, hret]
      rw [hop]
      exact h.append hret hf
  | remove host =>
    cases hi : t.hosts host with
    | none => exact h.remove_none hi
    | some i => exact h.remove hi
  | choose =>
    have hlen := h.length_eq
    have hhosts := sc.choose_hosts
    refine h.frame hf (h.held.step hf) ?_ ?_ sc.choose_rotatingArray
      (fun host c hc => hhosts ▸ hc) (fun host _ _ => congrFun hhosts host) ?_ ?_
    all_goals simp only [ChannelOp.nodeOp, Roster.step]
    · split <;> rfl
    · rw [ServiceChannel.step, ServiceChannel.choose, hlen]
      split
      · exact h.cursor
      · simp only [h.cursor]
    · split <;> rfl
    · split <;> rfl

/-- What `choose` gives. -/
theorem chosen_eq (h : Follows ops sc t) : sc.choose.1.byCreator ops = t.chosen := by
  have hlen := h.length_eq
  have hget := congrArg (·[sc.rotationCount]?) h.array
  simp only [List.getElem?_map] at hget
  rw [Roster.chosen, ServiceChannel.choose, hlen, h.cursor]
  split
  · rfl
  · simp only [ServiceChannel.get]
    cases hi : t.array[sc.rotationCount]? with
    | none =>
      rw [hi, Option.map_none, Option.map_eq_none_iff] at hget
      rw [hget]
      rfl
    | some i =>
      rw [hi, Option.map_some, Option.map_eq_some_iff] at hget
      obtain ⟨c, hc, hcr⟩ := hget
      rw [hc]
      exact congrArg Chosen.channel hcr

end Follows

/-- **A run of a copy** follows the roster. -/
theorem follows_run {k : Copy} {serviceName : String} {ops : List ChannelOp}
    (hf : Along (ServiceChannel.step k) ChannelOp.Fresh (.new serviceName) ops) :
    Follows ops (run (ServiceChannel.step k) (.new serviceName) ops)
      (run Roster.step .new (ops.map ChannelOp.nodeOp)) := by
  induction ops using List.reverseRecOn with
  | nil => exact .init serviceName
  | append_singleton ops op ih =>
    obtain ⟨hops, hop⟩ := along_append.mp hf
    rw [List.map_append, run_append, run_append]
    exact (ih hops).step hop.1

/-! ## The rotation -/

/-- Runs of the two copies with the same calls, in which each `Init` has the same success or
failure. -/
structure TwinRun where
  etcd : ChannelRun .etcdTest
  brpc : ChannelRun .brpcTest
  same : etcd.ops.map ChannelOp.nodeOp = brpc.ops.map ChannelOp.nodeOp

/-- The states of the two copies have the same rotation: equal cursors, arrays with the channels of
the same calls, and a `choose` gives the same. -/
def RotateAlike (etcdOps brpcOps : List ChannelOp) (etcd brpc : ServiceChannel) : Prop :=
  etcd.rotationCount = brpc.rotationCount ∧
  (∃ calls : List Nat, etcd.rotatingArray.map (creator etcdOps ·.ptr) = calls.map some ∧
    brpc.rotatingArray.map (creator brpcOps ·.ptr) = calls.map some) ∧
  etcd.choose.1.byCreator etcdOps = brpc.choose.1.byCreator brpcOps

theorem Follows.alike {ops ops' : List ChannelOp} {sc sc' : ServiceChannel} {t : Roster}
    (h : Follows ops sc t) (h' : Follows ops' sc' t) : RotateAlike ops ops' sc sc' :=
  ⟨h.cursor.symm.trans h'.cursor, ⟨t.array, h.array, h'.array⟩, h.chosen_eq.trans h'.chosen_eq.symm⟩

/-- **The two copies rotate alike**, before the run and after each of its calls. -/
theorem TwinRun.rotateAlike (r : TwinRun) (n : Nat) :
    RotateAlike (r.etcd.ops.take n) (r.brpc.ops.take n)
      (run (ServiceChannel.step .etcdTest) (.new r.etcd.serviceName) (r.etcd.ops.take n))
      (run (ServiceChannel.step .brpcTest) (.new r.brpc.serviceName) (r.brpc.ops.take n)) := by
  have hetcd := follows_run (r.etcd.fresh.left (List.take_prefix n _))
  have hbrpc := follows_run (r.brpc.fresh.left (List.take_prefix n _))
  rw [List.map_take, r.same, ← List.map_take] at hetcd
  exact hetcd.alike hbrpc

/-- The second of two nodes leaves and comes back. `example/brpc_test` keeps its entry in the map. -/
def comesBack : TwinRun where
  etcd := .ofNodup .etcdTest "/service/echo"
    [.append "127.0.0.1:8080" ⟨1, 0⟩, .append "127.0.0.1:8081" ⟨2, 0⟩, .choose,
      .remove "127.0.0.1:8081", .choose, .append "127.0.0.1:8081" ⟨3, 0⟩, .choose] (by decide)
  brpc := .ofNodup .brpcTest "/service/echo"
    [.append "127.0.0.1:8080" ⟨5, 0⟩, .append "127.0.0.1:8081" ⟨6, 0⟩, .choose,
      .remove "127.0.0.1:8081", .choose, .append "127.0.0.1:8081" ⟨9, 0⟩, .choose] (by decide)
  same := by decide

theorem rotateAlike_comesBack :
    RotateAlike (comesBack.etcd.ops.take 7) (comesBack.brpc.ops.take 7)
      (run (ServiceChannel.step .etcdTest) (.new "/service/echo") (comesBack.etcd.ops.take 7))
      (run (ServiceChannel.step .brpcTest) (.new "/service/echo") (comesBack.brpc.ops.take 7)) :=
  comesBack.rotateAlike 7

end CharSystem
