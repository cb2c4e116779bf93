import CharSystem.Channel.Cursor
import CharSystem.Rotor
import Mathlib.Data.List.Count

/-!
# The rotation of a `ServiceChannel` (`example/etcd_test`)

`_rotating_array` and `_rotation_count` are a round robin (`ServiceChannel.rotor`).

* `JoinSegment.roundRobin`: while nodes only join, the rotation is fair. Between two turns of a
  channel every other channel that was there has exactly one turn.
* `ChannelRun.chooses_remove_iff`: when `remove` of a node skips the turn of no other node. `remove`
  does not touch the cursor, so a removal in front of the cursor moves the next channel to a slot
  that the cursor has passed.
-/

namespace CharSystem

/-- What a call returns, if it is a `choose`. -/
def ChannelOp.chosen (sc : ServiceChannel) : ChannelOp → List ChooseResult
  | .choose => [sc.choose.1]
  | _ => []

/-- The channels that the successful `append`s among the calls create. -/
def ChannelOp.joined (k : Copy) (ops : List ChannelOp) : List Channelptr :=
  ops.filterMap fun
    | .append host env => if env.ret = -1 then none else some (k.newPtr host env)
    | _ => none

/-- What `_rotating_array[i]` gives. -/
def ChooseResult.ofShown : Option Channelptr → ChooseResult
  | some c => .channel c
  | none => .outOfRange

theorem ChooseResult.ofShown_injective : Function.Injective ofShown := by
  intro x y h
  cases x <;> cases y <;> simp_all [ofShown]

namespace ServiceChannel

/-- The results of the `choose`s among the calls. -/
def results (k : Copy) (sc : ServiceChannel) (ops : List ChannelOp) : List ChooseResult :=
  outputs (step k) (fun sc op => op.chosen sc) sc ops

/-- The results of the next `n` calls of `choose`. -/
def chooses (sc : ServiceChannel) : Nat → List ChooseResult
  | 0 => []
  | n + 1 => sc.choose.1 :: sc.choose.2.chooses n

/-- The array and the cursor. -/
def rotor (sc : ServiceChannel) : Rotor Channelptr := ⟨sc.rotatingArray, sc.rotationCount⟩

variable {sc : ServiceChannel}

@[simp] theorem rotor_items : sc.rotor.items = sc.rotatingArray := rfl

@[simp] theorem rotor_pos : sc.rotor.pos = sc.rotationCount := rfl

theorem rotor_choose : sc.choose.2.rotor = sc.rotor.next := by
  by_cases h : sc.rotatingArray = []
  · rw [choose_nil h]
    simp [Rotor.next, h]
  · rw [choose_cons h]
    simp [Rotor.next, h, rotor]

theorem choose_eq_ofShown (h : sc.rotatingArray ≠ []) : sc.choose.1 = .ofShown sc.rotor.shown := by
  rw [choose_cons h, get, Rotor.shown]
  cases he : sc.rotatingArray[sc.rotationCount]? with
  | none => simp [ChooseResult.ofShown, he]
  | some c => simp [ChooseResult.ofShown, he]

theorem chooses_eq (h : sc.rotatingArray ≠ []) (n : Nat) :
    sc.chooses n = (sc.rotor.shows n).map .ofShown := by
  induction n generalizing sc with
  | zero => rfl
  | succ n ih =>
    rw [chooses, Rotor.shows, List.map_cons, choose_eq_ofShown h, ih (by rwa [choose_rotatingArray]),
      rotor_choose]

/-- A `choose` with its cursor in range. -/
theorem shown_of_choose {c : Channelptr} (h : sc.choose.1 = .channel c) : sc.rotor.shown = some c := by
  have hne : sc.rotatingArray ≠ [] := List.ne_nil_of_mem (choose_mem h)
  rw [choose_eq_ofShown hne] at h
  exact ChooseResult.ofShown_injective h

/-- The cursor of an empty array is `0`, and the cursor of a nonempty one is in range. -/
structure CursorOk (sc : ServiceChannel) : Prop where
  inRange : sc.ChooseInRange
  restarts : sc.CursorRestarts

theorem CursorOk.new (serviceName : String) : (ServiceChannel.new serviceName).CursorOk :=
  ⟨fun h => absurd rfl h, fun _ => rfl⟩

theorem CursorOk.choose (h : sc.rotatingArray ≠ []) : sc.choose.2.CursorOk := by
  have hlt : sc.choose.2.rotationCount < sc.choose.2.rotatingArray.length := by
    rw [choose_cons h]
    exact Nat.mod_lt _ (List.length_pos_iff.mpr h)
  exact ⟨chooseInRange_iff.mpr fun _ => hlt, fun he => absurd he (by rwa [choose_rotatingArray])⟩

/-- A call that is not a `remove` keeps the cursor in range. -/
theorem CursorOk.step (h : sc.CursorOk) (hi : sc.RepInv) {op : ChannelOp}
    (hop : ∀ host, op ≠ .remove host) : (sc.step .etcdTest op).CursorOk := by
  refine ⟨(h.inRange.step_iff h.restarts hi op).mpr ?_, h.restarts.step hi h.inRange op⟩
  cases op with
  | remove host => exact absurd rfl (hop host)
  | append host env => trivial
  | choose => trivial

/-- The array after calls without `remove`. -/
theorem rotatingArray_run {k : Copy} {ops : List ChannelOp} (hops : ∀ op ∈ ops, ∀ host, op ≠ .remove host) :
    (run (step k) sc ops).rotatingArray = sc.rotatingArray ++ ChannelOp.joined k ops := by
  induction ops generalizing sc with
  | nil => simp [ChannelOp.joined]
  | cons op ops ih =>
    rw [run_cons, ih fun op' hop => hops op' (List.mem_cons_of_mem op hop)]
    cases op with
    | remove host => exact absurd rfl (hops _ List.mem_cons_self host)
    | append host env =>
      by_cases hret : env.ret = -1
      · simp [step, Copy.append_eq, ChannelOp.joined, hret]
      · simp [step, Copy.append_eq, ChannelOp.joined, hret]
    | choose => simp [step, ChannelOp.joined]

/-- What has been shown since a channel `c` had its turn. -/
theorem onTurn_run {c : Channelptr} {mid : List ChannelOp} (hc : sc.choose.1 = .channel c)
    (hops : ∀ op ∈ mid, ∀ host, op ≠ .remove host)
    (hmid : .channel c ∉ sc.choose.2.results .etcdTest mid) :
    ∃ seen, OnTurn sc.rotor (run (step .etcdTest) sc.choose.2 mid).rotor seen ∧
      sc.choose.2.results .etcdTest mid = seen.map .channel := by
  have hshown := shown_of_choose hc
  induction mid using List.reverseRecOn with
  | nil =>
    refine ⟨[], ?_, rfl⟩
    rw [run_nil, rotor_choose]
    exact .begin (List.getElem?_eq_some_iff.mp hshown).1
  | append_singleton mid op ih =>
    rw [results, outputs_append, List.mem_append, not_or] at hmid
    obtain ⟨seen, hturn, hseen⟩ :=
      ih (fun op' hop => hops op' (List.mem_append_left _ hop)) hmid.1
    rw [run_append, run_cons, run_nil, results, outputs_append]
    rw [results] at hseen
    rw [hseen]
    cases op with
    | remove host => exact absurd rfl (hops _ (List.mem_append_right _ (List.mem_singleton_self _)) host)
    | append host env =>
      refine ⟨seen, ?_, by simp [outputs, ChannelOp.chosen]⟩
      simp only [step, Copy.append_eq]
      split
      · exact hturn
      · exact hturn.push _
    | choose =>
      generalize run (step .etcdTest) sc.choose.2 mid = t at hturn hmid
      have hne : t.rotatingArray ≠ [] :=
        List.ne_nil_of_length_pos (Nat.zero_lt_of_lt hturn.posLt)
      have hres : t.choose.1 ≠ .channel c := by
        intro he
        exact hmid.2 (by simp [outputs, ChannelOp.chosen, he])
      have hpos : t.rotor.pos ≠ sc.rotor.pos := by
        intro he
        refine hres ?_
        have hget : t.rotor.shown = some c := by
          obtain ⟨hlt, hget⟩ := List.getElem?_eq_some_iff.mp hshown
          rw [Rotor.shown_of_lt hturn.posLt, ← hget, Option.some.injEq]
          simp only [he]
          exact (hturn.grown.getElem hlt).symm
        rw [choose_eq_ofShown hne, hget]
        rfl
      obtain ⟨a, ha, hnext⟩ := hturn.next hpos
      refine ⟨seen ++ [a], ?_, ?_⟩
      · rw [step, rotor_choose]
        exact hnext
      · simp [outputs, ChannelOp.chosen, choose_eq_ofShown hne, ha, ChooseResult.ofShown]

theorem mem_chooses {k : Copy} {n : Nat} {x : ChooseResult} (h : x ∈ sc.chooses n) :
    ∃ m, (run (step k) sc (List.replicate m .choose)).choose.1 = x := by
  induction n generalizing sc with
  | zero => cases h
  | succ n ih =>
    rw [chooses, List.mem_cons] at h
    rcases h with rfl | h
    · exact ⟨0, rfl⟩
    · obtain ⟨m, hm⟩ := ih h
      exact ⟨m + 1, hm⟩

/-- Every channel of the array has a turn, also from a cursor that is out of range. -/
theorem exists_choose {c : Channelptr} (k : Copy) (hc : c ∈ sc.rotatingArray) :
    ∃ n, (run (step k) sc (List.replicate n .choose)).choose.1 = .channel c := by
  have hne : sc.choose.2.rotatingArray ≠ [] := by
    rw [choose_rotatingArray]
    exact List.ne_nil_of_mem hc
  have hlt : sc.choose.2.rotor.pos < sc.choose.2.rotor.items.length := by
    rw [rotor_choose, Rotor.next_items]
    exact Rotor.next_pos_lt (List.ne_nil_of_mem hc)
  have hmem : .channel c ∈ sc.choose.2.chooses sc.choose.2.rotatingArray.length := by
    have hturn := Rotor.shows_length hlt
    rw [rotor_items] at hturn
    rw [chooses_eq hne, hturn, List.map_map]
    refine List.mem_map.mpr ⟨c, List.mem_rotate.mpr ?_, rfl⟩
    rwa [choose_rotatingArray]
  obtain ⟨n, hn⟩ := mem_chooses (k := k) hmem
  exact ⟨n + 1, hn⟩

/-- What the `choose`s among the calls `mid` give, after the turn of `c` in `sc`: every other
channel of the array once, a channel that joined at most once, and nothing else. -/
structure FairTurn (sc : ServiceChannel) (c : Channelptr) (mid : List ChannelOp) : Prop where
  others : ∀ d ∈ sc.rotatingArray, d ≠ c →
    (sc.choose.2.results .etcdTest mid).count (.channel d) = 1
  joined : ∀ d ∈ ChannelOp.joined .etcdTest mid,
    (sc.choose.2.results .etcdTest mid).count (.channel d) ≤ 1
  only : ∀ x ∈ sc.choose.2.results .etcdTest mid, ∃ d, x = .channel d ∧ d ≠ c ∧
    (d ∈ sc.rotatingArray ∨ d ∈ ChannelOp.joined .etcdTest mid)

/-- Two turns of `c` with none between them. -/
theorem fairTurn {c : Channelptr} {mid : List ChannelOp} (hc : sc.choose.1 = .channel c)
    (hops : ∀ op ∈ mid, ∀ host, op ≠ .remove host)
    (hmid : .channel c ∉ sc.choose.2.results .etcdTest mid)
    (hi : (run (step .etcdTest) sc.choose.2 mid).RepInv)
    (hagain : (run (step .etcdTest) sc.choose.2 mid).choose.1 = .channel c) :
    sc.FairTurn c mid := by
  obtain ⟨seen, hturn, hseen⟩ := onTurn_run hc hops hmid
  have harray : (run (step .etcdTest) sc.choose.2 mid).rotatingArray =
      sc.rotatingArray ++ ChannelOp.joined .etcdTest mid := by
    rw [rotatingArray_run hops, choose_rotatingArray]
  have hnodup := hi.nodup.of_map
  have hshown := shown_of_choose hc
  -- The channels of the array differ, so the cursor is back at the slot of `c`.
  have hpos : (run (step .etcdTest) sc.choose.2 mid).rotor.pos = sc.rotor.pos := by
    obtain ⟨hlt, hget⟩ := List.getElem?_eq_some_iff.mp hshown
    refine (List.getElem?_inj hturn.posLt hnodup).mp ?_
    rw [← Rotor.shown, shown_of_choose hagain,
      List.getElem?_eq_getElem (Nat.lt_of_lt_of_le hlt hturn.grown.length_le), ← hget,
      hturn.grown.getElem hlt]
  obtain ⟨ys, hle, hys, hrot⟩ := hturn.done hpos hshown
  simp only [rotor_items] at hle hys hrot
  rw [harray] at hnodup hys
  have hseenNodup : (c :: seen).Nodup := by
    rw [hrot, List.nodup_rotate]
    exact hnodup.sublist hys.sublist
  have hmem : ∀ d, d ∈ c :: seen ↔ d ∈ ys := fun d => by rw [hrot, List.mem_rotate]
  rw [List.nodup_cons] at hseenNodup
  have hcount : ∀ d, (sc.choose.2.results .etcdTest mid).count (.channel d) = seen.count d := by
    intro d
    rw [hseen]
    exact List.count_map_of_injective seen _ (fun _ _ h => by cases h; rfl) d
  refine ⟨fun d hd hne => ?_, fun d _ => ?_, fun x hx => ?_⟩
  · rw [hcount]
    have hd : d ∈ c :: seen := (hmem d).mpr (hle.subset hd)
    exact List.count_eq_one_of_mem hseenNodup.2 (List.mem_of_ne_of_mem hne hd)
  · rw [hcount]
    exact List.nodup_iff_count_le_one.mp hseenNodup.2 d
  · rw [hseen] at hx
    obtain ⟨d, hd, rfl⟩ := List.mem_map.mp hx
    refine ⟨d, rfl, fun he => hseenNodup.1 (he ▸ hd), List.mem_append.mp (hys.subset ?_)⟩
    exact (hmem d).mp (List.mem_cons_of_mem c hd)

/-- Full turns with the cursor in range. -/
theorem chooses_mul (hi : sc.RepInv) (h : sc.rotationCount < sc.rotatingArray.length) (k : Nat) :
    sc.chooses (k * sc.rotatingArray.length) =
        (List.replicate k ((sc.rotatingArray.rotate sc.rotationCount).map .channel)).flatten ∧
      ∀ c ∈ sc.rotatingArray,
        (sc.chooses (k * sc.rotatingArray.length)).count (.channel c) = k := by
  have hne : sc.rotatingArray ≠ [] := List.ne_nil_of_length_pos (by omega)
  have heq : sc.chooses (k * sc.rotatingArray.length) =
      (List.replicate k ((sc.rotatingArray.rotate sc.rotationCount).map .channel)).flatten := by
    have hmul := Rotor.shows_mul (r := sc.rotor) h k
    rw [rotor_items] at hmul
    rw [chooses_eq hne, hmul, List.map_flatten, List.map_replicate, List.map_map]
    rfl
  refine ⟨heq, fun c hc => ?_⟩
  have hone : ((sc.rotatingArray.rotate sc.rotationCount).map ChooseResult.channel).count
      (.channel c) = 1 := by
    rw [List.count_map_of_injective _ _ (fun _ _ h => by cases h; rfl)]
    exact List.count_eq_one_of_mem (List.nodup_rotate.mpr hi.nodup.of_map) (List.mem_rotate.mpr hc)
  rw [heq, List.count_flatten, List.map_replicate, hone, List.sum_replicate_nat,
    Nat.mul_one]

end ServiceChannel

/-- A segment of a run in which nodes only join. It starts at the construction, or right after a
`choose` on a nonempty array. -/
structure JoinSegment where
  whole : ChannelRun .etcdTest
  before : List ChannelOp
  ops : List ChannelOp
  split : whole.ops = before ++ ops
  joins : ∀ op ∈ ops, ∀ host, op ≠ .remove host
  start : before = [] ∨ ∃ pre, before = pre ++ [.choose] ∧
    (run (ServiceChannel.step .etcdTest) (.new whole.serviceName) pre).rotatingArray ≠ []

namespace JoinSegment

variable (g : JoinSegment)

/-- The state after the calls `l` of the segment. -/
def after (l : List ChannelOp) : ServiceChannel :=
  run (ServiceChannel.step .etcdTest) (.new g.whole.serviceName) (g.before ++ l)

theorem after_append (l l' : List ChannelOp) :
    g.after (l ++ l') = run (ServiceChannel.step .etcdTest) (g.after l) l' := by
  rw [after, after, ← List.append_assoc, run_append]

theorem repInv_after {l : List ChannelOp} (hl : l <+: g.ops) : (g.after l).RepInv := by
  obtain ⟨r, hr⟩ := hl
  refine repInv_run (.new _) (g.whole.fresh.left ⟨r, ?_⟩)
  rw [g.split, ← hr, List.append_assoc]

theorem cursorOk_after {l : List ChannelOp} (hl : l <+: g.ops) : (g.after l).CursorOk := by
  induction l using List.reverseRecOn with
  | nil =>
    unfold after
    rcases g.start with hb | ⟨pre, hb, hne⟩
    · rw [hb]
      exact .new _
    · rw [hb, List.append_nil, run_append, run_cons, run_nil]
      exact .choose hne
  | append_singleton l op ih =>
    have hl' : l <+: g.ops := (List.prefix_append l [op]).trans hl
    rw [after_append, run_cons, run_nil]
    refine (ih hl').step (g.repInv_after hl') (g.joins op (hl.subset ?_))
    exact List.mem_append_right _ (List.mem_singleton_self _)

/-- **Round robin while nodes join.** Between two turns of a channel, with none of its turns between
them, every other channel of the array has one turn, a channel that joins has at most one, and
nothing else is returned. While no node joins, full turns return every channel once each, in cyclic
order. -/
theorem roundRobin :
    (∀ l mid c, l ++ .choose :: mid <+: g.ops → (g.after l).choose.1 = .channel c →
      .channel c ∉ (g.after l).choose.2.results .etcdTest mid →
      (g.after (l ++ .choose :: mid)).choose.1 = .channel c → (g.after l).FairTurn c mid) ∧
    ∀ l, l <+: g.ops → (g.after l).rotatingArray ≠ [] → ∀ k,
      (g.after l).chooses (k * (g.after l).rotatingArray.length) = (List.replicate k
        (((g.after l).rotatingArray.rotate (g.after l).rotationCount).map .channel)).flatten ∧
      ∀ c ∈ (g.after l).rotatingArray,
        ((g.after l).chooses (k * (g.after l).rotatingArray.length)).count (.channel c) = k := by
  refine ⟨fun l mid c hl hc hmid hagain => ?_, fun l hl hne k => ?_⟩
  · have hrun : g.after (l ++ .choose :: mid) =
        run (ServiceChannel.step .etcdTest) (g.after l).choose.2 mid := by
      rw [after_append, run_cons]
      rfl
    have hi := g.repInv_after hl
    rw [hrun] at hagain hi
    refine ServiceChannel.fairTurn hc (fun op hop => g.joins op (hl.subset ?_)) hmid hi hagain
    exact List.mem_append_right _ (List.mem_cons_of_mem _ hop)
  · have hlt := ServiceChannel.chooseInRange_iff.mp (g.cursorOk_after hl).inRange hne
    exact ServiceChannel.chooses_mul (g.repInv_after hl) hlt k

/-- A third node joins between two turns of the first. -/
def thirdJoins : JoinSegment where
  whole := .ofNodup .etcdTest "/service/echo"
    [.append "127.0.0.1:8080" ⟨1, 0⟩, .append "127.0.0.1:8081" ⟨2, 0⟩, .choose,
      .append "127.0.0.1:8082" ⟨3, 0⟩, .choose, .choose, .choose] (by decide)
  before := []
  ops := [.append "127.0.0.1:8080" ⟨1, 0⟩, .append "127.0.0.1:8081" ⟨2, 0⟩, .choose,
    .append "127.0.0.1:8082" ⟨3, 0⟩, .choose, .choose, .choose]
  split := rfl
  joins := by simp
  start := .inl rfl

theorem roundRobin_thirdJoins :
    (thirdJoins.after [.append "127.0.0.1:8080" ⟨1, 0⟩, .append "127.0.0.1:8081" ⟨2, 0⟩]).FairTurn
      (Copy.etcdTest.newPtr "127.0.0.1:8080" ⟨1, 0⟩)
      [.append "127.0.0.1:8082" ⟨3, 0⟩, .choose, .choose] :=
  thirdJoins.roundRobin.1 _ _ _ (by decide) (by decide) (by decide) (by decide)

end JoinSegment

/-! ## Removal -/

/-- **When `remove` skips no turn.** A recorded host leaves an array of at least two channels with
the cursor in range. The next turns of the other channels come in the order in which they would have
come without the removal, exactly when the cursor is not behind the removed channel's slot and not
at the end of the array. -/
theorem ChannelRun.chooses_remove_iff (r : ChannelRun .etcdTest) {host : String} {c : Channelptr}
    (hc : r.state.hosts host = some c) (hlen : 2 ≤ r.state.rotatingArray.length)
    (hcursor : r.state.rotationCount < r.state.rotatingArray.length) :
    (EtcdTest.remove r.state host).1.chooses (r.state.rotatingArray.length - 1) =
        (r.state.chooses r.state.rotatingArray.length).filter (· ≠ .channel c) ↔
      r.state.rotationCount ≤ r.state.find c ∧
        r.state.rotationCount + 1 < r.state.rotatingArray.length := by
  have hi : r.state.RepInv := repInv_run (.new _) r.fresh
  generalize r.state = sc at *
  obtain ⟨l, t, harray, hremove⟩ := hi.remove_eq hc
  have hfind := hi.held.find_eq harray
  have hget : sc.rotor.items[sc.find c]? = some c := by
    rw [hfind, ServiceChannel.rotor_items, harray]
    simp
  have herase : (EtcdTest.remove sc host).1.rotor = sc.rotor.erase (sc.find c) := by
    rw [hremove, hfind]
    simp [ServiceChannel.rotor, Rotor.erase, harray, List.eraseIdx_append_of_length_le]
  have hne : (EtcdTest.remove sc host).1.rotatingArray ≠ [] := by
    rw [harray, List.length_append, List.length_cons] at hlen
    rw [hremove]
    exact List.ne_nil_of_length_pos (by rw [List.length_append]; omega)
  have hfilter : ((sc.rotor.shows sc.rotatingArray.length).map ChooseResult.ofShown).filter
      (· ≠ .channel c) =
      ((sc.rotor.shows sc.rotatingArray.length).filter (· ≠ some c)).map .ofShown := by
    rw [List.filter_map]
    refine congrArg (List.map _) (List.filter_congr fun x _ => ?_)
    have hx : ChooseResult.ofShown x = .channel c ↔ x = some c :=
      ChooseResult.ofShown_injective.eq_iff (b := some c)
    simp [hx]
  rw [ServiceChannel.chooses_eq hne, ServiceChannel.chooses_eq (List.ne_nil_of_length_pos (by omega)),
    hfilter, herase, (List.map_injective_iff.mpr ChooseResult.ofShown_injective).eq_iff]
  exact Rotor.shows_erase_iff hi.nodup.of_map hcursor hget hlen

/-- Three nodes; the first has had its turn, and the second is next. -/
def threeNodes : ChannelRun .etcdTest :=
  .ofNodup .etcdTest "/service/echo"
    [.append "127.0.0.1:8080" ⟨1, 0⟩, .append "127.0.0.1:8081" ⟨2, 0⟩,
      .append "127.0.0.1:8082" ⟨3, 0⟩, .choose] (by decide)

theorem chooses_remove_threeNodes :
    (EtcdTest.remove threeNodes.state "127.0.0.1:8082").1.chooses
        (threeNodes.state.rotatingArray.length - 1) =
        (threeNodes.state.chooses threeNodes.state.rotatingArray.length).filter
          (· ≠ .channel (Copy.etcdTest.newPtr "127.0.0.1:8082" ⟨3, 0⟩)) ↔
      threeNodes.state.rotationCount ≤
          threeNodes.state.find (Copy.etcdTest.newPtr "127.0.0.1:8082" ⟨3, 0⟩) ∧
        threeNodes.state.rotationCount + 1 < threeNodes.state.rotatingArray.length :=
  threeNodes.chooses_remove_iff (by decide) (by decide) (by decide)

/-- When the first of `threeNodes` leaves, the second misses its turn. -/
theorem not_chooses_remove : ¬ ∀ (r : ChannelRun .etcdTest) (host : String) (c : Channelptr),
    r.state.hosts host = some c → 2 ≤ r.state.rotatingArray.length →
    r.state.rotationCount < r.state.rotatingArray.length →
    (EtcdTest.remove r.state host).1.chooses (r.state.rotatingArray.length - 1) =
      (r.state.chooses r.state.rotatingArray.length).filter (· ≠ .channel c) := by
  intro h
  have heq := h threeNodes "127.0.0.1:8080" (Copy.etcdTest.newPtr "127.0.0.1:8080" ⟨1, 0⟩)
    (by decide) (by decide) (by decide)
  revert heq
  decide

end CharSystem
