import CharSystem.Channel.Basic
import Mathlib.Data.List.Nodup
import Mathlib.Data.List.Induction

/-!
# The representation invariant of `ServiceChannel` (`example/etcd_test`)

`_rotating_array` and `_hosts` are two representations of the nodes of a service. `append` of a
recorded host overwrites the map entry and leaves the older channel in the array, so the array can
have more channels than the map; but every recorded channel is in the array, once, and was created
for its host (`ServiceChannel.RepInv`).

* `RepInv.remove_eq`: on a recorded host `remove` deletes the recorded channel from the array and
  the host from the map. The loop of `remove` never misses (`RepInv.remove_exit`).
* `RepInv.step`: every call keeps the invariant, if `new` gives a fresh address.
* `Live`: the host's last effective call is a successful `append`, read off the calls alone.
* `ChannelRun.representation`: all of it, for every run.
-/

namespace CharSystem

/-- What holds in both copies: the array has no channel twice, and two hosts never map to one
channel. -/
structure ServiceChannel.HeldInv (sc : ServiceChannel) : Prop where
  nodup : (sc.rotatingArray.map (·.ptr)).Nodup
  inj : ∀ host host' c c', sc.hosts host = some c → sc.hosts host' = some c' → c.ptr = c'.ptr →
    host = host'

/-- The representation invariant (module doc). -/
structure ServiceChannel.RepInv (sc : ServiceChannel) : Prop where
  nodup : (sc.rotatingArray.map (·.ptr)).Nodup
  mem : ∀ host c, sc.hosts host = some c → c ∈ sc.rotatingArray
  inj : ∀ host host' c c', sc.hosts host = some c → sc.hosts host' = some c' → c.ptr = c'.ptr →
    host = host'
  addr : ∀ host c, sc.hosts host = some c → c.addr = host

namespace ServiceChannel

variable {sc : ServiceChannel} {host : String} {c : Channelptr}

/-! ## Both copies -/

theorem HeldInv.new (serviceName : String) : (ServiceChannel.new serviceName).HeldInv :=
  ⟨List.nodup_nil, fun _ _ _ _ h => (by cases h)⟩

/-- The loop of `remove` stops at the channel that it looks for: no other has its address. -/
theorem HeldInv.find_eq (hi : sc.HeldInv) {l r : List Channelptr}
    (h : sc.rotatingArray = l ++ c :: r) : sc.find c = l.length := by
  have hn := hi.nodup
  rw [h, List.map_append, List.map_cons, List.nodup_middle, List.nodup_cons] at hn
  have hl : ∀ d ∈ l, (d.ptr == c.ptr) = false := fun d hd => by
    simp only [beq_eq_false_iff_ne]
    intro he
    exact hn.1 (List.mem_append_left _ (he ▸ List.mem_map_of_mem hd))
  unfold find
  rw [h, List.findIdx_append, List.findIdx_eq_length_of_false hl]
  simp [List.findIdx_cons]

/-- Only the channel has its address. -/
theorem HeldInv.eraseIdx_find (hi : sc.HeldInv) (hc : c ∈ sc.rotatingArray) :
    sc.rotatingArray.eraseIdx (sc.find c) = sc.rotatingArray.filter (·.ptr ≠ c.ptr) := by
  obtain ⟨l, r, h⟩ := List.append_of_mem hc
  have hn := hi.nodup
  rw [h, List.map_append, List.map_cons, List.nodup_middle, List.nodup_cons, List.mem_append,
    not_or] at hn
  have hkeep : ∀ x : List Channelptr, c.ptr ∉ x.map (·.ptr) → x.filter (·.ptr ≠ c.ptr) = x := by
    intro x hx
    refine List.filter_eq_self.mpr fun d hd => ?_
    simpa using fun he : d.ptr = c.ptr => hx (he ▸ List.mem_map_of_mem hd)
  rw [hi.find_eq h, h, List.eraseIdx_append_of_length_le (Nat.le_refl _), List.filter_append,
    List.filter_cons_of_neg (by simp), hkeep l hn.1.1, hkeep r hn.1.2]
  simp

theorem HeldInv.push (hi : sc.HeldInv) (hf : ∀ d, sc.Holds d → d.ptr ≠ c.ptr) :
    (sc.push host c).HeldInv := by
  have hne : ∀ h' c', sc.hosts h' = some c' → c'.ptr ≠ c.ptr := fun h' c' h => hf c' (.inr ⟨h', h⟩)
  refine ⟨?_, fun h₁ h₂ c₁ c₂ e₁ e₂ he => ?_⟩
  · rw [push_rotatingArray, List.map_append, List.map_singleton]
    refine List.nodup_append.mpr ⟨hi.nodup, List.nodup_singleton _, fun p hp q hq => ?_⟩
    obtain ⟨d, hd, rfl⟩ := List.mem_map.mp hp
    rw [List.mem_singleton.mp hq]
    exact hf d (.inl hd)
  · rw [push_hosts] at e₁ e₂
    -- The new channel has a new address, so a host other than `host` does not map to it.
    rcases update_some_eq_some.mp e₁ with ⟨rfl, rfl⟩ | ⟨-, e₁⟩
    · rcases update_some_eq_some.mp e₂ with ⟨h2, -⟩ | ⟨-, e₂⟩
      · exact h2.symm
      · exact absurd he.symm (hne h₂ c₂ e₂)
    · rcases update_some_eq_some.mp e₂ with ⟨-, rfl⟩ | ⟨-, e₂⟩
      · exact absurd he (hne h₁ c₁ e₁)
      · exact hi.inj h₁ h₂ c₁ c₂ e₁ e₂ he

theorem HeldInv.remove (hi : sc.HeldInv) (k : Copy) (host : String) : (k.remove sc host).1.HeldInv := by
  cases hc : sc.hosts host with
  | none => rwa [k.remove_notFound hc]
  | some c =>
    obtain ⟨hosts, he, hold, -⟩ := k.remove_recorded hc
    rw [he]
    exact ⟨hi.nodup.sublist ((List.eraseIdx_sublist _ _).map _), fun h₁ h₂ c₁ c₂ e₁ e₂ =>
      hi.inj h₁ h₂ c₁ c₂ (hold h₁ c₁ e₁) (hold h₂ c₂ e₂)⟩

theorem HeldInv.step {k : Copy} (hi : sc.HeldInv) {op : ChannelOp} (hf : op.Fresh sc) :
    (sc.step k op).HeldInv := by
  cases op with
  | append host env =>
    simp only [ServiceChannel.step, Copy.append_eq]
    split
    · exact hi
    · rename_i hret
      exact hi.push (hf hret)
  | remove host => exact hi.remove k host
  | choose =>
    exact ⟨by rw [ServiceChannel.step, choose_rotatingArray]; exact hi.nodup,
      by rw [ServiceChannel.step, choose_hosts]; exact hi.inj⟩

/-! ## The representation invariant -/

theorem RepInv.new (serviceName : String) : (ServiceChannel.new serviceName).RepInv :=
  ⟨List.nodup_nil, fun _ _ h => (by cases h), fun _ _ _ _ h => (by cases h),
    fun _ _ h => (by cases h)⟩

theorem RepInv.held (hi : sc.RepInv) : sc.HeldInv := ⟨hi.nodup, hi.inj⟩

/-- **`remove` of a recorded host.** The array loses the recorded channel, the other channels keep
their order, and the map loses the host. -/
theorem RepInv.remove_eq (hi : sc.RepInv) (hc : sc.hosts host = some c) :
    ∃ l r, sc.rotatingArray = l ++ c :: r ∧ EtcdTest.remove sc host =
      ({ sc with rotatingArray := l ++ r, hosts := Function.update sc.hosts host none },
        .removed) := by
  obtain ⟨l, r, h⟩ := List.append_of_mem (hi.mem host c hc)
  refine ⟨l, r, h, ?_⟩
  have hlt : sc.find c < sc.rotatingArray.length := by rw [hi.held.find_eq h, h]; simp
  have hr : sc.rotatingArray.eraseIdx (sc.find c) = l ++ r := by
    rw [hi.held.find_eq h, h, List.eraseIdx_append_of_length_le (Nat.le_refl _)]
    simp
  simp [EtcdTest.remove, hc, hlt, hr]

/-- `RepInv.remove_eq`, with the array as a filter. -/
theorem RepInv.remove_filter (hi : sc.RepInv) (hc : sc.hosts host = some c) :
    EtcdTest.remove sc host =
      ({ sc with
          rotatingArray := sc.rotatingArray.filter (· != c)
          hosts := Function.update sc.hosts host none }, .removed) := by
  obtain ⟨l, r, h, he⟩ := hi.remove_eq hc
  have hn := hi.nodup.of_map
  rw [h, List.nodup_middle, List.nodup_cons, List.mem_append, not_or] at hn
  have hne : ∀ t : List Channelptr, c ∉ t → t.filter (· != c) = t := fun t ht =>
    List.filter_eq_self.mpr fun d hd => by simpa using fun hdc : d = c => ht (hdc ▸ hd)
  rw [he, h, List.filter_append, List.filter_cons_of_neg (by simp), hne l hn.1.1, hne r hn.1.2]

/-- The error branch of `remove` is never taken. -/
theorem RepInv.remove_exit (hi : sc.RepInv) (host : String) :
    (EtcdTest.remove sc host).2 ≠ .logicError := by
  cases hc : sc.hosts host with
  | none => simp [EtcdTest.remove, hc]
  | some c =>
    obtain ⟨l, r, -, he⟩ := hi.remove_eq hc
    rw [he]
    simp

/-! ## Every call keeps the invariant -/

theorem RepInv.push (hi : sc.RepInv) (ha : c.addr = host)
    (hf : ∀ d, sc.Holds d → d.ptr ≠ c.ptr) : (sc.push host c).RepInv := by
  have hheld : (sc.push host c).HeldInv := hi.held.push hf
  refine ⟨hheld.nodup, fun h' c' h => ?_, hheld.inj, fun h' c' h => ?_⟩
  · rw [push_hosts] at h
    rw [push_rotatingArray, List.mem_append, List.mem_singleton]
    rcases update_some_eq_some.mp h with ⟨-, rfl⟩ | ⟨-, h⟩
    · exact .inr rfl
    · exact .inl (hi.mem h' c' h)
  · rw [push_hosts] at h
    rcases update_some_eq_some.mp h with ⟨rfl, rfl⟩ | ⟨-, h⟩
    · exact ha
    · exact hi.addr h' c' h

theorem RepInv.remove (hi : sc.RepInv) (host : String) : (EtcdTest.remove sc host).1.RepInv := by
  have hheld : (EtcdTest.remove sc host).1.HeldInv := hi.held.remove .etcdTest host
  cases hc : sc.hosts host with
  | none => simpa [EtcdTest.remove, hc] using hi
  | some c =>
    rw [hi.remove_filter hc] at hheld ⊢
    refine ⟨hheld.nodup, fun h' c' e => ?_, hheld.inj, fun h' c' e => ?_⟩
    · obtain ⟨hh, e⟩ := update_none_eq_some.mp e
      refine List.mem_filter.mpr ⟨hi.mem h' c' e, ?_⟩
      simpa using fun hcc : c' = c => hh (hi.inj h' host c' c e hc (by rw [hcc]))
    · exact hi.addr h' c' (update_none_eq_some.mp e).2

theorem RepInv.choose (hi : sc.RepInv) : sc.choose.2.RepInv :=
  ⟨by rw [choose_rotatingArray]; exact hi.nodup,
    by rw [choose_rotatingArray, choose_hosts]; exact hi.mem,
    by rw [choose_hosts]; exact hi.inj, by rw [choose_hosts]; exact hi.addr⟩

/-- Every call keeps the representation invariant. -/
theorem RepInv.step (hi : sc.RepInv) {op : ChannelOp} (hf : op.Fresh sc) :
    (sc.step .etcdTest op).RepInv := by
  cases op with
  | append host env =>
    simp only [ServiceChannel.step, Copy.append_eq]
    split
    · exact hi
    · rename_i hret
      exact hi.push rfl (hf hret)
  | remove host => exact hi.remove host
  | choose => exact hi.choose

end ServiceChannel

/-! ## The recorded hosts, read off the calls -/

/-- What a call says about `host`: a successful `append` serves it, a `remove` ends this. (A
`remove` of a host that is not recorded has no effect, and says what was so before it.) -/
def ChannelOp.effect (host : String) : ChannelOp → Option Bool
  | .append h env => if h = host ∧ env.ret ≠ -1 then some true else none
  | .remove h => if h = host then some false else none
  | .choose => none

/-- The last effective call about `host` is a successful `append`. -/
def Live (ops : List ChannelOp) (host : String) : Prop :=
  (ops.filterMap (ChannelOp.effect host)).getLast? = some true

instance Live.decidable (ops : List ChannelOp) (host : String) : Decidable (Live ops host) :=
  inferInstanceAs (Decidable (_ = _))

theorem live_concat (ops : List ChannelOp) (op : ChannelOp) (host : String) :
    Live (ops ++ [op]) host ↔ (op.effect host = some true ∨
      op.effect host = none ∧ Live ops host) := by
  unfold Live
  rw [List.filterMap_append, List.getLast?_append]
  cases h : op.effect host with
  | none => simp [h]
  | some b => simp [h]

namespace ServiceChannel

variable {sc : ServiceChannel}

/-- One call and the recorded hosts. -/
theorem RepInv.step_hosts (hi : sc.RepInv) (op : ChannelOp) (host : String) :
    ((sc.step .etcdTest op).hosts host).isSome ↔
      (op.effect host = some true ∨ op.effect host = none ∧ (sc.hosts host).isSome) := by
  cases op with
  | append h env =>
    simp only [ServiceChannel.step, Copy.append_eq, ChannelOp.effect]
    by_cases hret : env.ret = -1
    · simp [hret]
    · by_cases hh : h = host
      · simp [hret, hh]
      · simp [hret, hh, Function.update_of_ne (Ne.symm hh)]
  | remove h =>
    simp only [ServiceChannel.step, Copy.remove, ChannelOp.effect]
    cases hc : sc.hosts h with
    | none =>
      by_cases hh : h = host
      · subst hh; simp [EtcdTest.remove, hc]
      · simp [EtcdTest.remove, hc, hh]
    | some c =>
      obtain ⟨l, r, -, he⟩ := hi.remove_eq hc
      rw [he]
      by_cases hh : h = host
      · simp [hh]
      · simp [hh, Function.update_of_ne (Ne.symm hh)]
  | choose => simp [ServiceChannel.step, ChannelOp.effect]

end ServiceChannel

theorem heldInv_run {k : Copy} {sc : ServiceChannel} {ops : List ChannelOp} (hi : sc.HeldInv)
    (hf : Along (ServiceChannel.step k) ChannelOp.Fresh sc ops) :
    (run (ServiceChannel.step k) sc ops).HeldInv :=
  hf.invariant (fun _ _ hi hf => hi.step hf) hi

/-- In every state of a run the representation invariant holds. -/
theorem repInv_run {sc : ServiceChannel} {ops : List ChannelOp} (hi : sc.RepInv)
    (hf : Along (ServiceChannel.step .etcdTest) ChannelOp.Fresh sc ops) :
    (run (ServiceChannel.step .etcdTest) sc ops).RepInv :=
  hf.invariant (fun _ _ hi hf => hi.step hf) hi

/-- The recorded hosts are those whose last effective call is a successful `append`. -/
theorem hosts_isSome_iff {serviceName : String} {ops : List ChannelOp}
    (hf : Along (ServiceChannel.step .etcdTest) ChannelOp.Fresh (.new serviceName) ops)
    (host : String) :
    ((run (ServiceChannel.step .etcdTest) (.new serviceName) ops).hosts host).isSome ↔
      Live ops host := by
  induction ops using List.reverseRecOn with
  | nil => simp [ServiceChannel.new, Live]
  | append_singleton ops op ih =>
    have hf' := hf.left (List.prefix_append ops [op])
    rw [run_append, run_cons, run_nil, (repInv_run (.new _) hf').step_hosts, live_concat, ih hf']

/-- **The representation invariant.** In the state that a run reaches, the array has no channel
twice, two hosts never map to one channel, every recorded channel is in the array, and the recorded
hosts are those whose last effective call is a successful `append`. So `remove` of a recorded host
deletes exactly its channel from the array, keeps the order of the others and drops the host, and
its error branch is not reached. -/
theorem ChannelRun.representation (r : ChannelRun .etcdTest) :
    r.state.RepInv ∧
    (∀ host, (r.state.hosts host).isSome ↔ Live r.ops host) ∧
    (∀ host c, r.state.hosts host = some c → ∃ l t,
      r.state.rotatingArray = l ++ c :: t ∧ EtcdTest.remove r.state host =
        ({ r.state with
            rotatingArray := l ++ t
            hosts := Function.update r.state.hosts host none }, .removed)) ∧
    ∀ host, (EtcdTest.remove r.state host).2 ≠ .logicError :=
  have hi : r.state.RepInv := repInv_run (.new _) r.fresh
  ⟨hi, hosts_isSome_iff r.fresh, fun _ _ hc => hi.remove_eq hc, hi.remove_exit⟩

end CharSystem
