import CharSystem.Channel.Inv

/-!
# `remove` of `example/brpc_test`

After its loop `remove` compares the iterator with the end of the array, to tell whether the loop
found the channel. The iterator stays where the erased element was; if this was the last one, it is
at the new end. Then `remove` takes its error branch, and leaves a host in the map whose channel is
not in the array.

* `BrpcTest.remove_eq`: what `remove` does to a recorded host whose channel is in the array.
* `ChannelRun.inStep_iff`: the map and the array stay in step, and every `remove` of a recorded host
  deletes both entries, exactly when no `remove` of the run is for the host of the last channel.
* `onlyNode`: a run that removes its only node.
-/

namespace CharSystem

/-- Every recorded channel is in the array. -/
def ServiceChannel.Recorded (sc : ServiceChannel) : Prop :=
  ∀ host c, sc.hosts host = some c → c ∈ sc.rotatingArray

namespace BrpcTest

/-- A `remove` of a recorded host deletes its channel from the array and the host from the map. -/
def RemovesBoth (sc : ServiceChannel) : ChannelOp → Prop
  | .remove host => ∀ c, sc.hosts host = some c → ∃ l r, sc.rotatingArray = l ++ c :: r ∧
      remove sc host =
        ({ sc with rotatingArray := l ++ r, hosts := Function.update sc.hosts host none }, .removed)
  | _ => True

/-- A `remove` is not for the host of the last channel. -/
def NotLast (sc : ServiceChannel) : ChannelOp → Prop
  | .remove host => ∀ c, sc.hosts host = some c → sc.rotatingArray.getLast? ≠ some c
  | _ => True

variable {sc : ServiceChannel} {host : String} {c : Channelptr}

/-- **`remove` of a recorded host.** The array loses the channel. The map loses the host, unless the
channel was the last one. -/
theorem remove_eq (hi : sc.HeldInv) (hc : sc.hosts host = some c) {l r : List Channelptr}
    (h : sc.rotatingArray = l ++ c :: r) : remove sc host =
      if r = [] then ({ sc with rotatingArray := l ++ r }, .logicError)
      else
        ({ sc with rotatingArray := l ++ r, hosts := Function.update sc.hosts host none },
          .removed) := by
  have herase : sc.rotatingArray.eraseIdx l.length = l ++ r := by
    rw [h, List.eraseIdx_append_of_length_le (Nat.le_refl _)]
    simp
  unfold remove
  simp only [hc, hi.find_eq h, herase, List.length_append]
  by_cases hr : r = []
  · simp [hr]
  · have hlen := List.length_pos_iff.mpr hr
    rw [if_neg (by omega), if_neg hr]

/-- The channel is the last one. -/
theorem getLast?_eq_iff (hi : sc.HeldInv) {l r : List Channelptr} (h : sc.rotatingArray = l ++ c :: r) :
    sc.rotatingArray.getLast? = some c ↔ r = [] := by
  have hn := hi.nodup.of_map
  rw [h, List.nodup_middle, List.nodup_cons, List.mem_append, not_or] at hn
  rw [h, List.getLast?_append_cons]
  constructor
  · intro hlast
    by_contra hr
    rw [List.getLast?_cons, Option.some.injEq] at hlast
    refine hn.1.2 ?_
    rw [← hlast]
    obtain ⟨d, hd⟩ := Option.ne_none_iff_exists'.mp (mt List.getLast?_eq_none_iff.mp hr)
    rw [hd]
    exact List.mem_of_getLast? hd
  · rintro rfl
    rfl

/-- **One call** keeps every recorded channel in the array exactly when it is not a `remove` for the
host of the last channel. -/
theorem recorded_step_iff (hi : sc.HeldInv) (h : sc.Recorded) (op : ChannelOp) :
    (sc.step .brpcTest op).Recorded ↔ NotLast sc op := by
  cases op with
  | append host env =>
    simp only [ServiceChannel.step, Copy.append_eq]
    refine iff_of_true ?_ trivial
    split
    · exact h
    · intro host' c hc
      rw [ServiceChannel.push_hosts] at hc
      rw [ServiceChannel.push_rotatingArray, List.mem_append, List.mem_singleton]
      rcases update_some_eq_some.mp hc with ⟨-, rfl⟩ | ⟨-, hc⟩
      · exact .inr rfl
      · exact .inl (h host' c hc)
  | remove host =>
    simp only [ServiceChannel.step, Copy.remove, NotLast]
    cases hc : sc.hosts host with
    | none => simpa [remove, hc] using h
    | some c =>
      obtain ⟨l, r, harray⟩ := List.append_of_mem (h host c hc)
      have hn := hi.nodup.of_map
      rw [harray, List.nodup_middle, List.nodup_cons] at hn
      rw [remove_eq hi hc harray]
      by_cases hr : r = []
      · rw [if_pos hr]
        refine iff_of_false (fun hrec => hn.1 (hrec host c hc)) fun hlast => ?_
        exact hlast c rfl ((getLast?_eq_iff hi harray).mpr hr)
      · rw [if_neg hr]
        refine iff_of_true (fun host' c' hc' => ?_) fun c' he hlast => ?_
        · obtain ⟨hh, hc'⟩ := update_none_eq_some.mp hc'
          have hne : c' ≠ c := fun he => hh (hi.inj host' host c' c hc' hc (by rw [he]))
          have hmem := h host' c' hc'
          rw [harray, List.mem_append, List.mem_cons] at hmem
          exact List.mem_append.mpr (hmem.imp_right fun hm => hm.resolve_left hne)
        · cases he
          exact hr ((getLast?_eq_iff hi harray).mp hlast)
  | choose =>
    refine iff_of_true (fun host c hc => ?_) trivial
    rw [ServiceChannel.step, ServiceChannel.choose_hosts] at hc
    rw [ServiceChannel.step, ServiceChannel.choose_rotatingArray]
    exact h host c hc

/-- A `remove` that is not for the host of the last channel. -/
theorem removesBoth_of_notLast (hi : sc.HeldInv) (h : sc.Recorded) {op : ChannelOp}
    (hop : NotLast sc op) : RemovesBoth sc op := by
  cases op with
  | remove host =>
    intro c hc
    obtain ⟨l, r, harray⟩ := List.append_of_mem (h host c hc)
    have hr : r ≠ [] := fun hr => hop c hc ((getLast?_eq_iff hi harray).mpr hr)
    exact ⟨l, r, harray, by rw [remove_eq hi hc harray, if_neg hr]⟩
  | append host env => trivial
  | choose => trivial

end BrpcTest

/-- **When the map and the array stay in step.** In every state that a run reaches every recorded
channel is in the array, and every `remove` of a recorded host in the run deletes both entries,
exactly when no `remove` of the run is for the host of the last channel. -/
theorem ChannelRun.inStep_iff (r : ChannelRun .brpcTest) :
    Always (ServiceChannel.step .brpcTest) ServiceChannel.Recorded (.new r.serviceName) r.ops ∧
      Along (ServiceChannel.step .brpcTest) BrpcTest.RemovesBoth (.new r.serviceName) r.ops ↔
    Along (ServiceChannel.step .brpcTest) BrpcTest.NotLast (.new r.serviceName) r.ops := by
  have hiff := always_iff_along (I := ServiceChannel.HeldInv) (fun _ _ hi hf _ => hi.step hf)
    (fun _ op hi _ h => BrpcTest.recorded_step_iff hi h op) r.fresh (.new r.serviceName)
    fun _ _ h => by cases h
  rw [hiff]
  refine and_iff_left_of_imp fun h => along_iff.mpr fun pre op post he => ?_
  have hpre : pre <+: r.ops := ⟨op :: post, he.symm⟩
  exact BrpcTest.removesBoth_of_notLast (heldInv_run (.new _) (r.fresh.left hpre))
    (hiff.mpr h pre hpre) (along_iff.mp h pre op post he)

/-- A node joins and leaves. -/
def onlyNode : ChannelRun .brpcTest :=
  .ofNodup .brpcTest "/service/echo" [.append "127.0.0.1:8080" ⟨1, 0⟩, .remove "127.0.0.1:8080"]
    (by decide)

/-- After `onlyNode` the map has the host, and the array is empty. -/
theorem not_recorded : ¬ ∀ r : ChannelRun .brpcTest, r.state.Recorded := by
  intro h
  have hmem := h onlyNode "127.0.0.1:8080" (Copy.brpcTest.newPtr "127.0.0.1:8080" ⟨1, 0⟩) (by decide)
  revert hmem
  decide

end CharSystem
