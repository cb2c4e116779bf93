import CharSystem.Channel.Inv

/-!
# The rotation cursor (`example/etcd_test`)

`choose` reads `_rotating_array[_rotation_count]` and then moves the cursor modulo the size that the
array has now. `remove` makes the array shorter and does not touch the cursor, so the cursor can be
left at the new end of the array: the next `choose` reads past it.

* `ServiceChannel.ChooseInRange`: a `choose` on a nonempty array would read inside the array.
* `ServiceChannel.CursorKept`: a `remove` does not take the cursor's slot away from the end of the
  array: the cursor is at `0`, or the array has a channel behind the cursor's.
* `ChannelRun.always_chooseInRange_iff`: all states of a run are in range exactly when all its
  `remove`s keep the cursor.
* `staleCursor`: the shortest run that is out of range.
-/

namespace CharSystem

namespace ServiceChannel

/-- A `choose` on a nonempty array reads inside the array and returns a channel that is in it. -/
def ChooseInRange (sc : ServiceChannel) : Prop :=
  sc.rotatingArray ≠ [] → sc.rotationCount < sc.rotatingArray.length ∧
    ∃ c ∈ sc.rotatingArray, sc.choose.1 = .channel c

/-- A `remove` of a recorded host comes when the cursor is at `0` or before the last channel. -/
def CursorKept (sc : ServiceChannel) : ChannelOp → Prop
  | .remove host => (sc.hosts host).isSome → sc.rotationCount = 0 ∨
      sc.rotationCount + 1 < sc.rotatingArray.length
  | _ => True

variable {sc : ServiceChannel}

/-- The cursor in range is all that `choose` needs. -/
theorem chooseInRange_iff :
    sc.ChooseInRange ↔ (sc.rotatingArray ≠ [] → sc.rotationCount < sc.rotatingArray.length) := by
  refine forall_congr' fun hne => ⟨And.left, fun h => ⟨h, ?_⟩⟩
  exact ⟨_, List.getElem_mem h, by rw [choose_cons hne, get_of_lt h]⟩

/-- A `choose` that does not read past the end. -/
theorem chooseInRange_of_ne (h : sc.choose.1 ≠ .outOfRange) : sc.ChooseInRange := by
  rw [chooseInRange_iff]
  intro hne
  by_contra hlt
  refine h ?_
  rw [choose_cons hne]
  simp only [get, List.getElem?_eq_none (Nat.le_of_not_lt hlt)]

/-- The cursor of an empty array. Only an out-of-range cursor survives the removal of the last
channel. -/
def CursorRestarts (sc : ServiceChannel) : Prop := sc.rotatingArray = [] → sc.rotationCount = 0

theorem CursorRestarts.step (hr : sc.CursorRestarts) (hi : sc.RepInv) (h : sc.ChooseInRange)
    (op : ChannelOp) : (sc.step .etcdTest op).CursorRestarts := by
  cases op with
  | append host env =>
    simp only [ServiceChannel.step, Copy.append_eq]
    split
    · exact hr
    · intro he
      simp at he
  | remove host =>
    simp only [ServiceChannel.step, Copy.remove]
    cases hc : sc.hosts host with
    | none => simpa [EtcdTest.remove, hc] using hr
    | some c =>
      obtain ⟨l, r, ha, he⟩ := hi.remove_eq hc
      rw [he]
      intro hnil
      have hlt := chooseInRange_iff.mp h (by simp [ha])
      -- The array had one channel, so the cursor was at it.
      obtain ⟨rfl, rfl⟩ := List.append_eq_nil_iff.mp hnil
      simpa [ha] using hlt
  | choose =>
    intro he
    rw [ServiceChannel.step, choose_rotatingArray] at he
    rw [ServiceChannel.step, choose_nil he]
    exact hr he

/-- One call keeps the cursor in range exactly when it is not a `remove` behind its slot. -/
theorem ChooseInRange.step_iff (h : sc.ChooseInRange) (hr : sc.CursorRestarts) (hi : sc.RepInv)
    (op : ChannelOp) : (sc.step .etcdTest op).ChooseInRange ↔ sc.CursorKept op := by
  rw [chooseInRange_iff] at h ⊢
  cases op with
  | append host env =>
    simp only [ServiceChannel.step, Copy.append_eq, CursorKept, iff_true]
    split
    · exact h
    · intro _
      rw [push_rotationCount, push_rotatingArray, List.length_append, List.length_singleton]
      by_cases hnil : sc.rotatingArray = []
      · rw [hr hnil]; omega
      · have := h hnil
        omega
  | remove host =>
    simp only [ServiceChannel.step, Copy.remove, CursorKept]
    cases hc : sc.hosts host with
    | none => simpa [EtcdTest.remove, hc] using h
    | some c =>
      obtain ⟨l, r, ha, he⟩ := hi.remove_eq hc
      have hlt := h (by simp [ha])
      rw [he]
      rw [ha, List.length_append, List.length_cons] at hlt
      simp only [ha, List.length_append, List.length_cons, Option.isSome_some, forall_const, ne_eq,
        ← List.length_eq_zero_iff]
      omega
  | choose =>
    simp only [ServiceChannel.step, CursorKept, iff_true, choose_rotatingArray]
    intro hne
    rw [choose_cons hne]
    exact Nat.mod_lt _ (List.length_pos_iff.mpr hne)

end ServiceChannel

/-- **When the cursor stays in range.** In every state that a run reaches a `choose` would read
inside the array, exactly when each `remove` of a recorded host in the run comes when the cursor is
at `0` or before the last channel. -/
theorem ChannelRun.always_chooseInRange_iff (r : ChannelRun .etcdTest) :
    Always (ServiceChannel.step .etcdTest) ServiceChannel.ChooseInRange (.new r.serviceName) r.ops ↔
      Along (ServiceChannel.step .etcdTest) ServiceChannel.CursorKept (.new r.serviceName) r.ops :=
  always_iff_along (I := fun sc => sc.RepInv ∧ sc.CursorRestarts)
    (fun _ op hi hf h => ⟨hi.1.step hf, hi.2.step hi.1 h op⟩)
    (fun _ op hi _ h => h.step_iff hi.2 hi.1 op)
    r.fresh ⟨.new _, fun _ => rfl⟩ fun h => absurd rfl h

/-- Two nodes join, `choose` serves the first, and the second leaves: the cursor is left at the end
of the array. -/
def staleCursor : ChannelRun .etcdTest :=
  .ofNodup .etcdTest "/service/echo"
    [.append "127.0.0.1:8080" ⟨1, 0⟩, .append "127.0.0.1:8081" ⟨2, 0⟩, .choose,
      .remove "127.0.0.1:8081"] (by decide)

/-- A `choose` after `staleCursor` reads past the end of an array that has one channel. -/
theorem not_chooseInRange : ¬ ∀ r : ChannelRun .etcdTest, r.state.ChooseInRange := by
  intro h
  have harray : staleCursor.state.rotatingArray.length = 1 := by decide
  have hcursor : staleCursor.state.rotationCount = 1 := by decide
  have hlt := (h staleCursor (List.ne_nil_of_length_pos (by omega))).1
  omega

end CharSystem
