import CharSystem.Channel.Basic
import Mathlib.Data.BitVec

/-!
# The arithmetic of `choose`

`_rotation_count` is an `int32_t`. `choose` adds one, an `int`, and takes the remainder by
`_rotating_array.size()`: the sum is converted to the `size_t` of the size, and the remainder back to
`int32_t`.

* `MachineChannel`: a `ServiceChannel` with the `int32_t` cursor. `unbounded` is its state in the
  model with a natural number.
* `MachineChannel.Exact`: no step of the computation overflows or loses anything.
* `CursorFits`: the cursor has a successor. It bounds the cursor by the sizes that the array had,
  since a `remove` may leave the cursor behind the size that the array has.
* `MachineRun.arithmetic_exact`: the arithmetic is exact at every `choose` of a run, while the array
  has at most `2^31 - 1` channels, and the two models go through the same states.
-/

namespace CharSystem

/-! ## Conversions -/

section Conversions

/-- `int + 1`. -/
theorem saddOverflow_one {x : BitVec 32} (h : x.toNat < 2 ^ 31 - 1) :
    x.saddOverflow 1#32 = false := by
  have hx := BitVec.toInt_eq_toNat_of_lt (show 2 * x.toNat < 2 ^ 32 by omega)
  simp only [BitVec.saddOverflow, hx]
  simp
  omega

theorem toNat_add_one {x : BitVec 32} (h : x.toNat < 2 ^ 31 - 1) :
    (x + 1#32).toNat = x.toNat + 1 := by
  rw [BitVec.toNat_add, BitVec.toNat_ofNat]
  omega

/-- `int` to `size_t`. -/
theorem toNat_signExtend {x : BitVec 32} (h : x.toNat < 2 ^ 31) :
    (x.signExtend 64).toNat = x.toNat := by
  have hmsb : x.msb = false := by
    rw [BitVec.msb_eq_false_iff_two_mul_lt]
    omega
  rw [BitVec.signExtend_eq_setWidth_of_msb_false hmsb, BitVec.toNat_setWidth]
  omega

/-- `size_t` to `int32_t`. -/
theorem toNat_setWidth_32 {x : BitVec 64} (h : x.toNat < 2 ^ 31) :
    (x.setWidth 32).toNat = x.toNat := by
  rw [BitVec.toNat_setWidth]
  omega

theorem toInt_eq_toNat {x : BitVec 32} (h : x.toNat < 2 ^ 31) : x.toInt = x.toNat :=
  BitVec.toInt_eq_toNat_of_lt (by omega)

end Conversions

/-! ## The machine -/

/-- `class ServiceChannel`, with its `int32_t` cursor. -/
structure MachineChannel where
  rotationCount : BitVec 32
  serviceName : String
  rotatingArray : List Channelptr
  hosts : String → Option Channelptr

namespace MachineChannel

/-- A new `ServiceChannel`. -/
def new (serviceName : String) : MachineChannel where
  rotationCount := 0#32
  serviceName := serviceName
  rotatingArray := []
  hosts := fun _ => none

/-- The state, with the cursor as a natural number. -/
def unbounded (mc : MachineChannel) : ServiceChannel where
  rotationCount := mc.rotationCount.toNat
  serviceName := mc.serviceName
  rotatingArray := mc.rotatingArray
  hosts := mc.hosts

/-- `_rotating_array.size()`. -/
def size (mc : MachineChannel) : BitVec 64 := BitVec.ofNat 64 mc.rotatingArray.length

/-- `_rotation_count + 1`. -/
def sum (mc : MachineChannel) : BitVec 32 := mc.rotationCount + 1#32

/-- `(_rotation_count + 1) % _rotating_array.size()`. -/
def remainder (mc : MachineChannel) : BitVec 64 := mc.sum.signExtend 64 % mc.size

/-- `choose`: the result and the new state. -/
def choose (mc : MachineChannel) : ChooseResult × MachineChannel :=
  if mc.size = 0#64 then (.null, mc)
  else
    let curRotationCount := mc.rotationCount
    (mc.unbounded.get (curRotationCount.signExtend 64).toNat,
      { mc with rotationCount := mc.remainder.setWidth 32 })

/-- The array and the map of `sc`. -/
def withNodes (mc : MachineChannel) (sc : ServiceChannel) : MachineChannel :=
  { mc with rotatingArray := sc.rotatingArray, hosts := sc.hosts }

/-- The state after a call. `append` and `remove` do not touch the cursor. -/
def step (k : Copy) (mc : MachineChannel) : ChannelOp → MachineChannel
  | .append host env => mc.withNodes (k.append mc.unbounded host env)
  | .remove host => mc.withNodes (k.remove mc.unbounded host).1
  | .choose => mc.choose.2

variable (mc : MachineChannel)

/-- The computation of `choose` is exact: the sum does not overflow, the size is not zero, the
conversions of the sum and of the remainder keep their values, the new cursor is in range and is the
one of the natural numbers. -/
structure Exact : Prop where
  sum_noOverflow : mc.rotationCount.saddOverflow 1#32 = false
  size_ne_zero : mc.size ≠ 0#64
  size_toNat : mc.size.toNat = mc.rotatingArray.length
  sum_toInt : ((mc.sum.signExtend 64).toNat : Int) = mc.sum.toInt
  remainder_toNat : (mc.remainder.setWidth 32).toInt = mc.remainder.toNat
  nonneg : 0 ≤ mc.choose.2.rotationCount.toInt
  le : mc.choose.2.rotationCount.toInt ≤ 2 ^ 31 - 2
  choose_fst : mc.choose.1 = mc.unbounded.choose.1
  choose_snd : mc.choose.2.unbounded = mc.unbounded.choose.2
  cursor : mc.choose.2.rotationCount.toInt =
    (mc.rotationCount.toNat + 1) % mc.rotatingArray.length

/-- A `choose` on a nonempty array is exact. -/
def ExactAt : ChannelOp → Prop
  | .choose => mc.rotatingArray ≠ [] → mc.Exact
  | _ => True

/-- The array has at most `2^31 - 1` channels. -/
def Fits : Prop := mc.rotatingArray.length ≤ 2 ^ 31 - 1

/-- The cursor is at most `2^31 - 2`. -/
def CursorFits : Prop := mc.rotationCount.toNat < 2 ^ 31 - 1

variable {mc}

theorem size_toNat_of_fits (h : mc.Fits) : mc.size.toNat = mc.rotatingArray.length := by
  unfold Fits at h
  rw [size, BitVec.toNat_ofNat]
  omega

theorem size_eq_zero_iff (h : mc.Fits) : mc.size = 0#64 ↔ mc.rotatingArray = [] := by
  rw [← BitVec.toNat_inj, size_toNat_of_fits h, BitVec.toNat_zero,
    List.length_eq_zero_iff]

/-- The sum, as an `int` and as a `size_t`. -/
theorem sum_of_cursorFits (h : mc.CursorFits) : mc.sum.toNat = mc.rotationCount.toNat + 1 ∧
    (mc.sum.signExtend 64).toNat = mc.rotationCount.toNat + 1 := by
  have hsum : mc.sum.toNat = mc.rotationCount.toNat + 1 := toNat_add_one h
  unfold CursorFits at h
  exact ⟨hsum, by rw [toNat_signExtend (by omega), hsum]⟩

/-- The remainder is the one of the natural numbers, and smaller than the array. -/
theorem remainder_of_cursorFits (h : mc.CursorFits) (hf : mc.Fits) (hne : mc.rotatingArray ≠ []) :
    mc.remainder.toNat = (mc.rotationCount.toNat + 1) % mc.rotatingArray.length ∧
      mc.remainder.toNat < 2 ^ 31 - 1 := by
  have hr : mc.remainder.toNat = (mc.rotationCount.toNat + 1) % mc.rotatingArray.length := by
    rw [remainder, BitVec.toNat_umod, (sum_of_cursorFits h).2, size_toNat_of_fits hf]
  have hlt := Nat.mod_lt (mc.rotationCount.toNat + 1) (List.length_pos_iff.mpr hne)
  unfold Fits at hf
  exact ⟨hr, by omega⟩

theorem choose_of_nil (hf : mc.Fits) (h : mc.rotatingArray = []) : mc.choose = (.null, mc) :=
  if_pos ((size_eq_zero_iff hf).mpr h)

theorem choose_of_ne_nil (hf : mc.Fits) (h : mc.rotatingArray ≠ []) :
    mc.choose = (mc.unbounded.get (mc.rotationCount.signExtend 64).toNat,
      { mc with rotationCount := mc.remainder.setWidth 32 }) :=
  if_neg (mt (size_eq_zero_iff hf).mp h)

/-- **`choose` on the machine** does what `choose` does. -/
theorem choose_unbounded (h : mc.CursorFits) (hf : mc.Fits) :
    mc.choose.1 = mc.unbounded.choose.1 ∧ mc.choose.2.unbounded = mc.unbounded.choose.2 := by
  by_cases hne : mc.rotatingArray = []
  · rw [choose_of_nil hf hne,
      ServiceChannel.choose_nil (show mc.unbounded.rotatingArray = [] from hne)]
    exact ⟨rfl, rfl⟩
  · rw [choose_of_ne_nil hf hne,
      ServiceChannel.choose_cons (show mc.unbounded.rotatingArray ≠ [] from hne)]
    obtain ⟨hr, hlt⟩ := remainder_of_cursorFits h hf hne
    have hcursor : (mc.remainder.setWidth 32).toNat =
        (mc.rotationCount.toNat + 1) % mc.rotatingArray.length := by
      rw [toNat_setWidth_32 (by omega), hr]
    unfold CursorFits at h
    refine ⟨congrArg mc.unbounded.get (toNat_signExtend (by omega)), ?_⟩
    simp only [unbounded, hcursor]

/-- **The computation is exact.** -/
theorem exact_of_cursorFits (h : mc.CursorFits) (hf : mc.Fits) (hne : mc.rotatingArray ≠ []) :
    mc.Exact := by
  obtain ⟨hsum, hwide⟩ := sum_of_cursorFits h
  obtain ⟨hr, hlt⟩ := remainder_of_cursorFits h hf hne
  obtain ⟨hfst, hsnd⟩ := choose_unbounded h hf
  have hnarrow : (mc.remainder.setWidth 32).toNat = mc.remainder.toNat :=
    toNat_setWidth_32 (by omega)
  have hint : (mc.remainder.setWidth 32).toInt = mc.remainder.toNat := by
    rw [toInt_eq_toNat (by omega), hnarrow]
  have hcursor : mc.choose.2.rotationCount.toInt = mc.remainder.toNat := by
    rw [choose_of_ne_nil hf hne, hint]
  unfold CursorFits at h
  exact {
    sum_noOverflow := saddOverflow_one h
    size_ne_zero := mt (size_eq_zero_iff hf).mp hne
    size_toNat := size_toNat_of_fits hf
    sum_toInt := by rw [hwide, toInt_eq_toNat (by omega), hsum]
    remainder_toNat := hint
    nonneg := by rw [hcursor]; omega
    le := by rw [hcursor]; omega
    choose_fst := hfst
    choose_snd := hsnd
    cursor := by rw [hcursor, hr]; push_cast; rfl }

/-! ## Runs -/

/-- `append` and `remove` leave the cursor. -/
theorem withNodes_unbounded {sc : ServiceChannel} (hc : sc.rotationCount = mc.rotationCount.toNat)
    (hn : sc.serviceName = mc.serviceName) : (mc.withNodes sc).unbounded = sc := by
  simp only [withNodes, unbounded, ← hc, ← hn]

/-- **One call** of the machine does what the call does. -/
theorem step_unbounded (k : Copy) (h : mc.CursorFits) (hf : mc.Fits) (op : ChannelOp) :
    (mc.step k op).unbounded = mc.unbounded.step k op := by
  cases op with
  | append host env =>
    refine withNodes_unbounded ?_ ?_
    all_goals
      rw [Copy.append_eq]
      split <;> rfl
  | remove host =>
    cases hc : mc.unbounded.hosts host with
    | none =>
      simp only [step, ServiceChannel.step, k.remove_notFound hc]
      exact withNodes_unbounded rfl rfl
    | some c =>
      obtain ⟨hosts, he, -⟩ := k.remove_recorded hc
      simp only [step, ServiceChannel.step, he]
      exact withNodes_unbounded rfl rfl
  | choose => exact (choose_unbounded h hf).2

/-- **One call** leaves a cursor with a successor. -/
theorem CursorFits.step (k : Copy) (h : mc.CursorFits) (hf : mc.Fits) (op : ChannelOp) :
    (mc.step k op).CursorFits := by
  cases op with
  | append host env => exact h
  | remove host => exact h
  | choose =>
    by_cases hne : mc.rotatingArray = []
    · rwa [MachineChannel.step, choose_of_nil hf hne]
    · obtain ⟨-, hlt⟩ := remainder_of_cursorFits h hf hne
      rw [MachineChannel.step, choose_of_ne_nil hf hne, CursorFits, toNat_setWidth_32 (by omega)]
      exact hlt

/-! ## Runs -/

/-- A call adds at most one channel. -/
theorem length_step_le (k : Copy) (mc : MachineChannel) (op : ChannelOp) :
    (mc.step k op).rotatingArray.length ≤ mc.rotatingArray.length + 1 := by
  cases op with
  | append host env =>
    rw [step, k.append_eq]
    split
    · exact Nat.le_succ _
    · simp [withNodes, unbounded]
  | remove host =>
    rw [step]
    cases hc : mc.unbounded.hosts host with
    | none =>
      rw [k.remove_notFound hc]
      exact Nat.le_succ _
    | some c =>
      obtain ⟨hosts, he, -⟩ := k.remove_recorded hc
      rw [he]
      exact Nat.le_succ_of_le (List.length_eraseIdx_le _ _)
  | choose =>
    rw [step, choose]
    split <;> exact Nat.le_succ _

theorem length_run_le (k : Copy) (mc : MachineChannel) (ops : List ChannelOp) :
    (run (step k) mc ops).rotatingArray.length ≤ mc.rotatingArray.length + ops.length := by
  induction ops generalizing mc with
  | nil => exact Nat.le_refl _
  | cons op ops ih =>
    have hstep := length_step_le k mc op
    have hrest := ih (mc.step k op)
    rw [run_cons, List.length_cons]
    omega

end MachineChannel

/-- A run of a new `ServiceChannel` whose array has at most `2^31 - 1` channels at any time. -/
structure MachineRun (k : Copy) where
  serviceName : String
  ops : List ChannelOp
  fits : Always (MachineChannel.step k) MachineChannel.Fits (.new serviceName) ops

/-- A run of at most `2^31 - 1` calls. -/
def MachineRun.ofLength (k : Copy) (serviceName : String) (ops : List ChannelOp)
    (h : ops.length ≤ 2 ^ 31 - 1) : MachineRun k where
  serviceName := serviceName
  ops := ops
  fits := fun bs hb => by
    have hlen := MachineChannel.length_run_le k (.new serviceName) bs
    have hle := hb.length_le
    rw [show (MachineChannel.new serviceName).rotatingArray.length = 0 from rfl] at hlen
    unfold MachineChannel.Fits
    omega

/-- **The arithmetic is exact.** Every `choose` of the run computes without overflow or loss, and
the machine goes through the states of the model with a natural number. -/
theorem MachineRun.arithmetic_exact {k : Copy} (r : MachineRun k) :
    Along (MachineChannel.step k) MachineChannel.ExactAt (.new r.serviceName) r.ops ∧
      ∀ ops, ops <+: r.ops →
        (run (MachineChannel.step k) (.new r.serviceName) ops).unbounded =
          run (ServiceChannel.step k) (.new r.serviceName) ops := by
  have hinit : (MachineChannel.new r.serviceName).CursorFits := by
    simp [MachineChannel.CursorFits, MachineChannel.new]
  have hfits := r.fits.along.and_invariant
    (fun mc op h hf => MachineChannel.CursorFits.step k h hf op) hinit
  refine ⟨hfits.imp fun mc op _ h => ?_, fun ops hp => ?_⟩
  · cases op with
    | append host env => trivial
    | remove host => trivial
    | choose => exact MachineChannel.exact_of_cursorFits h.1 h.2
  · exact run_refines (fun mc op h => MachineChannel.step_unbounded k h.1 h.2 op) (hfits.left hp)

/-- The second of two nodes is next and leaves, which leaves the cursor at the end of the array. -/
def lastLeaves : MachineRun .etcdTest :=
  .ofLength .etcdTest "/service/echo"
    [.append "127.0.0.1:8080" ⟨1, 0⟩, .append "127.0.0.1:8081" ⟨2, 0⟩, .choose,
      .remove "127.0.0.1:8081", .choose, .choose] (by decide)

theorem arithmetic_exact_lastLeaves :
    Along (MachineChannel.step .etcdTest) MachineChannel.ExactAt (.new "/service/echo") lastLeaves.ops ∧
      ∀ ops, ops <+: lastLeaves.ops →
        (run (MachineChannel.step .etcdTest) (.new "/service/echo") ops).unbounded =
          run (ServiceChannel.step .etcdTest) (.new "/service/echo") ops :=
  lastLeaves.arithmetic_exact

end CharSystem
