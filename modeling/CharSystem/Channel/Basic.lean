import CharSystem.Run
import Mathlib.Logic.Function.Basic

/-!
# `ServiceChannel`: the channels of one service (`channel.hpp`)

The repository has two copies of `channel.hpp`, `example/etcd_test` and `example/brpc_test`. Their
`ServiceChannel` has the same fields, constructor and `choose`; `append` differs in the address that
it gives to `Init`, and `remove` in how it tells that the channel was found. What a copy has of its
own is in `EtcdTest` and `BrpcTest`, and `Copy` selects a copy.

* A `brpc::Channel` is behind a `Channelptr`, which `==` compares by address. The address that
  `new brpc::Channel` gives and what `Init` returns come from the environment (`Alloc`), so a
  channel is identified by the call that created it.
* `_rotating_array` is a list, `_hosts` a partial function, and `_rotation_count` a natural number
  (the source's `int32_t`; the two agree while the array has fewer than `2^31` channels, as
  `CharSystem/Channel/Machine.lean` shows).
* Each method holds `_mt` from its first access of a field to its return, so a run of a
  `ServiceChannel` is a sequence of method calls (`ChannelOp`).
* `ChannelOp.Fresh`: what `new` guarantees of an `append`: the address of the new channel differs
  from the address of every channel still held.
-/

namespace CharSystem

/-- The fields of `brpc::ChannelOptions` that `append` sets. -/
structure ChannelOptions where
  connectTimeoutMs : Int
  timeoutMs : Int
  maxRetry : Int
  protocol : String
  deriving DecidableEq, Repr

/-- The options of every channel that `append` creates. -/
def appendOptions : ChannelOptions where
  connectTimeoutMs := -1
  timeoutMs := -1
  maxRetry := 3
  protocol := "baidu_std"

/-- A `Channelptr`: the address of the `brpc::Channel`, and what its `Init` got. `addr` is the
string whose `c_str()` was the argument. -/
structure Channelptr where
  ptr : Nat
  addr : String
  options : ChannelOptions
  deriving DecidableEq, Repr

/-- What the environment gives to one `append`: the address of the new `brpc::Channel`, and what
`Init` returns (`-1`: it failed). -/
structure Alloc where
  ptr : Nat
  ret : Int
  deriving DecidableEq, Repr

/-- What `choose` returns. The index of an access past the end of `_rotating_array` (undefined
behavior in C++) gives `outOfRange`. -/
inductive ChooseResult where
  | null
  | channel (c : Channelptr)
  | outOfRange
  deriving DecidableEq, Repr

/-- How `remove` ended: the host is not recorded, the host is recorded but its channel is not in the
array ("program logic error"), or the host is removed. -/
inductive RemoveExit where
  | notFound
  | logicError
  | removed
  deriving DecidableEq, Repr

/-- `class ServiceChannel`, without its mutex. -/
structure ServiceChannel where
  rotationCount : Nat
  serviceName : String
  rotatingArray : List Channelptr
  hosts : String → Option Channelptr

namespace ServiceChannel

/-- The constructor. -/
def new (serviceName : String) : ServiceChannel where
  rotationCount := 0
  serviceName := serviceName
  rotatingArray := []
  hosts := fun _ => none

/-- The part of `append` under the lock. -/
def push (sc : ServiceChannel) (host : String) (newPtr : Channelptr) : ServiceChannel :=
  { sc with
    rotatingArray := sc.rotatingArray ++ [newPtr]
    hosts := Function.update sc.hosts host (some newPtr) }

/-- `append`, with the address `addr` that `Init` gets. -/
def appendAt (addr : String) (sc : ServiceChannel) (host : String) (env : Alloc) : ServiceChannel :=
  let newPtr : Channelptr := { ptr := env.ptr, addr := addr, options := appendOptions }
  if env.ret = -1 then sc else sc.push host newPtr

/-- The loop of `remove`: the position of the first channel equal to `c`, or the end. -/
def find (sc : ServiceChannel) (c : Channelptr) : Nat :=
  sc.rotatingArray.findIdx fun d => d.ptr == c.ptr

/-- `_rotating_array[i]`. -/
def get (sc : ServiceChannel) (i : Nat) : ChooseResult :=
  match sc.rotatingArray[i]? with
  | some c => .channel c
  | none => .outOfRange

/-- `choose`: the result and the new state. -/
def choose (sc : ServiceChannel) : ChooseResult × ServiceChannel :=
  if sc.rotatingArray.length = 0 then (.null, sc)
  else
    let curRotationCount := sc.rotationCount
    (sc.get curRotationCount,
      { sc with rotationCount := (sc.rotationCount + 1) % sc.rotatingArray.length })

end ServiceChannel

namespace EtcdTest

open ServiceChannel

/-- `append` of `example/etcd_test`. -/
def append (sc : ServiceChannel) (host : String) (env : Alloc) : ServiceChannel :=
  appendAt host sc host env

/-- `remove` of `example/etcd_test`: `is_success` records that the loop found the channel. -/
def remove (sc : ServiceChannel) (host : String) : ServiceChannel × RemoveExit :=
  match sc.hosts host with
  | none => (sc, .notFound)
  | some c =>
    let vit := sc.find c
    let isSuccess := decide (vit < sc.rotatingArray.length)
    if !isSuccess then (sc, .logicError)
    else
      ({ sc with
          rotatingArray := sc.rotatingArray.eraseIdx vit
          hosts := Function.update sc.hosts host none }, .removed)

end EtcdTest

namespace BrpcTest

open ServiceChannel

/-- `append` of `example/brpc_test`: `Init` gets a fixed address. -/
def append (sc : ServiceChannel) (host : String) (env : Alloc) : ServiceChannel :=
  appendAt "127.0.0.1:8080" sc host env

/-- `remove` of `example/brpc_test`: after the loop and its `erase`, `vit` at the (new) end means
that the channel was not found. -/
def remove (sc : ServiceChannel) (host : String) : ServiceChannel × RemoveExit :=
  match sc.hosts host with
  | none => (sc, .notFound)
  | some c =>
    let vit := sc.find c
    let array := sc.rotatingArray.eraseIdx vit
    if vit = array.length then ({ sc with rotatingArray := array }, .logicError)
    else
      ({ sc with rotatingArray := array, hosts := Function.update sc.hosts host none }, .removed)

end BrpcTest

/-- The two copies of `channel.hpp`. -/
inductive Copy where
  | etcdTest
  | brpcTest
  deriving DecidableEq, Repr

namespace Copy

/-- The address that `append` gives to `Init`. -/
def initAddr : Copy → String → String
  | .etcdTest, host => host
  | .brpcTest, _ => "127.0.0.1:8080"

/-- The channel that `append` creates. -/
def newPtr (k : Copy) (host : String) (env : Alloc) : Channelptr where
  ptr := env.ptr
  addr := k.initAddr host
  options := appendOptions

/-- `append` of a copy. -/
def append : Copy → ServiceChannel → String → Alloc → ServiceChannel
  | .etcdTest => EtcdTest.append
  | .brpcTest => BrpcTest.append

/-- `remove` of a copy. -/
def remove : Copy → ServiceChannel → String → ServiceChannel × RemoveExit
  | .etcdTest => EtcdTest.remove
  | .brpcTest => BrpcTest.remove

end Copy

/-- A call of a `ServiceChannel` method. -/
inductive ChannelOp where
  | append (host : String) (env : Alloc)
  | remove (host : String)
  | choose
  deriving DecidableEq, Repr

namespace ServiceChannel

/-- The state after a call. -/
def step (k : Copy) (sc : ServiceChannel) : ChannelOp → ServiceChannel
  | .append host env => k.append sc host env
  | .remove host => (k.remove sc host).1
  | .choose => sc.choose.2

end ServiceChannel

/-- The `ServiceChannel` still holds `c`, so the address of `c` is in use. -/
def ServiceChannel.Holds (sc : ServiceChannel) (c : Channelptr) : Prop :=
  c ∈ sc.rotatingArray ∨ ∃ host, sc.hosts host = some c

/-- What `new` guarantees of a call: the channel of a successful `append` differs from every channel
still held. -/
def ChannelOp.Fresh (sc : ServiceChannel) : ChannelOp → Prop
  | .append _ env => env.ret ≠ -1 → ∀ c, sc.Holds c → c.ptr ≠ env.ptr
  | _ => True

/-- A run of a new `ServiceChannel` of a copy. -/
structure ChannelRun (k : Copy) where
  serviceName : String
  ops : List ChannelOp
  fresh : Along (ServiceChannel.step k) ChannelOp.Fresh (.new serviceName) ops

/-- The state that the run reaches. -/
def ChannelRun.state {k : Copy} (r : ChannelRun k) : ServiceChannel :=
  run (ServiceChannel.step k) (.new r.serviceName) r.ops

/-! ## Maps that lose or gain an entry -/

section Update

variable {κ ν : Type} [DecidableEq κ] {f : κ → Option ν} {a b : κ} {v w : ν}

theorem update_some_eq_some : Function.update f a (some v) b = some w ↔
    b = a ∧ v = w ∨ b ≠ a ∧ f b = some w := by
  by_cases h : b = a
  · subst h
    simp
  · simp [h]

theorem update_none_eq_some :
    Function.update f a none b = some w ↔ b ≠ a ∧ f b = some w := by
  by_cases h : b = a
  · subst h
    simp
  · simp [h]

end Update

/-! ## What the operations do -/

namespace ServiceChannel

variable {sc : ServiceChannel} {host : String} {newPtr c : Channelptr}

@[simp] theorem push_rotationCount : (sc.push host newPtr).rotationCount = sc.rotationCount := rfl

@[simp] theorem push_rotatingArray :
    (sc.push host newPtr).rotatingArray = sc.rotatingArray ++ [newPtr] := rfl

@[simp] theorem push_hosts :
    (sc.push host newPtr).hosts = Function.update sc.hosts host (some newPtr) := rfl

@[simp] theorem choose_rotatingArray : sc.choose.2.rotatingArray = sc.rotatingArray := by
  unfold choose
  split <;> rfl

@[simp] theorem choose_hosts : sc.choose.2.hosts = sc.hosts := by
  unfold choose
  split <;> rfl

/-- `choose` on an empty array. -/
theorem choose_nil (h : sc.rotatingArray = []) : sc.choose = (.null, sc) := by
  simp [choose, h]

/-- `choose` on a nonempty array. -/
theorem choose_cons (h : sc.rotatingArray ≠ []) :
    sc.choose = (sc.get sc.rotationCount,
      { sc with rotationCount := (sc.rotationCount + 1) % sc.rotatingArray.length }) := by
  unfold choose
  rw [if_neg (by simpa using h)]

theorem get_of_lt {i : Nat} (h : i < sc.rotatingArray.length) :
    sc.get i = .channel sc.rotatingArray[i] := by
  simp [get, h]

theorem get_mem {i : Nat} (h : sc.get i = .channel c) : c ∈ sc.rotatingArray := by
  unfold get at h
  split at h
  · rename_i d hd
    cases h
    exact List.mem_of_getElem? hd
  · cases h

/-- A channel that `choose` returns is in the array. -/
theorem choose_mem (h : sc.choose.1 = .channel c) : c ∈ sc.rotatingArray := by
  unfold choose at h
  split at h
  · cases h
  · exact get_mem h

end ServiceChannel

namespace Copy

variable (k : Copy) (sc : ServiceChannel) (host : String)

theorem append_eq (env : Alloc) :
    k.append sc host env = if env.ret = -1 then sc else sc.push host (k.newPtr host env) := by
  cases k <;> rfl

/-- Both copies return early for a host that is not recorded. -/
theorem remove_notFound {sc : ServiceChannel} {host : String} (h : sc.hosts host = none) :
    k.remove sc host = (sc, .notFound) := by
  cases k <;> simp [remove, EtcdTest.remove, BrpcTest.remove, h]

/-- **What both copies do** for a recorded host: the array loses the recorded channel, if it has it;
the map loses at most the host. -/
theorem remove_recorded {sc : ServiceChannel} {host : String} {c : Channelptr}
    (h : sc.hosts host = some c) : ∃ hosts,
      (k.remove sc host).1 =
        { sc with rotatingArray := sc.rotatingArray.eraseIdx (sc.find c), hosts := hosts } ∧
      (∀ host' d, hosts host' = some d → sc.hosts host' = some d) ∧
      ∀ host', host' ≠ host → hosts host' = sc.hosts host' := by
  have hupdate : ∀ host' d, Function.update sc.hosts host none host' = some d →
      sc.hosts host' = some d :=
    fun host' d hd => (update_none_eq_some.mp hd).2
  have hother : ∀ host', host' ≠ host →
      Function.update sc.hosts host none host' = sc.hosts host' :=
    fun host' hh => Function.update_of_ne hh _ _
  cases k with
  | etcdTest =>
    by_cases hlt : sc.find c < sc.rotatingArray.length
    · exact ⟨_, by simp [remove, EtcdTest.remove, h, hlt], hupdate, hother⟩
    · refine ⟨sc.hosts, ?_, fun _ _ hd => hd, fun _ _ => rfl⟩
      rw [List.eraseIdx_of_length_le (by omega)]
      simp [remove, EtcdTest.remove, h, hlt]
  | brpcTest =>
    by_cases hend : sc.find c = (sc.rotatingArray.eraseIdx (sc.find c)).length
    · exact ⟨sc.hosts, by simp [remove, BrpcTest.remove, h, ← hend], fun _ _ hd => hd,
        fun _ _ => rfl⟩
    · exact ⟨_, by simp [remove, BrpcTest.remove, h, hend], hupdate, hother⟩

/-- `remove` takes no channel into the `ServiceChannel`. -/
theorem remove_holds {sc : ServiceChannel} {host : String} {c : Channelptr}
    (h : (k.remove sc host).1.Holds c) : sc.Holds c := by
  cases hc : sc.hosts host with
  | none => rwa [k.remove_notFound hc] at h
  | some d =>
    obtain ⟨hosts, he, hold, -⟩ := k.remove_recorded hc
    rw [he] at h
    exact h.imp List.mem_of_mem_eraseIdx fun ⟨host', hm⟩ => ⟨host', hold host' c hm⟩

end Copy

/-! ## Fresh addresses -/

/-- The address of the channel that a call creates, if it stays. -/
def ChannelOp.newPtr? : ChannelOp → Option Nat
  | .append _ env => if env.ret = -1 then none else some env.ptr
  | _ => none

/-- A channel in the array after a call was there before it, or is the channel of a successful
`append`. -/
theorem ServiceChannel.step_mem {k : Copy} {sc : ServiceChannel} {op : ChannelOp} {c : Channelptr}
    (h : c ∈ (sc.step k op).rotatingArray) : c ∈ sc.rotatingArray ∨
      ∃ host env, op = .append host env ∧ env.ret ≠ -1 ∧ c = k.newPtr host env := by
  cases op with
  | append host env =>
    simp only [step, Copy.append_eq] at h
    split at h
    · exact .inl h
    · rename_i hret
      rw [push_rotatingArray, List.mem_append, List.mem_singleton] at h
      exact h.imp_right fun hc => ⟨host, env, rfl, hret, hc⟩
  | remove host =>
    cases hc : sc.hosts host with
    | none => rw [step, k.remove_notFound hc] at h; exact .inl h
    | some d =>
      obtain ⟨hosts, he, -⟩ := k.remove_recorded hc
      rw [step, he] at h
      exact .inl (List.mem_of_mem_eraseIdx h)
  | choose => rw [step, choose_rotatingArray] at h; exact .inl h

/-- A channel held after a call was held before it, or is the call's new channel. -/
theorem ServiceChannel.step_holds {k : Copy} {sc : ServiceChannel} {op : ChannelOp} {c : Channelptr}
    (h : (sc.step k op).Holds c) : sc.Holds c ∨ op.newPtr? = some c.ptr := by
  cases op with
  | append host env =>
    simp only [step, Copy.append_eq] at h
    split at h
    · exact .inl h
    · rename_i hret
      rcases h with h | ⟨host', h⟩
      · rw [push_rotatingArray, List.mem_append, List.mem_singleton] at h
        rcases h with h | rfl
        · exact .inl (.inl h)
        · exact .inr (if_neg hret)
      · rw [push_hosts] at h
        rcases update_some_eq_some.mp h with ⟨-, rfl⟩ | ⟨-, h⟩
        · exact .inr (if_neg hret)
        · exact .inl (.inr ⟨host', h⟩)
  | remove host => exact .inl (k.remove_holds h)
  | choose =>
    refine .inl (h.imp (fun h => ?_) fun ⟨host, h⟩ => ⟨host, ?_⟩)
    · rwa [step, choose_rotatingArray] at h
    · rwa [step, choose_hosts] at h

/-- Calls whose new channels have distinct addresses are fresh: nothing frees an address early. -/
theorem along_fresh_of_nodup {k : Copy} {sc : ServiceChannel} {ops : List ChannelOp}
    (hn : (ops.filterMap ChannelOp.newPtr?).Nodup)
    (hs : ∀ c, sc.Holds c → c.ptr ∉ ops.filterMap ChannelOp.newPtr?) :
    Along (ServiceChannel.step k) ChannelOp.Fresh sc ops := by
  have h := along_notHolds_of_nodup (ServiceChannel.step k)
    (fun sc p => ∃ c, sc.Holds c ∧ c.ptr = p) ChannelOp.newPtr?
    (fun sc op p ⟨c, hc, hp⟩ =>
      (ServiceChannel.step_holds hc).imp (fun h => ⟨c, h, hp⟩) fun h => by rw [h, hp])
    hn fun p ⟨c, hc, hp⟩ => hp ▸ hs c hc
  refine h.imp fun sc op _ hop => ?_
  cases op with
  | append host env => exact fun hret c hc he => hop env.ptr (if_neg hret) ⟨c, hc, he⟩
  | remove host => trivial
  | choose => trivial

/-- A run whose new channels have distinct addresses. -/
def ChannelRun.ofNodup (k : Copy) (serviceName : String) (ops : List ChannelOp)
    (hn : (ops.filterMap ChannelOp.newPtr?).Nodup) : ChannelRun k where
  serviceName := serviceName
  ops := ops
  fresh := along_fresh_of_nodup hn fun c hc => by
    rcases hc with hc | ⟨host, hc⟩
    · cases hc
    · cases hc

end CharSystem
