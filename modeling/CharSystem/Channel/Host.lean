import CharSystem.Channel.Inv

/-!
# The channels of one host (`example/etcd_test`)

What the calls do to one host: its map entry and the channels in the array that were created for it
(`ServiceChannel.channelsOf`). A call about another host changes neither. So they depend only on the
calls about the host, in order (`channelsOf_run`), and calls about different hosts can be reordered
(`perm_of_filter_host`).

An `append` of a recorded host adds a second channel of the host, and the older one is then in the
array for ever. `OnePerHost.step_iff`: apart from it, the array has one channel of each recorded
host and no other.
-/

namespace CharSystem

/-- The host that a call is about. -/
def ChannelOp.host? : ChannelOp → Option String
  | .append host _ => some host
  | .remove host => some host
  | .choose => none

namespace ServiceChannel

/-- The channels in the array that were created for `host`, in order. -/
def channelsOf (sc : ServiceChannel) (host : String) : List Channelptr :=
  sc.rotatingArray.filter (·.addr == host)

variable {sc : ServiceChannel} {host host' : String} {c : Channelptr}

theorem mem_channelsOf : c ∈ sc.channelsOf host ↔ c ∈ sc.rotatingArray ∧ c.addr = host := by
  simp [channelsOf]

theorem channelsOf_push :
    (sc.push host c).channelsOf host' = sc.channelsOf host' ++ if c.addr = host' then [c] else [] := by
  simp [channelsOf, List.filter_cons]

theorem channelsOf_choose : sc.choose.2.channelsOf host = sc.channelsOf host := by
  rw [channelsOf, choose_rotatingArray, channelsOf]

theorem RepInv.channelsOf_remove (hi : sc.RepInv) (hc : sc.hosts host = some c) :
    (EtcdTest.remove sc host).1.channelsOf host' = (sc.channelsOf host').filter (· != c) := by
  rw [hi.remove_filter hc, channelsOf, channelsOf, List.filter_filter, List.filter_filter]
  exact List.filter_congr fun d _ => Bool.and_comm _ _

/-- `remove` of another host. -/
theorem RepInv.channelsOf_remove_ne (hi : sc.RepInv) (hne : host' ≠ host) :
    (EtcdTest.remove sc host).1.channelsOf host' = sc.channelsOf host' ∧
      (EtcdTest.remove sc host).1.hosts host' = sc.hosts host' := by
  cases hc : sc.hosts host with
  | none => simp [EtcdTest.remove, hc]
  | some c =>
    rw [hi.channelsOf_remove hc, hi.remove_filter hc]
    refine ⟨List.filter_eq_self.mpr fun d hd => ?_, Function.update_of_ne hne _ _⟩
    have had := (mem_channelsOf.mp hd).2
    simpa using fun hdc : d = c => hne (by rw [← had, hdc, hi.addr host c hc])

/-- **A call about another host** changes neither the map entry nor the channels of a host. -/
theorem RepInv.step_ne (hi : sc.RepInv) (op : ChannelOp) (hop : op.host? ≠ some host) :
    (sc.step .etcdTest op).channelsOf host = sc.channelsOf host ∧
      (sc.step .etcdTest op).hosts host = sc.hosts host := by
  cases op with
  | append h env =>
    have hh : h ≠ host := fun hh => hop (by rw [hh]; rfl)
    simp only [ServiceChannel.step, Copy.append_eq]
    split
    · exact ⟨rfl, rfl⟩
    · rw [channelsOf_push, push_hosts]
      exact ⟨by simp [Copy.newPtr, Copy.initAddr, hh], Function.update_of_ne hh.symm _ _⟩
  | remove h => exact hi.channelsOf_remove_ne fun hh => hop (by rw [hh]; rfl)
  | choose => exact ⟨channelsOf_choose, by rw [ServiceChannel.step, choose_hosts]⟩

/-! ## One channel of each recorded host -/

/-- The array has one channel of each recorded host, and no other channel. -/
def OnePerHost (sc : ServiceChannel) : Prop :=
  ∀ host, (sc.channelsOf host).length = if (sc.hosts host).isSome then 1 else 0

/-- A call does not append a recorded host. -/
def NotAgain (sc : ServiceChannel) : ChannelOp → Prop
  | .append host env => env.ret ≠ -1 → sc.hosts host = none
  | _ => True

theorem OnePerHost.new (serviceName : String) : (ServiceChannel.new serviceName).OnePerHost :=
  fun _ => rfl

theorem OnePerHost.push_iff (h : sc.OnePerHost) (host : String) (env : Alloc) :
    (sc.push host (Copy.etcdTest.newPtr host env)).OnePerHost ↔ sc.hosts host = none := by
  constructor
  · intro h'
    have h1 := h host
    have h2 := h' host
    rw [channelsOf_push, List.length_append, h1, push_hosts, Function.update_self] at h2
    cases hc : sc.hosts host with
    | none => rfl
    | some c => simp [hc, Copy.newPtr, Copy.initAddr] at h2
  · intro hnone host'
    rw [channelsOf_push, List.length_append, h host', push_hosts]
    by_cases hh : host' = host
    · subst hh
      simp [hnone, Copy.newPtr, Copy.initAddr]
    · simp [Function.update_of_ne hh, Copy.newPtr, Copy.initAddr, Ne.symm hh]

theorem OnePerHost.remove (h : sc.OnePerHost) (hi : sc.RepInv) (host : String) :
    (EtcdTest.remove sc host).1.OnePerHost := by
  intro host'
  by_cases hh : host' = host
  · subst hh
    cases hc : sc.hosts host' with
    | none => simpa [EtcdTest.remove, hc] using h host'
    | some c =>
      have hlen := h host'
      rw [hc] at hlen
      -- The recorded channel is the only one of its host.
      obtain ⟨d, hd⟩ := List.length_eq_one_iff.mp hlen
      have hmem : c ∈ sc.channelsOf host' := mem_channelsOf.mpr ⟨hi.mem host' c hc, hi.addr host' c hc⟩
      obtain rfl : c = d := by simpa [hd] using hmem
      rw [hi.channelsOf_remove hc, hd, hi.remove_filter hc]
      simp
  · obtain ⟨h1, h2⟩ := hi.channelsOf_remove_ne hh
    rw [h1, h2, h host']

/-- **One call** keeps one channel of each recorded host exactly when it does not append a recorded
host. -/
theorem OnePerHost.step_iff (h : sc.OnePerHost) (hi : sc.RepInv) (op : ChannelOp) :
    (sc.step .etcdTest op).OnePerHost ↔ sc.NotAgain op := by
  cases op with
  | append host env =>
    simp only [ServiceChannel.step, Copy.append_eq, NotAgain]
    by_cases hret : env.ret = -1
    · simpa [hret] using h
    · simpa [hret] using h.push_iff host env
  | remove host => exact iff_of_true (h.remove hi host) trivial
  | choose =>
    refine iff_of_true (fun host => ?_) trivial
    rw [ServiceChannel.step, channelsOf_choose, choose_hosts, h host]

/-- A host with a channel in the array is recorded. -/
theorem OnePerHost.isSome (h : sc.OnePerHost) (hc : c ∈ sc.rotatingArray) :
    (sc.hosts c.addr).isSome := by
  have hlen := List.length_pos_of_mem (mem_channelsOf.mpr ⟨hc, rfl⟩)
  rw [h c.addr] at hlen
  by_contra hn
  simp [hn] at hlen

/-- The addresses in the array are the recorded hosts, each once. -/
theorem OnePerHost.perm (h : sc.OnePerHost) {hosts : List String} (hn : hosts.Nodup)
    (hmem : ∀ host, host ∈ hosts ↔ (sc.hosts host).isSome) :
    (sc.rotatingArray.map (·.addr)).Perm hosts := by
  rw [List.perm_iff_count]
  intro host
  have hcount : (sc.rotatingArray.map (·.addr)).count host = (sc.channelsOf host).length := by
    rw [List.count, List.countP_map, List.countP_eq_length_filter, channelsOf]
    rfl
  rw [hcount, h host, hn.count]
  simp only [hmem]

/-! ## Reordering -/

/-- `t` has the channels of `host` in `sc` and nothing else in its array, and maps `host` alike. -/
structure OnlyHost (host : String) (sc t : ServiceChannel) : Prop where
  left : sc.RepInv
  right : t.RepInv
  hosts : sc.hosts host = t.hosts host
  array : sc.channelsOf host = t.rotatingArray

theorem OnlyHost.holds {t : ServiceChannel} (h : OnlyHost host sc t) (hc : t.Holds c) :
    sc.Holds c := by
  have harray : c ∈ t.rotatingArray := hc.elim id fun ⟨host', hc⟩ => h.right.mem host' c hc
  rw [← h.array] at harray
  exact .inl (mem_channelsOf.mp harray).1

/-- A call about the host on both sides. -/
theorem OnlyHost.step {t : ServiceChannel} (h : OnlyHost host sc t) {op : ChannelOp}
    (hf : op.Fresh sc) (hop : op.host? = some host) :
    OnlyHost host (sc.step .etcdTest op) (t.step .etcdTest op) := by
  have hft : op.Fresh t := by
    cases op with
    | append h' env => exact fun hret c hc => hf hret c (h.holds hc)
    | remove h' => trivial
    | choose => trivial
  refine ⟨h.left.step hf, h.right.step hft, ?_, ?_⟩
  · cases op with
    | append h' env =>
      cases hop
      simp only [ServiceChannel.step, Copy.append_eq]
      split
      · exact h.hosts
      · simp
    | remove h' =>
      cases hop
      simp only [ServiceChannel.step, Copy.remove]
      cases hc : sc.hosts host with
      | none => simp [EtcdTest.remove, hc, ← h.hosts]
      | some c =>
        rw [h.left.remove_filter hc, h.right.remove_filter (h.hosts ▸ hc)]
        simp
    | choose => cases hop
  · cases op with
    | append h' env =>
      cases hop
      simp only [ServiceChannel.step, Copy.append_eq]
      split
      · exact h.array
      · rw [channelsOf_push, h.array]
        simp [Copy.newPtr, Copy.initAddr]
    | remove h' =>
      cases hop
      simp only [ServiceChannel.step, Copy.remove]
      cases hc : sc.hosts host with
      | none => simpa [EtcdTest.remove, hc, ← h.hosts] using h.array
      | some c =>
        rw [h.left.channelsOf_remove hc, h.right.remove_filter (h.hosts ▸ hc), h.array]
    | choose => cases hop

end ServiceChannel

open ServiceChannel

/-- **A host depends on its own calls only.** After a run, the map entry and the channels of a host
are those after the calls about the host alone. -/
theorem channelsOf_run {sc : ServiceChannel} {ops : List ChannelOp} (hi : sc.RepInv)
    (hs : sc.rotatingArray = []) (hf : Along (ServiceChannel.step .etcdTest) ChannelOp.Fresh sc ops)
    (host : String) :
    OnlyHost host (run (ServiceChannel.step .etcdTest) sc ops)
      (run (ServiceChannel.step .etcdTest) sc (ops.filter (·.host? == some host))) :=
  run_filter (R := OnlyHost host) (ServiceChannel.step .etcdTest) (·.host? == some host)
    (fun _ _ _ h hf ho => h.step hf (by simpa using ho))
    (fun _ _ op h hf ho => by
      obtain ⟨h1, h2⟩ := h.left.step_ne op (by simpa using ho)
      exact ⟨h.left.step hf, h.right, by rw [h2, h.hosts], by rw [h1, h.array]⟩)
    hf ⟨hi, hi, rfl, by simp [channelsOf, hs]⟩

/-- Lists with the same elements of every key, in order, are permutations of one another. -/
theorem perm_of_filter_key {α κ : Type} [DecidableEq α] [DecidableEq κ] (key : α → κ) {xs ys : List α}
    (h : ∀ a, xs.filter (key · == a) = ys.filter (key · == a)) : xs.Perm ys := by
  rw [List.perm_iff_count]
  intro x
  have hx := congrArg (List.count x) (h (key x))
  rwa [List.count_filter (by simp), List.count_filter (by simp)] at hx

/-- Arrays with the same channels of every host are permutations of one another. -/
theorem perm_of_channelsOf {sc t : ServiceChannel} (h : ∀ host, sc.channelsOf host = t.channelsOf host) :
    sc.rotatingArray.Perm t.rotatingArray :=
  perm_of_filter_key Channelptr.addr h

/-- **Calls about different hosts can be reordered.** Two runs of a new `ServiceChannel` with the
same calls about each host end with the same map, and with permutations of one array. -/
theorem perm_of_filter_host {serviceName : String} {ops ops' : List ChannelOp}
    (hf : Along (ServiceChannel.step .etcdTest) ChannelOp.Fresh (.new serviceName) ops)
    (hf' : Along (ServiceChannel.step .etcdTest) ChannelOp.Fresh (.new serviceName) ops')
    (h : ∀ host, ops.filter (·.host? == some host) = ops'.filter (·.host? == some host)) :
    (run (ServiceChannel.step .etcdTest) (.new serviceName) ops).hosts =
        (run (ServiceChannel.step .etcdTest) (.new serviceName) ops').hosts ∧
      (run (ServiceChannel.step .etcdTest) (.new serviceName) ops).rotatingArray.Perm
        (run (ServiceChannel.step .etcdTest) (.new serviceName) ops').rotatingArray := by
  have h1 := channelsOf_run (.new serviceName) rfl hf
  have h2 := channelsOf_run (.new serviceName) rfl hf'
  refine ⟨funext fun host => ?_, perm_of_channelsOf fun host => ?_⟩
  · rw [(h1 host).hosts, (h2 host).hosts, h host]
  · rw [(h1 host).array, (h2 host).array, h host]

end CharSystem
