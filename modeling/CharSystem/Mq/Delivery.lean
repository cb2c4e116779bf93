import CharSystem.Mailbox
import CharSystem.Mq.Channel

/-!
# Every message is handled

The clients and the broker are a mailbox of all copies (`Sim`). Its handles are the deliveries: a
client and a tag. A copy that the broker puts in a queue is put, a delivery hands it out, the callback
calls it, and the `ack` that the broker reads finishes it. To close a channel is a drop.

* `Run.delivered`: at least once. `Run.calls_le`: at most once, but for closed channels.
* `Run.called_published`: what the callbacks get has been published.
-/

namespace CharSystem

namespace Mq

/-- A delivery as a handle, with its copy. -/
def handle {Copy : Type} (p : Nat × Delivery Copy) : (Nat × Nat) × Copy :=
  ((p.1, p.2.deliveryTag), p.2.msg)

theorem handle_injective {Copy : Type} :
    Function.Injective (handle : Nat × Delivery Copy → (Nat × Nat) × Copy) := by
  rintro ⟨c, t, m⟩ ⟨c', t', m'⟩ h
  cases h
  rfl

/-- The channels closed by the broker among the labels. -/
def closes {Copy : Type} (ls : List (Label Copy)) : Nat :=
  ls.countP fun
    | .broker (.close _) => true
    | _ => false

section

variable {B : Broker} {s s' : State B} {l : Label B.Copy} {sent : List (Nat × Delivery B.Copy)}
  {b : Mailbox B.Copy (Nat × Nat)}

/-- The copies as a mailbox. -/
structure Sim (sent : List (Nat × Delivery B.Copy)) (s : State B)
    (b : Mailbox B.Copy (Nat × Nat)) : Prop where
  inv : s.Inv sent
  handed : b.handed = sent.map handle
  called : b.called = s.called.map handle
  put : ∀ m, b.place m = none ↔ m ∉ B.put s.broker
  ready : ∀ m, b.place m = some .ready ↔ m ∈ B.ready s.broker
  out : ∀ m c t, b.place m = some (.out (c, t)) ↔ ⟨t, m⟩ ∈ B.unacked s.broker c

namespace Sim

theorem init : Sim [] (State.init : State B) .empty where
  inv := .init
  handed := rfl
  called := rfl
  put m := by
    rw [show B.put (State.init : State B).broker = ∅ from B.init_put]
    exact iff_of_true rfl (Set.notMem_empty m)
  ready m := by
    rw [show B.ready (State.init : State B).broker = ∅ from B.init_ready]
    exact iff_of_false nofun (Set.notMem_empty m)
  out m c t := by
    rw [show B.unacked (State.init : State B).broker c = ∅ from B.init_unacked c]
    exact iff_of_false nofun (Set.notMem_empty _)

/-- A step that changes neither the broker nor the calls. -/
theorem client (h : Sim sent s b) (hi : s'.Inv sent) (hb : s'.broker = s.broker)
    (hc : s'.called = s.called) : Sim sent s' b where
  inv := hi
  handed := h.handed
  called := by rw [h.called, hc]
  put := hb ▸ h.put
  ready := hb ▸ h.ready
  out := hb ▸ h.out

/-- The callback is run for a delivery that it was not run for. -/
theorem callback (h : Sim sent s b) (hi : s'.Inv sent) {c : Nat} {k : Client B.Copy}
    {d : Delivery B.Copy} {rest : List (Delivery B.Copy)} (hc : s.clients c = some k)
    (hin : k.incoming = d :: rest) (hb : s'.broker = s.broker)
    (hcalled : s'.called = s.called ++ [(c, d)]) :
    ∃ b', MailboxStep b (.call (c, d.deliveryTag) d.msg) b' ∧ Sim sent s' b' := by
  obtain ⟨lost, hs, -⟩ := (State.client_eq hc ▸ h.inv.clients c).stream
  rw [hin] at hs
  have hsent : (c, d) ∈ sent := by
    rw [← mem_toClient, ← hs]
    simp
  have hnot : (c, d) ∉ s.called := fun hm => by
    have hn := h.inv.nodup c
    rw [← hs, List.append_assoc] at hn
    exact (List.nodup_append.mp hn).2.2 d (mem_toClient.mpr hm) d (by simp) rfl
  refine ⟨_, .call (h.handed ▸ List.mem_map_of_mem hsent) ?_, ?_⟩
  · rw [h.called]
    exact fun hm => hnot ((List.mem_map_of_injective handle_injective).mp hm)
  · exact {
      inv := hi
      handed := h.handed
      called := by rw [h.called, hcalled, List.map_append]; rfl
      put := hb ▸ h.put
      ready := hb ▸ h.ready
      out := hb ▸ h.out }

/-- The broker makes a delivery. -/
theorem deliver (h : Sim sent s b) {c : Nat} {d : Delivery B.Copy} (hi : s'.Inv (sent ++ [(c, d)]))
    (hst : B.step s.broker (.deliver c d) s'.broker) (hc : s'.called = s.called) :
    ∃ b', MailboxStep b (.hand (c, d.deliveryTag) d.msg) b' ∧ Sim (sent ++ [(c, d)]) s' b' := by
  obtain ⟨hready, hput, hready'⟩ := B.deliver_ready _ _ _ _ hst
  have hunacked := B.deliver_unacked _ _ _ _ hst
  have hplace := (h.ready d.msg).mpr hready
  -- The tag is a new one.
  have hfresh : (c, d.deliveryTag) ∉ b.handed.map Prod.fst := fun hm => by
    rw [h.handed, List.map_map] at hm
    obtain ⟨⟨c', d'⟩, hsent, he⟩ := List.mem_map.mp hm
    obtain ⟨rfl, ht⟩ : c' = c ∧ d'.deliveryTag = d.deliveryTag := Prod.mk.inj he
    have hle := h.inv.tag_le (mem_toClient.mpr hsent)
    have htag := (B.deliver_tag _ _ _ _ hst).1
    omega
  refine ⟨_, .hand hplace hfresh, hi, ?_, ?_, fun m => ?_, fun m => ?_, fun m c' t => ?_⟩
  · rw [h.handed, List.map_append]
    rfl
  · rw [h.called, hc]
  · rw [Mailbox.moveTo_eq_none, h.put, hput]
    refine ⟨And.right, fun hm => ⟨?_, hm⟩⟩
    rintro rfl
    rw [(h.put d.msg).mpr hm] at hplace
    cases hplace
  · rw [Mailbox.moveTo_eq, h.ready, hready']
    simp [and_comm]
  · rw [Mailbox.moveTo_eq, h.out, hunacked]
    by_cases hcc : c' = c
    · subst hcc
      rw [Function.update_self, Set.mem_insert_iff]
      obtain ⟨t', m'⟩ := d
      have hnot : ⟨t, m'⟩ ∉ B.unacked s.broker c' := fun hm => by
        rw [(h.out m' c' t).mpr hm] at hplace
        cases hplace
      by_cases hm : m = m' <;> simp [hm, hnot, eq_comm]
    · rw [Function.update_of_ne hcc]
      have hne : ¬ (Place.out (c, d.deliveryTag) : Place (Nat × Nat)) = .out (c', t) := fun he =>
        hcc (Prod.mk.inj (Place.out.inj he)).1.symm
      refine ⟨fun hm => hm.elim (fun hm => absurd hm.2 hne) And.right, fun hm => .inr ⟨?_, hm⟩⟩
      rintro rfl
      rw [(h.out d.msg c' t).mpr hm] at hplace
      cases hplace

/-- The broker reads a frame that is no `ack`. -/
theorem receive (h : Sim sent s b) (hi : s'.Inv sent) {c : Nat} {f : Frame}
    (hst : B.step s.broker (.receive c f) s'.broker) (hf : ∀ t, f ≠ .ack t)
    (hc : s'.called = s.called) :
    ∃ b', MailboxStep b (.put (B.put s'.broker \ B.put s.broker)) b' ∧ Sim sent s' b' := by
  have hnew : ∀ m ∈ B.put s'.broker \ B.put s.broker, b.place m = none :=
    fun m hm => (h.put m).mpr hm.2
  have hsub := (B.receive_publish _ _ _ _ hst).1
  refine ⟨_, .put hnew, hi, h.handed, by rw [h.called, hc], fun m => ?_, fun m => ?_,
    fun m c' t => ?_⟩
  · rw [Mailbox.putAt_eq_none, h.put, Set.mem_sdiff]
    have := @hsub m
    tauto
  · rw [Mailbox.putAt_eq hnew, h.ready, B.receive_ready _ _ _ _ hst, Set.mem_union]
    simp [or_comm]
  · rw [Mailbox.putAt_eq hnew, h.out, B.receive_other _ _ _ _ hst hf]
    simp

/-- The broker reads an `ack`. -/
theorem receive_ack (h : Sim sent s b) (hi : s'.Inv sent) {c t : Nat} {k : Client B.Copy}
    (hk : s.clients c = some k) (ho : .ack t ∈ k.outgoing)
    (hst : B.step s.broker (.receive c (.ack t)) s'.broker) (hc : s'.called = s.called) :
    ∃ b', MailboxStep b (.finish (c, t)) b' ∧ Sim sent s' b' := by
  obtain ⟨hsub, hnew⟩ := B.receive_publish _ _ _ _ hst
  have hput : B.put s'.broker = B.put s.broker :=
    Set.Subset.antisymm (fun m hm => by_contra fun hn => by cases hnew m ⟨hm, hn⟩) hsub
  have hready : B.ready s'.broker = B.ready s.broker := by
    rw [B.receive_ready _ _ _ _ hst, hput, Set.sdiff_self, Set.union_empty]
  -- The client has run its callback for the tag.
  have hcalled : (c, t) ∈ b.called.map Prod.fst := by
    obtain ⟨d, hd, rfl⟩ := (State.client_eq hk ▸ h.inv.clients c).acks t ho
    rw [h.called, List.map_map]
    exact List.mem_map.mpr ⟨(c, d), mem_toClient.mp hd, rfl⟩
  refine ⟨_, .finish hcalled, hi, h.handed, by rw [h.called, hc], fun m => ?_, fun m => ?_,
    fun m c' t' => ?_⟩
  · rw [Mailbox.takeFrom_eq_none, h.put, hput]
  · rw [Mailbox.takeFrom_eq nofun, h.ready, hready]
    simp
  · rw [Mailbox.takeFrom_eq_out nofun, h.out, B.receive_ack _ _ _ _ hst]
    by_cases hcc : c' = c
    · subst hcc
      simp
    · simp [hcc]

/-- The broker closes a channel. -/
theorem close (h : Sim sent s b) (hi : s'.Inv sent) {c : Nat}
    (hst : B.step s.broker (.close c) s'.broker) (hc : s'.called = s.called) :
    ∃ b', MailboxStep b (.drop {p | p.1 = c}) b' ∧ Sim sent s' b' := by
  obtain ⟨hput, -, hready⟩ := B.close_ready _ _ _ hst
  refine ⟨_, .drop, hi, h.handed, by rw [h.called, hc], fun m => ?_, fun m => ?_,
    fun m c' t => ?_⟩
  · rw [Mailbox.takeFrom_eq_none, h.put, hput]
  · rw [Mailbox.takeFrom_eq nofun, h.ready, hready, Set.mem_union, Set.mem_image]
    refine or_comm.trans (or_congr_right ?_)
    constructor
    · rintro ⟨-, ⟨c', t⟩, rfl, hp⟩
      exact ⟨⟨t, m⟩, (h.out m c' t).mp hp, rfl⟩
    · rintro ⟨⟨t, m⟩, hd, rfl⟩
      exact ⟨rfl, (c, t), rfl, (h.out m c t).mpr hd⟩
  · rw [Mailbox.takeFrom_eq_out nofun, h.out, B.close_unacked _ _ _ hst]
    by_cases hcc : c' = c
    · simp [hcc]
    · simp [hcc]

/-- Some mailbox steps, `n` of them drops, lead from `b` to a mailbox of `s`. -/
def After (b : Mailbox B.Copy (Nat × Nat)) (n : Nat) (sent : List (Nat × Delivery B.Copy))
    (s : State B) : Prop :=
  ∃ ls b', (mailboxSys B.Copy (Nat × Nat)).Steps b ls b' ∧ Mailbox.drops ls = n ∧ Sim sent s b'

theorem after_nil (h : Sim sent s b) : After b 0 sent s := ⟨[], b, .nil _, rfl, h⟩

theorem after_step {ml : MailboxLabel B.Copy (Nat × Nat)}
    (h : ∃ b', MailboxStep b ml b' ∧ Sim sent s b') : After b (Mailbox.drops [ml]) sent s := by
  obtain ⟨b', hs, h⟩ := h
  exact ⟨[ml], b', .snoc (.nil _) hs, rfl, h⟩

/-- **One step.** -/
theorem step (h : Sim sent s b) (hs : Step B s l s') :
    After b (closes [l]) (sent ++ deliveries [l]) s' := by
  have hi := h.inv.step hs
  -- The steps without a delivery.
  have moved : deliveries [l] = [] → ∀ {ml}, Mailbox.drops [ml] = closes [l] →
      (s'.Inv sent → ∃ b', MailboxStep b ml b' ∧ Sim sent s' b') →
      After b (closes [l]) (sent ++ deliveries [l]) s' := fun hd ml hdrops hb => by
    rw [hd, List.append_nil] at hi ⊢
    exact hdrops ▸ after_step (hb hi)
  have quiet : deliveries [l] = [] → closes [l] = 0 → (s'.Inv sent → Sim sent s' b) →
      After b (closes [l]) (sent ++ deliveries [l]) s' := fun hd hcl hb => by
    rw [hd, List.append_nil] at hi ⊢
    exact hcl ▸ (hb hi).after_nil
  cases hs with
  | callback hc _ _ hin => exact moved rfl rfl fun hi => h.callback hi hc hin rfl rfl
  | @receive c k f rest broker hc ho hst =>
    by_cases hf : ∃ t, f = .ack t
    · obtain ⟨t, rfl⟩ := hf
      exact moved rfl rfl fun hi => h.receive_ack hi hc (ho ▸ List.mem_cons_self) hst rfl
    · exact moved rfl rfl fun hi => h.receive hi hst (fun t he => hf ⟨t, he⟩) rfl
  | deliver hc hst => exact after_step (h.deliver hi hst rfl)
  | close hc hst => exact moved rfl rfl fun hi => h.close hi hst rfl
  | @other broker hst =>
    obtain ⟨hput, hready, hunacked, -⟩ := B.other_eq _ _ hst
    refine quiet rfl rfl fun hi => ⟨hi, h.handed, h.called, fun m => ?_, fun m => ?_,
      fun m c t => ?_⟩
    · rw [h.put, hput]
    · rw [h.ready, hready]
    · rw [h.out, hunacked]
  | _ => exact quiet rfl rfl fun hi => h.client hi rfl rfl

end Sim

/-- The message of a frame or of a copy has been published. -/
def Published {Copy : Type} (ls : List (Label Copy)) (m : Message) : Prop :=
  ∃ c routingKey, .publish c m.exchange m.body routingKey true ∈ ls ∧
    m.routingKey = routingKey.getD "routing_key"

/-- What is on its way to the broker or was put in a queue has been published. -/
structure State.Sources (ls : List (Label B.Copy)) (s : State B) : Prop where
  outgoing : ∀ c exchange routingKey body, .publish exchange routingKey body ∈ (s.client c).outgoing →
    Published ls ⟨exchange, routingKey, body⟩
  put : ∀ m ∈ B.put s.broker, Published ls (B.message m)

theorem Published.append {Copy : Type} {ls : List (Label Copy)} {m : Message} (h : Published ls m)
    (ls' : List (Label Copy)) : Published (ls ++ ls') m := by
  obtain ⟨c, routingKey, hm, hk⟩ := h
  exact ⟨c, routingKey, List.mem_append_left _ hm, hk⟩

/-- A client changes, and what it publishes has been published. -/
theorem State.Sources.setClient {ls : List (Label B.Copy)} (h : s.Sources ls) {c : Nat}
    {k k' : Client B.Copy} (hc : s.clients c = some k) (hk : ∀ exchange routingKey body,
      .publish exchange routingKey body ∈ k'.outgoing →
        .publish exchange routingKey body ∈ k.outgoing ∨ Published [l] ⟨exchange, routingKey, body⟩) :
    (s.setClient c k').Sources (ls ++ [l]) where
  outgoing c' exchange routingKey body hm := by
    rw [client_setClient] at hm
    split at hm
    · rcases hk exchange routingKey body hm with hm | ⟨c'', key, hm, he⟩
      · exact (h.outgoing c exchange routingKey body (by rwa [client_eq hc])).append [l]
      · exact ⟨c'', key, List.mem_append_right _ hm, he⟩
    · exact (h.outgoing c' exchange routingKey body hm).append [l]
  put m hm := (h.put m hm).append [l]

/-- The broker changes, and puts only what it has read. -/
theorem State.Sources.broker {ls : List (Label B.Copy)} (h : s.Sources ls) {b : B.State}
    (hb : ∀ m ∈ B.put b, m ∈ B.put s.broker ∨ Published ls (B.message m)) :
    State.Sources ls { s with broker := b } where
  outgoing := h.outgoing
  put m hm := (hb m hm).elim (h.put m) id

theorem State.Sources.init : (State.init : State B).Sources [] where
  outgoing _ _ _ _ hm := by cases hm
  put m hm := by
    rw [show B.put (State.init : State B).broker = ∅ from B.init_put] at hm
    cases hm

/-- **One step** and the messages. -/
theorem State.Sources.step {ls : List (Label B.Copy)} (h : s.Sources ls) (hs : Step B s l s') :
    s'.Sources (ls ++ [l]) := by
  cases hs with
  | @construct c hc =>
    refine ⟨fun c' exchange routingKey body hm => ?_, fun m hm => (h.put m hm).append _⟩
    rw [client_setClient] at hm
    split at hm
    · cases hm
    · exact (h.outgoing c' exchange routingKey body hm).append _
  | declareCombo hc =>
    refine h.setClient hc fun exchange routingKey body hm => .inl ?_
    simpa [Client.send, MQClient.declareCombo] using hm
  | @publish c k exchange msg key hc =>
    refine h.setClient hc fun exchange' routingKey body hm => ?_
    rcases List.mem_append.mp hm with hm | hm
    · exact .inl hm
    · obtain ⟨rfl, rfl, rfl⟩ := Frame.publish.inj (List.mem_singleton.mp hm)
      exact .inr ⟨c, key, List.mem_cons_self, rfl⟩
  | publishFailed =>
    exact ⟨fun c exchange routingKey body hm => (h.outgoing c exchange routingKey body hm).append _,
      fun m hm => (h.put m hm).append _⟩
  | consume hc =>
    refine h.setClient hc fun exchange routingKey body hm => .inl ?_
    simpa [Client.send, MQClient.consume] using hm
  | @callback c k d rest hc =>
    have hset : (s.setClient c { k with incoming := rest, received := some d }).Sources _ :=
      h.setClient (l := .callback c) hc fun _ _ _ hm => .inl hm
    exact ⟨hset.outgoing, hset.put⟩
  | ack hc =>
    refine h.setClient hc fun exchange routingKey body hm => .inl ?_
    simpa [Client.send, MQClient.ack] using hm
  | leave hc => exact h.setClient hc fun _ _ _ hm => .inl hm
  | @receive c k f rest b hc ho hst =>
    refine (h.setClient hc fun _ _ _ hm => .inl (ho ▸ List.mem_cons_of_mem f hm)).broker
      fun m hm => ?_
    by_cases hold : m ∈ B.put s.broker
    · exact .inl hold
    · have hf := (B.receive_publish _ _ _ _ hst).2 m ⟨hm, hold⟩
      refine .inr ((h.outgoing c _ _ _ ?_).append _)
      rw [client_eq hc, ho, hf]
      exact List.mem_cons_self
  | @deliver c k d b hc hst =>
    have hgive : (k.give d).outgoing = k.outgoing := by
      unfold Client.give
      split <;> rfl
    refine (h.setClient hc fun _ _ _ hm => .inl (hgive ▸ hm)).broker fun m hm => ?_
    exact .inl ((B.deliver_ready _ _ _ _ hst).2.1 ▸ hm)
  | close hc hst =>
    refine (h.setClient hc fun _ _ _ hm => by cases hm).broker fun m hm => ?_
    exact .inl ((B.close_ready _ _ _ hst).1 ▸ hm)
  | other hst =>
    refine State.Sources.broker ⟨fun c exchange routingKey body hm =>
      (h.outgoing c exchange routingKey body hm).append _, fun m hm => (h.put m hm).append _⟩
      fun m hm => ?_
    exact .inl ((B.other_eq _ _ hst).1 ▸ hm)

end

namespace Run

variable {B : Broker} (r : Run B)

/-- **The run as a run of the mailbox.** -/
theorem after : Sim.After .empty (closes r.labels) (deliveries r.labels) r.state := by
  refine r.steps.invariant (I := fun ls s => Sim.After .empty (closes ls) (deliveries ls) s)
    Sim.init.after_nil ?_
  intro ls s l s' ⟨ms, b, hsteps, hdrops, hsim⟩ hs
  obtain ⟨ms', b', hsteps', hdrops', hsim'⟩ := hsim.step hs
  refine ⟨ms ++ ms', b', hsteps.append hsteps', ?_, deliveries_append ls [l] ▸ hsim'⟩
  rw [Mailbox.drops_append, hdrops, hdrops']
  exact (List.countP_append).symm

/-- **No message is lost.** A copy that the broker has put in a queue is ready, or the broker keeps it
for a delivery that the client has not read, or a callback has been run for it. -/
theorem delivered {m : B.Copy} (hm : m ∈ B.put r.state.broker) :
    m ∈ B.ready r.state.broker ∨
      (∃ c t, ⟨t, m⟩ ∈ B.unacked r.state.broker c ∧ ∀ k, r.state.clients c = some k →
        k.live = true → ⟨t, m⟩ ∈ k.incoming) ∨
      ∃ c t, (c, ⟨t, m⟩) ∈ r.state.called := by
  obtain ⟨ms, b, hsteps, -, hsim⟩ := r.after
  have hcalled : ∀ {h}, (h, m) ∈ b.called → ∃ c t, (c, ⟨t, m⟩) ∈ r.state.called := fun {h} hh => by
    rw [hsim.called] at hh
    obtain ⟨⟨c, t, m'⟩, hm', he⟩ := List.mem_map.mp hh
    cases he
    exact ⟨c, t, hm'⟩
  rcases Mailbox.atLeastOnce hsteps (m := m) fun hn => (hsim.put m).mp hn hm with h | ⟨⟨c, t⟩, h⟩ | ⟨h, hh⟩
  · exact .inl ((hsim.ready m).mp h)
  · -- The broker keeps it: the client has read the delivery or not.
    have hkept := (hsim.out m c t).mp h
    by_cases hread : (c, ⟨t, m⟩) ∈ r.state.called
    · exact .inr (.inr ⟨c, t, hread⟩)
    · refine .inr (.inl ⟨c, t, hkept, fun k hk hlive => ?_⟩)
      obtain ⟨-, -, hs⟩ := r.called_inOrder hk
      have hsent := r.inv.kept c _ hkept
      rw [← hs hlive] at hsent
      exact (List.mem_append.mp hsent).resolve_left fun hm => hread (mem_toClient.mp hm)
  · exact .inr (.inr (hcalled hh))

theorem delivered_hello : helloCopy ∈ oneQueue.ready helloRun.state.broker ∨
    (∃ c t, ⟨t, helloCopy⟩ ∈ oneQueue.unacked helloRun.state.broker c ∧ ∀ k,
      helloRun.state.clients c = some k → k.live = true → ⟨t, helloCopy⟩ ∈ k.incoming) ∨
    ∃ c t, (c, ⟨t, helloCopy⟩) ∈ helloRun.state.called :=
  helloRun.delivered (m := helloCopy) rfl

/-- **No message is handled twice**, but once more for each channel that was closed at most. -/
theorem calls_le (m : B.Copy) :
    (r.state.called.map (·.2.msg)).count m ≤ 1 + closes r.labels := by
  obtain ⟨ms, b, hsteps, hdrops, hsim⟩ := r.after
  have hle := Mailbox.atMostDrops hsteps m
  rw [hdrops, Mailbox.calls, hsim.called, List.map_map] at hle
  exact hle

/-- A callback is run for copies that were put in a queue. -/
theorem called_put {c : Nat} {d : Delivery B.Copy} (hm : (c, d) ∈ r.state.called) :
    d.msg ∈ B.put r.state.broker := by
  obtain ⟨ms, b, hsteps, -, hsim⟩ := r.after
  have hi := Mailbox.inv_steps hsteps
  by_contra hn
  have hhands := hi.put d.msg ((hsim.put d.msg).mpr hn)
  have hcalled : handle (c, d) ∈ b.called := hsim.called ▸ List.mem_map_of_mem hm
  exact List.count_eq_zero.mp hhands (List.mem_map_of_mem (hi.called hcalled))

/-- **What a callback gets has been published**: by a call of `publish` that returned true, with the
exchange, the body and the routing key or its default. -/
theorem called_published {c : Nat} {d : Delivery B.Copy} (hm : (c, d) ∈ r.state.called) :
    ∃ c' routingKey, .publish c' (B.message d.msg).exchange (B.message d.msg).body routingKey true ∈
      r.labels ∧ (B.message d.msg).routingKey = routingKey.getD "routing_key" := by
  have hs := r.steps.invariant (I := fun ls s => s.Sources ls) .init fun _ _ _ _ hi hs => hi.step hs
  exact hs.put d.msg (r.called_put hm)

theorem called_published_hello : ∃ c routingKey,
    .publish c "e" "hello" routingKey true ∈ helloRun.labels ∧
      "routing_key" = routingKey.getD "routing_key" :=
  helloRun.called_published (c := 0) (d := ⟨1, helloCopy⟩) (by decide)

end Run

end Mq

end CharSystem
