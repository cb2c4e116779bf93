import CharSystem.Mq.OneQueue
import Mathlib.Data.List.Nodup

/-!
# The channel of a client

The deliveries that a client has handled, followed by those that it has not read, are the deliveries
that the broker has made to it, in order, up to those that it has left behind (`Client.Follows`). It
acknowledges each after its callback.

* `State.Inv`: the same of all clients. Every step keeps it.
* `Run.called_inOrder`: callbacks run in the order of the deliveries, without a gap.
* `Run.ack_accepted`: an `ack` is for a delivery that the broker still keeps.
-/

namespace CharSystem

namespace Mq

section

variable {Copy : Type}

/-- The deliveries to the client `c`. -/
def toClient (l : List (Nat × Delivery Copy)) (c : Nat) : List (Delivery Copy) :=
  (l.filter (·.1 = c)).map (·.2)

theorem mem_toClient {l : List (Nat × Delivery Copy)} {c : Nat} {d : Delivery Copy} :
    d ∈ toClient l c ↔ (c, d) ∈ l := by
  simp [toClient]

theorem toClient_concat (l : List (Nat × Delivery Copy)) (c : Nat) (d : Delivery Copy) (c' : Nat) :
    toClient (l ++ [(c, d)]) c' = if c' = c then toClient l c' ++ [d] else toClient l c' := by
  by_cases hc : c' = c
  · simp [toClient, hc]
  · simp [toClient, hc, Ne.symm hc]

/-- The deliveries that the broker makes. -/
def deliveries (ls : List (Label Copy)) : List (Nat × Delivery Copy) :=
  ls.filterMap fun
    | .broker (.deliver c d) => some (c, d)
    | _ => none

theorem deliveries_append (ls ls' : List (Label Copy)) :
    deliveries (ls ++ ls') = deliveries ls ++ deliveries ls' := List.filterMap_append

/-! ## One client -/

/-- A client has run its callback for `called`, and `sent` are the deliveries to it. -/
structure Client.Follows (k : Client Copy) (sent called : List (Delivery Copy)) : Prop where
  stream : ∃ lost, called ++ k.incoming ++ lost = sent ∧ (k.live = true → lost = [])
  received : ∀ d, k.received = some d → d ∈ called
  acks : ∀ t, .ack t ∈ k.outgoing → ∃ d ∈ called, d.deliveryTag = t

namespace Client.Follows

variable {k : Client Copy} {sent called : List (Delivery Copy)}

theorem subset (h : k.Follows sent called) : called ⊆ sent := by
  obtain ⟨lost, hs, -⟩ := h.stream
  intro d hd
  rw [← hs]
  exact List.mem_append_left _ (List.mem_append_left _ hd)

/-- Frames that acknowledge nothing. -/
theorem send (h : k.Follows sent called) {frames : List Frame} (hf : ∀ t, .ack t ∉ frames) :
    (k.send frames).Follows sent called where
  stream := h.stream
  received := h.received
  acks t ht := (List.mem_append.mp ht).elim (h.acks t) fun ht => absurd ht (hf t)

/-- Some of the frames are left. -/
theorem outgoing (h : k.Follows sent called) {frames : List Frame} (hf : frames ⊆ k.outgoing) :
    Client.Follows { k with outgoing := frames } sent called where
  stream := h.stream
  received := h.received
  acks t ht := h.acks t (hf ht)

theorem callback (h : k.Follows sent called) {d : Delivery Copy} {rest : List (Delivery Copy)}
    (hin : k.incoming = d :: rest) :
    Client.Follows { k with incoming := rest, received := some d } sent (called ++ [d]) where
  stream := by
    obtain ⟨lost, hs, hl⟩ := h.stream
    rw [hin] at hs
    exact ⟨lost, by simpa using hs, hl⟩
  received d' hd := by
    rw [← Option.some.inj hd]
    exact List.mem_append_right _ List.mem_cons_self
  acks t ht := by
    obtain ⟨d', hd, he⟩ := h.acks t ht
    exact ⟨d', List.mem_append_left _ hd, he⟩

theorem ack (h : k.Follows sent called) {d : Delivery Copy} (hr : k.received = some d) :
    ({ k with received := none }.send (MQClient.ack d.deliveryTag)).Follows sent called where
  stream := h.stream
  received d' hd := by cases hd
  acks t ht := by
    rcases List.mem_append.mp ht with ht | ht
    · exact h.acks t ht
    · obtain rfl := Frame.ack.inj (List.mem_singleton.mp ht)
      exact ⟨d, h.received d hr, rfl⟩

theorem left (h : k.Follows sent called) : k.left.Follows sent called where
  stream := by
    obtain ⟨lost, hs, -⟩ := h.stream
    exact ⟨k.incoming ++ lost, by simpa [Client.left] using hs, nofun⟩
  received d hd := by cases hd
  acks := h.acks

theorem give (h : k.Follows sent called) (d : Delivery Copy) :
    (k.give d).Follows (sent ++ [d]) called := by
  obtain ⟨lost, hs, hl⟩ := h.stream
  unfold Client.give
  split
  · rename_i hlive
    refine ⟨⟨[], ?_, fun _ => rfl⟩, h.received, h.acks⟩
    rw [hl hlive, List.append_nil] at hs
    simp [← hs]
  · rename_i hlive
    exact ⟨⟨lost ++ [d], by rw [← List.append_assoc, hs], fun hlive' => absurd hlive' hlive⟩,
      h.received, h.acks⟩

end Client.Follows

end

/-! ## All clients -/

section

variable {B : Broker} {s s' : State B} {l : Label B.Copy} {sent : List (Nat × Delivery B.Copy)}

/-- A client, or what it starts as. -/
def State.client (s : State B) (c : Nat) : Client B.Copy := (s.clients c).getD .new

theorem State.client_eq {c : Nat} {k : Client B.Copy} (h : s.clients c = some k) : s.client c = k := by
  rw [client, h, Option.getD_some]

theorem State.client_setClient (s : State B) (c : Nat) (k : Client B.Copy) (c' : Nat) :
    (s.setClient c k).client c' = if c' = c then k else s.client c' := by
  unfold client setClient
  by_cases hc : c' = c <;> simp [hc]

/-- What the clients have got of the deliveries `sent`. -/
structure State.Inv (sent : List (Nat × Delivery B.Copy)) (s : State B) : Prop where
  tags : ∀ c, (toClient sent c).map (·.deliveryTag) = List.range' 1 (B.tags s.broker c)
  kept : ∀ c, ∀ d ∈ B.unacked s.broker c, d ∈ toClient sent c
  clients : ∀ c, (s.client c).Follows (toClient sent c) (toClient s.called c)

namespace State.Inv

theorem init : (State.init : State B).Inv [] where
  tags c := by
    rw [show B.tags State.init.broker c = 0 from B.init_tags c]
    rfl
  kept c d hd := by
    rw [show B.unacked State.init.broker c = ∅ from B.init_unacked c] at hd
    cases hd
  clients c := ⟨⟨[], rfl, fun _ => rfl⟩, nofun, nofun⟩

theorem nodup (h : s.Inv sent) (c : Nat) : (toClient sent c).Nodup := by
  refine List.Nodup.of_map (·.deliveryTag) ?_
  rw [h.tags c]
  exact List.nodup_range'

theorem tag_le (h : s.Inv sent) {c : Nat} {d : Delivery B.Copy} (hd : d ∈ toClient sent c) :
    d.deliveryTag ≤ B.tags s.broker c := by
  have hm : d.deliveryTag ∈ (toClient sent c).map (·.deliveryTag) := List.mem_map_of_mem hd
  rw [h.tags c, List.mem_range'_1] at hm
  omega

/-- A client changes. -/
theorem setClient (h : s.Inv sent) {c : Nat} {k : Client B.Copy}
    (hk : k.Follows (toClient sent c) (toClient s.called c)) : (s.setClient c k).Inv sent where
  tags := h.tags
  kept := h.kept
  clients c' := by
    rw [client_setClient]
    split
    · rename_i hc
      exact hc ▸ hk
    · exact h.clients c'

/-- The broker changes, but makes no delivery. -/
theorem broker (h : s.Inv sent) {b : B.State} (ht : B.tags b = B.tags s.broker)
    (hk : ∀ c, B.unacked b c ⊆ B.unacked s.broker c) : Inv sent { s with broker := b } where
  tags c := by rw [h.tags c, ht]
  kept c d hd := h.kept c d (hk c hd)
  clients := h.clients

theorem unacked_receive {c : Nat} {f : Frame} {b : B.State} (hst : B.step s.broker (.receive c f) b)
    (c' : Nat) : B.unacked b c' ⊆ B.unacked s.broker c' := by
  by_cases hf : ∃ t, f = .ack t
  · obtain ⟨t, rfl⟩ := hf
    rw [B.receive_ack _ _ _ _ hst]
    by_cases hc : c' = c
    · subst hc
      rw [Function.update_self]
      exact Set.sep_subset _ _
    · rw [Function.update_of_ne hc]
  · rw [B.receive_other _ _ _ _ hst fun t he => hf ⟨t, he⟩]

theorem unacked_close {c : Nat} {b : B.State} (hst : B.step s.broker (.close c) b) (c' : Nat) :
    B.unacked b c' ⊆ B.unacked s.broker c' := by
  rw [B.close_unacked _ _ _ hst]
  by_cases hc : c' = c
  · subst hc
    rw [Function.update_self]
    exact Set.empty_subset _
  · rw [Function.update_of_ne hc]

/-- A delivery. -/
theorem deliver (h : s.Inv sent) {c : Nat} {k : Client B.Copy} {d : Delivery B.Copy} {b : B.State}
    (hc : s.clients c = some k) (hst : B.step s.broker (.deliver c d) b) :
    Inv (sent ++ [(c, d)]) { s.setClient c (k.give d) with broker := b } where
  tags c' := by
    obtain ⟨htag, htags⟩ := B.deliver_tag _ _ _ _ hst
    rw [toClient_concat, show B.tags _ c' = B.tags b c' from rfl, htags]
    split
    · rename_i hcc
      rw [hcc, Function.update_self, List.map_append, h.tags, List.range'_concat]
      simp [htag, Nat.add_comm]
    · rename_i hcc
      rw [Function.update_of_ne hcc, h.tags]
  kept c' d' hd := by
    have hm := hd
    rw [show B.unacked _ c' = B.unacked b c' from rfl, B.deliver_unacked _ _ _ _ hst] at hm
    rw [toClient_concat]
    split
    · rename_i hcc
      subst hcc
      rw [Function.update_self] at hm
      rcases hm with rfl | hm
      · exact List.mem_append_right _ List.mem_cons_self
      · exact List.mem_append_left _ (h.kept c' d' hm)
    · rename_i hcc
      rw [Function.update_of_ne hcc] at hm
      exact h.kept c' d' hm
  clients c' := by
    have hk := h.clients c
    rw [client_eq hc] at hk
    change ((s.setClient c (k.give d)).client c').Follows (toClient (sent ++ [(c, d)]) c')
      (toClient s.called c')
    rw [toClient_concat, client_setClient]
    split
    · rename_i hcc
      subst hcc
      exact hk.give d
    · exact h.clients c'

/-- **One step.** -/
theorem step (h : s.Inv sent) (hs : Step B s l s') : s'.Inv (sent ++ deliveries [l]) := by
  have hfollows : ∀ c k, s.clients c = some k → k.Follows (toClient sent c) (toClient s.called c) :=
    fun c k hc => client_eq hc ▸ h.clients c
  have hsame : deliveries [l] = [] → s'.Inv sent → s'.Inv (sent ++ deliveries [l]) := fun hl hi => by
    rwa [hl, List.append_nil]
  cases hs with
  | @construct c hc =>
    have hnew : s.client c = .new := by rw [client, hc, Option.getD_none]
    exact hsame rfl (h.setClient (hnew ▸ h.clients c))
  | declareCombo hc =>
    exact hsame rfl (h.setClient ((hfollows _ _ hc).send (by simp [MQClient.declareCombo])))
  | publish hc =>
    exact hsame rfl (h.setClient ((hfollows _ _ hc).send (by simp [MQClient.publish])))
  | publishFailed => exact hsame rfl h
  | consume hc =>
    exact hsame rfl (h.setClient ((hfollows _ _ hc).send (by simp [MQClient.consume])))
  | @callback c k d rest hc _ _ hin =>
    refine hsame rfl ⟨h.tags, h.kept, fun c' => ?_⟩
    change ((s.setClient c _).client c').Follows (toClient sent c')
      (toClient (s.called ++ [(c, d)]) c')
    rw [toClient_concat, client_setClient]
    split
    · rename_i hcc
      subst hcc
      exact (hfollows _ _ hc).callback hin
    · exact h.clients c'
  | ack hc _ hr => exact hsame rfl (h.setClient ((hfollows _ _ hc).ack hr))
  | leave hc => exact hsame rfl (h.setClient (hfollows _ _ hc).left)
  | receive hc ho hst =>
    have hset := h.setClient ((hfollows _ _ hc).outgoing (ho ▸ List.subset_cons_self _ _))
    exact hsame rfl (hset.broker (B.receive_tags _ _ _ _ hst) (unacked_receive hst))
  | deliver hc hst => exact h.deliver hc hst
  | close hc hst =>
    have hset := h.setClient ((hfollows _ _ hc).outgoing (List.nil_subset _))
    exact hsame rfl (hset.broker (B.close_ready _ _ _ hst).2.1 (unacked_close hst))
  | other hst =>
    obtain ⟨-, -, hun, ht⟩ := B.other_eq _ _ hst
    exact hsame rfl (h.broker ht fun c => by rw [hun])

end State.Inv

end

/-! ## Acknowledgements -/

/-- The delivery tags that frames acknowledge. -/
def acks (frames : List Frame) : List Nat :=
  frames.filterMap fun
    | .ack deliveryTag => some deliveryTag
    | _ => none

@[simp] theorem acks_append (fs gs : List Frame) : acks (fs ++ gs) = acks fs ++ acks gs :=
  List.filterMap_append

/-- The tags that a client has still to acknowledge, as the broker sees it. -/
def Client.due {Copy : Type} (k : Client Copy) : List Nat :=
  acks k.outgoing ++ (k.received.toList ++ k.incoming).map (·.deliveryTag)

section

variable {B : Broker} {s s' : State B} {l : Label B.Copy} {sent : List (Nat × Delivery B.Copy)}
  {c : Nat}

/-- The broker keeps what the client `c` has still to acknowledge. -/
structure State.Due (s : State B) (c : Nat) : Prop where
  nodup : (s.client c).due.Nodup
  kept : ∀ t ∈ (s.client c).due, ∃ d ∈ B.unacked s.broker c, d.deliveryTag = t

namespace State.Due

theorem init (c : Nat) : (State.init : State B).Due c where
  nodup := List.nodup_nil
  kept := nofun

/-- The broker keeps as much, and the client has no more to acknowledge. -/
theorem mono (h : s.Due c) (hd : (s'.client c).due.Sublist (s.client c).due)
    (hu : B.unacked s.broker c ⊆ B.unacked s'.broker c) : s'.Due c where
  nodup := h.nodup.sublist hd
  kept t ht := by
    obtain ⟨d, hm, he⟩ := h.kept t (hd.subset ht)
    exact ⟨d, hu hm, he⟩

/-- A client changes, and not the broker. -/
theorem setClient (h : s.Due c) {c' : Nat} {k k' : Client B.Copy} (hc : s.clients c' = some k)
    (hd : k'.due.Sublist k.due) : (s.setClient c' k').Due c := by
  refine h.mono ?_ subset_rfl
  rw [client_setClient]
  split
  · rename_i hcc
    rw [hcc, client_eq hc]
    exact hd
  · exact List.Sublist.refl _

theorem same (h : s.Due c) {c' : Nat} {k k' : Client B.Copy} (hc : s.clients c' = some k)
    (hd : k'.due = k.due) : (s.setClient c' k').Due c :=
  h.setClient hc (hd ▸ List.Sublist.refl _)

/-- The broker reads a frame of the client. -/
theorem receive (h : s.Due c) {k : Client B.Copy} {f : Frame} {rest : List Frame} {b : B.State}
    (hc : s.clients c = some k) (ho : k.outgoing = f :: rest)
    (hst : B.step s.broker (.receive c f) b) :
    State.Due { s.setClient c { k with outgoing := rest } with broker := b } c := by
  have hclient : State.client { s.setClient c { k with outgoing := rest } with broker := b } c =
      { k with outgoing := rest } := client_eq (Function.update_self ..)
  have hdue : k.due = acks [f] ++ Client.due { k with outgoing := rest } := by
    unfold Client.due
    rw [ho, ← List.singleton_append, acks_append, List.append_assoc]
  have hnodup := h.nodup
  have hkept := h.kept
  rw [client_eq hc, hdue] at hnodup hkept
  refine ⟨by rw [hclient]; exact (List.nodup_append.mp hnodup).2.1, fun t ht => ?_⟩
  rw [hclient] at ht
  obtain ⟨d, hm, he⟩ := hkept t (List.mem_append_right _ ht)
  refine ⟨d, ?_, he⟩
  change d ∈ B.unacked b c
  by_cases hf : ∃ t', f = .ack t'
  · obtain ⟨t', rfl⟩ := hf
    rw [B.receive_ack _ _ _ _ hst, Function.update_self]
    exact ⟨hm, he ▸ Ne.symm ((List.nodup_append.mp hnodup).2.2 t' List.mem_cons_self t ht)⟩
  · rwa [B.receive_other _ _ _ _ hst fun t' he => hf ⟨t', he⟩]

/-- A delivery to the client. -/
theorem deliver (h : s.Due c) (hi : s.Inv sent) {k : Client B.Copy} {d : Delivery B.Copy}
    {b : B.State} (hc : s.clients c = some k) (hst : B.step s.broker (.deliver c d) b) :
    State.Due { s.setClient c (k.give d) with broker := b } c := by
  have hclient : State.client { s.setClient c (k.give d) with broker := b } c = k.give d :=
    client_eq (Function.update_self ..)
  have hunacked : B.unacked b c = insert d (B.unacked s.broker c) := by
    rw [B.deliver_unacked _ _ _ _ hst, Function.update_self]
  have hnodup := h.nodup
  have hkept := h.kept
  rw [client_eq hc] at hnodup hkept
  have hdue : (k.give d).due = k.due ∨ (k.give d).due = k.due ++ [d.deliveryTag] := by
    unfold Client.give
    split
    · right
      simp [Client.due]
    · exact .inl rfl
  -- The tag is a new one.
  have hnew : d.deliveryTag ∉ k.due := fun ht => by
    obtain ⟨d', hm, he⟩ := hkept _ ht
    have hle := hi.tag_le (hi.kept c d' hm)
    have htag := (B.deliver_tag _ _ _ _ hst).1
    omega
  constructor
  · rw [hclient]
    rcases hdue with hdue | hdue
    · rwa [hdue]
    · rw [hdue]
      simpa using List.Nodup.concat hnew hnodup
  · intro t ht
    change ∃ d' ∈ B.unacked b c, d'.deliveryTag = t
    rw [hunacked]
    have ht : t ∈ k.due ∨ t = d.deliveryTag := by
      rw [hclient] at ht
      rcases hdue with hdue | hdue
      · exact .inl (hdue ▸ ht)
      · rw [hdue] at ht
        exact (List.mem_append.mp ht).imp_right List.mem_singleton.mp
    rcases ht with ht | rfl
    · obtain ⟨d', hm, he⟩ := hkept t ht
      exact ⟨d', Set.mem_insert_of_mem d hm, he⟩
    · exact ⟨d, Set.mem_insert .., rfl⟩

/-- A step of the broker about another client. -/
theorem other (h : s.Due c) {c' : Nat} {k : Client B.Copy} {b : B.State} (hne : c ≠ c')
    (hu : B.unacked b c = B.unacked s.broker c) :
    State.Due { s.setClient c' k with broker := b } c := by
  refine h.mono ?_ (Set.Subset.antisymm_iff.mp hu).2
  change ((s.setClient c' k).client c).due.Sublist _
  rw [client_setClient, if_neg hne]

/-- **One step** that does not close the channel of the client. -/
theorem step (h : s.Due c) (hi : s.Inv sent) (hs : Step B s l s') (hl : l ≠ .broker (.close c)) :
    s'.Due c := by
  cases hs with
  | @construct c' hc' =>
    refine h.mono ?_ subset_rfl
    rw [client_setClient]
    split
    · rename_i hcc
      exact List.nil_sublist _
    · exact List.Sublist.refl _
  | declareCombo hc =>
    refine h.same hc ?_
    simp [Client.due, Client.send, MQClient.declareCombo, acks]
  | publish hc =>
    refine h.same hc ?_
    simp [Client.due, Client.send, MQClient.publish, acks]
  | publishFailed => exact h
  | consume hc =>
    refine h.same hc ?_
    simp [Client.due, Client.send, MQClient.consume, acks]
  | @callback c' k d rest hc _ hr hin =>
    have hset := h.same hc (show Client.due { k with incoming := rest, received := some d } = k.due by
      simp [Client.due, hr, hin])
    exact ⟨hset.nodup, hset.kept⟩
  | ack hc _ hr =>
    refine h.same hc ?_
    simp [Client.due, Client.send, MQClient.ack, acks, hr]
  | leave hc =>
    refine h.setClient hc ?_
    simp [Client.due, Client.left]
  | @receive c' k f rest b hc ho hst =>
    by_cases hcc : c = c'
    · subst hcc
      exact h.receive hc ho hst
    · refine h.other hcc ?_
      by_cases hf : ∃ t, f = .ack t
      · obtain ⟨t, rfl⟩ := hf
        rw [B.receive_ack _ _ _ _ hst, Function.update_of_ne hcc]
      · rw [B.receive_other _ _ _ _ hst fun t he => hf ⟨t, he⟩]
  | @deliver c' k d b hc hst =>
    by_cases hcc : c = c'
    · subst hcc
      exact h.deliver hi hc hst
    · refine h.other hcc ?_
      rw [B.deliver_unacked _ _ _ _ hst, Function.update_of_ne hcc]
  | @close c' k b hc hst =>
    have hcc : c ≠ c' := fun he => hl (he ▸ rfl)
    refine h.other hcc ?_
    rw [B.close_unacked _ _ _ hst, Function.update_of_ne hcc]
  | other hst =>
    have hu := (B.other_eq _ _ hst).2.2.1
    exact h.mono (List.Sublist.refl _) (by rw [hu])

end State.Due

end

/-! ## The runs -/

namespace Run

variable {B : Broker} (r : Run B)

theorem inv : r.state.Inv (deliveries r.labels) :=
  r.steps.invariant (I := fun ls s => s.Inv (deliveries ls)) .init fun ls s l s' hi hs => by
    rw [deliveries_append]
    exact hi.step hs

/-- **Callbacks run in order.** The callback of a client has been run for the first of the deliveries
to it, in their order and once for each. As long as the client has not left, it has not read the
others. -/
theorem called_inOrder {c : Nat} {k : Client B.Copy} (hc : r.state.clients c = some k) :
    toClient r.state.called c <+: toClient (deliveries r.labels) c ∧ (toClient r.state.called c).Nodup ∧
      (k.live = true → toClient r.state.called c ++ k.incoming = toClient (deliveries r.labels) c) := by
  obtain ⟨lost, hs, hl⟩ := (State.client_eq hc ▸ r.inv.clients c).stream
  have hinitial : toClient r.state.called c <+: toClient (deliveries r.labels) c :=
    ⟨k.incoming ++ lost, by rw [← List.append_assoc, hs]⟩
  refine ⟨hinitial, (r.inv.nodup c).sublist hinitial.sublist, fun hlive => ?_⟩
  rw [← hs, hl hlive, List.append_nil]

theorem called_inOrder_hello :
    toClient helloRun.state.called 0 <+: toClient (deliveries helloRun.labels) 0 ∧
      (toClient helloRun.state.called 0).Nodup ∧
      ((helloRun.state.client 0).live = true →
        toClient helloRun.state.called 0 ++ (helloRun.state.client 0).incoming =
          toClient (deliveries helloRun.labels) 0) :=
  helloRun.called_inOrder (c := 0) rfl

/-- **No `ack` is refused.** As long as the broker has not closed the channel of a client, an `ack` that
it reads has the tag of a delivery that it keeps for this client. -/
theorem ack_accepted {c t : Nat} {k : Client B.Copy} {rest : List Frame}
    (hc : r.state.clients c = some k) (ho : k.outgoing = .ack t :: rest)
    (hopen : .broker (.close c) ∉ r.labels) :
    ∃ d ∈ B.unacked r.state.broker c, d.deliveryTag = t := by
  have hdue : r.state.Due c := by
    refine (r.steps.invariant (I := fun ls s => s.Inv (deliveries ls) ∧
      (.broker (.close c) ∉ ls → s.Due c)) ⟨.init, fun _ => .init c⟩ fun ls s l s' ⟨hi, hd⟩ hs => ?_).2
      hopen
    refine ⟨deliveries_append ls [l] ▸ hi.step hs, fun hn => ?_⟩
    rw [List.mem_append, not_or] at hn
    exact (hd hn.1).step hi hs fun he => hn.2 (he ▸ List.mem_singleton_self _)
  refine hdue.kept t ?_
  rw [State.client_eq hc, Client.due, ho]
  exact List.mem_append_left _ List.mem_cons_self

theorem ack_accepted_hello :
    ∃ d ∈ oneQueue.unacked helloRun.state.broker 0, d.deliveryTag = 1 :=
  helloRun.ack_accepted (c := 0) (t := 1) rfl rfl (by decide)

end Run

end Mq

end CharSystem
