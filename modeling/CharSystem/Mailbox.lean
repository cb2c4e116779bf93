import CharSystem.Sys
import Mathlib.Data.List.Count
import Mathlib.Data.List.Nodup
import Mathlib.Data.List.Perm.Subperm

/-!
# Delivery with acknowledgement

Messages are put, handed out, and finished. A handle stands for one handing out: a callback is called
for it, once, and only then it is finished. Handles are dropped at any time: the messages that are out
with them are ready again, and to finish a dropped handle does nothing. Its call can still come.

* `Mailbox`: where every message is, the handles given, and the calls made. `MailboxStep`: what can
  happen.
* `Mailbox.Inv`: a finished message has been called, and a message is handed out once and once more for
  each drop at most. Every step keeps it.
* `Mailbox.atLeastOnce`, `Mailbox.atMostDrops`: the same of a run.
-/

namespace CharSystem

/-- Where a message is: to be handed out, out with a handle, or finished. -/
inductive Place (κ : Type) where
  | ready
  | out (h : κ)
  | done

/-- Messages in `α` and handles in `κ`. Handles and calls are listed with their message, the oldest
first. -/
structure Mailbox (α κ : Type) where
  place : α → Option (Place κ)
  handed : List (κ × α)
  called : List (κ × α)

/-- What happens. `put` has the messages that are put, `drop` the handles that are dropped. -/
inductive MailboxLabel (α κ : Type) where
  | put (ms : Set α)
  | hand (h : κ) (m : α)
  | call (h : κ) (m : α)
  | finish (h : κ)
  | drop (hs : Set κ)

open Classical in
/-- The places after the messages `ms` are put. -/
noncomputable def Mailbox.putAt {α κ : Type} (b : Mailbox α κ) (ms : Set α) (m : α) :
    Option (Place κ) :=
  if m ∈ ms then some .ready else b.place m

open Classical in
/-- The places after the message `m` has moved to `p`. -/
noncomputable def Mailbox.moveTo {α κ : Type} (b : Mailbox α κ) (m : α) (p : Place κ) (m' : α) :
    Option (Place κ) :=
  if m' = m then some p else b.place m'

open Classical in
/-- The places after the messages that are out with one of `hs` have moved to `p`. -/
noncomputable def Mailbox.takeFrom {α κ : Type} (b : Mailbox α κ) (hs : Set κ) (p : Place κ) (m : α) :
    Option (Place κ) :=
  if ∃ h ∈ hs, b.place m = some (.out h) then some p else b.place m

section

variable {α κ : Type}

/-- One step. A handle is given once, and a handle is called once, before it is finished. -/
inductive MailboxStep : Mailbox α κ → MailboxLabel α κ → Mailbox α κ → Prop
  | put {b : Mailbox α κ} {ms : Set α} : (∀ m ∈ ms, b.place m = none) →
    MailboxStep b (.put ms) { b with place := b.putAt ms }
  | hand {b : Mailbox α κ} {h : κ} {m : α} : b.place m = some .ready →
    h ∉ b.handed.map Prod.fst →
    MailboxStep b (.hand h m) { b with place := b.moveTo m (.out h), handed := b.handed ++ [(h, m)] }
  | call {b : Mailbox α κ} {h : κ} {m : α} : (h, m) ∈ b.handed → (h, m) ∉ b.called →
    MailboxStep b (.call h m) { b with called := b.called ++ [(h, m)] }
  | finish {b : Mailbox α κ} {h : κ} : h ∈ b.called.map Prod.fst →
    MailboxStep b (.finish h) { b with place := b.takeFrom {h} .done }
  | drop {b : Mailbox α κ} {hs : Set κ} :
    MailboxStep b (.drop hs) { b with place := b.takeFrom hs .ready }

variable (α κ) in
/-- The runs of a mailbox. -/
abbrev mailboxSys : Sys := ⟨Mailbox α κ, MailboxLabel α κ, MailboxStep⟩

namespace Mailbox

/-- Before the first message. -/
def empty : Mailbox α κ := ⟨fun _ => none, [], []⟩

/-- The drops among the labels. -/
def drops (ls : List (MailboxLabel α κ)) : Nat :=
  ls.countP fun
    | .drop _ => true
    | _ => false

variable {b b' : Mailbox α κ} {l : MailboxLabel α κ} {ls : List (MailboxLabel α κ)} {n : Nat}

theorem drops_append (ls ls' : List (MailboxLabel α κ)) :
    drops (ls ++ ls') = drops ls + drops ls' := List.countP_append

/-! ## The places -/

theorem putAt_eq_none {ms : Set α} {m : α} : b.putAt ms m = none ↔ m ∉ ms ∧ b.place m = none := by
  unfold putAt
  split <;> simp [*]

/-- New messages are ready. -/
theorem putAt_eq {ms : Set α} (hnew : ∀ m ∈ ms, b.place m = none) {m : α} {p : Place κ} :
    b.putAt ms m = some p ↔ m ∈ ms ∧ .ready = p ∨ b.place m = some p := by
  unfold putAt
  split
  · rename_i hm
    simp [hm, hnew m hm]
  · rename_i hm
    simp [hm]

/-- What was at a place before a message moved, or is there now. -/
theorem moveTo_eq {m m' : α} {p q : Place κ} :
    b.moveTo m p m' = some q ↔ m' = m ∧ p = q ∨ m' ≠ m ∧ b.place m' = some q := by
  unfold moveTo
  split <;> simp [*]

theorem moveTo_eq_none {m m' : α} {p : Place κ} :
    b.moveTo m p m' = none ↔ m' ≠ m ∧ b.place m' = none := by
  unfold moveTo
  split <;> simp [*]

theorem takeFrom_eq_none {hs : Set κ} {p : Place κ} {m : α} :
    b.takeFrom hs p m = none ↔ b.place m = none := by
  unfold takeFrom
  split
  · rename_i h
    obtain ⟨h, -, hp⟩ := h
    simp [hp]
  · rfl

theorem takeFrom_eq_out {hs : Set κ} {p : Place κ} (hp : ∀ h, p ≠ .out h) {m : α} {h : κ} :
    b.takeFrom hs p m = some (.out h) ↔ b.place m = some (.out h) ∧ h ∉ hs := by
  unfold takeFrom
  split
  · rename_i ht
    obtain ⟨h', hh, hm⟩ := ht
    refine iff_of_false (fun he => hp h (Option.some.inj he)) ?_
    rintro ⟨hm', hn⟩
    rw [hm] at hm'
    cases hm'
    exact hn hh
  · rename_i ht
    exact ⟨fun hm => ⟨hm, fun hh => ht ⟨h, hh, hm⟩⟩, And.left⟩

/-- A place that no handle has. -/
theorem takeFrom_eq {hs : Set κ} {p q : Place κ} (hq : ∀ h, q ≠ .out h) {m : α} :
    b.takeFrom hs p m = some q ↔
      p = q ∧ (∃ h ∈ hs, b.place m = some (.out h)) ∨ b.place m = some q := by
  unfold takeFrom
  split
  · rename_i ht
    obtain ⟨h, hh, hm⟩ := ht
    simp only [Option.some.injEq, hm, Ne.symm (hq h), or_false]
    exact ⟨fun he => ⟨he, h, hh, rfl⟩, And.left⟩
  · rename_i ht
    simp [ht]

/-! ## What a run keeps -/

section

variable [DecidableEq α]

/-- How often a message has been handed out. -/
def hands (b : Mailbox α κ) (m : α) : Nat := (b.handed.map Prod.snd).count m

/-- How often a message has been called. -/
def calls (b : Mailbox α κ) (m : α) : Nat := (b.called.map Prod.snd).count m

/-- What a run with `n` drops keeps. -/
structure Inv (n : Nat) (b : Mailbox α κ) : Prop where
  keys : (b.handed.map Prod.fst).Nodup
  called : b.called ⊆ b.handed
  once : b.called.Nodup
  out : ∀ m h, b.place m = some (.out h) → (h, m) ∈ b.handed
  done : ∀ m, b.place m = some .done → ∃ h, (h, m) ∈ b.called
  /-- A message is handed out after it was put. -/
  put : ∀ m, b.place m = none → b.hands m = 0
  bound : ∀ m, b.hands m ≤ 1 + n
  /-- A ready message can be handed out once more. -/
  ready : ∀ m, b.place m = some .ready → b.hands m ≤ n

theorem Inv.empty : (empty : Mailbox α κ).Inv 0 where
  keys := List.nodup_nil
  called := List.nil_subset _
  once := List.nodup_nil
  out _ _ h := by cases h
  done _ h := by cases h
  put _ _ := rfl
  bound _ := Nat.zero_le _
  ready _ h := by cases h

/-- A handle was given for one message. -/
theorem Inv.unique (h : b.Inv n) {k : κ} {m m' : α} (hm : (k, m) ∈ b.handed)
    (hm' : (k, m') ∈ b.handed) : m = m' :=
  congrArg Prod.snd (List.inj_on_of_nodup_map h.keys hm hm' rfl)

/-- **One step.** -/
theorem Inv.step (h : b.Inv n) (hs : MailboxStep b l b') : b'.Inv (n + drops [l]) := by
  cases hs with
  | @put ms hnew =>
    refine ⟨h.keys, h.called, h.once, fun m k hp => ?_, fun m hp => ?_, fun m hp => ?_, h.bound,
      fun m hp => ?_⟩
    · rcases (putAt_eq hnew).mp hp with ⟨-, he⟩ | hp
      · cases he
      · exact h.out m k hp
    · rcases (putAt_eq hnew).mp hp with ⟨-, he⟩ | hp
      · cases he
      · exact h.done m hp
    · exact h.put m (putAt_eq_none.mp hp).2
    · rcases (putAt_eq hnew).mp hp with ⟨hm, -⟩ | hp
      · exact Nat.le_trans (Nat.le_of_eq (h.put m (hnew m hm))) (Nat.zero_le _)
      · exact h.ready m hp
  | @hand k m hready hfresh =>
    have hhands : ∀ m', hands { b with place := b.moveTo m (.out k), handed := b.handed ++ [(k, m)] } m' =
        b.hands m' + if m = m' then 1 else 0 := by
      intro m'
      simp [hands, List.count_singleton]
    refine ⟨?_, ?_, h.once, fun m' k' hp => ?_, fun m' hp => ?_, fun m' hp => ?_, fun m' => ?_,
      fun m' hp => ?_⟩
    · rw [List.map_append, List.map_singleton]
      simpa using List.Nodup.concat hfresh h.keys
    · exact fun p hp => List.mem_append_left _ (h.called hp)
    · rcases moveTo_eq.mp hp with ⟨rfl, he⟩ | ⟨-, hp⟩
      · cases he
        simp
      · exact List.mem_append_left _ (h.out m' k' hp)
    · rcases moveTo_eq.mp hp with ⟨-, he⟩ | ⟨-, hp⟩
      · cases he
      · exact h.done m' hp
    · obtain ⟨hne, hp⟩ := moveTo_eq_none.mp hp
      rw [hhands, if_neg (Ne.symm hne), h.put m' hp]
    · rw [hhands]
      split
      · rename_i he
        have hb := h.ready m hready
        change hands b m' + 1 ≤ 1 + n
        rw [← he]
        omega
      · exact h.bound m'
    · rcases moveTo_eq.mp hp with ⟨-, he⟩ | ⟨hne, hp⟩
      · cases he
      · rw [hhands, if_neg (Ne.symm hne)]
        exact h.ready m' hp
  | @call k m hhanded hnot =>
    refine ⟨h.keys, fun p hp => ?_, ?_, h.out, fun m' hp => ?_, h.put, h.bound, h.ready⟩
    · rcases List.mem_append.mp hp with hp | hp
      · exact h.called hp
      · rwa [List.mem_singleton.mp hp]
    · simpa using List.Nodup.concat hnot h.once
    · obtain ⟨k', hk⟩ := h.done m' hp
      exact ⟨k', List.mem_append_left _ hk⟩
  | @finish k hcalled =>
    refine ⟨h.keys, h.called, h.once, fun m k' hp => ?_, fun m hp => ?_, fun m hp => ?_, h.bound,
      fun m hp => ?_⟩
    · exact h.out m k' ((takeFrom_eq_out nofun).mp hp).1
    · rcases (takeFrom_eq nofun).mp hp with ⟨-, k', hk, hout⟩ | hp
      · -- The handle has been called for the message that it was given for.
        obtain ⟨⟨k'', m'⟩, hm, he⟩ := List.mem_map.mp hcalled
        obtain rfl : k'' = k := he
        obtain rfl : k' = k'' := hk
        obtain rfl := h.unique (h.out m k' hout) (h.called hm)
        exact ⟨k', hm⟩
      · exact h.done m hp
    · exact h.put m (takeFrom_eq_none.mp hp)
    · rcases (takeFrom_eq nofun).mp hp with ⟨he, -⟩ | hp
      · cases he
      · exact h.ready m hp
  | @drop ks =>
    refine ⟨h.keys, h.called, h.once, fun m k' hp => ?_, fun m hp => ?_, fun m hp => ?_,
      fun m => ?_, fun m hp => ?_⟩
    · exact h.out m k' ((takeFrom_eq_out nofun).mp hp).1
    · rcases (takeFrom_eq nofun).mp hp with ⟨he, -⟩ | hp
      · cases he
      · exact h.done m hp
    · exact h.put m (takeFrom_eq_none.mp hp)
    · have hb := h.bound m
      change b.hands m ≤ 1 + (n + 1)
      omega
    · have hb := h.bound m
      change b.hands m ≤ n + 1
      omega

theorem inv_steps (h : (mailboxSys α κ).Steps .empty ls b) : b.Inv (drops ls) :=
  h.invariant (I := fun ls b => b.Inv (drops ls)) .empty fun ls b l b' hb hs => by
    rw [drops_append]
    exact hb.step hs

/-- **At least once.** A message that was put is ready, or is out, or has been called. -/
theorem atLeastOnce (h : (mailboxSys α κ).Steps .empty ls b) {m : α} (hm : b.place m ≠ none) :
    b.place m = some .ready ∨ (∃ k, b.place m = some (.out k)) ∨ ∃ k, (k, m) ∈ b.called := by
  have hi := inv_steps h
  obtain ⟨p, hp⟩ := Option.ne_none_iff_exists'.mp hm
  cases p with
  | ready => exact .inl hp
  | out k => exact .inr (.inl ⟨k, hp⟩)
  | done => exact .inr (.inr (hi.done m hp))

/-- **At most once, but for drops.** -/
theorem atMostDrops (h : (mailboxSys α κ).Steps .empty ls b) (m : α) : b.calls m ≤ 1 + drops ls := by
  have hi := inv_steps h
  have hsub : b.calls m ≤ b.hands m := by
    unfold calls hands List.count
    rw [List.countP_map, List.countP_map]
    exact (hi.once.subperm hi.called).countP_le _
  exact Nat.le_trans hsub (hi.bound m)

end

end Mailbox

end

end CharSystem
