import CharSystem.Conc.Deadlock
import Mathlib.Algebra.BigOperators.Group.Finset.Piecewise
import Mathlib.Algebra.Order.BigOperators.Group.Finset

/-!
# Operations that finish, under every schedule

Freedom from deadlock says that some thread can go on. If every program also has a bound on its
steps (`Prog.Within`), the threads together can take only so many steps for the calls that were
made, and if no new ones are made, all operations return.

* `StepsLeft c n`: the unfinished operations have at most `n` steps left together. A step that is
  not a call takes one of them (`StepsLeft.step`).
* `completes_of_disciplined`: the rule. Every run has at most `K` steps for each call, the call not
  counted, and goes on to a state in which every operation has returned, without new calls.
* `Config.turn`: one step of a thread, computed. `Config.play` runs a schedule.
-/

namespace CharSystem

variable {S L Op R N : Type}

/-- Every path of the program has at most `n` steps, its return included. -/
inductive Prog.Within : Nat → Prog S L R → Prop
  | ret {n : Nat} (r : R) : Within (n + 1) (.ret r)
  | acquire {n : Nat} {l : L} {k : Prog S L R} : Within n k → Within (n + 1) (.acquire l k)
  | release {n : Nat} {l : L} {k : Prog S L R} : Within n k → Within (n + 1) (.release l k)
  | act {n : Nat} {f : S → S × Prog S L R} : (∀ s, Within n (f s).2) → Within (n + 1) (.act f)

theorem Prog.Within.mono {m n : Nat} {p : Prog S L R} (h : p.Within m) (hmn : m ≤ n) :
    p.Within n := by
  induction h generalizing n with
  | ret r =>
    obtain ⟨n, rfl⟩ := Nat.exists_eq_add_one_of_ne_zero (n := n) (by omega)
    exact .ret r
  | acquire _ ih =>
    obtain ⟨n, rfl⟩ := Nat.exists_eq_add_one_of_ne_zero (n := n) (by omega)
    exact .acquire (ih (by omega))
  | release _ ih =>
    obtain ⟨n, rfl⟩ := Nat.exists_eq_add_one_of_ne_zero (n := n) (by omega)
    exact .release (ih (by omega))
  | act _ ih =>
    obtain ⟨n, rfl⟩ := Nat.exists_eq_add_one_of_ne_zero (n := n) (by omega)
    exact .act fun s => ih s (by omega)

/-- The step is a call. -/
def ThreadLabel.isCall : ThreadLabel Op R → Bool
  | .call _ _ _ => true
  | _ => false

/-! ## The steps that are left -/

/-- Module doc. `T`: the threads that have an operation, and perhaps others. -/
def StepsLeft (c : Config S L Op R) (n : Nat) : Prop :=
  ∃ (T : Finset Nat) (left : Nat → Nat), (∀ t o, c.thread t = some o → t ∈ T) ∧
    (∀ t o, c.thread t = some o → o.prog.Within (left t)) ∧ ∑ t ∈ T, left t ≤ n

namespace StepsLeft

variable {c c' : Config S L Op R} {n t : Nat} {o : Running S L Op R} {p : Prog S L R}
  {method : Op → Prog S L R} {K : Nat}

theorem init (s : S) : StepsLeft (Config.init s : Config S L Op R) 0 :=
  ⟨∅, fun _ => 0, fun _ _ h => (by cases h), fun _ _ h => (by cases h), by simp⟩

/-- Thread `t` has at most `m` steps left in `c'`, and the other threads have what they had. -/
theorem update (h : StepsLeft c n) {m : Nat} (hp : ∀ o, c'.thread t = some o → o.prog.Within m)
    (hother : ∀ u, u ≠ t → c'.thread u = c.thread u) : StepsLeft c' (n + m) := by
  obtain ⟨T, left, hT, hleft, hsum⟩ := h
  refine ⟨insert t T, Function.update left t m, fun u o hu => ?_, fun u o hu => ?_, ?_⟩
  · by_cases hut : u = t
    · rw [hut]
      exact Finset.mem_insert_self t T
    · rw [hother u hut] at hu
      exact Finset.mem_insert_of_mem (hT u o hu)
  · by_cases hut : u = t
    · subst hut
      rw [Function.update_self]
      exact hp o hu
    · rw [hother u hut] at hu
      rw [Function.update_of_ne hut]
      exact hleft u o hu
  · have hsub : insert t T \ {t} ⊆ T := by
      intro u hu
      simp only [Finset.mem_sdiff, Finset.mem_insert, Finset.mem_singleton] at hu
      exact hu.1.resolve_left hu.2
    have hle : ∑ u ∈ insert t T \ {t}, left u ≤ ∑ u ∈ T, left u := Finset.sum_le_sum_of_subset hsub
    rw [Finset.sum_update_of_mem (Finset.mem_insert_self t T)]
    omega

/-- Thread `t` has taken a step. -/
theorem goOn (h : StepsLeft c n) (ht : c.thread t = some o)
    (hp : ∀ m, o.prog.Within m → ∃ m', m = m' + 1 ∧
      ∀ o', c'.thread t = some o' → o'.prog.Within m')
    (hother : ∀ u, u ≠ t → c'.thread u = c.thread u) : ∃ n', n = n' + 1 ∧ StepsLeft c' n' := by
  obtain ⟨T, left, hT, hleft, hsum⟩ := h
  obtain ⟨m, hm, hp⟩ := hp (left t) (hleft t o ht)
  have hsplit := Finset.sum_eq_add_sum_sdiff_singleton_of_mem (hT t o ht) left
  -- The other threads, and then `t` again.
  have hrest : StepsLeft { c with thread := Function.update c.thread t none }
      (∑ u ∈ T \ {t}, left u) := by
    refine ⟨T \ {t}, left, fun u o' hu => ?_, fun u o' hu => ?_, le_refl _⟩
    · rcases update_cases hu with ⟨-, hu⟩ | ⟨hut, hu⟩
      · cases hu
      · exact Finset.mem_sdiff.mpr ⟨hT u o' hu, by simpa using hut⟩
    · rcases update_cases hu with ⟨-, hu⟩ | ⟨-, hu⟩
      · cases hu
      · exact hleft u o' hu
  have hall : StepsLeft c' ((∑ u ∈ T \ {t}, left u) + m) :=
    hrest.update hp fun u hu => (hother u hu).trans (Function.update_of_ne hu ..).symm
  refine ⟨n - 1, by omega, ?_⟩
  obtain ⟨T', left', hT', hleft', hsum'⟩ := hall
  exact ⟨T', left', hT', hleft', by omega⟩

/-- **One step.** A call adds the steps of its program; any other step is one of those left. -/
theorem step [DecidableEq L] (hm : ∀ op, (method op).Within K) (h : StepsLeft c n)
    {l : ThreadLabel Op R} (hst : Config.Step method c l c') :
    l.isCall = true ∧ StepsLeft c' (n + K) ∨
      l.isCall = false ∧ ∃ n', n = n' + 1 ∧ StepsLeft c' n' := by
  -- What a step does to the threads.
  have hself : ∀ (t : Nat) (o : Option (Running S L Op R)) (o' : Running S L Op R),
      Function.update c.thread t o t = some o' → o = some o' := fun t o o' ho => by
    rwa [Function.update_self] at ho
  have hne : ∀ (t : Nat) (o : Option (Running S L Op R)) (u : Nat), u ≠ t →
      Function.update c.thread t o u = c.thread u := fun t o u hu => Function.update_of_ne hu ..
  cases hst with
  | @call t op ht =>
    refine .inl ⟨rfl, h.update (t := t) (fun o ho => ?_) (hne t _)⟩
    cases hself t _ o ho
    exact hm op
  | @acquire t o l k ht hp hl =>
    refine .inr ⟨rfl, h.goOn ht (fun m hw => ?_) (hne t _)⟩
    rw [hp] at hw
    cases hw with
    | acquire hk =>
      refine ⟨_, rfl, fun o' ho => ?_⟩
      cases hself t _ o' ho
      exact hk
  | @release t o l k ht hp =>
    refine .inr ⟨rfl, h.goOn ht (fun m hw => ?_) (hne t _)⟩
    rw [hp] at hw
    cases hw with
    | release hk =>
      refine ⟨_, rfl, fun o' ho => ?_⟩
      cases hself t _ o' ho
      exact hk
  | @act t o f ht hp =>
    refine .inr ⟨rfl, h.goOn ht (fun m hw => ?_) (hne t _)⟩
    rw [hp] at hw
    cases hw with
    | act hk =>
      refine ⟨_, rfl, fun o' ho => ?_⟩
      cases hself t _ o' ho
      exact hk c.shared
  | @ret t o r ht hp =>
    refine .inr ⟨rfl, h.goOn ht (fun m hw => ?_) (hne t _)⟩
    rw [hp] at hw
    cases hw with
    | ret =>
      refine ⟨_, rfl, fun o' ho => ?_⟩
      cases hself t _ o' ho

end StepsLeft

section Rule

/-- How many operations were called. -/
def callCount (ls : List (ThreadLabel Op R)) : Nat := ls.countP ThreadLabel.isCall

theorem callCount_concat (ls : List (ThreadLabel Op R)) (l : ThreadLabel Op R) :
    callCount (ls ++ [l]) = callCount ls + if l.isCall then 1 else 0 := by
  rw [callCount, List.countP_append, List.countP_singleton, callCount]

variable [DecidableEq L] {method : Op → Prog S L R} {K : Nat} {c : Config S L Op R}
  {ls : List (ThreadLabel Op R)} {s : S}

/-- **A run** has at most `K` steps for each call, those left included, the call not counted. -/
theorem length_of_within (hm : ∀ op, (method op).Within K)
    (h : (threadSys method).Steps (Config.init s) ls c) :
    ∃ n, StepsLeft c n ∧ ls.length + n ≤ (K + 1) * callCount ls := by
  refine h.invariant (I := fun ls c => ∃ n, StepsLeft c n ∧
    ls.length + n ≤ (K + 1) * callCount ls) ⟨0, .init s, by simp⟩ ?_
  rintro ls c l c' ⟨n, hn, hle⟩ hst
  rw [List.length_append, List.length_singleton, callCount_concat]
  rcases hn.step hm hst with ⟨hl, hn'⟩ | ⟨hl, n', rfl, hn'⟩
  · refine ⟨n + K, hn', ?_⟩
    rw [hl, if_pos rfl, Nat.mul_add]
    omega
  · refine ⟨n', hn', ?_⟩
    simp only [hl, Bool.false_eq_true, if_false, Nat.add_zero]
    omega

/-- An unfinished operation, and perhaps another one, can take a step. -/
theorem exists_step [Preorder N] [WellFoundedGT N] {rank : L → N}
    (hd : ∀ op, Disciplined rank [] (method op))
    (h : (threadSys method).Steps (Config.init s) ls c) {t : Nat} (ht : c.thread t ≠ none) :
    ∃ l c', l.isCall = false ∧ Config.Step method c l c' := by
  obtain ⟨u, hu⟩ := (lockSafe_of_disciplined hd ⟨_, ls, rfl, h⟩).progress t ht
  rcases hu with ⟨c', hst⟩ | ⟨id, r, c', hst⟩
  · exact ⟨_, c', rfl, hst⟩
  · exact ⟨_, c', rfl, hst⟩

/-- **The rule.** If every operation follows the lock order and has at most `K` steps, every run goes
on, without new calls, to a state in which every operation has returned. -/
theorem completes_of_disciplined [Preorder N] [WellFoundedGT N] {rank : L → N}
    (hd : ∀ op, Disciplined rank [] (method op)) (hm : ∀ op, (method op).Within K)
    (h : (threadSys method).Steps (Config.init s) ls c) :
    ∃ rest c', (threadSys method).Steps (Config.init s) (ls ++ rest) c' ∧
      (∀ l ∈ rest, l.isCall = false) ∧ ∀ t, c'.thread t = none := by
  obtain ⟨n, hn, -⟩ := length_of_within hm h
  -- Induction on the number of steps that are left.
  induction n using Nat.strong_induction_on generalizing ls c with
  | _ n ih =>
    by_cases hall : ∀ t, c.thread t = none
    · exact ⟨[], c, by rwa [List.append_nil], by simp, hall⟩
    · obtain ⟨t, ht⟩ := not_forall.mp hall
      obtain ⟨l, d, hl, hst⟩ := exists_step hd h ht
      rcases hn.step hm hst with ⟨hcall, -⟩ | ⟨-, n', rfl, hn'⟩
      · rw [hl] at hcall
        cases hcall
      · obtain ⟨rest, c', hr, hcalls, hnone⟩ := ih n' (Nat.lt_succ_self n') (.snoc h hst) hn'
        refine ⟨l :: rest, c', by rwa [List.append_cons], fun l' hl' => ?_, hnone⟩
        rcases List.mem_cons.mp hl' with rfl | hl'
        · exact hl
        · exact hcalls l' hl'

end Rule

/-! ## Schedules -/

/-- What a schedule says: a thread calls an operation, or takes the next step of its operation. -/
inductive Turn (Op : Type) where
  | call (t : Nat) (op : Op)
  | go (t : Nat)
  deriving DecidableEq, Repr

/-- The thread whose turn it is. -/
def Turn.thread : Turn Op → Nat
  | .call t _ => t
  | .go t => t

namespace Config

variable [DecidableEq L]

/-- One step of a thread, computed. It fails if the thread cannot take it. -/
def turn (method : Op → Prog S L R) (c : Config S L Op R) :
    Turn Op → Option (ThreadLabel Op R × Config S L Op R)
  | .call t op =>
    match c.thread t with
    | some _ => none
    | none =>
      some (.call t c.count op,
        { c with
          thread := Function.update c.thread t (some ⟨c.count, op, method op⟩)
          count := c.count + 1 })
  | .go t =>
    match c.thread t with
    | none => none
    | some o =>
      match o.prog with
      | .ret r => some (.ret t o.id r, { c with thread := Function.update c.thread t none })
      | .acquire l k =>
        if c.holder l = none then
          some (.internal t, { c.goOn t o k with holder := Function.update c.holder l (some t) })
        else none
      | .release l k =>
        some (.internal t, { c.goOn t o k with holder := Function.update c.holder l none })
      | .act f => some (.internal t, { c.goOn t o (f c.shared).2 with shared := (f c.shared).1 })

/-- A schedule. -/
def play (method : Op → Prog S L R) :
    Config S L Op R → List (Turn Op) → Option (List (ThreadLabel Op R) × Config S L Op R)
  | c, [] => some ([], c)
  | c, m :: ms => (c.turn method m).bind fun next =>
    (play method next.2 ms).map fun rest => (next.1 :: rest.1, rest.2)

variable {method : Op → Prog S L R} {c c' : Config S L Op R} {l : ThreadLabel Op R}
  {ls : List (ThreadLabel Op R)} {m : Turn Op} {ms : List (Turn Op)}

/-- A turn is a step of its thread. -/
theorem turn_sound (h : c.turn method m = some (l, c')) :
    Step method c l c' ∧ ∀ t, t ≠ m.thread → c'.thread t = c.thread t := by
  have hne : ∀ (t : Nat) (o : Option (Running S L Op R)) (u : Nat), u ≠ t →
      Function.update c.thread t o u = c.thread u := fun t o u hu => Function.update_of_ne hu ..
  unfold turn at h
  cases m with
  | call t op =>
    cases ht : c.thread t with
    | some o => simp [ht] at h
    | none =>
      simp only [ht, Option.some.injEq, Prod.mk.injEq] at h
      obtain ⟨rfl, rfl⟩ := h
      exact ⟨.call ht, hne t _⟩
  | go t =>
    cases ht : c.thread t with
    | none => simp [ht] at h
    | some o =>
      cases hp : o.prog with
      | ret r =>
        simp only [ht, hp, Option.some.injEq, Prod.mk.injEq] at h
        obtain ⟨rfl, rfl⟩ := h
        exact ⟨.ret ht hp, hne t _⟩
      | acquire l' k =>
        simp only [ht, hp] at h
        split at h
        · rename_i hl
          cases h
          exact ⟨.acquire ht hp hl, hne t _⟩
        · cases h
      | release l' k =>
        simp only [ht, hp, Option.some.injEq, Prod.mk.injEq] at h
        obtain ⟨rfl, rfl⟩ := h
        exact ⟨.release ht hp, hne t _⟩
      | act f =>
        simp only [ht, hp, Option.some.injEq, Prod.mk.injEq] at h
        obtain ⟨rfl, rfl⟩ := h
        exact ⟨.act ht hp, hne t _⟩

theorem play_cons (h : play method c (m :: ms) = some (ls, c')) :
    ∃ l d ls', c.turn method m = some (l, d) ∧ play method d ms = some (ls', c') ∧ ls = l :: ls' := by
  rw [play, Option.bind_eq_some_iff] at h
  obtain ⟨next, hnext, h⟩ := h
  obtain ⟨rest, hrest, h⟩ := Option.map_eq_some_iff.mp h
  cases h
  exact ⟨next.1, next.2, rest.1, hnext, hrest, rfl⟩

/-- A schedule that does not fail is a run. -/
theorem play_steps (h : play method c ms = some (ls, c')) : (threadSys method).Steps c ls c' := by
  induction ms generalizing c ls with
  | nil =>
    cases h
    exact .nil _
  | cons m ms ih =>
    obtain ⟨l, d, ls', ht, hp, rfl⟩ := play_cons h
    have hfirst : (threadSys method).Steps c ([] ++ [l]) d :=
      .snoc (Sys.Steps.nil (S := threadSys method) c) (turn_sound ht).1
    exact hfirst.append (ih hp)

/-- A thread that the schedule does not name. -/
theorem play_thread {t : Nat} (h : play method c ms = some (ls, c'))
    (ht : ∀ m ∈ ms, m.thread ≠ t) : c'.thread t = c.thread t := by
  induction ms generalizing c ls with
  | nil =>
    cases h
    rfl
  | cons m ms ih =>
    obtain ⟨l, d, ls', hm, hp, rfl⟩ := play_cons h
    rw [ih hp fun m' hm' => ht m' (List.mem_cons_of_mem m hm'),
      (turn_sound hm).2 t (ht m List.mem_cons_self).symm]

end Config

end CharSystem
