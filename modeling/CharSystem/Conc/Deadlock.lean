import CharSystem.Conc.Prog
import Mathlib.Order.RelClasses
import Mathlib.Order.WellFounded

/-!
# Freedom from deadlock by lock order

A rank on the locks, and a discipline on programs that can be checked without looking at any run
(`Disciplined`): a program acquires only locks of a higher rank than those it holds, releases the
lock that it acquired last, and returns with no lock.

* `LockInv`: the program that a thread has left has the discipline, with the locks that it holds.
* `LockSafe`: while an operation is unfinished some thread can take its next step, no thread is
  about to acquire a lock that it holds, and a thread without an operation, or about to return,
  holds none.
* `lockSafe_of_disciplined`: if every operation has the discipline, all states that any number of
  threads reach are safe.
-/

namespace CharSystem

variable {S L Op R N : Type}

/-- The program follows the lock order, with the locks `held` (last acquired first) at its start. -/
inductive Disciplined [LT N] (rank : L → N) : List L → Prog S L R → Prop
  | ret (r : R) : Disciplined rank [] (.ret r)
  | acquire {held : List L} {l : L} {k : Prog S L R} : (∀ l' ∈ held, rank l' < rank l) →
    Disciplined rank (l :: held) k → Disciplined rank held (.acquire l k)
  | release {held : List L} {l : L} {k : Prog S L R} : Disciplined rank held k →
    Disciplined rank (l :: held) (.release l k)
  | act {held : List L} {f : S → S × Prog S L R} : (∀ s, Disciplined rank held (f s).2) →
    Disciplined rank held (.act f)

namespace Disciplined

variable [LT N] {rank : L → N} {held : List L} {l : L} {k : Prog S L R}

theorem of_ret {r : R} (h : Disciplined rank held (.ret r : Prog S L R)) : held = [] := by
  cases h
  rfl

theorem of_acquire (h : Disciplined rank held (.acquire l k)) :
    (∀ l' ∈ held, rank l' < rank l) ∧ Disciplined rank (l :: held) k := by
  cases h with
  | acquire hlt hk => exact ⟨hlt, hk⟩

theorem of_release (h : Disciplined rank held (.release l k)) :
    ∃ rest, held = l :: rest ∧ Disciplined rank rest k := by
  cases h with
  | release hk => exact ⟨_, rfl, hk⟩

theorem of_act {f : S → S × Prog S L R} (h : Disciplined rank held (.act f)) (s : S) :
    Disciplined rank held (f s).2 := by
  cases h with
  | act hk => exact hk s

end Disciplined

/-- The invariant: `held t` are the locks of thread `t`, and its program has the discipline. -/
structure LockInv [LT N] (rank : L → N) (held : Nat → List L) (c : Config S L Op R) : Prop where
  idle : ∀ t, c.thread t = none → held t = []
  prog : ∀ t o, c.thread t = some o → Disciplined rank (held t) o.prog
  nodup : ∀ t, (held t).Nodup
  holder : ∀ l t, c.holder l = some t ↔ l ∈ held t

namespace LockInv

variable [Preorder N] {rank : L → N} {held : Nat → List L} {c c' : Config S L Op R}
  {method : Op → Prog S L R} {t : Nat} {o : Running S L Op R}

theorem init (s : S) : LockInv rank (fun _ => []) (Config.init s : Config S L Op R) where
  idle _ _ := rfl
  prog t o h := by cases h
  nodup _ := List.nodup_nil
  holder l t := by simp [Config.init]

/-- A thread that acquires a lock does not hold it. -/
theorem not_acquire_held (h : LockInv rank held c) (ht : c.thread t = some o) {l : L}
    {k : Prog S L R} (hp : o.prog = .acquire l k) : c.holder l ≠ some t := by
  have hd := h.prog t o ht
  rw [hp] at hd
  exact fun hl => lt_irrefl _ (hd.of_acquire.1 l ((h.holder l t).mp hl))

/-- A thread without an operation, or about to return, holds no lock. -/
theorem holds_nothing (h : LockInv rank held c)
    (ht : ∀ o, c.thread t = some o → ∃ r, o.prog = .ret r) (l : L) : c.holder l ≠ some t := by
  have hnil : held t = [] := by
    cases hc : c.thread t with
    | none => exact h.idle t hc
    | some o =>
      obtain ⟨r, hr⟩ := ht o hc
      have hd := h.prog t o hc
      rw [hr] at hd
      exact hd.of_ret
  intro hl
  rw [h.holder, hnil] at hl
  cases hl

/-- Thread `t` goes on with the locks `ls`. -/
theorem goOn (h : LockInv rank held c) (ht : c.thread t = some o) {p : Prog S L R} {ls : List L}
    (hp : Disciplined rank ls p) (hn : ls.Nodup) {holder : L → Option Nat}
    (hh : ∀ l u, holder l = some u ↔ l ∈ Function.update held t ls u) :
    LockInv rank (Function.update held t ls) { c.goOn t o p with holder := holder } where
  idle u hu := by
    have hu : Function.update c.thread t (some { o with prog := p }) u = none := hu
    rcases update_cases hu with ⟨-, hu⟩ | ⟨hut, hu⟩
    · cases hu
    · rw [Function.update_of_ne hut]
      exact h.idle u hu
  prog u o' hu := by
    have hu : Function.update c.thread t (some { o with prog := p }) u = some o' := hu
    rcases update_cases hu with ⟨rfl, ho⟩ | ⟨hut, hu⟩
    · cases ho
      rwa [Function.update_self]
    · rw [Function.update_of_ne hut]
      exact h.prog u o' hu
  nodup u := by
    by_cases hut : u = t
    · subst hut
      rwa [Function.update_self]
    · rw [Function.update_of_ne hut]
      exact h.nodup u
  holder := hh

section Step

variable [DecidableEq L]

theorem step (hm : ∀ op, Disciplined rank [] (method op)) (h : LockInv rank held c)
    {l : ThreadLabel Op R} (hst : Config.Step method c l c') : ∃ held', LockInv rank held' c' := by
  cases hst with
  | @call t op hc =>
    refine ⟨held, ⟨fun u hu => ?_, fun u o hu => ?_, h.nodup, h.holder⟩⟩
    · have hu : Function.update c.thread t (some ⟨c.count, op, method op⟩) u = none := hu
      rcases update_cases hu with ⟨-, hu⟩ | ⟨-, hu⟩
      · cases hu
      · exact h.idle u hu
    · have hu : Function.update c.thread t (some ⟨c.count, op, method op⟩) u = some o := hu
      rcases update_cases hu with ⟨rfl, ho⟩ | ⟨-, hu⟩
      · cases ho
        rw [h.idle u hc]
        exact hm op
      · exact h.prog u o hu
  | @acquire t o l k ht hp hl =>
    have hd := h.prog t o ht
    rw [hp] at hd
    have hfree : ∀ u, l ∉ held u := fun u hu => by
      rw [(h.holder l u).mpr hu] at hl
      cases hl
    refine ⟨_, h.goOn ht hd.of_acquire.2 (List.nodup_cons.mpr ⟨hfree t, h.nodup t⟩)
      fun l' u => ?_⟩
    by_cases hu : u = t
    · subst hu
      rw [Function.update_self, List.mem_cons, ← h.holder]
      by_cases hl' : l' = l
      · simp [hl']
      · simp [hl']
    · rw [Function.update_of_ne hu, ← h.holder]
      by_cases hl' : l' = l
      · subst hl'
        simp [hl, Ne.symm hu]
      · rw [Function.update_of_ne hl']
  | @release t o l k ht hp =>
    have hd := h.prog t o ht
    have hn := h.nodup t
    rw [hp] at hd
    obtain ⟨rest, hrest, hk⟩ := hd.of_release
    rw [hrest, List.nodup_cons] at hn
    refine ⟨_, h.goOn ht hk hn.2 fun l' u => ?_⟩
    by_cases hu : u = t
    · subst hu
      rw [Function.update_self]
      by_cases hl' : l' = l
      · subst hl'
        simp [hn.1]
      · rw [Function.update_of_ne hl', h.holder, hrest]
        simp [hl']
    · rw [Function.update_of_ne hu]
      by_cases hl' : l' = l
      · -- The lock was held by `t` alone.
        subst hl'
        have ht' : c.holder l' = some t := (h.holder l' t).mpr (hrest ▸ List.mem_cons_self)
        refine iff_of_false (by simp) fun hmem => hu ?_
        exact Option.some.inj (((h.holder l' u).mpr hmem).symm.trans ht')
      · rw [Function.update_of_ne hl', h.holder]
  | @act t o f ht hp =>
    have hd := h.prog t o ht
    rw [hp] at hd
    have hg := h.goOn ht (hd.of_act c.shared) (h.nodup t) fun l' u => by
      rw [Function.update_eq_self]
      exact h.holder l' u
    exact ⟨_, ⟨hg.idle, hg.prog, hg.nodup, hg.holder⟩⟩
  | @ret t o r ht hp =>
    have hd := h.prog t o ht
    rw [hp] at hd
    refine ⟨held, ⟨fun u hu => ?_, fun u o' hu => ?_, h.nodup, h.holder⟩⟩
    · have hu : Function.update c.thread t none u = none := hu
      rcases update_cases hu with ⟨rfl, -⟩ | ⟨-, hu⟩
      · exact hd.of_ret
      · exact h.idle u hu
    · have hu : Function.update c.thread t none u = some o' := hu
      rcases update_cases hu with ⟨-, hu⟩ | ⟨-, hu⟩
      · cases hu
      · exact h.prog u o' hu

theorem reach (hm : ∀ op, Disciplined rank [] (method op)) {s : S}
    (hr : (threadSys method).Reach (· = Config.init s) c) : ∃ held, LockInv rank held c :=
  hr.invariant (I := fun c => ∃ held, LockInv rank held c) (fun _ hs => ⟨_, hs ▸ init s⟩)
    fun _ _ _ ⟨_, h⟩ hst => h.step hm hst

/-- A thread that waits for a lock waits for a thread that waits for a higher lock or can go on. -/
theorem exists_canStep [WellFoundedGT N] (h : LockInv rank held c) (ht : c.thread t = some o) :
    ∃ u, c.CanStep method u := by
  -- Induction on the rank of the lock that the thread waits for, from the top.
  have hwait : ∀ n : N, ∀ t o l k, c.thread t = some o → o.prog = .acquire l k → rank l = n →
      ∃ u, c.CanStep method u := by
    intro n
    induction n using (wellFounded_gt (α := N)).induction with
    | _ n ih =>
      rintro t o l k ht hp rfl
      cases hl : c.holder l with
      | none => exact ⟨t, .inl ⟨_, .acquire ht hp hl⟩⟩
      | some u =>
        have hmem : l ∈ held u := (h.holder l u).mp hl
        cases hu : c.thread u with
        | none => rw [h.idle u hu] at hmem; cases hmem
        | some o' =>
          have hd := h.prog u o' hu
          cases hp' : o'.prog with
          | ret r => exact ⟨u, .inr ⟨_, _, _, .ret hu hp'⟩⟩
          | release l' k' => exact ⟨u, .inl ⟨_, .release hu hp'⟩⟩
          | act f => exact ⟨u, .inl ⟨_, .act hu hp'⟩⟩
          | acquire l' k' =>
            rw [hp'] at hd
            exact ih _ (hd.of_acquire.1 l hmem) u o' l' k' hu hp' rfl
  cases hp : o.prog with
  | ret r => exact ⟨t, .inr ⟨_, _, _, .ret ht hp⟩⟩
  | release l k => exact ⟨t, .inl ⟨_, .release ht hp⟩⟩
  | act f => exact ⟨t, .inl ⟨_, .act ht hp⟩⟩
  | acquire l k => exact hwait _ t o l k ht hp rfl

end Step

end LockInv

/-- What the threads never do (module doc). -/
structure LockSafe [DecidableEq L] (method : Op → Prog S L R) (c : Config S L Op R) : Prop where
  progress : ∀ t, c.thread t ≠ none → ∃ u, c.CanStep method u
  not_held : ∀ t o l k, c.thread t = some o → o.prog = .acquire l k → c.holder l ≠ some t
  finished : ∀ t, (∀ o, c.thread t = some o → ∃ r, o.prog = .ret r) → ∀ l, c.holder l ≠ some t

/-- **The rule.** Threads whose operations all have the discipline are safe in every state that they
reach. -/
theorem lockSafe_of_disciplined [DecidableEq L] [Preorder N] [WellFoundedGT N] {rank : L → N}
    {method : Op → Prog S L R} (hm : ∀ op, Disciplined rank [] (method op)) {s : S}
    {c : Config S L Op R} (hr : (threadSys method).Reach (· = Config.init s) c) :
    LockSafe method c := by
  obtain ⟨held, h⟩ := LockInv.reach hm hr
  refine ⟨fun t ht => ?_, fun t o l k ht hp => h.not_acquire_held ht hp,
    fun t ht l => h.holds_nothing ht l⟩
  obtain ⟨o, ho⟩ := Option.ne_none_iff_exists'.mp ht
  exact h.exists_canStep ho

end CharSystem
