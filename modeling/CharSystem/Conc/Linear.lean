import CharSystem.Sys
import Mathlib.Data.List.Nodup
import Mathlib.Logic.Function.Basic

/-!
# Linearizability

An object with the sequential specification `exec : σ → Op → σ × Ret` is used by concurrent
operations. Its history is the calls and returns, oldest first (`HistEvent`); an operation is known
by its `id`.

* `Linearizable exec a h b`: the operations of the history `h`, in a total order that respects real
  time (`Before`), make a sequential run from `a` to `b` with the results of `h`.
* `AtomicStep`: the atomic object. Each operation is called, takes effect at one instant, and
  returns.
* `linearizable_of_simulates`: a system that the atomic object simulates step by step is
  linearizable. The total order is the order in which the operations take effect.
* `Linearizable.lift`: from a specification to one with more state.
-/

namespace CharSystem

variable {σ Op Ret : Type}

/-- A call or a return of the operation `id`. -/
inductive HistEvent (Op Ret : Type) where
  | call (id : Nat) (op : Op)
  | ret (id : Nat) (r : Ret)
  deriving DecidableEq, Repr

/-- An operation and its result. -/
structure Entry (Op Ret : Type) where
  id : Nat
  op : Op
  ret : Ret
  deriving DecidableEq, Repr

/-- A sequential run with the given results. -/
def Legal (exec : σ → Op → σ × Ret) : σ → List (Entry Op Ret) → σ → Prop
  | a, [], b => a = b
  | a, e :: es, b => (exec a e.op).2 = e.ret ∧ Legal exec (exec a e.op).1 es b

/-- Real-time precedence: `i` returns before `j` is called. -/
def Before (h : List (HistEvent Op Ret)) (i j : Nat) : Prop :=
  ∃ h₁ h₂ r op, h = h₁ ++ h₂ ∧ .ret i r ∈ h₁ ∧ .call j op ∈ h₂

/-- `order` is a total order of the operations of `h` that explains it (module doc). -/
structure Linearization (exec : σ → Op → σ × Ret) (a : σ) (h : List (HistEvent Op Ret))
    (order : List (Entry Op Ret)) (b : σ) : Prop where
  nodup : (order.map (·.id)).Nodup
  mem_iff : ∀ e, e ∈ order ↔ .call e.id e.op ∈ h ∧ .ret e.id e.ret ∈ h
  all : ∀ id op, .call id op ∈ h → id ∈ order.map (·.id)
  before : ∀ e ∈ order, ∀ e' ∈ order, Before h e.id e'.id → [e, e'].Sublist order
  legal : Legal exec a order b

/-- Some total order of the operations explains the history. -/
def Linearizable (exec : σ → Op → σ × Ret) (a : σ) (h : List (HistEvent Op Ret)) (b : σ) : Prop :=
  ∃ order, Linearization exec a h order b

/-! ## The atomic object -/

/-- How far an operation is: not called, called, in effect with a result, or returned. -/
inductive OpStatus (Op Ret : Type) where
  | fresh
  | called (op : Op)
  | done (op : Op) (r : Ret)
  | returned
  deriving DecidableEq, Repr, Inhabited

/-- The object, and how far the operations are. -/
@[ext] structure Atomic (σ Op Ret : Type) where
  obj : σ
  status : Nat → OpStatus Op Ret

/-- The steps of the atomic object, each with the event that it adds to the history. -/
inductive AtomicStep (exec : σ → Op → σ × Ret) :
    Atomic σ Op Ret → Option (HistEvent Op Ret) → Atomic σ Op Ret → Prop
  | stutter (s : Atomic σ Op Ret) : AtomicStep exec s none s
  | call {s : Atomic σ Op Ret} {i : Nat} {op : Op} : s.status i = .fresh →
    AtomicStep exec s (some (.call i op)) ⟨s.obj, Function.update s.status i (.called op)⟩
  | effect {s : Atomic σ Op Ret} {i : Nat} {op : Op} : s.status i = .called op →
    AtomicStep exec s none
      ⟨(exec s.obj op).1, Function.update s.status i (.done op (exec s.obj op).2)⟩
  | ret {s : Atomic σ Op Ret} {i : Nat} {op : Op} {r : Ret} : s.status i = .done op r →
    AtomicStep exec s (some (.ret i r)) ⟨s.obj, Function.update s.status i .returned⟩

/-! ## Histories -/

/-- The calls of `i`. -/
def callsOf (h : List (HistEvent Op Ret)) (i : Nat) : List Op :=
  h.filterMap fun
    | .call j op => if j = i then some op else none
    | .ret _ _ => none

/-- The results of `i`. -/
def retsOf (h : List (HistEvent Op Ret)) (i : Nat) : List Ret :=
  h.filterMap fun
    | .call _ _ => none
    | .ret j r => if j = i then some r else none

section Histories

variable {h : List (HistEvent Op Ret)} {i j : Nat}

theorem mem_callsOf {op : Op} : op ∈ callsOf h i ↔ .call i op ∈ h := by
  unfold callsOf
  rw [List.mem_filterMap]
  constructor
  · rintro ⟨ev, hev, he⟩
    cases ev with
    | call j op' =>
      have he : (if j = i then some op' else none) = some op := he
      split at he
      · rename_i hj
        cases he
        exact hj ▸ hev
      · cases he
    | ret j r => cases he
  · exact fun hm => ⟨_, hm, by simp⟩

theorem mem_retsOf {r : Ret} : r ∈ retsOf h i ↔ .ret i r ∈ h := by
  unfold retsOf
  rw [List.mem_filterMap]
  constructor
  · rintro ⟨ev, hev, he⟩
    cases ev with
    | call j op => cases he
    | ret j r' =>
      have he : (if j = i then some r' else none) = some r := he
      split at he
      · rename_i hj
        cases he
        exact hj ▸ hev
      · cases he
  · exact fun hm => ⟨_, hm, by simp⟩

@[simp] theorem callsOf_call {op : Op} :
    callsOf (h ++ [.call j op]) i = callsOf h i ++ if j = i then [op] else [] := by
  unfold callsOf
  rw [List.filterMap_append]
  by_cases hj : j = i <;> simp [hj]

@[simp] theorem callsOf_ret {r : Ret} : callsOf (h ++ [.ret j r]) i = callsOf h i := by
  simp [callsOf]

@[simp] theorem retsOf_call {op : Op} : retsOf (h ++ [.call j op]) i = retsOf h i := by
  simp [retsOf]

@[simp] theorem retsOf_ret {r : Ret} :
    retsOf (h ++ [.ret j r]) i = retsOf h i ++ if j = i then [r] else [] := by
  unfold retsOf
  rw [List.filterMap_append]
  by_cases hj : j = i <;> simp [hj]

/-- Precedence in a longer history: a new call comes after every return. -/
theorem before_concat {ev : HistEvent Op Ret} (hb : Before (h ++ [ev]) i j) :
    Before h i j ∨ (∃ r, .ret i r ∈ h) ∧ ∃ op, ev = .call j op := by
  obtain ⟨h₁, h₂, r, op, heq, hr, hc⟩ := hb
  rcases List.eq_nil_or_concat h₂ with rfl | ⟨h₂', ev', rfl⟩
  · cases hc
  · rw [List.concat_eq_append] at heq hc
    rw [← List.append_assoc] at heq
    obtain ⟨rfl, hev⟩ := List.append_inj' heq rfl
    cases hev
    rcases List.mem_append.mp hc with hc | hc
    · exact .inl ⟨h₁, h₂', r, op, rfl, hr, hc⟩
    · exact .inr ⟨⟨r, List.mem_append_left _ hr⟩, op, (List.mem_singleton.mp hc).symm⟩

theorem Before.ret_mem (hb : Before h i j) : ∃ r, .ret i r ∈ h := by
  obtain ⟨h₁, h₂, r, op, rfl, hr, -⟩ := hb
  exact ⟨r, List.mem_append_left _ hr⟩

end Histories

theorem legal_concat {exec : σ → Op → σ × Ret} {a b : σ} {order : List (Entry Op Ret)}
    (hl : Legal exec a order b) (i : Nat) (op : Op) :
    Legal exec a (order ++ [⟨i, op, (exec b op).2⟩]) (exec b op).1 := by
  induction order generalizing a with
  | nil =>
    obtain rfl : a = b := hl
    exact ⟨rfl, rfl⟩
  | cons e order ih => exact ⟨hl.1, ih hl.2⟩

/-! ## The atomic object is linearizable -/

/-- What the history and the order of effects say of an operation, by how far it is. -/
def OpStatus.Explains (h : List (HistEvent Op Ret)) (order : List (Entry Op Ret)) (i : Nat) :
    OpStatus Op Ret → Prop
  | .fresh => callsOf h i = [] ∧ retsOf h i = [] ∧ order.filter (·.id == i) = []
  | .called op => callsOf h i = [op] ∧ retsOf h i = [] ∧ order.filter (·.id == i) = []
  | .done op r => callsOf h i = [op] ∧ retsOf h i = [] ∧ order.filter (·.id == i) = [⟨i, op, r⟩]
  | .returned => ∃ op r, callsOf h i = [op] ∧ retsOf h i = [r] ∧
      order.filter (·.id == i) = [⟨i, op, r⟩]

/-- The invariant of a run of the atomic object from `a`: `order` is the order of effects. -/
structure LinInv (exec : σ → Op → σ × Ret) (a : σ) (h : List (HistEvent Op Ret))
    (order : List (Entry Op Ret)) (s : Atomic σ Op Ret) : Prop where
  status : ∀ i, (s.status i).Explains h order i
  before : ∀ e ∈ order, ∀ i, Before h i e.id → ∃ e', e'.id = i ∧ [e', e].Sublist order
  legal : Legal exec a order s.obj

namespace LinInv

variable {exec : σ → Op → σ × Ret} {a : σ} {h : List (HistEvent Op Ret)}
  {order : List (Entry Op Ret)} {s t : Atomic σ Op Ret} {i : Nat} {op : Op} {r : Ret}

theorem init (hs : ∀ i, s.status i = .fresh) : LinInv exec s.obj [] [] s where
  status i := by rw [hs i]; exact ⟨rfl, rfl, rfl⟩
  before e he := by cases he
  legal := rfl

theorem call (hi : LinInv exec a h order s) (hf : s.status i = .fresh) :
    LinInv exec a (h ++ [.call i op]) order
      ⟨s.obj, Function.update s.status i (.called op)⟩ where
  status j := by
    have hj := hi.status j
    by_cases he : j = i
    · subst he
      rw [hf] at hj
      simpa [OpStatus.Explains] using hj
    · show OpStatus.Explains _ _ j (Function.update s.status i _ j)
      rw [Function.update_of_ne he]
      cases hs : s.status j <;> simpa [OpStatus.Explains, hs, Ne.symm he] using hj
  before e he j hb := by
    rcases before_concat hb with hb | ⟨-, op', hop⟩
    · exact hi.before e he j hb
    · -- The new operation has not taken effect.
      have hid : i = e.id := by cases hop; rfl
      have hj := hi.status i
      rw [hf] at hj
      have hmem : e ∈ order.filter (·.id == i) := List.mem_filter.mpr ⟨he, by simp [hid]⟩
      rw [hj.2.2] at hmem
      cases hmem
  legal := hi.legal

theorem ret (hi : LinInv exec a h order s) (hd : s.status i = .done op r) :
    LinInv exec a (h ++ [.ret i r]) order ⟨s.obj, Function.update s.status i .returned⟩ where
  status j := by
    have hj := hi.status j
    by_cases he : j = i
    · subst he
      rw [hd] at hj
      show OpStatus.Explains _ _ j (Function.update s.status j _ j)
      rw [Function.update_self]
      exact ⟨op, r, by simpa using hj.1, by simp [hj.2.1], hj.2.2⟩
    · show OpStatus.Explains _ _ j (Function.update s.status i _ j)
      rw [Function.update_of_ne he]
      cases hs : s.status j <;> simpa [OpStatus.Explains, hs, Ne.symm he] using hj
  before e he j hb := by
    rcases before_concat hb with hb | ⟨-, op', hop⟩
    · exact hi.before e he j hb
    · cases hop
  legal := hi.legal

theorem effect (hi : LinInv exec a h order s) (hc : s.status i = .called op) :
    LinInv exec a h (order ++ [⟨i, op, (exec s.obj op).2⟩])
      ⟨(exec s.obj op).1, Function.update s.status i (.done op (exec s.obj op).2)⟩ where
  status j := by
    have hj := hi.status j
    by_cases he : j = i
    · subst he
      rw [hc] at hj
      show OpStatus.Explains _ _ j (Function.update s.status j _ j)
      rw [Function.update_self]
      exact ⟨hj.1, hj.2.1, by simp [hj.2.2]⟩
    · show OpStatus.Explains _ _ j (Function.update s.status i _ j)
      rw [Function.update_of_ne he]
      cases hs : s.status j <;> simpa [OpStatus.Explains, hs, Ne.symm he] using hj
  before e he j hb := by
    rcases List.mem_append.mp he with he | he
    · obtain ⟨e', hid, hsub⟩ := hi.before e he j hb
      exact ⟨e', hid, hsub.trans (List.sublist_append_left _ _)⟩
    · -- Everything that has returned has taken effect.
      obtain rfl := List.mem_singleton.mp he
      obtain ⟨r, hr⟩ := hb.ret_mem
      have hj := hi.status j
      have hr : r ∈ retsOf h j := mem_retsOf.mpr hr
      have hret : ∃ e', e'.id = j ∧ e' ∈ order := by
        cases hs : s.status j with
        | returned =>
          rw [hs] at hj
          obtain ⟨op', r', -, -, horder⟩ := hj
          have hmem : (⟨j, op', r'⟩ : Entry Op Ret) ∈ order.filter (·.id == j) := by simp [horder]
          exact ⟨_, rfl, (List.mem_filter.mp hmem).1⟩
        | _ =>
          rw [hs] at hj
          rw [hj.2.1] at hr
          cases hr
      obtain ⟨e', hid, hmem⟩ := hret
      exact ⟨e', hid, (List.singleton_sublist.mpr hmem).append (List.Sublist.refl _)⟩
  legal := legal_concat hi.legal i op

theorem step {ev : Option (HistEvent Op Ret)} (hi : LinInv exec a h order s)
    (hst : AtomicStep exec s ev t) : ∃ order', LinInv exec a (h ++ ev.toList) order' t := by
  cases hst with
  | stutter => exact ⟨order, by simpa using hi⟩
  | call hf => exact ⟨order, hi.call hf⟩
  | effect hc => exact ⟨_, by simpa using hi.effect hc⟩
  | ret hd => exact ⟨order, hi.ret hd⟩

theorem nodup (hi : LinInv exec a h order s) : (order.map (·.id)).Nodup := by
  rw [List.nodup_iff_count_le_one]
  intro i
  have hcount : (order.map (·.id)).count i = (order.filter (·.id == i)).length := by
    rw [List.count_eq_countP, List.countP_map, List.countP_eq_length_filter]
    rfl
  have hs := hi.status i
  rw [hcount]
  cases hst : s.status i with
  | fresh => rw [hst] at hs; simp [hs.2.2]
  | called op => rw [hst] at hs; simp [hs.2.2]
  | done op r => rw [hst] at hs; simp [hs.2.2]
  | returned =>
    rw [hst] at hs
    obtain ⟨op, r, -, -, horder⟩ := hs
    simp [horder]

/-- When every operation that was called has returned, the order of effects is a linearization. -/
theorem linearization (hi : LinInv exec a h order s)
    (hfin : ∀ i, s.status i = .fresh ∨ s.status i = .returned) :
    Linearization exec a h order s.obj where
  nodup := hi.nodup
  mem_iff e := by
    have hs := hi.status e.id
    have hmem : e ∈ order ↔ e ∈ order.filter (·.id == e.id) := by simp
    rw [hmem, ← mem_callsOf, ← mem_retsOf]
    rcases hfin e.id with hf | hr
    · rw [hf] at hs
      rw [hs.1, hs.2.1, hs.2.2]
      simp
    · rw [hr] at hs
      obtain ⟨op, r, hc, hret, horder⟩ := hs
      rw [hc, hret, horder, List.mem_singleton, List.mem_singleton, List.mem_singleton]
      constructor
      · intro he
        rw [he]
        exact ⟨rfl, rfl⟩
      · rintro ⟨hop, hr⟩
        cases e
        simp only [Entry.mk.injEq, true_and]
        exact ⟨hop, hr⟩
  all i op hc := by
    have hs := hi.status i
    have hc : op ∈ callsOf h i := mem_callsOf.mpr hc
    rcases hfin i with hf | hr
    · rw [hf] at hs
      rw [hs.1] at hc
      cases hc
    · rw [hr] at hs
      obtain ⟨op', r, -, -, horder⟩ := hs
      have hmem : (⟨i, op', r⟩ : Entry Op Ret) ∈ order.filter (·.id == i) := by simp [horder]
      exact List.mem_map.mpr ⟨_, (List.mem_filter.mp hmem).1, rfl⟩
  before e he e' he' hb := by
    obtain ⟨e'', hid, hsub⟩ := hi.before e' he' e.id hb
    have hmem : e'' ∈ order := hsub.subset List.mem_cons_self
    obtain rfl : e'' = e := List.inj_on_of_nodup_map hi.nodup hmem he hid
    exact hsub
  legal := hi.legal

end LinInv

/-- **Simulation gives linearizability.** `R` relates the states of a system to states of the atomic
object, and every step of the system is matched by one step of the atomic object with the event
`event l`. Then a run whose operations have all returned has a linearizable history. -/
theorem linearizable_of_simulates {exec : σ → Op → σ × Ret} {S : Sys}
    (event : S.Label → Option (HistEvent Op Ret)) (R : S.St → Atomic σ Op Ret → Prop)
    (hR : ∀ s a l t, R s a → S.step s l t → ∃ b, AtomicStep exec a (event l) b ∧ R t b)
    {s t : S.St} {a : Atomic σ Op Ret} {ls : List S.Label} (hs : R s a)
    (hinit : ∀ i, a.status i = .fresh) (h : S.Steps s ls t)
    (hfin : ∀ b, R t b → ∀ i, b.status i = .fresh ∨ b.status i = .returned) :
    ∃ b, R t b ∧ Linearizable exec a.obj (ls.filterMap event) b.obj := by
  have hrun := h.invariant
    (I := fun ls t => ∃ b order, R t b ∧ LinInv exec a.obj (ls.filterMap event) order b)
    ⟨a, [], hs, .init hinit⟩ fun ls t l u ⟨b, order, hb, hi⟩ hst => by
      obtain ⟨b', hab, hb'⟩ := hR t b l u hb hst
      obtain ⟨order', hi'⟩ := hi.step hab
      refine ⟨b', order', hb', ?_⟩
      rw [List.filterMap_append]
      cases hev : event l <;> simpa [hev] using hi'
  obtain ⟨b, order, hb, hi⟩ := hrun
  exact ⟨b, hb, order, hi.linearization (hfin b hb)⟩

/-! ## What a linearization says -/

/-- A sequential run, cut in two. -/
theorem Legal.append_iff {exec : σ → Op → σ × Ret} {a b : σ} {xs ys : List (Entry Op Ret)} :
    Legal exec a (xs ++ ys) b ↔ ∃ m, Legal exec a xs m ∧ Legal exec m ys b := by
  induction xs generalizing a with
  | nil => exact ⟨fun h => ⟨a, rfl, h⟩, fun ⟨m, (hm : a = m), h⟩ => hm ▸ h⟩
  | cons x xs ih =>
    rw [List.cons_append, Legal, ih]
    constructor
    · rintro ⟨hr, m, hx, hy⟩
      exact ⟨m, ⟨hr, hx⟩, hy⟩
    · rintro ⟨m, ⟨hr, hx⟩, hy⟩
      exact ⟨hr, m, hx, hy⟩

/-- The state that a sequential run reaches. -/
theorem Legal.foldl_eq {exec : σ → Op → σ × Ret} {a b : σ} {order : List (Entry Op Ret)}
    (h : Legal exec a order b) : (order.map (·.op)).foldl (fun s op => (exec s op).1) a = b := by
  induction order generalizing a with
  | nil => exact h
  | cons e order ih => exact ih h.2

/-- Precedence in a history stays in a longer one. -/
theorem Before.append {h h' : List (HistEvent Op Ret)} {i j : Nat} (hb : Before h i j) :
    Before (h ++ h') i j := by
  obtain ⟨h₁, h₂, r, op, rfl, hr, hc⟩ := hb
  exact ⟨h₁, h₂ ++ h', r, op, List.append_assoc .., hr, List.mem_append_left _ hc⟩

namespace Linearization

variable {exec : σ → Op → σ × Ret} {a b : σ} {h : List (HistEvent Op Ret)}
  {order pre post : List (Entry Op Ret)} {e e' : Entry Op Ret}

/-- What returned before an operation was called is in front of it. -/
theorem mem_pre (hl : Linearization exec a h order b) (he : order = pre ++ e :: post)
    (he' : e' ∈ order) (hb : Before h e'.id e.id) : e' ∈ pre := by
  have hnodup : order.Nodup := hl.nodup.of_map
  have hsub := hl.before e' he' e (by simp [he]) hb
  rw [he] at hsub hnodup
  rw [List.nodup_middle, List.nodup_cons, List.mem_append, not_or] at hnodup
  obtain ⟨l₁, l₂, hll, h₁, h₂⟩ := List.sublist_append_iff.mp hsub
  cases l₁ with
  | cons x l₁ =>
    obtain ⟨rfl, -⟩ := List.cons.inj hll
    exact h₁.subset List.mem_cons_self
  | nil =>
    rw [List.nil_append] at hll
    subst hll
    -- Both are in `e :: post`, so `e` is in `post`.
    rcases List.sublist_cons_iff.mp h₂ with hpost | ⟨r, hr, hpost⟩
    · exact absurd (hpost.subset (by simp)) hnodup.1.2
    · obtain ⟨-, rfl⟩ := List.cons.inj hr
      exact absurd (hpost.subset (by simp)) hnodup.1.2

/-- What was called after an operation returned is behind it. -/
theorem mem_post (hl : Linearization exec a h order b) (he : order = pre ++ e :: post)
    (he' : e' ∈ order) (hb : Before h e.id e'.id) : e' ∈ post := by
  have hnodup : order.Nodup := hl.nodup.of_map
  have hsub := hl.before e (by simp [he]) e' he' hb
  rw [he] at hsub hnodup
  rw [List.nodup_middle, List.nodup_cons, List.mem_append, not_or] at hnodup
  obtain ⟨l₁, l₂, hll, h₁, h₂⟩ := List.sublist_append_iff.mp hsub
  cases l₁ with
  | cons x l₁ =>
    obtain ⟨rfl, -⟩ := List.cons.inj hll
    exact absurd (h₁.subset List.mem_cons_self) hnodup.1.1
  | nil =>
    rw [List.nil_append] at hll
    subst hll
    exact List.singleton_sublist.mp (List.cons_sublist_cons.mp h₂)

/-- An operation that returned before another was called is not behind it. -/
theorem not_before (hl : Linearization exec a h order b) (he : order = pre ++ e :: post)
    (hpre : e' ∈ pre) : ¬ Before h e.id e'.id := by
  intro hb
  have hnodup : order.Nodup := hl.nodup.of_map
  have hpost : e' ∈ post := hl.mem_post he (by simp [he, hpre]) hb
  rw [he] at hnodup
  exact (List.nodup_append.mp hnodup).2.2 e' hpre e' (List.mem_cons_of_mem e hpost) rfl

/-- The entry of an operation that was called. -/
theorem exists_ret (hl : Linearization exec a h order b) {i : Nat} {op : Op}
    (hc : .call i op ∈ h) : ∃ r, ⟨i, op, r⟩ ∈ order := by
  obtain ⟨e, he, rfl⟩ := List.mem_map.mp (hl.all i op hc)
  exact ⟨e.ret, (hl.mem_iff ⟨e.id, op, e.ret⟩).mpr ⟨hc, ((hl.mem_iff e).mp he).2⟩⟩

end Linearization

/-! ## Specifications that differ in their states -/

/-- A sequential run of a specification, from the run of its image under `π`. -/
theorem Legal.lift {τ : Type} {exec : σ → Op → σ × Ret} {exec' : τ → Op → τ × Ret} {π : τ → σ}
    (hπ : ∀ s op, (π (exec' s op).1, (exec' s op).2) = exec (π s) op) {a : τ} {b : σ}
    {order : List (Entry Op Ret)} (h : Legal exec (π a) order b) :
    ∃ b', Legal exec' a order b' ∧ π b' = b := by
  induction order generalizing a with
  | nil => exact ⟨a, rfl, h⟩
  | cons e order ih =>
    obtain ⟨hr, hl⟩ := h
    rw [← hπ] at hr hl
    obtain ⟨b', hl', hb⟩ := ih hl
    exact ⟨b', ⟨hr, hl'⟩, hb⟩

/-- A history that is linearizable for the image of a specification is linearizable for it. -/
theorem Linearizable.lift {τ : Type} {exec : σ → Op → σ × Ret} {exec' : τ → Op → τ × Ret} {π : τ → σ}
    (hπ : ∀ s op, (π (exec' s op).1, (exec' s op).2) = exec (π s) op) {a : τ} {b : σ}
    {h : List (HistEvent Op Ret)} (hl : Linearizable exec (π a) h b) :
    ∃ b', Linearizable exec' a h b' ∧ π b' = b := by
  obtain ⟨order, hn, hm, ha, hb, hlegal⟩ := hl
  obtain ⟨b', hlegal', he⟩ := hlegal.lift hπ
  exact ⟨b', ⟨order, hn, hm, ha, hb, hlegal'⟩, he⟩

end CharSystem
