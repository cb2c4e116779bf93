import Mathlib.Data.List.Induction

/-!
# Labelled transition systems

A system whose steps are not determined by its state: they depend on the order in which several
parties act, or on what the environment answers. A result about all runs is an invariant that every
step keeps.

* `Sys.Steps s ls t`: a run from `s` to `t` with the labels `ls`, oldest first.
* `Sys.Reach init t`: a run from a state with `init` ends in `t`.
* `Steps.invariant`: a relation between the labels of a run and its last state.
-/

namespace CharSystem

/-- A labelled transition system. -/
structure Sys where
  St : Type
  Label : Type
  step : St → Label → St → Prop

namespace Sys

variable (S : Sys)

/-- A run with its labels, oldest first. -/
inductive Steps : S.St → List S.Label → S.St → Prop
  | nil (s : S.St) : Steps s [] s
  | snoc {s t u : S.St} {ls : List S.Label} {l : S.Label} :
    Steps s ls t → S.step t l u → Steps s (ls ++ [l]) u

/-- A run from a state with `init` ends in `t`. -/
def Reach (init : S.St → Prop) (t : S.St) : Prop := ∃ s ls, init s ∧ S.Steps s ls t

variable {S}

/-- A relation between labels and state that every step keeps. -/
theorem Steps.invariant {s t : S.St} {ls : List S.Label} (h : S.Steps s ls t)
    {I : List S.Label → S.St → Prop} (h0 : I [] s)
    (hstep : ∀ ls t l u, I ls t → S.step t l u → I (ls ++ [l]) u) : I ls t := by
  induction h with
  | nil => exact h0
  | snoc _ hs ih => exact hstep _ _ _ _ ih hs

theorem Steps.snoc_inv {s u : S.St} {ls : List S.Label} {l : S.Label}
    (h : S.Steps s (ls ++ [l]) u) : ∃ t, S.Steps s ls t ∧ S.step t l u := by
  generalize hls : ls ++ [l] = ls' at h
  cases h with
  | nil => exact absurd hls (by simp)
  | snoc hr hs =>
    obtain ⟨rfl, hl⟩ := List.append_inj' hls rfl
    cases hl
    exact ⟨_, hr, hs⟩

/-- A run through a given step. -/
theorem Steps.split {s u : S.St} {as bs : List S.Label} {l : S.Label}
    (h : S.Steps s (as ++ l :: bs) u) : ∃ t t', S.Steps s as t ∧ S.step t l t' ∧ S.Steps t' bs u := by
  induction bs using List.reverseRecOn generalizing u with
  | nil =>
    obtain ⟨t, hr, hs⟩ := h.snoc_inv
    exact ⟨t, u, hr, hs, .nil u⟩
  | append_singleton bs b ih =>
    rw [← List.cons_append, ← List.append_assoc] at h
    obtain ⟨v, hr, hs⟩ := h.snoc_inv
    obtain ⟨t, t', h1, h2, h3⟩ := ih hr
    exact ⟨t, t', h1, h2, .snoc h3 hs⟩

theorem Steps.append {s t u : S.St} {as bs : List S.Label} (h : S.Steps s as t)
    (h' : S.Steps t bs u) : S.Steps s (as ++ bs) u :=
  h'.invariant (I := fun bs u => S.Steps s (as ++ bs) u) (by rwa [List.append_nil])
    fun bs t l u ht hst => by
      rw [← List.append_assoc]
      exact .snoc ht hst

/-- A run with a first step. -/
theorem Steps.cons {s t u : S.St} {l : S.Label} {ls : List S.Label} (h : S.step s l t)
    (h' : S.Steps t ls u) : S.Steps s (l :: ls) u :=
  (Steps.snoc (.nil s) h).append h'

/-- An invariant of the state alone. -/
theorem Reach.invariant {init : S.St → Prop} {t : S.St} (h : S.Reach init t) {I : S.St → Prop}
    (h0 : ∀ s, init s → I s) (hstep : ∀ s l t, I s → S.step s l t → I t) : I t := by
  obtain ⟨s, ls, hs, hr⟩ := h
  exact hr.invariant (I := fun _ t => I t) (h0 s hs) fun _ t l u => hstep t l u

end Sys

end CharSystem
