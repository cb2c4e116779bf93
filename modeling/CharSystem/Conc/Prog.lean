import CharSystem.Sys
import Mathlib.Logic.Function.Basic

/-!
# Threads that share a state and take locks

An operation is a program (`Prog`): it acquires and releases locks, makes atomic steps on the shared
state, and returns. What a step reads decides how the program goes on. A lock is not reentrant: a
thread that acquires a lock waits until no thread holds it, the thread itself included.

* `Config`: the shared state, who holds each lock, and the unfinished operation of each thread.
* `Config.Step`: one step of one thread, in any order. A thread without an operation may call any.
* `threadSys method`: the system of threads whose operations have the code `method`.
-/

namespace CharSystem

/-- A program over the shared state `S` with the locks `L`. -/
inductive Prog (S L R : Type) where
  | ret (r : R)
  | acquire (l : L) (k : Prog S L R)
  | release (l : L) (k : Prog S L R)
  | act (f : S → S × Prog S L R)

/-- An unfinished operation: its number, the call, and what is left of its program. -/
structure Running (S L Op R : Type) where
  id : Nat
  op : Op
  prog : Prog S L R

/-- A state of the system. `count`: how many operations have been called. -/
structure Config (S L Op R : Type) where
  shared : S
  holder : L → Option Nat
  thread : Nat → Option (Running S L Op R)
  count : Nat

/-- The step of a thread: a call, a step inside the operation, or its return. -/
inductive ThreadLabel (Op R : Type) where
  | call (t : Nat) (id : Nat) (op : Op)
  | internal (t : Nat)
  | ret (t : Nat) (id : Nat) (r : R)
  deriving DecidableEq, Repr

/-- What an updated map has at `b`. -/
theorem update_cases {α β : Type} [DecidableEq α] {f : α → β} {a b : α} {x y : β}
    (h : Function.update f a x b = y) : b = a ∧ x = y ∨ b ≠ a ∧ f b = y := by
  by_cases hb : b = a
  · subst hb
    rw [Function.update_self] at h
    exact .inl ⟨rfl, h⟩
  · rw [Function.update_of_ne hb] at h
    exact .inr ⟨hb, h⟩

namespace Config

variable {S L Op R : Type} [DecidableEq L]

/-- The start: no operation has been called, and no lock is held. -/
def init (s : S) : Config S L Op R := ⟨s, fun _ => none, fun _ => none, 0⟩

/-- Thread `t` goes on with the program `p`. -/
def goOn (c : Config S L Op R) (t : Nat) (o : Running S L Op R) (p : Prog S L R) :
    Config S L Op R :=
  { c with thread := Function.update c.thread t (some { o with prog := p }) }

/-- One step of one thread. A lock is acquired when nobody holds it, and released by its holder. -/
inductive Step (method : Op → Prog S L R) :
    Config S L Op R → ThreadLabel Op R → Config S L Op R → Prop
  | call {c : Config S L Op R} {t : Nat} {op : Op} : c.thread t = none →
    Step method c (.call t c.count op)
      { c with
        thread := Function.update c.thread t (some ⟨c.count, op, method op⟩)
        count := c.count + 1 }
  | acquire {c : Config S L Op R} {t : Nat} {o : Running S L Op R} {l : L} {k : Prog S L R} :
    c.thread t = some o → o.prog = .acquire l k → c.holder l = none →
    Step method c (.internal t)
      { c.goOn t o k with holder := Function.update c.holder l (some t) }
  | release {c : Config S L Op R} {t : Nat} {o : Running S L Op R} {l : L} {k : Prog S L R} :
    c.thread t = some o → o.prog = .release l k →
    Step method c (.internal t)
      { c.goOn t o k with holder := Function.update c.holder l none }
  | act {c : Config S L Op R} {t : Nat} {o : Running S L Op R} {f : S → S × Prog S L R} :
    c.thread t = some o → o.prog = .act f →
    Step method c (.internal t)
      { c.goOn t o (f c.shared).2 with shared := (f c.shared).1 }
  | ret {c : Config S L Op R} {t : Nat} {o : Running S L Op R} {r : R} :
    c.thread t = some o → o.prog = .ret r →
    Step method c (.ret t o.id r) { c with thread := Function.update c.thread t none }

/-- Thread `t` can take the next step of its operation. -/
def CanStep (method : Op → Prog S L R) (c : Config S L Op R) (t : Nat) : Prop :=
  (∃ c', Step method c (.internal t) c') ∨ ∃ id r c', Step method c (.ret t id r) c'

end Config

/-- The system of threads whose operations have the code `method`. -/
abbrev threadSys {S L Op R : Type} [DecidableEq L] (method : Op → Prog S L R) : Sys :=
  ⟨Config S L Op R, ThreadLabel Op R, Config.Step method⟩

end CharSystem
