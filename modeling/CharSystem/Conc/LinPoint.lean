import CharSystem.Conc.Linear
import CharSystem.Conc.Prog
import Mathlib.Order.Defs.PartialOrder

/-!
# Linearization points in programs

A rule that proves a system of threads (`threadSys`) linearizable one program at a time. The shared
state has an invariant `Inv`, an image `abs` in the states of the specification, and an order:
`s ≤ t` says that what a thread has learned of `s` still holds in `t`.

* `LinPoint exec abs Inv st p s`: from `s`, whatever the other threads do (they keep `Inv` and only
  go up), an operation that is as far as `st` and has the program `p` left takes effect at exactly
  one of its steps, as the specification says, and returns the result of that effect.
* `linearizable_of_linPoint`: if this holds of every operation at its call, every run whose
  operations have all returned has a linearizable history.
-/

namespace CharSystem

variable {S L σ Op R : Type}

/-- What one step of an operation does: nothing that the specification sees, or its effect. -/
inductive Takes (exec : σ → Op → σ × R) (a : σ) : OpStatus Op R → σ → OpStatus Op R → Prop
  | stutter (st : OpStatus Op R) : Takes exec a st a st
  | effect (op : Op) : Takes exec a (.called op) (exec a op).1 (.done op (exec a op).2)

theorem Takes.of_eq {exec : σ → Op → σ × R} {a b : σ} {op : Op} {r : R} (h : exec a op = (b, r)) :
    Takes exec a (.called op) b (.done op r) := by
  have ht : Takes exec a (.called op) _ _ := .effect op
  rwa [h] at ht

/-- The program has one linearization point on every path (module doc). -/
inductive LinPoint [LE S] (exec : σ → Op → σ × R) (abs : S → σ) (Inv : S → Prop) :
    OpStatus Op R → Prog S L R → S → Prop
  | ret {op : Op} {r : R} {s : S} : LinPoint exec abs Inv (.done op r) (.ret r) s
  | acquire {st : OpStatus Op R} {l : L} {k : Prog S L R} {s : S} : LinPoint exec abs Inv st k s →
    LinPoint exec abs Inv st (.acquire l k) s
  | release {st : OpStatus Op R} {l : L} {k : Prog S L R} {s : S} : LinPoint exec abs Inv st k s →
    LinPoint exec abs Inv st (.release l k) s
  | choice {st : OpStatus Op R} {f : S → S × Prog S L R} {s : S} (next : S → OpStatus Op R) :
    (∀ s', s ≤ s' → Inv s' → Inv (f s').1 ∧ s' ≤ (f s').1 ∧
      Takes exec (abs s') st (abs (f s').1) (next s')) →
    (∀ s', s ≤ s' → Inv s' → LinPoint exec abs Inv (next s') (f s').2 (f s').1) →
    LinPoint exec abs Inv st (.act f) s

namespace LinPoint

variable [Preorder S] {exec : σ → Op → σ × R} {abs : S → σ} {Inv : S → Prop}
  {st : OpStatus Op R} {p k : Prog S L R} {l : L} {f : S → S × Prog S L R} {s : S}

/-- An atomic step. What it does may depend on the state. -/
theorem act (h : ∀ s', s ≤ s' → Inv s' → ∃ st', Inv (f s').1 ∧ s' ≤ (f s').1 ∧
    Takes exec (abs s') st (abs (f s').1) st' ∧ LinPoint exec abs Inv st' (f s').2 (f s').1) :
    LinPoint exec abs Inv st (.act f) s := by
  choose! next hinv hle htakes hnext using h
  exact .choice next (fun s' hs hi => ⟨hinv s' hs hi, hle s' hs hi, htakes s' hs hi⟩) hnext

theorem mono (h : LinPoint exec abs Inv st p s) {t : S} (hst : s ≤ t) :
    LinPoint exec abs Inv st p t := by
  induction h with
  | ret => exact .ret
  | acquire _ ih => exact .acquire (ih hst)
  | release _ ih => exact .release (ih hst)
  | choice next h1 h2 _ =>
    exact .choice next (fun s' hs => h1 s' (le_trans hst hs)) fun s' hs => h2 s' (le_trans hst hs)

theorem of_ret {r : R} (h : LinPoint exec abs Inv st (.ret r : Prog S L R) s) :
    ∃ op, st = .done op r := by
  cases h
  exact ⟨_, rfl⟩

theorem of_acquire (h : LinPoint exec abs Inv st (.acquire l k) s) : LinPoint exec abs Inv st k s := by
  cases h
  assumption

theorem of_release (h : LinPoint exec abs Inv st (.release l k) s) : LinPoint exec abs Inv st k s := by
  cases h
  assumption

theorem of_act (h : LinPoint exec abs Inv st (.act f) s) (hi : Inv s) :
    ∃ st', Inv (f s).1 ∧ s ≤ (f s).1 ∧ Takes exec (abs s) st (abs (f s).1) st' ∧
      LinPoint exec abs Inv st' (f s).2 (f s).1 := by
  cases h with
  | choice next h1 h2 =>
    obtain ⟨hinv, hle, htakes⟩ := h1 s (le_refl s) hi
    exact ⟨next s, hinv, hle, htakes, h2 s (le_refl s) hi⟩

end LinPoint

/-- The event of a step. -/
def ThreadLabel.event : ThreadLabel Op R → Option (HistEvent Op R)
  | .call _ id op => some (.call id op)
  | .internal _ => none
  | .ret _ id r => some (.ret id r)

/-- The atomic object `a` simulates the threads. -/
structure LinRel [LE S] (exec : σ → Op → σ × R) (abs : S → σ) (Inv : S → Prop)
    (c : Config S L Op R) (a : Atomic σ Op R) : Prop where
  inv : Inv c.shared
  obj : a.obj = abs c.shared
  running : ∀ t o, c.thread t = some o →
    o.id < c.count ∧ LinPoint exec abs Inv (a.status o.id) o.prog c.shared
  unique : ∀ t u o o', c.thread t = some o → c.thread u = some o' → o.id = o'.id → t = u
  fresh : ∀ i, c.count ≤ i → a.status i = .fresh
  returned : ∀ i, i < c.count → (∀ t o, c.thread t = some o → o.id ≠ i) → a.status i = .returned

namespace LinRel

variable [Preorder S] {exec : σ → Op → σ × R} {abs : S → σ} {Inv : S → Prop}
  {c c' : Config S L Op R} {a : Atomic σ Op R} {method : Op → Prog S L R} {t : Nat}
  {o : Running S L Op R}

theorem init {s : S} (hs : Inv s) :
    LinRel exec abs Inv (Config.init s : Config S L Op R) ⟨abs s, fun _ => .fresh⟩ where
  inv := hs
  obj := rfl
  running t o h := by cases h
  unique t u o o' h := by cases h
  fresh i _ := rfl
  returned i hi := absurd hi (Nat.not_lt_zero i)

/-- Thread `t` goes on with the program `p`, its operation is as far as `st`, and the shared state
has gone up. The holders of the locks do not matter. -/
theorem goOn (h : LinRel exec abs Inv c a) (ht : c.thread t = some o) {p : Prog S L R} {s : S}
    (hinv : Inv s) (hle : c.shared ≤ s) {st : OpStatus Op R} (hp : LinPoint exec abs Inv st p s)
    (holder : L → Option Nat) :
    LinRel exec abs Inv { c.goOn t o p with shared := s, holder := holder }
      ⟨abs s, Function.update a.status o.id st⟩ where
  inv := hinv
  obj := rfl
  running u o' hu := by
    have hu : Function.update c.thread t (some { o with prog := p }) u = some o' := hu
    show o'.id < c.count ∧ LinPoint exec abs Inv (Function.update a.status o.id st o'.id) o'.prog s
    rcases update_cases hu with ⟨-, hu⟩ | ⟨hut, hu⟩
    · cases hu
      rw [Function.update_self]
      exact ⟨(h.running t o ht).1, hp⟩
    · obtain ⟨hlt, hlin⟩ := h.running u o' hu
      rw [Function.update_of_ne fun he => hut (h.unique u t o' o hu ht he)]
      exact ⟨hlt, hlin.mono hle⟩
  unique u v o' o'' hu hv hid := by
    have hthread : ∀ w ow, Function.update c.thread t (some { o with prog := p }) w = some ow →
        ∃ ow', c.thread w = some ow' ∧ ow'.id = ow.id := fun w ow hw => by
      rcases update_cases hw with ⟨rfl, ho⟩ | ⟨-, hw⟩
      · cases ho
        exact ⟨o, ht, rfl⟩
      · exact ⟨ow, hw, rfl⟩
    obtain ⟨ou, hou, hidu⟩ := hthread u o' hu
    obtain ⟨ov, hov, hidv⟩ := hthread v o'' hv
    exact h.unique u v ou ov hou hov (by rw [hidu, hidv, hid])
  fresh i hi := by
    have hlt := (h.running t o ht).1
    have hi : c.count ≤ i := hi
    show Function.update a.status o.id st i = .fresh
    rw [Function.update_of_ne (by omega)]
    exact h.fresh i hi
  returned i hi hn := by
    have hne : i ≠ o.id := fun he =>
      hn t { o with prog := p } (Function.update_self ..) he.symm
    show Function.update a.status o.id st i = .returned
    rw [Function.update_of_ne hne]
    refine h.returned i hi fun u o' hu he => ?_
    by_cases hut : u = t
    · subst hut
      rw [ht] at hu
      cases hu
      exact hne he.symm
    · exact hn u o' ((Function.update_of_ne hut ..).trans hu) he

/-- A step inside an operation that the specification does not see. -/
theorem silent (h : LinRel exec abs Inv c a) (ht : c.thread t = some o) {p : Prog S L R}
    (hp : LinPoint exec abs Inv (a.status o.id) p c.shared) (holder : L → Option Nat) :
    LinRel exec abs Inv { c.goOn t o p with holder := holder } a := by
  have hg := h.goOn ht h.inv (le_refl _) hp holder
  rw [Function.update_eq_self, ← h.obj] at hg
  exact ⟨hg.inv, hg.obj, hg.running, hg.unique, hg.fresh, hg.returned⟩

/-- A call. -/
theorem call (h : LinRel exec abs Inv c a) (ht : c.thread t = none) {op : Op} {p : Prog S L R}
    (hp : LinPoint exec abs Inv (.called op) p c.shared) :
    LinRel exec abs Inv
      { c with
        thread := Function.update c.thread t (some ⟨c.count, op, p⟩)
        count := c.count + 1 }
      ⟨a.obj, Function.update a.status c.count (.called op)⟩ where
  inv := h.inv
  obj := h.obj
  running u o hu := by
    have hu : Function.update c.thread t (some ⟨c.count, op, p⟩) u = some o := hu
    show o.id < c.count + 1 ∧
      LinPoint exec abs Inv (Function.update a.status c.count (.called op) o.id) o.prog c.shared
    rcases update_cases hu with ⟨-, hu⟩ | ⟨-, hu⟩
    · cases hu
      rw [Function.update_self]
      exact ⟨Nat.lt_succ_self _, hp⟩
    · obtain ⟨hlt, hlin⟩ := h.running u o hu
      rw [Function.update_of_ne (by omega)]
      exact ⟨by omega, hlin⟩
  unique u v o o' hu hv hid := by
    have hthread : ∀ w ow, Function.update c.thread t (some ⟨c.count, op, p⟩) w = some ow →
        w = t ∧ ow.id = c.count ∨ c.thread w = some ow ∧ ow.id < c.count := fun w ow hw => by
      rcases update_cases hw with ⟨rfl, ho⟩ | ⟨-, hw⟩
      · cases ho
        exact .inl ⟨rfl, rfl⟩
      · exact .inr ⟨hw, (h.running w ow hw).1⟩
    rcases hthread u o hu with ⟨rfl, hou⟩ | ⟨hu, hou⟩ <;>
      rcases hthread v o' hv with ⟨rfl, hov⟩ | ⟨hv, hov⟩
    · rfl
    · omega
    · omega
    · exact h.unique u v o o' hu hv hid
  fresh i hi := by
    have hi : c.count + 1 ≤ i := hi
    show Function.update a.status c.count (.called op) i = .fresh
    rw [Function.update_of_ne (by omega)]
    exact h.fresh i (by omega)
  returned i hi hn := by
    have hi : i < c.count + 1 := hi
    have hne : i ≠ c.count := fun he => hn t _ (Function.update_self ..) he.symm
    show Function.update a.status c.count (.called op) i = .returned
    rw [Function.update_of_ne hne]
    refine h.returned i (by omega) fun u o hu => hn u o ?_
    have hut : u ≠ t := fun he => by rw [he, ht] at hu; cases hu
    exact (Function.update_of_ne hut ..).trans hu

/-- A return. -/
theorem ret (h : LinRel exec abs Inv c a) (ht : c.thread t = some o) :
    LinRel exec abs Inv { c with thread := Function.update c.thread t none }
      ⟨a.obj, Function.update a.status o.id .returned⟩ := by
  have hthread : ∀ u o', Function.update c.thread t none u = some o' →
      c.thread u = some o' ∧ u ≠ t := fun u o' hu => by
    rcases update_cases hu with ⟨-, hu⟩ | ⟨hut, hu⟩
    · cases hu
    · exact ⟨hu, hut⟩
  refine ⟨h.inv, h.obj, fun u o' hu => ?_, fun u v o' o'' hu hv => ?_, fun i hi => ?_,
    fun i hi hn => ?_⟩
  · obtain ⟨hu, hut⟩ := hthread u o' hu
    obtain ⟨hlt, hlin⟩ := h.running u o' hu
    show o'.id < c.count ∧
      LinPoint exec abs Inv (Function.update a.status o.id .returned o'.id) o'.prog c.shared
    rw [Function.update_of_ne fun he => hut (h.unique u t o' o hu ht he)]
    exact ⟨hlt, hlin⟩
  · exact h.unique u v o' o'' (hthread u o' hu).1 (hthread v o'' hv).1
  · have hlt := (h.running t o ht).1
    have hi : c.count ≤ i := hi
    show Function.update a.status o.id .returned i = .fresh
    rw [Function.update_of_ne (by omega)]
    exact h.fresh i hi
  · show Function.update a.status o.id .returned i = .returned
    by_cases hio : i = o.id
    · rw [hio, Function.update_self]
    · rw [Function.update_of_ne hio]
      refine h.returned i hi fun u o' hu he => ?_
      by_cases hut : u = t
      · subst hut
        rw [ht] at hu
        cases hu
        exact hio he.symm
      · exact hn u o' ((Function.update_of_ne hut ..).trans hu) he

/-- Every step of a thread is a step of the atomic object. -/
theorem step [DecidableEq L] (hm : ∀ op s, Inv s → LinPoint exec abs Inv (.called op) (method op) s)
    (h : LinRel exec abs Inv c a) {l : ThreadLabel Op R} (hst : Config.Step method c l c') :
    ∃ b, AtomicStep exec a l.event b ∧ LinRel exec abs Inv c' b := by
  cases hst with
  | @call t op ht =>
    exact ⟨_, .call (h.fresh _ (Nat.le_refl _)), h.call ht (hm op _ h.inv)⟩
  | @acquire t o l k ht hp hl =>
    have hlin := (h.running t o ht).2
    rw [hp] at hlin
    exact ⟨a, .stutter a, h.silent ht hlin.of_acquire _⟩
  | @release t o l k ht hp =>
    have hlin := (h.running t o ht).2
    rw [hp] at hlin
    exact ⟨a, .stutter a, h.silent ht hlin.of_release _⟩
  | @act t o f ht hp =>
    have hlin := (h.running t o ht).2
    rw [hp] at hlin
    obtain ⟨st', hinv, hle, htakes, hnext⟩ := hlin.of_act h.inv
    have hg := h.goOn ht hinv hle hnext c.holder
    refine ⟨_, ?_, hg⟩
    generalize hst : a.status o.id = st at htakes
    generalize hobj : abs (f c.shared).1 = b at htakes hg
    rw [← h.obj] at htakes
    cases htakes with
    | stutter =>
      rw [← hst, Function.update_eq_self]
      exact .stutter a
    | effect op => exact .effect hst
  | @ret t o r ht hp =>
    have hlin := (h.running t o ht).2
    rw [hp] at hlin
    obtain ⟨op, hst⟩ := hlin.of_ret
    exact ⟨_, .ret hst, h.ret ht⟩

end LinRel

/-- **The rule.** If every operation has a linearization point, a run whose operations have all
returned has a linearizable history, and ends in the state that the specification reaches. -/
theorem linearizable_of_linPoint [Preorder S] [DecidableEq L] {exec : σ → Op → σ × R} {abs : S → σ}
    {Inv : S → Prop} {method : Op → Prog S L R}
    (hm : ∀ op s, Inv s → LinPoint exec abs Inv (.called op) (method op) s) {s : S} (hs : Inv s)
    {c : Config S L Op R} {ls : List (ThreadLabel Op R)}
    (h : (threadSys method).Steps (Config.init s) ls c) (hidle : ∀ t, c.thread t = none) :
    Linearizable exec (abs s) (ls.filterMap ThreadLabel.event) (abs c.shared) := by
  obtain ⟨b, hb, hlin⟩ := linearizable_of_simulates ThreadLabel.event (LinRel exec abs Inv)
    (fun _ _ _ _ hr hst => hr.step hm hst) (LinRel.init hs) (fun _ => rfl) h fun b hb i => by
      rcases Nat.lt_or_ge i c.count with hi | hi
      · exact .inr (hb.returned i hi fun t o ht => by rw [hidle] at ht; cases ht)
      · exact .inl (hb.fresh i hi)
  rwa [hb.obj] at hlin

end CharSystem
