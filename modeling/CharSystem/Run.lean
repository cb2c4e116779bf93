/-!
# Runs of a deterministic machine

A machine is a step function `step : σ → α → σ`; a run is a list of inputs. The results about
sequential runs in this development are stated over these definitions, and each is proved from
facts about one step.

* `run step s as`: the state after the inputs `as`.
* `Along step ok s as`: every input of the run meets `ok` in the state before it (an assumption
  on the environment, or the exact condition of a result).
* `Always step P s as`: `P` holds in every state that the run reaches, the first one included.
  `always_iff_along` turns `P s → (P (step s a) ↔ ok s a)` into an equivalence about runs.
* `along_notHolds_of_nodup`: inputs that take distinct names take names not in use.
* `outputs step out s as`: what the inputs of the run give, in order. `outputs_filter` is
  unwinding for noninterference: inputs that change nothing an observer sees can be deleted.
  `run_refines`, `outputs_refines`: a run follows the run of its image in an abstract machine.
  `run_component`: when an output is a list of inputs for a component of the state, a run of the
  whole machine is a run of the component.
-/

namespace CharSystem

variable {σ α ρ : Type} (step : σ → α → σ)

/-- The state after the inputs `as` from `s`. -/
def run (s : σ) (as : List α) : σ := as.foldl step s

/-- Every input of the run meets `ok` in the state before it. -/
def Along (ok : σ → α → Prop) : σ → List α → Prop
  | _, [] => True
  | s, a :: as => ok s a ∧ Along ok (step s a) as

/-- `P` holds in every state of the run. -/
def Always (P : σ → Prop) (s : σ) (as : List α) : Prop := ∀ bs, bs <+: as → P (run step s bs)

/-- The outputs of the inputs of the run, each given in the state before its input. -/
def outputs (out : σ → α → List ρ) : σ → List α → List ρ
  | _, [] => []
  | s, a :: as => out s a ++ outputs out (step s a) as

@[simp] theorem run_nil (s : σ) : run step s [] = s := rfl

@[simp] theorem run_cons (s : σ) (a : α) (as : List α) :
    run step s (a :: as) = run step (step s a) as := rfl

@[simp] theorem run_append (s : σ) (as bs : List α) :
    run step s (as ++ bs) = run step (run step s as) bs := List.foldl_append

theorem outputs_append (out : σ → α → List ρ) (s : σ) (as bs : List α) :
    outputs step out s (as ++ bs) = outputs step out s as ++ outputs step out (run step s as) bs := by
  induction as generalizing s with
  | nil => rfl
  | cons a as ih => simp [outputs, ih]

/-- If every input gives at most one output, the run can be cut where its outputs are cut. -/
theorem outputs_split {out : σ → α → List ρ} (hone : ∀ s a, (out s a).length ≤ 1) {s : σ}
    {as : List α} {xs ys : List ρ} (h : outputs step out s as = xs ++ ys) :
    ∃ bs cs, as = bs ++ cs ∧ outputs step out s bs = xs ∧ outputs step out (run step s bs) cs = ys := by
  induction as generalizing s xs with
  | nil =>
    obtain ⟨rfl, rfl⟩ := List.nil_eq_append_iff.mp h
    exact ⟨[], [], rfl, rfl, rfl⟩
  | cons a as ih =>
    rw [outputs] at h
    have hlen := hone s a
    match hout : out s a with
    | [] =>
      rw [hout, List.nil_append] at h
      obtain ⟨bs, cs, rfl, hxs, hys⟩ := ih h
      exact ⟨a :: bs, cs, rfl, by rw [outputs, hout, hxs, List.nil_append], hys⟩
    | [x] =>
      rw [hout] at h
      cases xs with
      | nil => exact ⟨[], a :: as, rfl, rfl, by rw [run_nil, outputs, hout, h, List.nil_append]⟩
      | cons x' xs =>
        rw [List.cons_append, List.cons_append, List.nil_append] at h
        obtain ⟨hx, ht⟩ := List.cons.inj h
        subst hx
        obtain ⟨bs, cs, rfl, hxs, hys⟩ := ih ht
        exact ⟨a :: bs, cs, rfl, by rw [outputs, hout, hxs, List.singleton_append], hys⟩
    | x :: y :: zs =>
      rw [hout] at hlen
      simp at hlen

variable {step}

section Along

variable {ok ok' : σ → α → Prop} {s : σ}

@[simp] theorem along_nil : Along step ok s [] := trivial

@[simp] theorem along_cons {a : α} {as : List α} :
    Along step ok s (a :: as) ↔ ok s a ∧ Along step ok (step s a) as := Iff.rfl

theorem along_append {as bs : List α} :
    Along step ok s (as ++ bs) ↔ Along step ok s as ∧ Along step ok (run step s as) bs := by
  induction as generalizing s with
  | nil => simp
  | cons a as ih => simp [ih, and_assoc]

/-- The condition, input by input. -/
theorem along_iff {as : List α} : Along step ok s as ↔
    ∀ pre a post, as = pre ++ a :: post → ok (run step s pre) a := by
  constructor
  · rintro h pre a post rfl
    exact (along_append.mp h).2.1
  · intro h
    induction as generalizing s with
    | nil => trivial
    | cons a as ih =>
      refine ⟨h [] a as rfl, ih fun pre b post he => ?_⟩
      exact h (a :: pre) b post (by rw [he, List.cons_append])

/-- A run up to some point of a longer run. -/
theorem Along.left {as bs : List α} (h : Along step ok s bs) (hp : as <+: bs) :
    Along step ok s as := by
  obtain ⟨cs, rfl⟩ := hp
  exact (along_append.mp h).1

theorem along_of_forall (h : ∀ s a, ok s a) (s : σ) (as : List α) : Along step ok s as := by
  induction as generalizing s with
  | nil => trivial
  | cons a as ih => exact ⟨h s a, ih _⟩

/-- An invariant that every step meeting `ok` keeps. -/
theorem Along.invariant {I : σ → Prop} (hstep : ∀ s a, I s → ok s a → I (step s a)) {as : List α}
    (h : Along step ok s as) (hi : I s) : I (run step s as) := by
  induction as generalizing s with
  | nil => exact hi
  | cons a as ih => exact ih h.2 (hstep s a hi h.1)

/-- The invariant, at every input of the run. -/
theorem Along.and_invariant {I : σ → Prop} (hstep : ∀ s a, I s → ok s a → I (step s a))
    {as : List α} (h : Along step ok s as) (hi : I s) :
    Along step (fun s a => I s ∧ ok s a) s as := by
  induction as generalizing s with
  | nil => trivial
  | cons a as ih => exact ⟨⟨hi, h.1⟩, ih h.2 (hstep s a hi h.1)⟩

theorem Along.imp {as : List α} (h : Along step ok s as)
    (hok : ∀ s, ∀ a ∈ as, ok s a → ok' s a) : Along step ok' s as := by
  induction as generalizing s with
  | nil => trivial
  | cons a as ih =>
    exact ⟨hok s a List.mem_cons_self h.1,
      ih h.2 fun s' a' ha => hok s' a' (List.mem_cons_of_mem a ha)⟩

end Along

section Fresh

variable {ι : Type} (step) (holds : σ → ι → Prop) (new? : α → Option ι)

/-- **Allocation.** `holds s p`: the name `p` is in use; `new? a`: the name that an input takes.
If the inputs of a run take distinct names, none of them in use at the start, then each takes a
name that is not in use at its time. -/
theorem along_notHolds_of_nodup
    (hstep : ∀ s a p, holds (step s a) p → holds s p ∨ new? a = some p) {s : σ} {as : List α}
    (hn : (as.filterMap new?).Nodup) (hs : ∀ p, holds s p → p ∉ as.filterMap new?) :
    Along step (fun s a => ∀ p, new? a = some p → ¬ holds s p) s as := by
  induction as generalizing s with
  | nil => trivial
  | cons a as ih =>
    have hsub : (as.filterMap new?).Sublist ((a :: as).filterMap new?) :=
      (List.sublist_cons_self a as).filterMap _
    refine ⟨fun p hp hheld => ?_, ih (hn.sublist hsub) fun p hp hm => ?_⟩
    · exact hs p hheld (List.mem_filterMap.mpr ⟨a, List.mem_cons_self, hp⟩)
    · rcases hstep s a p hp with h | h
      · exact hs p h (hsub.subset hm)
      · rw [List.filterMap_cons_some h, List.nodup_cons] at hn
        exact hn.1 hm

end Fresh

section Always

variable {P : σ → Prop} {s : σ}

theorem always_nil : Always step P s [] ↔ P s := by
  simp [Always]

theorem always_cons {a : α} {as : List α} :
    Always step P s (a :: as) ↔ P s ∧ Always step P (step s a) as := by
  constructor
  · exact fun h => ⟨h [] List.nil_prefix, fun bs hb => h (a :: bs) (by simpa using hb)⟩
  · rintro ⟨h0, h⟩ bs hb
    cases bs with
    | nil => exact h0
    | cons b bs =>
      obtain ⟨rfl, hbs⟩ := List.cons_prefix_cons.mp hb
      exact h bs hbs

theorem Always.along {as : List α} (h : Always step P s as) : Along step (fun s _ => P s) s as :=
  along_iff.mpr fun pre a post he => h pre ⟨a :: post, he.symm⟩

/-- **A state property and its exact condition.** If, in a state with the invariant `I` where
`P` holds, a step keeps `P` exactly when it meets `ok`, then `P` holds in all states of a run
exactly when all its steps meet `ok`. `env` is what the environment guarantees of each step; `I`
need only survive the steps from a state where `P` holds. -/
theorem always_iff_along {env ok : σ → α → Prop} {I : σ → Prop}
    (hI : ∀ s a, I s → env s a → P s → I (step s a))
    (hP : ∀ s a, I s → env s a → P s → (P (step s a) ↔ ok s a)) {as : List α}
    (henv : Along step env s as) (hi : I s) (hs : P s) :
    Always step P s as ↔ Along step ok s as := by
  induction as generalizing s with
  | nil => exact ⟨fun _ => trivial, fun _ => always_nil.mpr hs⟩
  | cons a as ih =>
    have hstep := hP s a hi henv.1 hs
    have hrest := fun h => ih henv.2 (hI s a hi henv.1 hs) h
    rw [always_cons, along_cons]
    constructor
    · rintro ⟨-, h⟩
      have h1 : P (step s a) := h [] List.nil_prefix
      exact ⟨hstep.mp h1, (hrest h1).mp h⟩
    · rintro ⟨ha, h⟩
      exact ⟨hs, (hrest (hstep.mpr ha)).mpr h⟩

end Always

section Unwinding

variable (step)

/-- **Unwinding.** `R s t`: an observer cannot tell `s` from `t`. A step that the observer may see
(`rel`) keeps `R` when both sides take it, with the same output; a step that it may not see keeps
`R` when only the left side takes it, without output. Then the observer sees the same in the run
and in the run without the steps that it may not see. -/
theorem outputs_filter {ok : σ → α → Prop} {R : σ → σ → Prop} (rel : α → Bool)
    (out : σ → α → List ρ)
    (hrel : ∀ s t a, R s t → ok s a → rel a = true → R (step s a) (step t a) ∧ out s a = out t a)
    (hirr : ∀ s t a, R s t → ok s a → rel a = false → R (step s a) t ∧ out s a = [])
    {s t : σ} {as : List α} (hok : Along step ok s as) (h : R s t) :
    outputs step out s as = outputs step out t (as.filter rel) ∧
      R (run step s as) (run step t (as.filter rel)) := by
  induction as generalizing s t with
  | nil => exact ⟨rfl, h⟩
  | cons a as ih =>
    cases ha : rel a with
    | true =>
      obtain ⟨hR, ho⟩ := hrel s t a h hok.1 ha
      obtain ⟨h1, h2⟩ := ih hok.2 hR
      rw [List.filter_cons_of_pos ha]
      exact ⟨by simp only [outputs, ho, h1], h2⟩
    | false =>
      obtain ⟨hR, ho⟩ := hirr s t a h hok.1 ha
      obtain ⟨h1, h2⟩ := ih hok.2 hR
      rw [List.filter_cons_of_neg (by simp [ha])]
      exact ⟨by simp only [outputs, ho, h1, List.nil_append], h2⟩

/-- Unwinding, without outputs. -/
theorem run_filter {ok : σ → α → Prop} {R : σ → σ → Prop} (rel : α → Bool)
    (hrel : ∀ s t a, R s t → ok s a → rel a = true → R (step s a) (step t a))
    (hirr : ∀ s t a, R s t → ok s a → rel a = false → R (step s a) t)
    {s t : σ} {as : List α} (hok : Along step ok s as) (h : R s t) :
    R (run step s as) (run step t (as.filter rel)) :=
  (outputs_filter step rel (fun _ _ => ([] : List Unit))
    (fun s t a hR ho ha => ⟨hrel s t a hR ho ha, rfl⟩)
    (fun s t a hR ho ha => ⟨hirr s t a hR ho ha, rfl⟩) hok h).2

end Unwinding

section Refinement

variable {τ : Type} {step' : τ → α → τ} {π : σ → τ} {out : σ → α → List ρ} {out' : τ → α → List ρ}

/-- If every input that meets `ok` does to the image under `π` what `step'` does, the image of the
state after a run is the state after the run of the image. -/
theorem run_refines {ok : σ → α → Prop} (hstep : ∀ s a, ok s a → π (step s a) = step' (π s) a)
    {s : σ} {as : List α} (h : Along step ok s as) :
    π (run step s as) = run step' (π s) as := by
  induction as generalizing s with
  | nil => rfl
  | cons a as ih => rw [run_cons, run_cons, ih h.2, hstep s a h.1]

/-- **Refinement.** If every input does to the image under `π` what `step'` does, with the same
output, then a run gives the outputs of the run of the image. -/
theorem outputs_refines (hstep : ∀ s a, π (step s a) = step' (π s) a)
    (hout : ∀ s a, out s a = out' (π s) a) (s : σ) (as : List α) :
    outputs step out s as = outputs step' out' (π s) as := by
  induction as generalizing s with
  | nil => rfl
  | cons a as ih => rw [outputs, outputs, ih, hstep, hout]

/-- Refinement, for the inputs that meet `ok`. -/
theorem outputs_refines_along {ok : σ → α → Prop}
    (hstep : ∀ s a, ok s a → π (step s a) = step' (π s) a)
    (hout : ∀ s a, ok s a → out s a = out' (π s) a) {s : σ} {as : List α} (h : Along step ok s as) :
    outputs step out s as = outputs step' out' (π s) as := by
  induction as generalizing s with
  | nil => rfl
  | cons a as ih => rw [outputs, outputs, ih h.2, hstep s a h.1, hout s a h.1]

end Refinement

section Component

variable {τ β : Type} {step' : τ → β → τ} {π : σ → τ} {out : σ → α → List β}

/-- **A component runs on its own inputs.** `out s a`: the inputs that `a` gives to the component
`π s`. -/
theorem run_component (h : ∀ s a, π (step s a) = run step' (π s) (out s a)) (s : σ) (as : List α) :
    π (run step s as) = run step' (π s) (outputs step out s as) := by
  induction as generalizing s with
  | nil => rfl
  | cons a as ih => rw [run_cons, ih, h, outputs, run_append]

/-- A condition on the inputs of a component. -/
theorem along_component (h : ∀ s a, π (step s a) = run step' (π s) (out s a))
    {ok : σ → α → Prop} {ok' : τ → β → Prop}
    (hok : ∀ s a, ok s a → Along step' ok' (π s) (out s a)) {s : σ} {as : List α}
    (hs : Along step ok s as) : Along step' ok' (π s) (outputs step out s as) := by
  induction as generalizing s with
  | nil => trivial
  | cons a as ih => exact along_append.mpr ⟨hok s a hs.1, by rw [← h]; exact ih hs.2⟩

end Component

end CharSystem
