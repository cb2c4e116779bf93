import CharSystem.Odb.PersonTable
import CharSystem.Odb.Store

/-!
# Runs over one connection (`person-odb.cxx`)

A connection keeps one statement cache for all operations on `Person`, so an operation depends on
what the ones before it have left in the image and the bindings.

* `PersonRun.bindings_current_iff`: when no statement is left with a binding to a buffer that is gone.
* `PersonRun.results_eq`: then the cache cannot be seen. The operations return what they return when the
  server is called with the objects, for any server and names of any length.
* `PersonRun.persist_dangling_iff`: after a leak, `persist` executes its statement with a pointer to the
  released buffer exactly when the name fits into the new one.
-/

namespace CharSystem.Odb

open Statements

variable {τ ι : Type} {rt : Runtime τ ι} {M : Mysql ι}

namespace Statements

variable {s : Statements ι} {taken : Slot → Prepared}

theorem Inv.new (image : ImageType ι) (idValue : UInt64) (h : ∀ sl, (taken sl).version = 0) :
    (Statements.new image idValue).Inv taken where
  idVersion := rfl
  idImageVersion := rfl
  updateIdImageVersion := rfl
  id_bound h := absurd rfl h
  follows sl := ⟨by rw [h]; exact Nat.zero_le _, fun hu => absurd (h sl) hu.1⟩
  follows_id hv := absurd (h .update) hv

theorem Current.new (image : ImageType ι) (idValue : UInt64) : (Statements.new image idValue).Current :=
  fun _ => ⟨Nat.le_refl _, fun hu => absurd rfl hu.1⟩

/-- The array of a binding has a pointer to a name buffer that the image no longer has. -/
def Dangles (s : Statements ι) (sk : StatementKind) : Prop :=
  ∃ b ∈ (s.imageBinding sk).value, ∃ addr, b.buffer = .heap addr ∧ addr ≠ s.image.nameValue.data

end Statements

namespace Session

variable {s : Session M}

variable (rt) in
/-- The condition on an operation: it does not leak while a binding counts as current. -/
def KeepsBindings (s : Session M) (input : Op τ × Nat) : Prop :=
  s.Leaks rt input → ∀ sk, ¬ s.sts.UpToDate sk

/-- The conversion of the stored timestamp throws or not. -/
theorem stored_cases (rt : Runtime τ ι) (op : Op τ) :
    (∀ obj, op.stored? = some obj → ∃ u, rt.setImage obj.update = .ok u) ∨
      ∃ obj, op.stored? = some obj ∧ rt.setImage obj.update = .error .time := by
  cases ho : op.stored? with
  | none => exact .inl nofun
  | some obj =>
    cases hu : rt.setImage obj.update with
    | error e => exact .inr ⟨obj, rfl, by rw [rt.setImage_error _ _ hu] at hu; exact hu⟩
    | ok u => exact .inl fun obj' ho' => by cases ho'; exact ⟨u, hu⟩

variable (rt) in
/-- What an operation does in a current state. -/
theorem exec_spec (hi : s.Inv) (hc : s.sts.Current) (input : Op τ × Nat) :
    (s.exec rt input).1 = (M.exec rt (M.db s.st) input.1).1 ∧
      M.db (s.exec rt input).2.st = (M.exec rt (M.db s.st) input.1).2 ∧ (s.exec rt input).2.Inv := by
  obtain ⟨op, addr⟩ := input
  rcases stored_cases rt op with hu | ⟨obj, ho, hu⟩
  · have h := exec_does hi hc (op, addr) hu
    exact ⟨h.result, h.db, h.inv⟩
  · obtain ⟨h, hexec⟩ := exec_throws hi ho hu addr
    rw [hexec]
    exact ⟨h.result, congrArg M.db h.st, h.inv⟩

/-- **One operation** keeps the bindings current exactly when it meets `KeepsBindings`. -/
theorem current_step_iff (hi : s.Inv) (hc : s.sts.Current) (input : Op τ × Nat) :
    (s.step rt input).sts.Current ↔ s.KeepsBindings rt input := by
  obtain ⟨op, addr⟩ := input
  rcases stored_cases rt op with hu | ⟨obj, ho, hu⟩
  · refine iff_of_true (exec_does hi hc (op, addr) hu).current ?_
    rintro ⟨obj, ho, herr, -⟩
    obtain ⟨u, hok⟩ := hu obj ho
    rw [hok] at herr
    cases herr
  · obtain ⟨h, -⟩ := exec_throws hi ho hu addr
    by_cases hlt : s.sts.image.nameValue.capacity < obj.name.length
    · -- The buffer has grown, and the image has its old version.
      have hleak : s.Leaks rt (op, addr) := ⟨obj, ho, hu, hlt⟩
      have hcap : s.sts.image.nameValue.capacity <
          (s.step rt (op, addr)).sts.image.nameValue.capacity := by
        rw [step, h.name.2]
        exact Buffer.capacity_lt_grow addr hlt
      unfold KeepsBindings Current
      rw [forall_prop_of_true hleak]
      refine forall_congr' fun sk => ?_
      have hb : (s.step rt (op, addr)).sts.Bound sk ↔ s.sts.Bound sk := by
        unfold Bound step
        rw [h.imageBinding]
      have hm : (s.step rt (op, addr)).sts.made sk = s.sts.made sk := by
        unfold made step
        rw [h.imageBinding, h.imageVersion]
      rw [hb, hm]
      exact (hc sk).silent_iff h.version (bind_ne (Nat.ne_of_gt hcap) sk)
    · refine iff_of_true ?_ ?_
      · have hsame := h.name
        rw [Buffer.grow_of_le (Nat.not_lt.mp hlt)] at hsame
        exact hc.of_image h.imageBinding h.imageVersion (.inr ⟨h.version, hsame⟩)
      · rintro ⟨obj', ho', -, hlt'⟩
        rw [ho] at ho'
        cases ho'
        exact absurd hlt' hlt

/-- The invariants, together. -/
theorem good_step {input : Op τ × Nat} (h : s.Inv ∧ s.sts.Current) (hk : s.KeepsBindings rt input) :
    (s.step rt input).Inv ∧ (s.step rt input).sts.Current :=
  ⟨(exec_spec rt h.1 h.2 input).2.2, (current_step_iff h.1 h.2 input).mpr hk⟩

end Session

/-- The operations over one connection. It starts with an empty cache, and its statements have taken
nothing over. -/
structure PersonRun (rt : Runtime τ ι) (M : Mysql ι) where
  image : ImageType ι
  idValue : UInt64
  st : M.St
  inputs : List (Op τ × Nat)
  new : ∀ sl, (M.taken st sl).version = 0

namespace PersonRun

variable (r : PersonRun rt M)

/-- The start of the run. -/
def start : Session M := ⟨.new r.image r.idValue, r.st⟩

/-- The end of the run. -/
def last : Session M := run (Session.step rt) r.start r.inputs

/-- No operation leaks while a binding counts as current. -/
def NoLeak : Prop := Along (Session.step rt) (Session.KeepsBindings rt) r.start r.inputs

theorem start_inv : r.start.Inv := .new _ _ r.new

theorem start_current : r.start.sts.Current := .new _ _

/-- **When the bindings are current.** In every state of a run every binding that counts as current
describes the name buffer as it is, exactly when no operation grows the buffer and throws while a
binding counts as current. -/
theorem bindings_current_iff :
    Always (Session.step rt) (fun s => s.sts.Current) r.start r.inputs ↔ r.NoLeak :=
  always_iff_along (I := Session.Inv)
    (fun _ input hi _ hc => (Session.exec_spec rt hi hc input).2.2)
    (fun _ input hi _ hc => Session.current_step_iff hi hc input)
    (show Along (Session.step rt) (fun _ _ => True) r.start r.inputs from
      along_of_forall (fun _ _ => trivial) _ _) r.start_inv r.start_current

/-- A run without a leak has the invariants at every operation. -/
theorem NoLeak.along (h : r.NoLeak) : Along (Session.step rt)
    (fun s input => (s.Inv ∧ s.sts.Current) ∧ s.KeepsBindings rt input) r.start r.inputs :=
  h.and_invariant (I := fun s => s.Inv ∧ s.sts.Current) (fun _ _ => Session.good_step)
    ⟨r.start_inv, r.start_current⟩

/-- The end of a run without a leak. -/
theorem NoLeak.good (h : r.NoLeak) : r.last.Inv ∧ r.last.sts.Current :=
  Along.invariant (I := fun s => s.Inv ∧ s.sts.Current) (fun _ _ => Session.good_step) h
    ⟨r.start_inv, r.start_current⟩

/-- A run whose timestamps all convert has no leak. -/
theorem noLeak_of_converts (h : ∀ input ∈ r.inputs, ∀ obj ∈ input.1.stored?,
    rt.setImage obj.update ≠ .error .time) : r.NoLeak := by
  have hall : Along (Session.step rt) (fun _ _ => True) r.start r.inputs :=
    along_of_forall (fun _ _ => trivial) _ _
  refine hall.imp ?_
  rintro s input hm - ⟨obj, ho, herr, -⟩
  exact absurd herr (h input hm obj ho)

/-- **The cache cannot be seen.** The operations of a run without a leak return what they return when
the server is called with the objects, and the server ends up the same. -/
theorem results_eq (h : r.NoLeak) :
    outputs (Session.step rt) (fun s input => [(s.exec rt input).1]) r.start r.inputs =
        outputs (fun db input => (M.exec rt db input.1).2) (fun db input => [(M.exec rt db input.1).1])
          (M.db r.st) r.inputs ∧
      M.db r.last.st = run (fun db input => (M.exec rt db input.1).2) (M.db r.st) r.inputs := by
  have hstep : ∀ (s : Session M) (input : Op τ × Nat),
      (s.Inv ∧ s.sts.Current) ∧ s.KeepsBindings rt input →
      M.db (s.step rt input).st = (M.exec rt (M.db s.st) input.1).2 := fun s input hs =>
    (Session.exec_spec rt hs.1.1 hs.1.2 input).2.1
  refine ⟨?_, run_refines (π := fun s : Session M => M.db s.st) hstep h.along⟩
  exact outputs_refines_along (π := fun s : Session M => M.db s.st) hstep
    (fun s input hs => congrArg (fun x => [x]) (Session.exec_spec rt hs.1.1 hs.1.2 input).1) h.along

end PersonRun

/-- A person is stored, a longer name is read, and the name of the person is made longer still. -/
def longNames : PersonRun posixRuntime PersonConnection.mysql where
  image := smallImage
  idValue := 0
  st :=
    { table :=
        { rows := fun id => if id = 7 then some ⟨30, [97, 98, 99, 100, 101, 102], 5⟩ else none
          autoIncrement := 8
          now := 1000
          result := none }
      row := none
      taken := fun _ => ⟨[], 0⟩ }
  inputs :=
    [(.persist ⟨0, 20, [97, 98], .seconds 9⟩, 200),
      (.find 7, 300),
      (.update ⟨8, 21, [97, 98, 99, 100, 101, 102, 103, 104, 105], .seconds 10⟩, 400),
      (.find 8, 500)]
  new _ := rfl

theorem longNames_noLeak : longNames.NoLeak := by
  refine longNames.noLeak_of_converts ?_
  simp [longNames, Op.stored?, posixRuntime]

theorem PersonRun.results_eq_longNames :
    outputs (Session.step posixRuntime) (fun s input => [(s.exec posixRuntime input).1])
        longNames.start longNames.inputs =
      outputs (fun db input => (PersonConnection.mysql.exec posixRuntime db input.1).2)
          (fun db input => [(PersonConnection.mysql.exec posixRuntime db input.1).1])
          longNames.st.table longNames.inputs ∧
      longNames.last.st.table =
        run (fun db input => (PersonConnection.mysql.exec posixRuntime db input.1).2)
          longNames.st.table longNames.inputs :=
  longNames.results_eq longNames_noLeak

example : (longNames.last.exec posixRuntime (.find 8, 600)).1 =
    .ok (some ⟨8, 21, [97, 98, 99, 100, 101, 102, 103, 104, 105], .seconds 10⟩) := rfl

/-! ## After a leak -/

namespace Statements

variable {s : Statements ι} {taken : Slot → Prepared}

/-- The pointers to a name buffer that `bind` makes. -/
theorem heap_mem_bind {i : ImageType ι} {sk : StatementKind} {addr : Nat} :
    (∃ b ∈ bind i sk, b.buffer = .heap addr) ↔ addr = i.nameValue.data := by
  cases sk <;> simp [bind, eq_comm]

/-- A statement that can be executed has the buffer of the image. -/
theorem Ready.not_dangles {sk : StatementKind} (h : s.Ready taken sk) : ¬ s.Dangles sk := by
  rintro ⟨b, hb, addr, he, hne⟩
  rw [h.made] at hb
  exact hne (heap_mem_bind.mp ⟨b, hb, he⟩)

/-- `persist` when the binding counts as current and describes another buffer, and the name gives
the image no new version. -/
theorem beforePersist_dangles (hup : s.UpToDate .insert) {i : ImageType ι}
    (hvalue : (s.imageBinding .insert).value = bind i .insert)
    (hne : i.nameValue.data ≠ s.image.nameValue.data) {obj : Person τ} {u : Option ι}
    (hu : rt.setImage obj.update = .ok u) (hle : obj.name.length ≤ s.image.nameValue.capacity)
    (addr : Nat) :
    ∃ s', s.beforePersist rt obj addr = (.ok (), s') ∧ s'.Dangles .insert := by
  obtain ⟨im, he, hv, hsame, -, -⟩ := initImage_fits hu hle .insert addr
  -- `rebind` does nothing.
  have hno : { s with image := { im with idValue := 0 } }.rebind .insert =
      { s with image := { im with idValue := 0 } } := by
    unfold Statements.rebind
    refine if_neg ?_
    rw [not_or, not_not]
    exact ⟨hv.trans hup.2.symm, hup.1⟩
  refine ⟨{ s with image := { im with idValue := 0 } }.rebindId, ?_, ?_⟩
  · simp only [beforePersist, he, hno]
  · obtain ⟨b, hb, hptr⟩ : ∃ b ∈ bind i .insert, b.buffer = .heap i.nameValue.data :=
      heap_mem_bind.mpr rfl
    refine ⟨b, ?_, i.nameValue.data, hptr, ?_⟩
    · rw [rebindId_imageBinding, hvalue]
      exact hb
    · rw [rebindId_image]
      exact hsame.1 ▸ hne

end Statements

/-- What a leak leaves: another buffer, the bindings and versions of before. -/
theorem Session.Leaks.throws {s : Session M} {input : Op τ × Nat} (hl : s.Leaks rt input) (hi : s.Inv) :
    (s.step rt input).Inv ∧ (s.step rt input).sts.image.nameValue.data = input.2 ∧
      (s.step rt input).sts.image.version = s.sts.image.version ∧
      (s.step rt input).sts.imageBinding = s.sts.imageBinding ∧
      (s.step rt input).sts.imageVersion = s.sts.imageVersion := by
  obtain ⟨obj, ho, herr, hlt⟩ := hl
  obtain ⟨h, -⟩ := Session.exec_throws hi ho herr input.2
  refine ⟨h.inv, ?_, h.version, h.imageBinding, h.imageVersion⟩
  rw [Session.step, h.name.1, Buffer.grow_of_lt hlt]

/-- **After a leak** while the binding of the insert counts as current, `persist` executes its
statement with a pointer to the released buffer exactly when the name fits into the new one. A longer
name gives the image a new version, and the binding is made again. The new buffer is allocated before
the old one is released (`haddr`). -/
theorem PersonRun.persist_dangling_iff {r : PersonRun rt M} (h : r.NoLeak)
    (hup : r.last.sts.UpToDate .insert) {input : Op τ × Nat} (hl : r.last.Leaks rt input)
    (haddr : input.2 ≠ r.last.sts.image.nameValue.data)
    {obj : Person τ} {u : Option ι} (hu : rt.setImage obj.update = .ok u) (addr : Nat) :
    ∃ s', (r.last.step rt input).sts.beforePersist rt obj addr = (.ok (), s') ∧
      (s'.Dangles .insert ↔
        obj.name.length ≤ (r.last.step rt input).sts.image.nameValue.capacity) := by
  obtain ⟨hi, hc⟩ := h.good
  obtain ⟨hi1, hdata, hversion, hbinding, himageVersion⟩ := hl.throws hi
  by_cases hle : obj.name.length ≤ (r.last.step rt input).sts.image.nameValue.capacity
  · have hup1 : (r.last.step rt input).sts.UpToDate .insert := by
      refine ⟨?_, ?_⟩
      · unfold Bound
        rw [hbinding]
        exact hup.1
      · simp only [made, layout, himageVersion, hversion]
        exact hup.2
    have hvalue : ((r.last.step rt input).sts.imageBinding .insert).value =
        bind r.last.sts.image .insert := by
      rw [hbinding]
      exact (hc .insert).value_eq hup
    obtain ⟨s', he, hd⟩ :=
      beforePersist_dangles hup1 hvalue (by rw [hdata]; exact Ne.symm haddr) hu hle addr
    exact ⟨s', he, iff_of_true hd hle⟩
  · have hver : ∀ sk, (r.last.step rt input).sts.imageVersion sk ≤
        (r.last.step rt input).sts.image.version := by
      rw [hversion, himageVersion]
      exact fun sk => (hc sk).version_le
    obtain ⟨s1, he1, hinits⟩ := initImage_grows hi1 hver hu (Nat.lt_of_not_le hle) .insert addr
    obtain ⟨s', he, hready⟩ := beforePersist_of_inits he1 hinits
    exact ⟨s', he, iff_of_false hready.ready.not_dangles hle⟩

/-- A person is stored through a new cache. -/
def onePersist : PersonRun posixRuntime PersonConnection.mysql where
  image := smallImage
  idValue := 0
  st :=
    { table := { rows := fun _ => none, autoIncrement := 1, now := 1000, result := none }
      row := none
      taken := fun _ => ⟨[], 0⟩ }
  inputs := [(.persist ⟨0, 20, [97, 98], .seconds 9⟩, 200)]
  new _ := rfl

theorem onePersist_noLeak : onePersist.NoLeak := by
  refine onePersist.noLeak_of_converts ?_
  simp [onePersist, Op.stored?, posixRuntime]

/-- A longer name comes with an infinite timestamp. The next person is written from the old buffer. -/
theorem PersonRun.persist_dangling_onePersist :
    ∃ s', (onePersist.last.step posixRuntime
        (.persist ⟨0, 30, [97, 98, 99, 100, 101], .infinity⟩, 300)).sts.beforePersist posixRuntime
          ⟨0, 40, [99, 100], .seconds 10⟩ 400 = (.ok (), s') ∧ s'.Dangles .insert := by
  have hl : onePersist.last.Leaks posixRuntime
      (.persist ⟨0, 30, [97, 98, 99, 100, 101], .infinity⟩, 300) := ⟨_, rfl, rfl, by decide⟩
  obtain ⟨s', he, hd⟩ := @persist_dangling_iff _ _ _ _ onePersist onePersist_noLeak
    ⟨Nat.one_ne_zero, rfl⟩ _ hl (by decide) ⟨0, 40, [99, 100], .seconds 10⟩ (some 10) rfl 400
  exact ⟨s', he, hd.mpr (by decide)⟩

end CharSystem.Odb
