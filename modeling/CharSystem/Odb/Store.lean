import CharSystem.Odb.Binding

/-!
# The operations and the server (`person-odb.cxx`)

What the operations are for: calls of the server, with the objects as rows. `Mysql.exec` is that,
without images, bindings and buffers. `Session.exec_does`: with current bindings the operations of a
connection do that. `Session.exec_throws`: what an operation leaves whose conversion throws.
-/

namespace CharSystem.Odb

/-- A call of the database interface. -/
inductive Op (τ : Type) where
  | persist (obj : Person τ)
  | update (obj : Person τ)
  | erase (id : UInt64)
  | find (id : UInt64)
  | findInto (id : UInt64) (obj : Person τ)
  | reload (obj : Person τ)
  deriving DecidableEq, Repr

/-- The object that an operation stores. -/
def Op.stored? {τ : Type} : Op τ → Option (Person τ)
  | .persist obj => some obj
  | .update obj => some obj
  | _ => none

/-- The object of a row. -/
def Row.object {τ ι : Type} (rt : Runtime τ ι) (row : Row ι) (id : UInt64) : Person τ :=
  ⟨id, row.age, row.name, rt.setValue (some row.update)⟩

namespace Mysql

variable {τ ι : Type} (rt : Runtime τ ι) (M : Mysql ι) (db : M.Db)

/-- Store a new row, under a key of the server. -/
def persist (obj : Person τ) : Except Error (Option (Person τ)) × M.Db :=
  match rt.setImage obj.update with
  | .error e => (.error e, db)
  | .ok u =>
    match M.insertRow db 0 obj.age obj.name u with
    | (.error e, db) => (.error e, db)
    | (.ok none, db) => (.error .objectAlreadyPersistent, db)
    | (.ok (some key), db) => (.ok (some { obj with id := key }), db)

/-- Replace a row. -/
def modify (obj : Person τ) : Except Error (Option (Person τ)) × M.Db :=
  match rt.setImage obj.update with
  | .error e => (.error e, db)
  | .ok u =>
    match M.updateRow db obj.id obj.age obj.name u with
    | (.error e, db) => (.error e, db)
    | (.ok 0, db) => (.error .objectNotPersistent, db)
    | (.ok (_ + 1), db) => (.ok none, db)

/-- Remove a row. -/
def erase (id : UInt64) : Except Error (Option (Person τ)) × M.Db :=
  match M.deleteRow db id with
  | (.error e, db) => (.error e, db)
  | (.ok n, db) => if n ≠ 1 then (.error .objectNotPersistent, db) else (.ok none, db)

/-- The first row of a result. -/
def firstRow (id : UInt64) : Except Error (Option (UInt64 × Row ι)) × M.Db :=
  match M.selectRow db id with
  | (.error e, db) => (.error e, db)
  | (.ok (), db) => M.nextRow db

/-- Look a row up. -/
def find (id : UInt64) : Except Error (Option (Person τ)) × M.Db :=
  ((M.firstRow db id).1.map fun r => r.map fun (key, row) => row.object rt key, (M.firstRow db id).2)

/-- An operation, by the calls of the server alone. -/
def exec : Op τ → Except Error (Option (Person τ)) × M.Db
  | .persist obj => M.persist rt db obj
  | .update obj => M.modify rt db obj
  | .erase id => M.erase db id
  | .find id => M.find rt db id
  | .findInto id _ => M.find rt db id
  | .reload obj => M.find rt db obj.id

end Mysql

namespace Session

variable {τ ι : Type} (rt : Runtime τ ι) {M : Mysql ι} (s : Session M)

/-- An operation: what it returns (the object, if it has one to return) and the state after it. A
buffer that has to grow gets the given address. -/
def exec : Op τ × Nat → Except Error (Option (Person τ)) × Session M
  | (.persist obj, addr) => ((s.persist rt obj addr).1.map some, (s.persist rt obj addr).2)
  | (.update obj, addr) => ((s.update rt obj addr).1.map fun _ => none, (s.update rt obj addr).2)
  | (.erase id, _) => ((s.erase id).1.map fun _ => none, (s.erase id).2)
  | (.find id, addr) => s.find rt id addr
  | (.findInto id obj, addr) =>
    ((s.findInto rt id obj addr).1.map fun r => if r.1 then some r.2 else none,
      (s.findInto rt id obj addr).2)
  | (.reload obj, addr) =>
    ((s.reload rt obj addr).1.map fun r => if r.1 then some r.2 else none, (s.reload rt obj addr).2)

/-- The state after an operation. -/
def step (input : Op τ × Nat) : Session M := (s.exec rt input).2

/-- The operation grows the name buffer, and throws before the image gets a new version. -/
def Leaks (input : Op τ × Nat) : Prop :=
  ∃ obj, input.1.stored? = some obj ∧ rt.setImage obj.update = .error .time ∧
    s.sts.image.nameValue.capacity < obj.name.length

end Session

variable {τ ι : Type} {rt : Runtime τ ι}

/-! ## Until a statement is executed -/

namespace Statements

variable {s : Statements ι} {taken : Slot → Prepared}

theorem Inv.initId (h : s.Inv taken) (id : UInt64) : (s.initId id).Inv taken :=
  { h with idVersion := h.idVersion }

theorem Inv.of_image (h : s.Inv taken) (im : ImageType ι) : { s with image := im }.Inv taken :=
  { h with idVersion := h.idVersion }

theorem Current.initId (h : s.Current) (id : UInt64) : (s.initId id).Current :=
  h.of_image rfl rfl (.inr ⟨rfl, rfl, rfl⟩)

/-- The image holds the columns of an object, and nothing else is worse than before. -/
structure Inits (s : Statements ι) (taken : Slot → Prepared) (obj : Person τ) (u : Option ι)
    (sk : StatementKind) (s' : Statements ι) : Prop where
  inv : s'.Inv taken
  current : s'.Current
  holds : s'.image.Holds obj.age obj.name u
  idNull : sk = .insert → s'.image.idNull = false
  idImage : s'.idImage = s.idImage

/-- `init` of the image when the timestamp converts and the name is too long for the buffer: every
binding is out of date, also one that was wrong. -/
theorem initImage_grows (hi : s.Inv taken) (hver : ∀ sk, s.imageVersion sk ≤ s.image.version)
    {obj : Person τ} {u : Option ι} (hu : rt.setImage obj.update = .ok u)
    (hlt : s.image.nameValue.capacity < obj.name.length) (sk : StatementKind) (addr : Nat) :
    ∃ s', s.initImage rt obj sk addr = (.ok (), s') ∧ Inits s taken obj u sk s' := by
  obtain ⟨hr, hh, hn⟩ := init_ok hu s.image sk addr
  obtain ⟨hv, -⟩ := init_snd rt s.image obj sk addr
  have hgrew : (s.image.nameValue.capacity !=
      (s.image.nameValue.grow rt obj.name.length addr).capacity) = true :=
    bne_iff_ne.mpr (Nat.ne_of_lt (Buffer.capacity_lt_grow addr hlt))
  unfold initImage
  generalize init rt s.image obj sk addr = r at hr hh hn hv
  obtain ⟨r, im⟩ := r
  simp only at hr hh hn hv
  subst hr
  rw [hgrew]
  refine ⟨_, rfl, hi.of_image _, ?_, ?_, hn, rfl⟩
  · refine .of_newer fun sk' => ?_
    simp only [hv]
    exact Nat.lt_succ_of_le (hver sk')
  · exact ⟨hh.1, hh.2, hh.3, hh.4, hh.5, hh.6⟩

/-- `init` of an image whose buffer is large enough. -/
theorem initImage_fits {obj : Person τ} {u : Option ι} (hu : rt.setImage obj.update = .ok u)
    (hle : obj.name.length ≤ s.image.nameValue.capacity) (sk : StatementKind) (addr : Nat) :
    ∃ im, s.initImage rt obj sk addr = (.ok (), { s with image := im }) ∧
      im.version = s.image.version ∧ im.nameValue.SameAs s.image.nameValue ∧
      im.Holds obj.age obj.name u ∧ (sk = .insert → im.idNull = false) := by
  obtain ⟨hr, hh, hn⟩ := init_ok hu s.image sk addr
  obtain ⟨hv, hsame⟩ := init_snd rt s.image obj sk addr
  rw [Buffer.grow_of_le hle] at hr hsame
  rw [bne_self_eq_false] at hr
  unfold initImage
  generalize init rt s.image obj sk addr = r at hr hh hn hv hsame
  obtain ⟨r, im⟩ := r
  simp only at hr hh hn hv hsame
  subst hr
  exact ⟨im, rfl, hv, hsame, hh, hn⟩

/-- **`init`** of the image, when the timestamp converts: a grown buffer is a new version. -/
theorem initImage_ok (hi : s.Inv taken) (hc : s.Current) {obj : Person τ} {u : Option ι}
    (hu : rt.setImage obj.update = .ok u) (sk : StatementKind) (addr : Nat) :
    ∃ s', s.initImage rt obj sk addr = (.ok (), s') ∧ Inits s taken obj u sk s' := by
  by_cases hlt : s.image.nameValue.capacity < obj.name.length
  · exact initImage_grows hi (fun sk => (hc sk).version_le) hu hlt sk addr
  · obtain ⟨im, he, hv, hsame, hh, hn⟩ := initImage_fits hu (Nat.not_lt.mp hlt) sk addr
    exact ⟨_, he, hi.of_image _, hc.of_image rfl rfl (.inr ⟨hv, hsame⟩), hh, hn, rfl⟩

/-- `init` of the image when the timestamp does not convert: the buffer may have grown, and the
version is the old one. -/
theorem initImage_error {obj : Person τ} {e : Error} (hu : rt.setImage obj.update = .error e)
    (s : Statements ι) (sk : StatementKind) (addr : Nat) :
    ∃ im, s.initImage rt obj sk addr = (.error e, { s with image := im }) ∧
      im.version = s.image.version ∧
      im.nameValue.SameAs (s.image.nameValue.grow rt obj.name.length addr) := by
  have hr := init_error hu s.image sk addr
  have hs := init_snd rt s.image obj sk addr
  unfold initImage
  generalize init rt s.image obj sk addr = r at hr hs
  obtain ⟨r, im⟩ := r
  simp only at hr
  subst hr
  exact ⟨im, rfl, hs⟩

/-- The `INSERT` of an object can be executed. -/
structure Inserts (taken : Slot → Prepared) (obj : Person τ) (u : Option ι) (s : Statements ι) : Prop
    where
  ready : s.Ready taken .insert
  holds : s.image.Holds obj.age obj.name u
  idNull : s.image.idNull = false
  idValue : s.image.idValue = 0

/-- `persist` once the image holds the object. -/
theorem beforePersist_of_inits {s1 : Statements ι} {obj : Person τ} {u : Option ι} {addr : Nat}
    (he : s.initImage rt obj .insert addr = (.ok (), s1)) (h : Inits s taken obj u .insert s1) :
    ∃ s', s.beforePersist rt obj addr = (.ok (), s') ∧ Inserts taken obj u s' := by
  obtain ⟨hi1, hc1, hh1, hn1, -⟩ := h
  have hc2 : { s1 with image := { s1.image with idValue := 0 } }.Current :=
    hc1.of_image rfl rfl (.inr ⟨rfl, rfl, rfl⟩)
  have hi2 : { s1 with image := { s1.image with idValue := 0 } }.Inv taken := hi1.of_image _
  have him : (({ s1 with image := { s1.image with idValue := 0 } }.rebind .insert).rebindId).image =
      { s1.image with idValue := 0 } := by simp
  refine ⟨_, by simp only [beforePersist, he], Ready.rebind_rebindId hi2 hc2 .insert, ?_, ?_, ?_⟩
  · rw [him]
    exact ⟨hh1.1, hh1.2, hh1.3, hh1.4, hh1.5, hh1.6⟩
  · rw [him]
    exact hn1 rfl
  · rw [him]

/-- **`persist`** in a current state, until the statement is executed. -/
theorem beforePersist_ok (hi : s.Inv taken) (hc : s.Current) {obj : Person τ} {u : Option ι}
    (hu : rt.setImage obj.update = .ok u) (addr : Nat) :
    ∃ s', s.beforePersist rt obj addr = (.ok (), s') ∧ Inserts taken obj u s' := by
  obtain ⟨s1, he, h⟩ := initImage_ok hi hc hu .insert addr
  exact beforePersist_of_inits he h

/-- **`update`** in a current state, until the statement is executed. -/
theorem beforeUpdate_ok (hi : s.Inv taken) (hc : s.Current) {obj : Person τ} {u : Option ι}
    (hu : rt.setImage obj.update = .ok u) (addr : Nat) :
    ∃ s', s.beforeUpdate rt obj addr = (.ok (), s') ∧ s'.Ready taken .update ∧
      s'.image.Holds obj.age obj.name u ∧ s'.idImage.idNull = false ∧ s'.idImage.idValue = obj.id := by
  obtain ⟨s1, he1, hi1, hc1, hh1, -, hid1⟩ :=
    initImage_ok (hi.initId obj.id) (hc.initId obj.id) hu .update addr
  have he : s.beforeUpdate rt obj addr = (.ok (), (s1.rebind .update).rebindUpdateId
      (s1.image.version ≠ s1.imageVersion .update ∨ (s1.imageBinding .update).version = 0)) := by
    simp only [beforeUpdate, he1]
  refine ⟨_, he, Ready.rebindUpdateId hi1 hc1 _, ?_, ?_, ?_⟩
  · rw [rebindUpdateId_image, rebind_image]
    exact hh1
  · rw [rebindUpdateId_idImage, rebind_idImage, hid1]
    rfl
  · rw [rebindUpdateId_idImage, rebind_idImage, hid1]
    rfl

/-- The object made of an image that holds a row. -/
theorem initObject_eq {i : ImageType ι} {key : UInt64} {row : Row ι} (hid : i.idValue = key)
    (hn : i.idNull = false) (hh : i.Holds row.age row.name (some row.update)) :
    initObject rt i = row.object rt key := by
  simp [initObject, Row.object, hid, hn, hh.ageNull, hh.ageValue, hh.nameNull, hh.name, hh.updateNull,
    hh.updateValue row.update rfl]

/-- **`find_`** in a current state, until the statement is executed. -/
theorem beforeFind_ready (hi : s.Inv taken) (hc : s.Current) (id : UInt64) :
    (s.beforeFind id).Ready taken .select ∧ (s.beforeFind id).idImage.idNull = false ∧
      (s.beforeFind id).idImage.idValue = id := by
  obtain ⟨hi1, hid⟩ := (hi.initId id).rebindId
  refine ⟨Ready.rebind hi1 (hc.initId id).rebindId hid .select, ?_, ?_⟩
  · simp [beforeFind, Statements.initId]
  · simp [beforeFind, Statements.initId]

variable (rt) in
/-- The image whose buffer has grown to hold the name. -/
def regrown (s : Statements ι) (addr : Nat) : Statements ι :=
  { s with
    image :=
      { s.image with
        nameValue := s.image.nameValue.grow rt s.image.nameSize addr
        version := s.image.version + 1 }
    selectImageTruncated := (false, false, true, false) }

variable (rt) in
/-- `find_` when the name was cut off: the buffer grows, and the image is bound again. -/
theorem beforeRefetch_eq (hv : s.imageVersion .select ≤ s.image.version)
    (ht : s.selectImageTruncated.2.2.1 = true) (addr : Nat) :
    s.beforeRefetch rt addr = (true, (s.regrown rt addr).bindImage .select) := by
  have hne : s.image.version + 1 ≠ s.imageVersion .select := by omega
  simp [beforeRefetch, grow, ht, hne, regrown]

/-- **After `find_` has bound the image again**, the name can be read again. -/
theorem Ready.regrown {sk : StatementKind} (h : s.Ready taken sk) (addr : Nat) :
    ((s.regrown rt addr).bindImage .select).Ready taken .select := by
  have hi : (s.regrown rt addr).Inv taken := { h.inv with idVersion := h.inv.idVersion }
  have hc : (s.regrown rt addr).Current := h.current.of_image rfl rfl (.inl (Nat.lt_succ_self _))
  exact Ready.bindImage hi hc h.id_bound .select

end Statements

/-! ## The operations -/

open Statements

/-- An operation does what it does to the server. -/
structure Does {M : Mysql ι} {α : Type} (r : Except Error α × Session M) (spec : Except Error α × M.Db) :
    Prop where
  result : r.1 = spec.1
  db : M.db r.2.st = spec.2
  inv : r.2.Inv
  current : r.2.sts.Current

namespace Session

variable {M : Mysql ι} {s : Session M}

/-- **`INSERT`** of what the image holds. -/
theorem call_insert (h : s.Ready .insert) {age : UInt16} {name : List UInt8} {u : Option ι}
    (hh : s.sts.image.Holds age name u) (hn : s.sts.image.idNull = false) :
    (s.call .insert).1 =
        (M.insertRow (M.db s.st) s.sts.image.idValue age name u).1.map Option.isSome ∧
      M.db (s.call .insert).2.st = (M.insertRow (M.db s.st) s.sts.image.idValue age name u).2 ∧
      ∀ key, (M.insertRow (M.db s.st) s.sts.image.idValue age name u).1 = .ok (some key) →
        (s.call .insert).2.sts.idImage.idValue = key ∧ (s.call .insert).2.sts.idImage.idNull = false :=
  M.insert_eq s.st s.sts (h.valid rfl) age name u hh hn

/-- **`UPDATE`**. -/
theorem call_update (h : s.Ready .update) {age : UInt16} {name : List UInt8} {u : Option ι}
    (hh : s.sts.image.Holds age name u) (hn : s.sts.idImage.idNull = false) :
    (s.call .update).1 = (M.updateRow (M.db s.st) s.sts.idImage.idValue age name u).1 ∧
      M.db (s.call .update).2.st = (M.updateRow (M.db s.st) s.sts.idImage.idValue age name u).2 :=
  M.update_eq s.st s.sts (h.valid rfl) age name u hh hn

/-- **`DELETE`**. -/
theorem call_erase (h : s.sts.Valid (M.taken s.st) .erase) (hn : s.sts.idImage.idNull = false) :
    (s.call .erase).1 = (M.deleteRow (M.db s.st) s.sts.idImage.idValue).1 ∧
      M.db (s.call .erase).2.st = (M.deleteRow (M.db s.st) s.sts.idImage.idValue).2 :=
  M.erase_eq s.st s.sts h hn

/-- **`SELECT`**. -/
theorem call_select (h : s.Ready .select) (hn : s.sts.idImage.idNull = false) :
    (s.call .select).1 = (M.selectRow (M.db s.st) s.sts.idImage.idValue).1 ∧
      M.db (s.call .select).2.st = (M.selectRow (M.db s.st) s.sts.idImage.idValue).2 :=
  M.select_eq s.st s.sts (h.valid rfl) hn

/-- **`fetch`** of the next row. -/
theorem call_fetch (h : s.Ready .select) :
    (s.call .fetch).1 = (M.nextRow (M.db s.st)).1.map (.of s.sts.image.nameValue.capacity) ∧
      M.db (s.call .fetch).2.st = (M.nextRow (M.db s.st)).2 ∧
      ∀ key row, (M.nextRow (M.db s.st)).1 = .ok (some (key, row)) →
        M.row (s.call .fetch).2.st = some row ∧ (s.call .fetch).2.sts = s.sts.fetched key row :=
  M.fetch_eq s.st s.sts (h.valid rfl)

/-- **`refetch`** of a name that was cut off. -/
theorem call_refetch (h : s.Ready .select) {row : Row ι} (hrow : M.row s.st = some row)
    (ht : s.sts.selectImageTruncated = (false, false, true, false)) :
    (s.call .refetch).1 = .ok () ∧ M.db (s.call .refetch).2.st = M.db s.st ∧
      (s.call .refetch).2.sts = s.sts.refetched row :=
  M.refetch_eq s.st s.sts (h.valid rfl) row hrow ht

/-- **`persist`** in a current state. -/
theorem persist_does (hi : s.Inv) (hc : s.sts.Current) {obj : Person τ} {u : Option ι}
    (hu : rt.setImage obj.update = .ok u) (addr : Nat) :
    Does (s.exec rt (.persist obj, addr)) (M.exec rt (M.db s.st) (.persist obj)) := by
  obtain ⟨sts, he, hr, hh, hn, hz⟩ := beforePersist_ok hi hc hu addr
  have hready : Ready ⟨sts, s.st⟩ .insert := hr
  have hexecuted := hready.call (c := .insert) rfl
  obtain ⟨h1, h2, h3⟩ := call_insert hready hh hn
  simp only [hz] at h1 h2 h3
  simp only [exec, persist, he, Mysql.exec, Mysql.persist, hu]
  generalize call ⟨sts, s.st⟩ .insert = r at hexecuted h1 h2 h3
  generalize M.insertRow (M.db s.st) 0 obj.age obj.name u = answer at h1 h2 h3
  obtain ⟨result, s'⟩ := r
  obtain ⟨answer, db⟩ := answer
  simp only at h1 h2 hexecuted
  subst h1 h2
  cases answer with
  | error e => exact ⟨rfl, rfl, hexecuted.inv, hexecuted.current⟩
  | ok key =>
    cases key with
    | none => exact ⟨rfl, rfl, hexecuted.inv, hexecuted.current⟩
    | some key =>
      obtain ⟨hv, hnull⟩ := h3 key rfl
      refine ⟨?_, rfl, hexecuted.inv, hexecuted.current⟩
      simp only at hv hnull
      simp [Except.map, id, hv, hnull]

/-- **`update`** in a current state. -/
theorem update_does (hi : s.Inv) (hc : s.sts.Current) {obj : Person τ} {u : Option ι}
    (hu : rt.setImage obj.update = .ok u) (addr : Nat) :
    Does (s.exec rt (.update obj, addr)) (M.exec rt (M.db s.st) (.update obj)) := by
  obtain ⟨sts, he, hr, hh, hn, hid⟩ := beforeUpdate_ok hi hc hu addr
  have hready : Ready ⟨sts, s.st⟩ .update := hr
  have hexecuted := hready.call (c := .update) rfl
  obtain ⟨h1, h2⟩ := call_update hready hh hn
  simp only [hid] at h1 h2
  simp only [exec, update, he, Mysql.exec, Mysql.modify, hu]
  generalize call ⟨sts, s.st⟩ .update = r at hexecuted h1 h2
  generalize M.updateRow (M.db s.st) obj.id obj.age obj.name u = answer at h1 h2
  obtain ⟨result, s'⟩ := r
  obtain ⟨answer, db⟩ := answer
  simp only at h1 h2 hexecuted
  subst h1 h2
  rcases result with e | (_ | n)
  · exact ⟨rfl, rfl, hexecuted.inv, hexecuted.current⟩
  · exact ⟨rfl, rfl, hexecuted.inv, hexecuted.current⟩
  · exact ⟨rfl, rfl, hexecuted.inv, hexecuted.current⟩

/-- **`erase`** in a current state. -/
theorem erase_does (hi : s.Inv) (hc : s.sts.Current) (key : UInt64) (addr : Nat) :
    Does (s.exec rt (.erase key, addr)) (M.exec rt (M.db s.st) (.erase key)) := by
  obtain ⟨hi1, hid⟩ := (Statements.Inv.initId hi key).rebindId
  have hc1 := (hc.initId key).rebindId
  have hn : (s.sts.initId key).rebindId.idImage.idNull = false := by simp [initId]
  have hv : (s.sts.initId key).rebindId.idImage.idValue = key := by simp [initId]
  simp only [exec, erase, Mysql.exec, Mysql.erase]
  generalize (s.sts.initId key).rebindId = sts at hi1 hid hc1 hn hv
  have hvalid := hi1.valid_erase hid
  have hi2 : (call ⟨sts, s.st⟩ .erase).2.Inv := Inv.call (s := ⟨sts, s.st⟩) hi1 hvalid hid
  have hc2 : (call ⟨sts, s.st⟩ .erase).2.sts.Current := hc1.of_same (M.call_same .erase s.st sts hvalid)
  obtain ⟨h1, h2⟩ := call_erase (s := ⟨sts, s.st⟩) hvalid hn
  simp only [hv] at h1 h2
  generalize call ⟨sts, s.st⟩ .erase = r at hi2 hc2 h1 h2
  generalize M.deleteRow (M.db s.st) key = answer at h1 h2
  obtain ⟨result, s'⟩ := r
  obtain ⟨answer, db⟩ := answer
  simp only at h1 h2
  subst h1 h2
  cases result with
  | error e => exact ⟨rfl, rfl, hi2, hc2⟩
  | ok n =>
    simp only
    split
    · exact ⟨rfl, rfl, hi2, hc2⟩
    · exact ⟨rfl, rfl, hi2, hc2⟩

variable (rt) in
/-- A row has been looked up, and the image holds it if there is one. -/
structure Finds (r : Except Error Bool × Session M)
    (spec : Except Error (Option (UInt64 × Row ι)) × M.Db) : Prop where
  does : Does r (spec.1.map Option.isSome, spec.2)
  object : ∀ key row, spec.1 = .ok (some (key, row)) → initObject rt r.2.sts.image = row.object rt key

/-- A name that fits into the buffer. -/
theorem object_of_fetched (s : Statements ι) (key : UInt64) {row : Row ι}
    (h : row.name.length ≤ s.image.nameValue.capacity) :
    initObject rt (s.fetched key row).image = row.object rt key := by
  refine initObject_eq rfl rfl ⟨rfl, rfl, rfl, ?_, rfl, fun v hv => Option.some.inj hv⟩
  simp [Statements.fetched, List.take_of_length_le h]

/-- A name that was cut off, and has been read again into the larger buffer. -/
theorem object_of_refetched (s : Statements ι) (key : UInt64) (row : Row ι) (addr : Nat) :
    initObject rt ((((s.fetched key row).regrown rt addr).bindImage .select).refetched row).image =
      row.object rt key := by
  refine initObject_eq rfl rfl ⟨rfl, rfl, rfl, ?_, rfl, fun v hv => Option.some.inj hv⟩
  have hle : row.name.length ≤
      (((s.fetched key row).regrown rt addr).bindImage .select).image.nameValue.capacity :=
    Buffer.le_grow _ _ _
  show (row.name.take _).take row.name.length = row.name
  rw [List.take_of_length_le hle, List.take_length]

/-- **`fetch`** when a row can be fetched, and `refetch` when its name was cut off. -/
theorem fetch_finds (h : s.Ready .select) (addr : Nat) :
    Finds rt (match s.call .fetch with
      | (.error e, s) => (.error e, s)
      | (.ok .noData, s) => (.ok false, s)
      | (.ok .success, s) => (.ok true, s)
      | (.ok .truncated, s) =>
        match s.sts.beforeRefetch rt addr with
        | (false, sts) => (.ok true, { s with sts })
        | (true, sts) =>
          match { s with sts }.call .refetch with
          | (.error e, s) => (.error e, s)
          | (.ok (), s) => (.ok true, s)) (M.nextRow (M.db s.st)) := by
  obtain ⟨h1, h2, h3⟩ := call_fetch h
  have hr := h.call (c := .fetch) rfl
  generalize s.call .fetch = r at h1 h2 h3 hr
  generalize M.nextRow (M.db s.st) = answer at h1 h2 h3
  obtain ⟨result, s'⟩ := r
  obtain ⟨answer, db⟩ := answer
  simp only at h1 h2 hr
  subst h1 h2
  rcases answer with e | (_ | ⟨key, row⟩)
  · exact ⟨⟨rfl, rfl, hr.inv, hr.current⟩, nofun⟩
  · exact ⟨⟨rfl, rfl, hr.inv, hr.current⟩, nofun⟩
  · obtain ⟨hrow, hsts⟩ := h3 key row rfl
    obtain ⟨sts, st⟩ := s'
    simp only at hrow hsts
    subst hsts
    by_cases hlt : s.sts.image.nameValue.capacity < row.name.length
    · have htruncated : FetchResult.of s.sts.image.nameValue.capacity (some (key, row)) = .truncated :=
        if_pos hlt
      have hbefore := beforeRefetch_eq rt (s := s.sts.fetched key row)
        (hr.current .select).version_le (decide_eq_true hlt) addr
      simp only [Except.map, htruncated, hbefore]
      have hready : Ready ⟨((s.sts.fetched key row).regrown rt addr).bindImage .select, st⟩ .select :=
        Statements.Ready.regrown hr addr
      obtain ⟨hok, hdb, himage⟩ := call_refetch hready hrow rfl
      have hgood := hready.call (c := .refetch) rfl
      generalize call ⟨((s.sts.fetched key row).regrown rt addr).bindImage .select, st⟩ .refetch = r
        at hok hdb himage hgood
      obtain ⟨result, s''⟩ := r
      simp only at hok hdb himage hgood
      subst hok
      refine ⟨⟨rfl, hdb, hgood.inv, hgood.current⟩, fun key' row' he => ?_⟩
      cases he
      simp only [himage]
      exact object_of_refetched _ _ _ _
    · have hsuccess : FetchResult.of s.sts.image.nameValue.capacity (some (key, row)) = .success := if_neg hlt
      simp only [Except.map, hsuccess]
      refine ⟨⟨rfl, rfl, hr.inv, hr.current⟩, fun key' row' he => ?_⟩
      cases he
      exact object_of_fetched _ _ (Nat.not_lt.mp hlt)

variable (rt) in
/-- **`find_`** in a current state. -/
theorem find_finds (hi : s.Inv) (hc : s.sts.Current) (key : UInt64) (addr : Nat) :
    Finds rt (s.find_ rt key addr) (M.firstRow (M.db s.st) key) := by
  obtain ⟨hr, hn, hv⟩ := beforeFind_ready hi hc key
  have hready : Ready ⟨s.sts.beforeFind key, s.st⟩ .select := hr
  obtain ⟨h1, h2⟩ := call_select hready hn
  have hselected := hready.call (c := .select) rfl
  simp only [hv] at h1 h2
  unfold find_ Mysql.firstRow
  generalize call ⟨s.sts.beforeFind key, s.st⟩ .select = r at h1 h2 hselected
  generalize M.selectRow (M.db s.st) key = answer at h1 h2
  obtain ⟨result, s'⟩ := r
  obtain ⟨answer, db⟩ := answer
  simp only at h1 h2 hselected
  subst h1 h2
  cases result with
  | error e => exact ⟨⟨rfl, rfl, hselected.inv, hselected.current⟩, nofun⟩
  | ok => exact fetch_finds hselected addr

/-- **`find`** in a current state. -/
theorem find_does (hi : s.Inv) (hc : s.sts.Current) (key : UInt64) (addr : Nat) :
    Does (s.exec rt (.find key, addr)) (M.exec rt (M.db s.st) (.find key)) := by
  obtain ⟨⟨h1, h2, h3, h4⟩, hobject⟩ := find_finds rt hi hc key addr
  simp only [exec, find, Mysql.exec, Mysql.find]
  generalize s.find_ rt key addr = r at h1 h2 h3 h4 hobject
  generalize M.firstRow (M.db s.st) key = answer at h1 h2 hobject
  obtain ⟨result, s'⟩ := r
  obtain ⟨answer, db⟩ := answer
  simp only at h1 h2 h3 h4 hobject
  subst h1 h2
  rcases answer with e | (_ | ⟨key', row⟩)
  · exact ⟨rfl, rfl, h3, h4⟩
  · exact ⟨rfl, rfl, h3, h4⟩
  · exact ⟨by simp [Except.map, hobject key' row rfl], rfl, h3, h4⟩

/-- The other two ways to find a row. -/
theorem exec_findInto (s : Session M) (key : UInt64) (obj : Person τ) (addr : Nat) :
    s.exec rt (.findInto key obj, addr) = s.exec rt (.find key, addr) := by
  simp only [exec, findInto, find]
  rcases s.find_ rt key addr with ⟨_ | (_ | _), s'⟩ <;> rfl

theorem exec_reload (s : Session M) (obj : Person τ) (addr : Nat) :
    s.exec rt (.reload obj, addr) = s.exec rt (.find obj.id, addr) :=
  exec_findInto s obj.id obj addr

/-- **An operation in a current state** does what it does to the server, unless the conversion of a
timestamp throws. -/
theorem exec_does (hi : s.Inv) (hc : s.sts.Current) (input : Op τ × Nat)
    (hu : ∀ obj, input.1.stored? = some obj → ∃ u, rt.setImage obj.update = .ok u) :
    Does (s.exec rt input) (M.exec rt (M.db s.st) input.1) := by
  obtain ⟨op, addr⟩ := input
  cases op with
  | persist obj =>
    obtain ⟨u, hu⟩ := hu obj rfl
    exact persist_does hi hc hu addr
  | update obj =>
    obtain ⟨u, hu⟩ := hu obj rfl
    exact update_does hi hc hu addr
  | erase id => exact erase_does hi hc id addr
  | find id => exact find_does hi hc id addr
  | findInto id obj =>
    rw [exec_findInto]
    exact find_does hi hc id addr
  | reload obj =>
    rw [exec_reload]
    exact find_does hi hc obj.id addr

/-- What an operation leaves whose conversion throws: everything outside and the bindings, but not the
name buffer. -/
structure Throws (rt : Runtime τ ι) (s : Session M) (obj : Person τ) (e : Error) (addr : Nat)
    (r : Except Error (Option (Person τ)) × Session M) : Prop where
  result : r.1 = .error e
  st : r.2.st = s.st
  inv : r.2.Inv
  imageBinding : r.2.sts.imageBinding = s.sts.imageBinding
  imageVersion : r.2.sts.imageVersion = s.sts.imageVersion
  version : r.2.sts.image.version = s.sts.image.version
  name : r.2.sts.image.nameValue.SameAs (s.sts.image.nameValue.grow rt obj.name.length addr)

/-- **An operation whose conversion throws.** -/
theorem exec_throws (hi : s.Inv) {op : Op τ} {obj : Person τ} {e : Error}
    (ho : op.stored? = some obj) (hu : rt.setImage obj.update = .error e) (addr : Nat) :
    Throws rt s obj e addr (s.exec rt (op, addr)) ∧
      M.exec rt (M.db s.st) op = (.error e, M.db s.st) := by
  cases op with
  | persist obj' =>
    cases ho
    obtain ⟨im, he, hv, hs⟩ := initImage_error hu s.sts .insert addr
    have hx : s.exec rt (.persist obj, addr) = (.error e, { s with sts := { s.sts with image := im } }) := by
      simp only [exec, persist, beforePersist, he]
      rfl
    rw [hx, Mysql.exec, Mysql.persist, hu]
    exact ⟨⟨rfl, rfl, Statements.Inv.of_image hi im, rfl, rfl, hv, hs⟩, rfl⟩
  | update obj' =>
    cases ho
    obtain ⟨im, he, hv, hs⟩ := initImage_error hu (s.sts.initId obj.id) .update addr
    have hx : s.exec rt (.update obj, addr) =
        (.error e, { s with sts := { s.sts.initId obj.id with image := im } }) := by
      simp only [exec, update, beforeUpdate, he]
      rfl
    rw [hx, Mysql.exec, Mysql.modify, hu]
    exact ⟨⟨rfl, rfl, (Statements.Inv.initId hi obj.id).of_image im, rfl, rfl, hv, hs⟩, rfl⟩
  | erase id => cases ho
  | find id => cases ho
  | findInto id obj => cases ho
  | reload obj => cases ho

end Session

end CharSystem.Odb
