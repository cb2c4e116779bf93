import CharSystem.Versioned
import Mathlib.Logic.Function.Basic

/-!
# The persistence of `Person` (`person.hxx`, `person-odb.cxx`)

`object_traits_impl<Person, id_mysql>` copies objects to and from one cached image, whose members the
prepared statements read and write through pointers (`MYSQL_BIND`). The name is in a buffer of its
own, which moves when it grows. A version of the image tells which bindings are out of date.

`libodb-mysql`, the server and `boost::date_time` are not part of the repository. They are parameters:

* `Runtime`: how a buffer grows (at least to what is asked for), and the conversion of a `ptime`,
  which can throw (`special_value`, `value_out_of_range`) or give `NULL`.
* `Mysql`: the connection, and a server of which nothing is assumed. A statement takes a copy of its
  binding when the version of the binding is not the one of its copy, and reads and writes through the
  copy. Its laws are for copies that describe the images as they are (`Valid`); to go through a pointer
  to a released buffer is undefined behaviour.

The transaction is the one of the caller.
-/

namespace CharSystem.Odb

/-- `class Person`. `τ` is `ptime`. -/
structure Person (τ : Type) where
  id : UInt64
  age : UInt16
  name : List UInt8
  update : τ
  deriving DecidableEq, Repr

namespace Person

variable {τ : Type}

/-- `_age = val` for an `int`: the low 16 bits. -/
def setAge (p : Person τ) (val : Int32) : Person τ := { p with age := val.toInt16.toUInt16 }

/-- `int age()`. -/
def getAge (p : Person τ) : Int32 := p.age.toUInt32.toInt32

/-- `Person(name, age, update)` leaves `_id` as it is in memory (`id`). -/
def new (id : UInt64) (name : List UInt8) (age : Int32) (update : τ) : Person τ :=
  { id, age := age.toInt16.toUInt16, name, update }

theorem toNat_narrow (val : Int32) : val.toInt16.toUInt16.toNat = val.toBitVec.toNat % 65536 := by
  show (val.toBitVec.signExtend 16).toNat = _
  rw [BitVec.signExtend_eq_setWidth_of_le _ (by decide), BitVec.toNat_setWidth]

/-- The age that comes back is the age that was set, modulo `2 ^ 16`. -/
theorem getAge_setAge (p : Person τ) (val : Int32) :
    (p.setAge val).getAge.toInt = val.toInt % 65536 := by
  have hz : (p.setAge val).getAge.toInt = (val.toInt16.toUInt16.toNat : Int) := by
    show ((val.toInt16.toUInt16.toBitVec).setWidth 32).toInt = (val.toInt16.toUInt16.toBitVec.toNat : Int)
    have hlt : val.toInt16.toUInt16.toBitVec.toNat < 65536 := val.toInt16.toUInt16.toNat_lt
    rw [BitVec.toInt_eq_toNat_cond, BitVec.toNat_setWidth]
    split <;> omega
  have hlt := val.toBitVec.isLt
  rw [hz, toNat_narrow, ← Int32.toInt_toBitVec, BitVec.toInt_eq_toNat_cond]
  split <;> omega

/-- The constructor narrows the age in the same way. -/
theorem new_eq_setAge (id : UInt64) (name : List UInt8) (age : Int32) (update : τ) :
    new id name age update = Person.setAge ⟨id, 0, name, update⟩ age := rfl

end Person

/-- What a failing call throws. `time` is thrown by the conversion of a `ptime`. -/
inductive Error where
  | objectAlreadyPersistent
  | objectNotPersistent
  | time
  | database
  deriving DecidableEq, Repr

/-- The library: the capacity of a buffer of `capacity` bytes after it is asked for `size`, and
`value_traits<ptime, id_timestamp>`: `none` is `NULL`. `ι` is `MYSQL_TIME`. -/
structure Runtime (τ ι : Type) where
  growTo : (capacity size : Nat) → Nat
  le_growTo : ∀ capacity size, size ≤ growTo capacity size
  setImage : τ → Except Error (Option ι)
  setImage_error : ∀ t e, setImage t = .error e → e = .time
  setValue : Option ι → τ

/-- `details::buffer`: where it is, its capacity, and the bytes last written from its start. -/
structure Buffer where
  data : Nat
  capacity : Nat
  bytes : List UInt8
  deriving DecidableEq, Repr

/-- `b.capacity (size)` at the address `addr` if it has to be allocated. -/
def Buffer.grow {τ ι : Type} (rt : Runtime τ ι) (b : Buffer) (size addr : Nat) : Buffer :=
  if b.capacity < size then { data := addr, capacity := rt.growTo b.capacity size, bytes := [] }
  else b

/-- `image_type`. -/
structure ImageType (ι : Type) where
  idValue : UInt64
  idNull : Bool
  ageValue : UInt16
  ageNull : Bool
  nameValue : Buffer
  nameSize : Nat
  nameNull : Bool
  updateValue : ι
  updateNull : Bool
  version : Nat

/-- `id_image_type`. -/
structure IdImageType where
  idValue : UInt64
  idNull : Bool
  version : Nat
  deriving DecidableEq, Repr

/-- `mysql::statement_kind`. -/
inductive StatementKind where
  | select
  | insert
  | update
  deriving DecidableEq, Repr

/-- `enum_field_types`, as far as it is used. -/
inductive BufferType where
  | LONGLONG
  | SHORT
  | STRING
  | TIMESTAMP
  deriving DecidableEq, Repr

/-- The members of the two images that a binding points to. They do not move. -/
inductive Member where
  | idValue
  | idNull
  | ageValue
  | ageNull
  | nameSize
  | nameNull
  | updateValue
  | updateNull
  | imageIdValue
  | imageIdNull
  deriving DecidableEq, Repr

/-- The target of `MYSQL_BIND::buffer`. -/
inductive Pointer where
  | member (m : Member)
  | heap (addr : Nat)
  deriving DecidableEq, Repr

/-- `MYSQL_BIND`. -/
structure MysqlBind where
  bufferType : BufferType
  isUnsigned : Bool
  buffer : Pointer
  bufferLength : Nat
  length : Option Member
  isNull : Member
  deriving DecidableEq, Repr

/-- `mysql::binding`: `bind` and `version`. -/
abbrev Binding := Versioned (List MysqlBind)

/-- The copy of a binding in a prepared statement; version 0 before the first. -/
abbrev Prepared := Versioned (List MysqlBind)

/-- A row of the table `Person`, without its key. -/
structure Row (ι : Type) where
  age : UInt16
  name : List UInt8
  update : ι
  deriving DecidableEq, Repr

/-- `object_statements<Person>` of a connection: the images, and the bindings with the image versions
that they were made for. -/
structure Statements (ι : Type) where
  image : ImageType ι
  idImage : IdImageType
  imageBinding : StatementKind → Binding
  imageVersion : StatementKind → Nat
  updateIdImageVersion : Nat
  selectImageTruncated : Bool × Bool × Bool × Bool
  idImageBinding : Binding
  idImageVersion : Nat

/-- A new statement cache: images with any content, nothing bound. -/
def Statements.new {ι : Type} (image : ImageType ι) (idValue : UInt64) : Statements ι where
  image := { image with version := 0 }
  idImage := { idValue, idNull := false, version := 0 }
  imageBinding := fun _ => ⟨[], 0⟩
  imageVersion := fun _ => 0
  updateIdImageVersion := 0
  selectImageTruncated := (false, false, false, false)
  idImageBinding := ⟨[], 0⟩
  idImageVersion := 0

/-! ## `object_traits_impl<Person, id_mysql>` -/

section Traits

variable {τ ι : Type} (rt : Runtime τ ι)

/-- `grow`, for the flags of the columns id, age, name, update. -/
def grow (i : ImageType ι) (t : Bool × Bool × Bool × Bool) (addr : Nat) :
    Bool × ImageType ι × (Bool × Bool × Bool × Bool) :=
  if t.2.2.1 then
    (true, { i with nameValue := i.nameValue.grow rt i.nameSize addr }, (false, false, true, false))
  else (false, i, (false, false, false, false))

/-- `bind (MYSQL_BIND*, image_type&, statement_kind)`. -/
def bind (i : ImageType ι) (sk : StatementKind) : List MysqlBind :=
  (if sk ≠ .update then [⟨.LONGLONG, true, .member .idValue, 0, none, .idNull⟩] else []) ++
    [⟨.SHORT, true, .member .ageValue, 0, none, .ageNull⟩,
      ⟨.STRING, false, .heap i.nameValue.data, i.nameValue.capacity, some .nameSize, .nameNull⟩,
      ⟨.TIMESTAMP, false, .member .updateValue, 0, none, .updateNull⟩]

/-- `bind (MYSQL_BIND*, id_image_type&)`. -/
def bindId : List MysqlBind := [⟨.LONGLONG, true, .member .imageIdValue, 0, none, .imageIdNull⟩]

/-- `value_traits<std::string, id_string>::set_image` of the name, and whether the buffer grew. -/
def setName (i : ImageType ι) (v : List UInt8) (addr : Nat) : Bool × ImageType ι :=
  let buffer := i.nameValue.grow rt v.length addr
  (i.nameValue.capacity != buffer.capacity,
    { i with nameValue := { buffer with bytes := v }, nameSize := v.length, nameNull := false })

/-- `init (image_type&, const object_type&, statement_kind)`: whether the image grew. If the
conversion of `_update` throws, the other members have been written. -/
def init (i : ImageType ι) (o : Person τ) (sk : StatementKind) (addr : Nat) :
    Except Error Bool × ImageType ι :=
  let i := if sk = .insert then { i with idValue := o.id, idNull := false } else i
  let i := { i with ageValue := o.age, ageNull := false }
  let (grew, i) := setName rt i o.name addr
  match rt.setImage o.update with
  | .error e => (.error e, i)
  | .ok (some u) => (.ok grew, { i with updateValue := u, updateNull := false })
  | .ok none => (.ok grew, { i with updateNull := true })

/-- `init (object_type&, const image_type&, database*)`: every member of the object. -/
def initObject (i : ImageType ι) : Person τ where
  id := if i.idNull then 0 else i.idValue
  age := if i.ageNull then 0 else i.ageValue
  name := if i.nameNull then [] else i.nameValue.bytes.take i.nameSize
  update := rt.setValue (if i.updateNull then none else some i.updateValue)

/-- `id (const id_image_type&)`. -/
def id (i : IdImageType) : UInt64 := if i.idNull then 0 else i.idValue

/-- The image holds the columns of a row. -/
structure ImageType.Holds (i : ImageType ι) (age : UInt16) (name : List UInt8) (u : Option ι) : Prop where
  ageNull : i.ageNull = false
  ageValue : i.ageValue = age
  nameNull : i.nameNull = false
  name : i.nameValue.bytes.take i.nameSize = name
  updateNull : i.updateNull = u.isNone
  updateValue : ∀ v, u = some v → i.updateValue = v

/-- Where the name buffer is and how large. -/
def Buffer.SameAs (b b' : Buffer) : Prop := b.data = b'.data ∧ b.capacity = b'.capacity

end Traits

/-! ## Prepared statements -/

/-- The parameters of `persist_statement`, `update_statement`, `erase_statement` and `find_statement`
(`findId`), and the results of `find_statement` (`find`). -/
inductive Slot where
  | persist
  | update
  | erase
  | findId
  | find
  deriving DecidableEq, Repr

/-- What is called of a prepared statement: `execute` of one of the four, `fetch`, or `refetch`. -/
inductive StatementCall where
  | insert
  | update
  | erase
  | select
  | fetch
  | refetch
  deriving DecidableEq, Repr

/-- `select_statement::result`. -/
inductive FetchResult where
  | success
  | noData
  | truncated
  deriving DecidableEq, Repr

/-- The result of `fetch` into a name buffer of `capacity` bytes. -/
def FetchResult.of {ι : Type} (capacity : Nat) : Option (UInt64 × Row ι) → FetchResult
  | none => .noData
  | some (_, row) => if capacity < row.name.length then .truncated else .success

/-- What a call returns: false for a duplicate key, or a number of rows. -/
abbrev StatementCall.Result : StatementCall → Type
  | .insert => Bool
  | .update => Nat
  | .erase => Nat
  | .select => Unit
  | .fetch => FetchResult
  | .refetch => Unit

/-- The bindings that a call may take over: the one for the results with `execute` or with `fetch`.
`refetch` goes through the binding itself. -/
def StatementCall.slots : StatementCall → List Slot
  | .insert => [.persist]
  | .update => [.update]
  | .erase => [.erase]
  | .select => [.findId, .find]
  | .fetch => [.find]
  | .refetch => []

namespace Statements

variable {ι : Type} (s : Statements ι)

/-- The binding of a prepared statement. The parameters of `update_statement` end with the id. -/
def binding : Slot → Binding
  | .persist => s.imageBinding .insert
  | .update =>
    ⟨(s.imageBinding .update).value ++ s.idImageBinding.value, (s.imageBinding .update).version⟩
  | .erase => s.idImageBinding
  | .findId => s.idImageBinding
  | .find => s.imageBinding .select

/-- The array that describes the images as they are. -/
def described : Slot → List MysqlBind
  | .persist => bind s.image .insert
  | .update => bind s.image .update ++ bindId
  | .erase => bindId
  | .findId => bindId
  | .find => bind s.image .select

/-- The bindings of a call describe the images as they are, and so do the copies that its statement has
taken over (`taken`), if they have the same version. An `insert` also goes through the binding of the id
image, for the new key. -/
def Valid (taken : Slot → Prepared) (c : StatementCall) : Prop :=
  (∀ sl ∈ c.slots, (s.binding sl).value = s.described sl ∧
      ((taken sl).version = (s.binding sl).version → (taken sl).value = s.described sl)) ∧
    (c = .insert → s.idImageBinding.value = bindId) ∧
    (c = .refetch → (s.imageBinding .select).value = bind s.image .select)

/-- A call has written at most to what bindings point to. -/
structure SameBindings (s s' : Statements ι) : Prop where
  imageBinding : s'.imageBinding = s.imageBinding
  imageVersion : s'.imageVersion = s.imageVersion
  updateIdImageVersion : s'.updateIdImageVersion = s.updateIdImageVersion
  idImageBinding : s'.idImageBinding = s.idImageBinding
  idImageVersion : s'.idImageVersion = s.idImageVersion
  version : s'.image.version = s.image.version
  idVersion : s'.idImage.version = s.idImage.version
  name : s'.image.nameValue.SameAs s.image.nameValue

/-- The image holds a row, as far as the name buffer reaches, and the flag says whether the name was
cut off. -/
def fetched (id : UInt64) (row : Row ι) : Statements ι :=
  { s with
    image :=
      { s.image with
        idValue := id
        idNull := false
        ageValue := row.age
        ageNull := false
        nameValue := { s.image.nameValue with bytes := row.name.take s.image.nameValue.capacity }
        nameSize := row.name.length
        nameNull := false
        updateValue := row.update
        updateNull := false }
    selectImageTruncated :=
      (false, false, decide (s.image.nameValue.capacity < row.name.length), false) }

/-- The name that was cut off has been read again. -/
def refetched (row : Row ι) : Statements ι :=
  { s with
    image :=
      { s.image with
        nameValue := { s.image.nameValue with bytes := row.name.take s.image.nameValue.capacity }
        nameSize := row.name.length
        nameNull := false }
    selectImageTruncated := (false, false, false, false) }

end Statements

/-- **`libodb-mysql`, the connection and the server.** `St` is all of it. The server answers as it likes
(`Db` is what it has; also other clients may change it), with the columns of a row never `NULL`. -/
structure Mysql (ι : Type) where
  St : Type
  Db : Type
  db : St → Db
  /-- The bindings that the statements have taken over last. -/
  taken : St → Slot → Prepared
  /-- The row that was fetched last. -/
  row : St → Option (Row ι)
  /-- `INSERT INTO Person (id, age, name, update)`: the key of the row, none for a duplicate. -/
  insertRow : Db → UInt64 → UInt16 → List UInt8 → Option ι → Except Error (Option UInt64) × Db
  /-- `UPDATE Person SET age, name, update WHERE id`: the number of rows. -/
  updateRow : Db → UInt64 → UInt16 → List UInt8 → Option ι → Except Error Nat × Db
  /-- `DELETE FROM Person WHERE id`: the number of rows. -/
  deleteRow : Db → UInt64 → Except Error Nat × Db
  /-- `SELECT id, age, name, update FROM Person WHERE id`. -/
  selectRow : Db → UInt64 → Except Error Unit × Db
  /-- The next row of the result, with its key. -/
  nextRow : Db → Except Error (Option (UInt64 × Row ι)) × Db
  call : (c : StatementCall) → St → Statements ι → Except Error c.Result × St × Statements ι
  /-- A statement takes over its own bindings, and no other ones. -/
  call_taken : ∀ c st (s : Statements ι), s.Valid (taken st) c → ∀ sl,
    taken (call c st s).2.1 sl = taken st sl ∨
      sl ∈ c.slots ∧ taken (call c st s).2.1 sl = s.binding sl
  /-- A call writes to what its binding points to, also when it fails. -/
  call_same : ∀ c st (s : Statements ι), s.Valid (taken st) c → s.SameBindings (call c st s).2.2
  /-- `insert` sends the columns of the image, and the new key comes into the id image. -/
  insert_eq : ∀ st (s : Statements ι), s.Valid (taken st) .insert → ∀ age name u,
    s.image.Holds age name u → s.image.idNull = false →
    (call .insert st s).1 = (insertRow (db st) s.image.idValue age name u).1.map Option.isSome ∧
    db (call .insert st s).2.1 = (insertRow (db st) s.image.idValue age name u).2 ∧
    ∀ key, (insertRow (db st) s.image.idValue age name u).1 = .ok (some key) →
      (call .insert st s).2.2.idImage.idValue = key ∧ (call .insert st s).2.2.idImage.idNull = false
  update_eq : ∀ st (s : Statements ι), s.Valid (taken st) .update → ∀ age name u,
    s.image.Holds age name u → s.idImage.idNull = false →
    (call .update st s).1 = (updateRow (db st) s.idImage.idValue age name u).1 ∧
    db (call .update st s).2.1 = (updateRow (db st) s.idImage.idValue age name u).2
  erase_eq : ∀ st (s : Statements ι), s.Valid (taken st) .erase → s.idImage.idNull = false →
    (call .erase st s).1 = (deleteRow (db st) s.idImage.idValue).1 ∧
    db (call .erase st s).2.1 = (deleteRow (db st) s.idImage.idValue).2
  select_eq : ∀ st (s : Statements ι), s.Valid (taken st) .select → s.idImage.idNull = false →
    (call .select st s).1 = (selectRow (db st) s.idImage.idValue).1 ∧
    db (call .select st s).2.1 = (selectRow (db st) s.idImage.idValue).2
  /-- `fetch` writes the columns, and says whether the name was cut off. -/
  fetch_eq : ∀ st (s : Statements ι), s.Valid (taken st) .fetch →
    (call .fetch st s).1 = (nextRow (db st)).1.map (.of s.image.nameValue.capacity) ∧
    db (call .fetch st s).2.1 = (nextRow (db st)).2 ∧
    ∀ id r, (nextRow (db st)).1 = .ok (some (id, r)) →
      row (call .fetch st s).2.1 = some r ∧ (call .fetch st s).2.2 = s.fetched id r
  /-- `refetch` reads a name that was cut off again. It asks the server for nothing. -/
  refetch_eq : ∀ st (s : Statements ι), s.Valid (taken st) .refetch → ∀ r, row st = some r →
    s.selectImageTruncated = (false, false, true, false) →
    (call .refetch st s).1 = .ok () ∧ db (call .refetch st s).2.1 = db st ∧
    (call .refetch st s).2.2 = s.refetched r

/-- What a connection has: the statement cache, and everything outside. -/
structure Session {ι : Type} (M : Mysql ι) where
  sts : Statements ι
  st : M.St

/-- A call of a prepared statement. -/
def Session.call {ι : Type} {M : Mysql ι} (s : Session M) (c : StatementCall) :
    Except Error c.Result × Session M :=
  ((M.call c s.st s.sts).1, ⟨(M.call c s.st s.sts).2.2, (M.call c s.st s.sts).2.1⟩)

/-! ## The operations -/

namespace Statements

variable {τ ι : Type} (rt : Runtime τ ι) (s : Statements ι)

/-- `bind (imb.bind, im, sk); sts.sk_image_version (im.version); imb.version++`. -/
def bindImage (sk : StatementKind) : Statements ι :=
  { s with
    imageBinding :=
      Function.update s.imageBinding sk ⟨bind s.image sk, (s.imageBinding sk).version + 1⟩
    imageVersion := Function.update s.imageVersion sk s.image.version }

/-- Bind, `if (im.version != sts.sk_image_version () || imb.version == 0)`. -/
def rebind (sk : StatementKind) : Statements ι :=
  if s.image.version ≠ s.imageVersion sk ∨ (s.imageBinding sk).version = 0 then s.bindImage sk
  else s

/-- The same for the id image. -/
def rebindId : Statements ι :=
  if s.idImage.version ≠ s.idImageVersion ∨ s.idImageBinding.version = 0 then
    { s with
      idImageBinding := ⟨bindId, s.idImageBinding.version + 1⟩
      idImageVersion := s.idImage.version }
  else s

/-- `if (init (im, obj, sk)) im.version++`. -/
def initImage (obj : Person τ) (sk : StatementKind) (addr : Nat) : Except Error Unit × Statements ι :=
  match init rt s.image obj sk addr with
  | (.error e, im) => (.error e, { s with image := im })
  | (.ok true, im) => (.ok (), { s with image := { im with version := im.version + 1 } })
  | (.ok false, im) => (.ok (), { s with image := im })

/-- `init (idi, id)`. -/
def initId (id : UInt64) : Statements ι :=
  { s with idImage := { s.idImage with idValue := id, idNull := false } }

/-- The second binding of `update`. `u`: the first one was made. -/
def rebindUpdateId (u : Bool) : Statements ι :=
  if s.idImage.version ≠ s.updateIdImageVersion ∨ s.idImageBinding.version = 0 then
    let s := s.rebindId
    let s := { s with updateIdImageVersion := s.idImage.version }
    if u then s
    else
      { s with
        imageBinding := Function.update s.imageBinding .update
          { s.imageBinding .update with version := (s.imageBinding .update).version + 1 } }
  else s

/-- `persist`, until the statement is executed. -/
def beforePersist (obj : Person τ) (addr : Nat) : Except Error Unit × Statements ι :=
  match s.initImage rt obj .insert addr with
  | (.error e, s) => (.error e, s)
  | (.ok (), s) =>
    let s := { s with image := { s.image with idValue := 0 } }
    (.ok (), (s.rebind .insert).rebindId)

/-- `update`, until the statement is executed. -/
def beforeUpdate (obj : Person τ) (addr : Nat) : Except Error Unit × Statements ι :=
  let s := s.initId obj.id
  match s.initImage rt obj .update addr with
  | (.error e, s) => (.error e, s)
  | (.ok (), s) =>
    let u : Bool := s.image.version ≠ s.imageVersion .update ∨ (s.imageBinding .update).version = 0
    (.ok (), (s.rebind .update).rebindUpdateId u)

/-- `find_`, until the statement is executed. -/
def beforeFind (id : UInt64) : Statements ι := ((s.initId id).rebindId).rebind .select

/-- What `find_` does when the row was cut off, until `refetch`: whether there is one. -/
def beforeRefetch (addr : Nat) : Bool × Statements ι :=
  let (grew, im, t) := grow rt s.image s.selectImageTruncated addr
  let im := if grew then { im with version := im.version + 1 } else im
  let s := { s with image := im, selectImageTruncated := t }
  if s.image.version ≠ s.imageVersion .select then (true, s.bindImage .select) else (false, s)

end Statements

namespace Session

variable {τ ι : Type} (rt : Runtime τ ι) {M : Mysql ι} (s : Session M)

/-- `persist`: the object with its new id. -/
def persist (obj : Person τ) (addr : Nat) : Except Error (Person τ) × Session M :=
  match s.sts.beforePersist rt obj addr with
  | (.error e, sts) => (.error e, { s with sts })
  | (.ok (), sts) =>
    match { s with sts }.call .insert with
    | (.error e, s) => (.error e, s)
    | (.ok false, s) => (.error .objectAlreadyPersistent, s)
    | (.ok true, s) => (.ok { obj with id := id s.sts.idImage }, s)

/-- `update`. -/
def update (obj : Person τ) (addr : Nat) : Except Error Unit × Session M :=
  match s.sts.beforeUpdate rt obj addr with
  | (.error e, sts) => (.error e, { s with sts })
  | (.ok (), sts) =>
    match { s with sts }.call .update with
    | (.error e, s) => (.error e, s)
    | (.ok 0, s) => (.error .objectNotPersistent, s)
    | (.ok (_ + 1), s) => (.ok (), s)

/-- `erase (db, id)`. -/
def erase (id : UInt64) : Except Error Unit × Session M :=
  match { s with sts := (s.sts.initId id).rebindId }.call .erase with
  | (.error e, s) => (.error e, s)
  | (.ok n, s) => if n ≠ 1 then (.error .objectNotPersistent, s) else (.ok (), s)

/-- `find_`: whether there is a row. -/
def find_ (id : UInt64) (addr : Nat) : Except Error Bool × Session M :=
  match { s with sts := s.sts.beforeFind id }.call .select with
  | (.error e, s) => (.error e, s)
  | (.ok (), s) =>
    match s.call .fetch with
    | (.error e, s) => (.error e, s)
    | (.ok .noData, s) => (.ok false, s)
    | (.ok .success, s) => (.ok true, s)
    | (.ok .truncated, s) =>
      match s.sts.beforeRefetch rt addr with
      | (false, sts) => (.ok true, { s with sts })
      | (true, sts) =>
        match { s with sts }.call .refetch with
        | (.error e, s) => (.error e, s)
        | (.ok (), s) => (.ok true, s)

/-- `find (db, id)`: the new object. -/
def find (id : UInt64) (addr : Nat) : Except Error (Option (Person τ)) × Session M :=
  match s.find_ rt id addr with
  | (.error e, s) => (.error e, s)
  | (.ok false, s) => (.ok none, s)
  | (.ok true, s) => (.ok (some (initObject rt s.sts.image)), s)

/-- `find (db, id, obj)`: the object, changed if there is a row. -/
def findInto (id : UInt64) (obj : Person τ) (addr : Nat) :
    Except Error (Bool × Person τ) × Session M :=
  match s.find_ rt id addr with
  | (.error e, s) => (.error e, s)
  | (.ok false, s) => (.ok (false, obj), s)
  | (.ok true, s) => (.ok (true, initObject rt s.sts.image), s)

/-- `reload`. -/
def reload (obj : Person τ) (addr : Nat) : Except Error (Bool × Person τ) × Session M :=
  s.findInto rt obj.id obj addr

end Session

end CharSystem.Odb
