import CharSystem.Odb.Basic

/-!
# A server with one connection (`person.sql`)

The table `Person`, used through a connection that does not fail, with the laws of `Mysql`: a `TEXT`
column holds 65535 bytes, and a `NULL` in the `TIMESTAMP` column is the time of the server.

`posixRuntime` converts a `ptime` as far as the column goes.
-/

namespace CharSystem.Odb

/-- `ptime`, in seconds from 1970-01-01 00:00:00. -/
inductive Ptime where
  | notADateTime
  | infinity
  | seconds (n : Int)
  deriving DecidableEq, Repr

/-- `TIMESTAMP` columns hold the seconds from 1970-01-01 00:00:01 to 2038-01-19 03:14:07. A buffer
at least doubles. -/
def posixRuntime : Runtime Ptime Int where
  growTo capacity size := max size (2 * capacity)
  le_growTo _ _ := Nat.le_max_left _ _
  setImage
    | .notADateTime => .ok none
    | .infinity => .error .time
    | .seconds n => if 1 ≤ n ∧ n ≤ 2147483647 then .ok (some n) else .error .time
  setImage_error t e h := by
    cases t with
    | notADateTime => cases h
    | infinity => cases h; rfl
    | seconds n =>
      simp only at h
      split at h
      · cases h
      · cases h; rfl
  setValue
    | none => .notADateTime
    | some n => .seconds n

/-- A new cache with a name buffer of four bytes. -/
def smallImage : ImageType Int where
  idValue := 0
  idNull := false
  ageValue := 0
  ageNull := false
  nameValue := { data := 100, capacity := 4, bytes := [] }
  nameSize := 0
  nameNull := false
  updateValue := 0
  updateNull := false
  version := 0

/-- The table, and the result of the last `SELECT`. -/
structure PersonTable where
  rows : UInt64 → Option (Row Int)
  autoIncrement : UInt64
  now : Int
  result : Option (UInt64 × Row Int)

namespace PersonTable

variable (t : PersonTable)

/-- A row of the table, if the name fits into the column. -/
def rowOf (age : UInt16) (name : List UInt8) (u : Option Int) : Except Error (Row Int) :=
  if name.length ≤ 65535 then .ok ⟨age, name, u.getD t.now⟩ else .error .database

/-- `INSERT`: the key of the row, none for a duplicate. -/
def insert (id : UInt64) (age : UInt16) (name : List UInt8) (u : Option Int) :
    Except Error (Option UInt64) × PersonTable :=
  let key := if id = 0 then t.autoIncrement else id
  match t.rowOf age name u with
  | .error e => (.error e, t)
  | .ok row =>
    if (t.rows key).isSome then (.ok none, t)
    else
      (.ok (some key),
        { t with
          rows := Function.update t.rows key (some row)
          autoIncrement := max t.autoIncrement (key + 1) })

/-- `UPDATE`: the number of rows. -/
def update (id : UInt64) (age : UInt16) (name : List UInt8) (u : Option Int) :
    Except Error Nat × PersonTable :=
  if (t.rows id).isNone then (.ok 0, t)
  else
    match t.rowOf age name u with
    | .error e => (.error e, t)
    | .ok row => (.ok 1, { t with rows := Function.update t.rows id (some row) })

/-- `DELETE`: the number of rows. -/
def delete (id : UInt64) : Except Error Nat × PersonTable :=
  if (t.rows id).isNone then (.ok 0, t)
  else (.ok 1, { t with rows := Function.update t.rows id none })

/-- `SELECT`: the row is the result. -/
def select (id : UInt64) : Except Error Unit × PersonTable :=
  (.ok (), { t with result := (t.rows id).map fun row => (id, row) })

/-- The next row of the result. -/
def next : Except Error (Option (UInt64 × Row Int)) × PersonTable :=
  (.ok t.result, { t with result := none })

end PersonTable

/-- The connection: the table, the row that was fetched last, and the bindings taken over. -/
structure PersonConnection where
  table : PersonTable
  row : Option (Row Int)
  taken : Slot → Prepared

namespace PersonConnection

variable (st : PersonConnection) (s : Statements Int)

/-- A call takes its bindings over. -/
def takeOver (slots : List Slot) (sl : Slot) : Prepared :=
  if sl ∈ slots then s.binding sl else st.taken sl

/-- The column `update` in the image. -/
def stamp : Option Int := if s.image.updateNull then none else some s.image.updateValue

/-- The column `name` in the image. -/
def name : List UInt8 := s.image.nameValue.bytes.take s.image.nameSize

/-- A call, with bindings that describe the images. -/
def call : (c : StatementCall) → Except Error c.Result × PersonConnection × Statements Int
  | .insert =>
    let (r, t) := st.table.insert s.image.idValue s.image.ageValue (name s) (stamp s)
    let s' : Statements Int :=
      match r with
      | .ok (some key) => { s with idImage := { s.idImage with idValue := key, idNull := false } }
      | _ => s
    (r.map Option.isSome, { st with table := t, taken := st.takeOver s [.persist] }, s')
  | .update =>
    let (r, t) := st.table.update s.idImage.idValue s.image.ageValue (name s) (stamp s)
    (r, { st with table := t, taken := st.takeOver s [.update] }, s)
  | .erase =>
    let (r, t) := st.table.delete s.idImage.idValue
    (r, { st with table := t, taken := st.takeOver s [.erase] }, s)
  | .select =>
    let (r, t) := st.table.select s.idImage.idValue
    (r, { st with table := t, taken := st.takeOver s [.findId, .find] }, s)
  | .fetch =>
    let st' : PersonConnection :=
      { st with table := st.table.next.2, taken := st.takeOver s [.find] }
    match st.table.result with
    | none => (.ok .noData, st', s)
    | some (key, row) =>
      (.ok (.of s.image.nameValue.capacity (some (key, row))), { st' with row := some row },
        s.fetched key row)
  | .refetch =>
    match st.row with
    | none => (.error .database, st, s)
    | some row => (.ok (), st, s.refetched row)

/-! ## The laws -/

variable {st : PersonConnection} {s : Statements Int}

theorem stamp_eq {age : UInt16} {n : List UInt8} {u : Option Int} (h : s.image.Holds age n u) :
    stamp s = u := by
  unfold stamp
  rw [h.updateNull]
  cases u with
  | none => rfl
  | some v => simp [h.updateValue v rfl]

theorem takeOver_cases (st : PersonConnection) (s : Statements Int) (slots : List Slot) (sl : Slot) :
    st.takeOver s slots sl = st.taken sl ∨ sl ∈ slots ∧ st.takeOver s slots sl = s.binding sl := by
  by_cases h : sl ∈ slots
  · exact .inr ⟨h, if_pos h⟩
  · exact .inl (if_neg h)

theorem call_taken (c : StatementCall) :
    (st.call s c).2.1.taken = st.takeOver s c.slots := by
  cases c with
  | fetch =>
    unfold call
    cases st.table.result <;> rfl
  | refetch =>
    unfold call
    cases st.row <;> funext sl <;> simp [takeOver, StatementCall.slots]
  | _ => rfl

theorem call_same (c : StatementCall) : s.SameBindings (st.call s c).2.2 := by
  cases c with
  | insert =>
    simp only [call]
    split
    · exact ⟨rfl, rfl, rfl, rfl, rfl, rfl, rfl, rfl, rfl⟩
    · exact ⟨rfl, rfl, rfl, rfl, rfl, rfl, rfl, rfl, rfl⟩
  | fetch =>
    unfold call
    cases st.table.result <;> exact ⟨rfl, rfl, rfl, rfl, rfl, rfl, rfl, rfl, rfl⟩
  | refetch =>
    unfold call
    cases st.row <;> exact ⟨rfl, rfl, rfl, rfl, rfl, rfl, rfl, rfl, rfl⟩
  | _ => exact ⟨rfl, rfl, rfl, rfl, rfl, rfl, rfl, rfl, rfl⟩

/-- **The laws** hold for the table. -/
def mysql : Mysql Int where
  St := PersonConnection
  Db := PersonTable
  db := table
  taken := taken
  row := row
  insertRow := PersonTable.insert
  updateRow := PersonTable.update
  deleteRow := PersonTable.delete
  selectRow := PersonTable.select
  nextRow := PersonTable.next
  call c st s := st.call s c
  call_taken c st s _ sl := by
    rw [PersonConnection.call_taken]
    exact takeOver_cases st s c.slots sl
  call_same c _ _ _ := PersonConnection.call_same c
  insert_eq st s _ age n u hh _ := by
    obtain rfl := hh.ageValue
    obtain rfl := stamp_eq hh
    obtain rfl := hh.name
    refine ⟨rfl, rfl, fun key hkey => ?_⟩
    change (st.table.insert s.image.idValue s.image.ageValue (PersonConnection.name s) (stamp s)).1 = _
      at hkey
    simp only [call, hkey, and_self]
  update_eq st s _ age n u hh _ := by
    obtain rfl := hh.ageValue
    obtain rfl := stamp_eq hh
    obtain rfl := hh.name
    exact ⟨rfl, rfl⟩
  erase_eq _ _ _ _ := ⟨rfl, rfl⟩
  select_eq _ _ _ _ := ⟨rfl, rfl⟩
  fetch_eq st s _ := by
    simp only [call, PersonTable.next]
    cases hr : st.table.result with
    | none => exact ⟨rfl, rfl, nofun⟩
    | some r =>
      refine ⟨rfl, rfl, fun key row he => ?_⟩
      cases he
      exact ⟨rfl, rfl⟩
  refetch_eq st s _ r hr _ := by
    simp only [call, hr, and_self]

end PersonConnection

end CharSystem.Odb
