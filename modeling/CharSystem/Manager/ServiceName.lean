import Mathlib.Data.String.Basic

/-!
# `getServiceName`: the service of a registry key

A node registers under a key `service/instance` (`registry.cc`: `/service/echo/instance_1`), and
`ServiceManager::getServiceName` takes the part before the last `/`.

* A `std::string` is a `String`, with a character for each byte where it is not text.
* `findLastOf`: `std::string::find_last_of` for one character; `none` is `npos`.
* `getServiceName_instanceKey`: the service name of a key `service/instance` is `service`, for every
  instance without `/`.
* `exists_instanceKey`: every key with a `/` is such a key.
-/

namespace CharSystem

/-- `find_last_of(c)`. -/
def findLastOf (c : Char) : List Char → Option Nat
  | [] => none
  | d :: s =>
    match findLastOf c s with
    | some pos => some (pos + 1)
    | none => if d = c then some 0 else none

/-- `ServiceManager::getServiceName`. -/
def getServiceName (serviceInstance : String) : String :=
  match findLastOf '/' serviceInstance.toList with
  | none => serviceInstance
  | some pos => String.ofList (serviceInstance.toList.take pos)

/-- The key of an instance of a service. -/
def instanceKey (service id : String) : String := service ++ "/" ++ id

theorem findLastOf_eq_none {c : Char} {s : List Char} (h : c ∉ s) : findLastOf c s = none := by
  induction s with
  | nil => rfl
  | cons d s ih =>
    rw [List.mem_cons, not_or] at h
    simp [findLastOf, ih h.2, Ne.symm h.1]

theorem findLastOf_append_cons {c : Char} {s t : List Char} (h : c ∉ t) :
    findLastOf c (s ++ c :: t) = some s.length := by
  induction s with
  | nil => simp [findLastOf, findLastOf_eq_none h]
  | cons d s ih => simp [findLastOf, ih]

theorem toList_instanceKey (service id : String) :
    (instanceKey service id).toList = service.toList ++ '/' :: id.toList := by
  simp [instanceKey]

/-- The service of a registered instance. -/
theorem getServiceName_instanceKey {service id : String} (h : '/' ∉ id.toList) :
    getServiceName (instanceKey service id) = service := by
  unfold getServiceName
  rw [toList_instanceKey, findLastOf_append_cons h]
  simp

/-- A key without `/` is its own service name. -/
theorem getServiceName_of_notMem {key : String} (h : '/' ∉ key.toList) :
    getServiceName key = key := by
  unfold getServiceName
  rw [findLastOf_eq_none h]

/-- A key with `/` is the key of an instance. -/
theorem exists_instanceKey {key : String} (h : '/' ∈ key.toList) :
    ∃ service id, key = instanceKey service id ∧ '/' ∉ id.toList := by
  -- the last `/` is the first one of the reversed key
  obtain ⟨l, t, he, hl⟩ := List.eq_append_cons_of_mem (List.mem_reverse.mpr h)
  refine ⟨String.ofList t.reverse, String.ofList l.reverse, ?_, by simpa using hl⟩
  rw [← String.toList_inj, toList_instanceKey, String.toList_ofList, String.toList_ofList,
    ← List.reverse_reverse key.toList, he]
  simp

theorem instanceKey_inj {service id id' : String} :
    instanceKey service id = instanceKey service id' ↔ id = id' := by
  rw [← String.toList_inj, toList_instanceKey, toList_instanceKey, List.append_cancel_left_eq,
    List.cons_inj_right, String.toList_inj]

/-- **Every key splits in one way**: it has no `/` and is a service name, or it is the key of
exactly one instance of its service. -/
theorem getServiceName_splits (key : String) :
    '/' ∉ key.toList ∧ getServiceName key = key ∨
      (∃! id, key = instanceKey (getServiceName key) id) ∧
        ∀ id, key = instanceKey (getServiceName key) id → '/' ∉ id.toList := by
  by_cases h : '/' ∈ key.toList
  · obtain ⟨service, id, rfl, hid⟩ := exists_instanceKey h
    rw [getServiceName_instanceKey hid]
    refine .inr ⟨⟨id, rfl, fun id' he => (instanceKey_inj.mp he).symm⟩, fun id' he => ?_⟩
    exact instanceKey_inj.mp he ▸ hid
  · exact .inl ⟨h, getServiceName_of_notMem h⟩

example : getServiceName "/service/echo/instance_1" = "/service/echo" := by decide

end CharSystem
