import Mathlib.Data.List.Induction
import Mathlib.Data.List.Sigma
import Mathlib.Data.String.Basic

/-!
# JSON values that are built in place

* `Members`: a `std::map` as the list of its entries in key order. `Sorted.ext`: two maps with the
  same lookups are equal.
* `Json.Value`, and the operators of `jsoncpp` that build one through references: `v[key]` makes an
  object of null, `v.append(w)` an array. On another kind of value they throw (`none`).
* `Json.Fields v f`: `v` is null or an object, with `f key` under each key. Of the assignments
  `v[key] = w`, the last one for each key counts, and nothing else (`sets_eq_iff`).
* `Json.Lists v f`: `v` is null or an object, with the array of the elements `f key` under each key.
  `v[key].append(w)` appends to `f key` and to nothing else (`Lists.push`), and `f` and `v`
  determine each other (`Lists.unique`, `Lists.inj`), so appends to different members commute:
  `pushes_congr`.
* `Json.ofLists`: the value of given lists, written down.
-/

namespace CharSystem

/-! ## Maps in key order -/

namespace Members

variable {κ ν : Type} [LinearOrder κ]

/-- The entries are in key order, without a key twice. -/
def Sorted (ms : List ((_ : κ) × ν)) : Prop := ms.Pairwise fun m m' => m.1 < m'.1

/-- The entry of a key, new or replaced. -/
def insert (key : κ) (v : ν) : List ((_ : κ) × ν) → List ((_ : κ) × ν)
  | [] => [⟨key, v⟩]
  | m :: ms =>
    if key < m.1 then ⟨key, v⟩ :: m :: ms
    else if key = m.1 then ⟨key, v⟩ :: ms
    else m :: insert key v ms

variable {key : κ} {v : ν} {ms ms' : List ((_ : κ) × ν)}

theorem mem_insert {m : (_ : κ) × ν} (h : m ∈ insert key v ms) : m = ⟨key, v⟩ ∨ m ∈ ms := by
  induction ms with
  | nil => exact .inl (List.mem_singleton.mp h)
  | cons n ms ih =>
    rw [insert] at h
    split at h
    · exact List.mem_cons.mp h
    · split at h
      · exact (List.mem_cons.mp h).imp_right (List.mem_cons_of_mem n)
      · rcases List.mem_cons.mp h with rfl | h
        · exact .inr List.mem_cons_self
        · exact (ih h).imp_right (List.mem_cons_of_mem n)

theorem insert_ne_nil : insert key v ms ≠ [] := by
  cases ms with
  | nil => exact List.cons_ne_nil _ _
  | cons m ms =>
    rw [insert]
    split
    · exact List.cons_ne_nil _ _
    · split <;> exact List.cons_ne_nil _ _

theorem dlookup_insert (key' : κ) :
    (insert key v ms).dlookup key' = if key' = key then some v else ms.dlookup key' := by
  induction ms with
  | nil =>
    by_cases h : key' = key
    · subst h
      simp [insert]
    · simp [insert, h]
  | cons m ms ih =>
    obtain ⟨k, w⟩ := m
    rw [insert]
    by_cases h : key' = key
    · subst h
      rw [if_pos rfl] at ih ⊢
      split
      · exact List.dlookup_cons_eq _ _ _
      · split
        · exact List.dlookup_cons_eq _ _ _
        · rename_i hne
          rw [List.dlookup_cons_ne _ _ hne, ih]
    · rw [if_neg h] at ih ⊢
      split
      · exact List.dlookup_cons_ne _ _ h
      · split
        · rename_i he
          subst he
          rw [List.dlookup_cons_ne _ _ h, List.dlookup_cons_ne _ _ h]
        · by_cases hk : key' = k
          · subst hk
            rw [List.dlookup_cons_eq, List.dlookup_cons_eq]
          · rw [List.dlookup_cons_ne _ _ hk, List.dlookup_cons_ne _ _ hk, ih]

theorem Sorted.insert (h : Sorted ms) : Sorted (insert key v ms) := by
  induction ms with
  | nil => exact List.pairwise_singleton _ _
  | cons m ms ih =>
    obtain ⟨hm, hms⟩ := List.pairwise_cons.mp h
    rw [Members.insert]
    split
    · rename_i hlt
      refine List.Pairwise.cons (fun n hn => ?_) h
      rcases List.mem_cons.mp hn with rfl | hn
      · exact hlt
      · exact hlt.trans (hm n hn)
    · rename_i hlt
      split
      · rename_i he
        exact hms.cons fun n hn => he ▸ hm n hn
      · rename_i hne
        refine (ih hms).cons fun n hn => ?_
        rcases mem_insert hn with rfl | hn
        · exact lt_of_le_of_ne (not_lt.mp hlt) (Ne.symm hne)
        · exact hm n hn

/-- **Extensionality.** -/
theorem Sorted.ext (h : Sorted ms) (h' : Sorted ms')
    (he : ∀ key, ms.dlookup key = ms'.dlookup key) : ms = ms' := by
  have hkeys : ∀ {ms : List ((_ : κ) × ν)}, Sorted ms → ms.NodupKeys := fun h =>
    List.nodupKeys_iff_pairwise.mpr (h.imp fun hlt => hlt.ne)
  refine List.Perm.eq_of_pairwise (fun m n _ _ hlt hlt' => absurd hlt hlt'.asymm) h h' ?_
  exact List.lookup_ext (hkeys h) (hkeys h') fun key v => by rw [he key]

end Members

namespace Json

open Members

/-! ## Values -/

/-- `Json::Value`. -/
inductive Value where
  | null
  | bool (b : Bool)
  | int (n : Int)
  | real (x : Float)
  | string (s : String)
  | array (elems : List Value)
  | object (members : List ((_ : String) × Value))

namespace Value

/-- What the reference `v[key]` refers to: a new member is null. -/
def member (v : Value) (key : String) : Option Value :=
  match v with
  | .null => some .null
  | .object ms => some ((ms.dlookup key).getD .null)
  | _ => none

/-- `v[key] = w`. -/
def set (v : Value) (key : String) (w : Value) : Option Value :=
  match v with
  | .null => some (.object [⟨key, w⟩])
  | .object ms => some (.object (insert key w ms))
  | _ => none

/-- `v.append(w)`. -/
def append (v w : Value) : Option Value :=
  match v with
  | .null => some (.array [w])
  | .array elems => some (.array (elems ++ [w]))
  | _ => none

/-- `v[key].append(w)`. -/
def push (v : Value) (key : String) (w : Value) : Option Value := do
  let elems ← v.member key
  let elems ← elems.append w
  v.set key elems

/-- `v[key].append(w)` for each `(key, w)` of a list, from null. -/
def pushes (ps : List (String × Value)) : Option Value :=
  ps.foldlM (fun v p => v.push p.1 p.2) .null

/-- `v[key] = w` for each `(key, w)` of a list, from null. -/
def sets (ps : List (String × Value)) : Option Value :=
  ps.foldlM (fun v p => v.set p.1 p.2) .null

end Value

/-! ## Objects of fields -/

/-- The object `v` has the value `f key` under each `key`. It is null if there is no member. -/
structure Fields (v : Value) (f : String → Option Value) : Prop where
  shape : v = .null ∧ (∀ key, f key = none) ∨
    ∃ ms, v = .object ms ∧ ms ≠ [] ∧ Sorted ms ∧ ∀ key, ms.dlookup key = f key

namespace Fields

variable {v w : Value} {f : String → Option Value}

theorem null : Fields .null fun _ => none := ⟨.inl ⟨rfl, fun _ => rfl⟩⟩

/-- **One assignment.** -/
theorem set (h : Fields v f) (key : String) (w : Value) :
    ∃ v', v.set key w = some v' ∧ Fields v' (Function.update f key (some w)) := by
  obtain ⟨rfl, hf⟩ | ⟨ms, rfl, -, hms, hf⟩ := h.shape
  · refine ⟨.object [⟨key, w⟩], rfl, ⟨.inr ⟨_, rfl, List.cons_ne_nil _ _,
      List.pairwise_singleton _ _, fun key' => ?_⟩⟩⟩
    by_cases hk : key' = key
    · subst hk
      simp
    · simp [hk, hf]
  · refine ⟨.object (insert key w ms), rfl, ⟨.inr ⟨_, rfl, insert_ne_nil, hms.insert,
      fun key' => ?_⟩⟩⟩
    rw [dlookup_insert, hf, Function.update_apply]

/-- The fields determine the value. -/
theorem unique (h : Fields v f) (h' : Fields w f) : v = w := by
  have hsome : ∀ {ms : List ((_ : String) × Value)}, ms ≠ [] → (∀ key, ms.dlookup key = f key) →
      ∃ key, f key ≠ none := by
    intro ms hne hms
    obtain ⟨m, ms, rfl⟩ := List.exists_cons_of_ne_nil hne
    refine ⟨m.1, fun hm => ?_⟩
    rw [← hms m.1, List.dlookup_cons_eq] at hm
    cases hm
  obtain ⟨rfl, hf⟩ | ⟨ms, rfl, hne, hs, hms⟩ := h.shape
  · obtain ⟨rfl, -⟩ | ⟨ms', rfl, hne', -, hms'⟩ := h'.shape
    · rfl
    · obtain ⟨key, hkey⟩ := hsome hne' hms'
      exact absurd (hf key) hkey
  · obtain ⟨rfl, hf⟩ | ⟨ms', rfl, -, hs', hms'⟩ := h'.shape
    · obtain ⟨key, hkey⟩ := hsome hne hms
      exact absurd (hf key) hkey
    · rw [hs.ext hs' fun key => (hms key).trans (hms' key).symm]

/-- The value determines the fields. -/
theorem inj {g : String → Option Value} (h : Fields v f) (h' : Fields v g) : f = g := by
  funext key
  obtain ⟨rfl, hf⟩ | ⟨ms, rfl, -, -, hms⟩ := h.shape
  · obtain ⟨-, hg⟩ | ⟨ms', he, -⟩ := h'.shape
    · rw [hf, hg]
    · cases he
  · obtain ⟨he, -⟩ | ⟨ms', he, -, -, hms'⟩ := h'.shape
    · cases he
    · cases he
      rw [← hms, hms']

end Fields

/-- The value that is assigned last to a key. -/
def lastOf (ps : List (String × Value)) (key : String) : Option Value :=
  ((ps.filter (·.1 = key)).getLast?).map Prod.snd

/-- **A run of assignments.** -/
theorem fields_sets (ps : List (String × Value)) :
    ∃ v, Value.sets ps = some v ∧ Fields v (lastOf ps) := by
  induction ps using List.reverseRecOn with
  | nil => exact ⟨.null, rfl, .null⟩
  | append_singleton ps p ih =>
    obtain ⟨v, hv, hf⟩ := ih
    obtain ⟨v', hv', hf'⟩ := hf.set p.1 p.2
    have hlast : Function.update (lastOf ps) p.1 (some p.2) = lastOf (ps ++ [p]) := by
      funext key
      by_cases hk : key = p.1
      · subst hk
        simp [lastOf]
      · simp [lastOf, hk, Ne.symm hk]
    rw [hlast] at hf'
    refine ⟨v', ?_, hf'⟩
    rw [Value.sets] at hv ⊢
    rw [List.foldlM_append, hv]
    simpa using hv'

/-- **The last assignment to each key is all that counts.** -/
theorem sets_eq_iff {ps ps' : List (String × Value)} :
    Value.sets ps = Value.sets ps' ↔ ∀ key, lastOf ps key = lastOf ps' key := by
  obtain ⟨v, hv, hf⟩ := fields_sets ps
  obtain ⟨v', hv', hf'⟩ := fields_sets ps'
  rw [hv, hv', Option.some.injEq]
  constructor
  · rintro rfl
    exact congrFun (hf.inj hf')
  · intro h
    rw [← funext h] at hf'
    exact hf.unique hf'

/-! ## Objects of lists -/

/-- The object `v` has the array of the elements `f key` under each `key`, without an empty one. It
is null if there is no member. -/
structure Lists (v : Value) (f : String → List Value) : Prop where
  shape : v = .null ∧ (∀ key, f key = []) ∨
    ∃ ms, v = .object ms ∧ ms ≠ [] ∧ Sorted ms ∧
      ∀ key, ms.dlookup key = if f key = [] then none else some (.array (f key))

namespace Lists

variable {v w : Value} {f : String → List Value} {key : String}

theorem null : Lists .null fun _ => [] := ⟨.inl ⟨rfl, fun _ => rfl⟩⟩

/-- **One append.** -/
theorem push (h : Lists v f) (key : String) (w : Value) :
    ∃ v', v.push key w = some v' ∧ Lists v' (Function.update f key (f key ++ [w])) := by
  obtain ⟨rfl, hf⟩ | ⟨ms, rfl, -, hms, hf⟩ := h.shape
  · refine ⟨.object [⟨key, .array [w]⟩], rfl, ⟨.inr ⟨_, rfl, List.cons_ne_nil _ _,
      List.pairwise_singleton _ _, fun key' => ?_⟩⟩⟩
    by_cases hk : key' = key
    · subst hk
      simp [hf]
    · simp [hk, hf]
  · have hmember : (Value.object ms).push key w =
        some (.object (insert key (.array (f key ++ [w])) ms)) := by
      simp only [Value.push, Value.member, hf key]
      by_cases he : f key = []
      · simp [he, Value.append, Value.set]
      · simp [he, Value.append, Value.set]
    refine ⟨_, hmember, ⟨.inr ⟨_, rfl, insert_ne_nil, hms.insert, fun key' => ?_⟩⟩⟩
    rw [dlookup_insert]
    by_cases hk : key' = key
    · subst hk
      simp
    · simp [hk, hf key']

/-- The lists determine the value. -/
theorem unique (h : Lists v f) (h' : Lists w f) : v = w := by
  have hempty : ∀ {ms : List ((_ : String) × Value)}, ms ≠ [] →
      (∀ key, ms.dlookup key = if f key = [] then none else some (.array (f key))) →
      ¬ ∀ key, f key = [] := by
    intro ms hne hms hf
    obtain ⟨m, ms, rfl⟩ := List.exists_cons_of_ne_nil hne
    have hm := hms m.1
    rw [List.dlookup_cons_eq, if_pos (hf m.1)] at hm
    cases hm
  obtain ⟨rfl, hf⟩ | ⟨ms, rfl, hne, hs, hms⟩ := h.shape
  · obtain ⟨rfl, -⟩ | ⟨ms', rfl, hne', -, hms'⟩ := h'.shape
    · rfl
    · exact absurd hf (hempty hne' hms')
  · obtain ⟨rfl, hf⟩ | ⟨ms', rfl, -, hs', hms'⟩ := h'.shape
    · exact absurd hf (hempty hne hms)
    · rw [hs.ext hs' fun key => (hms key).trans (hms' key).symm]

/-- The value determines the lists. -/
theorem inj {g : String → List Value} (h : Lists v f) (h' : Lists v g) : f = g := by
  funext key
  obtain ⟨rfl, hf⟩ | ⟨ms, rfl, -, -, hms⟩ := h.shape
  · obtain ⟨-, hg⟩ | ⟨ms', he, -⟩ := h'.shape
    · rw [hf, hg]
    · cases he
  · obtain ⟨he, -⟩ | ⟨ms', he, -, -, hms'⟩ := h'.shape
    · cases he
    · cases he
      have hk := (hms key).symm.trans (hms' key)
      split at hk
      · rename_i hf
        split at hk
        · rename_i hg
          rw [hf, hg]
        · cases hk
      · split at hk
        · cases hk
        · exact Value.array.inj (Option.some.inj hk)

end Lists

/-- The elements that are appended under a key. -/
def elemsOf (ps : List (String × Value)) (key : String) : List Value :=
  (ps.filter (·.1 = key)).map Prod.snd

/-- **A run of appends.** -/
theorem lists_pushes (ps : List (String × Value)) :
    ∃ v, Value.pushes ps = some v ∧ Lists v (elemsOf ps) := by
  induction ps using List.reverseRecOn with
  | nil => exact ⟨.null, rfl, .null⟩
  | append_singleton ps p ih =>
    obtain ⟨v, hv, hl⟩ := ih
    obtain ⟨v', hv', hl'⟩ := hl.push p.1 p.2
    have hf : Function.update (elemsOf ps) p.1 (elemsOf ps p.1 ++ [p.2]) = elemsOf (ps ++ [p]) := by
      funext key
      by_cases hk : key = p.1
      · subst hk
        simp [elemsOf]
      · simp [elemsOf, hk, Ne.symm hk]
    rw [hf] at hl'
    refine ⟨v', ?_, hl'⟩
    rw [Value.pushes] at hv ⊢
    rw [List.foldlM_append, hv]
    simpa using hv'

/-- **Appends to different members commute**: the value depends on the appends to each member, in
their order, and not on how they interleave. -/
theorem pushes_congr {ps ps' : List (String × Value)}
    (h : ∀ key, elemsOf ps key = elemsOf ps' key) : Value.pushes ps = Value.pushes ps' := by
  obtain ⟨v, hv, hl⟩ := lists_pushes ps
  obtain ⟨v', hv', hl'⟩ := lists_pushes ps'
  rw [funext h] at hl
  rw [hv, hv', hl.unique hl']

/-- The members of given lists: an array for each list that is not empty. -/
def arrays (ls : List ((_ : String) × List Value)) : List ((_ : String) × Value) :=
  (ls.filter fun l => !l.2.isEmpty).map fun l => ⟨l.1, .array l.2⟩

/-- The value of given lists. -/
def ofLists (ls : List ((_ : String) × List Value)) : Value :=
  match arrays ls with
  | [] => .null
  | m :: ms => .object (m :: ms)

section OfLists

variable {ls : List ((_ : String) × List Value)}

theorem mem_arrays {m : (_ : String) × Value} (h : m ∈ arrays ls) : ∃ l ∈ ls, l.1 = m.1 := by
  obtain ⟨l, hl, rfl⟩ := List.mem_map.mp h
  exact ⟨l, (List.mem_filter.mp hl).1, rfl⟩

theorem arrays_cons (l : (_ : String) × List Value) :
    arrays (l :: ls) = if l.2 = [] then arrays ls else ⟨l.1, .array l.2⟩ :: arrays ls := by
  by_cases h : l.2 = []
  · simp [arrays, h]
  · simp [arrays, h]

theorem sorted_arrays (h : Sorted ls) : Sorted (arrays ls) :=
  List.Pairwise.map _ (fun _ _ hlt => hlt) (h.filter _)

theorem dlookup_arrays (h : Sorted ls) (key : String) : (arrays ls).dlookup key =
    if (ls.dlookup key).getD [] = [] then none else some (.array ((ls.dlookup key).getD [])) := by
  induction ls with
  | nil => rfl
  | cons l ls ih =>
    obtain ⟨k, elems⟩ := l
    obtain ⟨hk, hls⟩ := List.pairwise_cons.mp h
    rw [arrays_cons]
    by_cases he : key = k
    · subst he
      rw [List.dlookup_cons_eq, Option.getD_some]
      split
      · -- the keys of the other lists are greater
        refine List.dlookup_eq_none.mpr fun hmem => ?_
        obtain ⟨w, hw⟩ := List.exists_of_mem_keys hmem
        obtain ⟨l, hl, hkey⟩ := mem_arrays hw
        exact (hk l hl).ne hkey.symm
      · exact List.dlookup_cons_eq _ _ _
    · rw [List.dlookup_cons_ne _ _ he, ← ih hls]
      split
      · rfl
      · exact List.dlookup_cons_ne _ _ he

theorem lists_ofLists (h : Sorted ls) :
    Lists (ofLists ls) fun key => (ls.dlookup key).getD [] := by
  have hlookup := dlookup_arrays h
  unfold ofLists
  split
  · rename_i he
    rw [he] at hlookup
    refine ⟨.inl ⟨rfl, fun key => ?_⟩⟩
    have hk := hlookup key
    rw [List.dlookup_nil] at hk
    split at hk
    · assumption
    · cases hk
  · rename_i m ms he
    rw [← he]
    exact ⟨.inr ⟨_, rfl, he ▸ List.cons_ne_nil m ms, sorted_arrays h, hlookup⟩⟩

/-- An object, as one of the lists is not empty. -/
theorem ofLists_eq_object {l : (_ : String) × List Value} (hl : l ∈ ls) (hne : l.2 ≠ []) :
    ofLists ls = .object (arrays ls) := by
  have hmem : ⟨l.1, .array l.2⟩ ∈ arrays ls :=
    List.mem_map.mpr ⟨l, List.mem_filter.mpr ⟨hl, by simpa using hne⟩, rfl⟩
  unfold ofLists
  split
  · rename_i he
    rw [he] at hmem
    cases hmem
  · rename_i he
    rw [he]

/-- **What a run of appends builds**: the value of the lists of its elements. -/
theorem pushes_eq_ofLists {ps : List (String × Value)} (h : Sorted ls)
    (hps : ∀ key, elemsOf ps key = (ls.dlookup key).getD []) :
    Value.pushes ps = some (ofLists ls) := by
  obtain ⟨v, hv, hl⟩ := lists_pushes ps
  rw [funext hps] at hl
  rw [hv, hl.unique (lists_ofLists h)]

end OfLists

end Json

end CharSystem
