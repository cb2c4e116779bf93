import CharSystem.Search.Basic

/-!
# `ESIndex`, `ESInsert`, `ESRemove`: documents that are built in place (`icsearch.hpp`)

* `ESIndex.append` sets a field of the mapping, and `create` sends the index. `ESInsert.append` sets a
  field of the document, and `insert` sends it. Neither `create` nor `insert` clears anything.
* `ESIndex.bodyAfter_eq_iff`, `ESInsert.after_eq_iff`: of the calls before, the last `append` for
  each key counts, and nothing else.
* `ESIndex.create_iff`, `ESInsert.insert_iff`: what is sent after any calls, and when the method
  returns `true`.
-/

namespace CharSystem

open Json

/-- What the environment does in one call. -/
structure IndexEnv extends SearchEnv where
  /-- `elasticlient::Client::index` of an index, a document type, an id and a body. -/
  index : String → String → String → String → Except String Cpr.Response
  /-- `elasticlient::Client::remove` of an index, a document type and an id. -/
  remove : String → String → String → Except String Cpr.Response

/-- What a method returns, and the error that it logs. -/
structure IndexReturn where
  ok : Bool
  error : Option String
  deriving DecidableEq, Repr

/-- The `try` block and its handler, with the texts for a status and for an exception. -/
def accept (rsp : Except String Cpr.Response) (status : Int → String) (what : String → String) :
    IndexReturn :=
  match rsp with
  | .error e => { ok := false, error := some (what e) }
  | .ok rsp =>
    if rsp.statusCode < 200 ∨ rsp.statusCode ≥ 300 then
      { ok := false, error := some (status rsp.statusCode) }
    else { ok := true, error := none }

/-- `class ESIndex`, without its client. -/
structure ESIndex where
  indexName : String
  docType : String
  properties : Json.Value
  index : Json.Value

/-- The arguments of `ESIndex::append`. All but `key` have a default. -/
structure FieldCall where
  key : String
  type : Option String
  analyzer : Option String
  enabled : Option Bool
  deriving DecidableEq, Repr

namespace ESIndex

/-- The constructor. -/
def new (indexName : String) (docType : Option String) : Option ESIndex := do
  let ik ← Json.Value.null.set "tokenizer" (.string "ik_max_word")
  let analyzer ← Json.Value.null.set "ik" ik
  let analysis ← Json.Value.null.set "analyzer" analyzer
  let settings ← Json.Value.null.set "analysis" analysis
  let index ← Json.Value.null.set "settings" settings
  return {
    indexName := indexName
    docType := docType.getD "_doc"
    properties := .null
    index := index }

/-- `append`. -/
def append (s : ESIndex) (c : FieldCall) : Option ESIndex := do
  let tmp ← Json.Value.null.set "type" (.string (c.type.getD "text"))
  let tmp ← tmp.set "analyzer" (.string (c.analyzer.getD "ik_max_word"))
  let enabled := c.enabled.getD true
  let tmp ← if !enabled then tmp.set "enabled" (.bool enabled) else some tmp
  let properties ← s.properties.set c.key tmp
  return { s with properties := properties }

/-- `create` until `_index` has its mappings. -/
def mapped (s : ESIndex) (isDynamic : Option Bool) : Option ESIndex := do
  let mappings ← Json.Value.null.set "dynamic" (.bool (isDynamic.getD true))
  let mappings ← mappings.set "properties" s.properties
  let index ← s.index.set "mappings" mappings
  return { s with index := index }

/-- `create`: what it returns, and the new state. -/
def create (s : ESIndex) (env : IndexEnv) (id : Option String) (isDynamic : Option Bool) :
    Option (IndexReturn × ESIndex) := do
  let s ← s.mapped isDynamic
  match JsonUtil.serialize env.toSearchEnv s.index with
  | none => return ({ ok := false, error := some "索引序列化失败！" }, s)
  | some body =>
    let indexName := s.indexName
    let rsp := env.index indexName s.docType (id.getD "default_index_id") body
    return (accept rsp (fun status => s!"创建ES索引 {indexName} 失败，响应状态码异常: {status}")
      fun what => s!"创建ES索引 {indexName} 失败: {what}", s)

end ESIndex

/-- `class ESInsert`, without its client. -/
structure ESInsert where
  indexName : String
  docType : String
  item : Json.Value

namespace ESInsert

/-- The constructor. `docType` has a default argument. -/
def new (indexName : String) (docType : Option String) : ESInsert where
  indexName := indexName
  docType := docType.getD "_doc"
  item := .null

/-- `append` of a `val` that is the JSON value `val`. -/
def append (s : ESInsert) (key : String) (val : Json.Value) : Option ESInsert :=
  (s.item.set key val).map fun item => { s with item := item }

/-- `insert`. It leaves the state. -/
def insert (s : ESInsert) (env : IndexEnv) (id : Option String) : IndexReturn :=
  match JsonUtil.serialize env.toSearchEnv s.item with
  | none => { ok := false, error := some "索引序列化失败！" }
  | some body =>
    accept (env.index s.indexName s.docType (id.getD "") body)
      (fun status => s!"新增数据 {body} 失败，响应状态码异常: {status}")
      fun what => s!"新增数据 {body} 失败: {what}"

end ESInsert

/-- `class ESRemove`, without its client. -/
structure ESRemove where
  indexName : String
  docType : String

namespace ESRemove

/-- The constructor. `docType` has a default argument. -/
def new (indexName : String) (docType : Option String) : ESRemove where
  indexName := indexName
  docType := docType.getD "_doc"

/-- `remove`. It leaves the state. -/
def remove (s : ESRemove) (env : IndexEnv) (id : String) : IndexReturn :=
  accept (env.remove s.indexName s.docType id)
    (fun status => s!"删除数据 {id} 失败，响应状态码异常: {status}")
    fun what => s!"删除数据 {id} 失败: {what}"

end ESRemove

/-- A call of an `ESIndex` method. -/
inductive IndexOp where
  | append (c : FieldCall)
  | create (env : IndexEnv) (id : Option String) (isDynamic : Option Bool)

/-- A call of an `ESInsert` method. -/
inductive InsertOp where
  | append (key : String) (val : Json.Value)
  | insert (env : IndexEnv) (id : Option String)

namespace ESIndex

/-- The state after a call. -/
def step (s : ESIndex) : IndexOp → Option ESIndex
  | .append c => s.append c
  | .create env id isDynamic => (s.create env id isDynamic).map Prod.snd

/-- The state after calls of a new `ESIndex`. -/
def after (indexName : String) (docType : Option String) (ops : List IndexOp) : Option ESIndex := do
  let s ← new indexName docType
  ops.foldlM step s

/-- The value that a `create` after the calls serializes. -/
def bodyAfter (indexName : String) (docType : Option String) (ops : List IndexOp)
    (isDynamic : Option Bool) : Option Json.Value := do
  let s ← after indexName docType ops
  let s ← s.mapped isDynamic
  return s.index

end ESIndex

namespace ESInsert

/-- The state after a call. -/
def step (s : ESInsert) : InsertOp → Option ESInsert
  | .append key val => s.append key val
  | .insert _ _ => some s

/-- The state after calls of a new `ESInsert`. -/
def after (indexName : String) (docType : Option String) (ops : List InsertOp) : Option ESInsert :=
  ops.foldlM step (new indexName docType)

end ESInsert

/-! ## `ESIndex` -/

namespace FieldCall

/-- What `append` writes: a field that is enabled has no member `enabled`. -/
def written (c : FieldCall) : Json.Value :=
  let analyzer := ⟨"analyzer", .string (c.analyzer.getD "ik_max_word")⟩
  let type := ⟨"type", .string (c.type.getD "text")⟩
  if c.enabled.getD true then .object [analyzer, type]
  else .object [analyzer, ⟨"enabled", .bool false⟩, type]

/-- The type, the analyzer and whether the field is enabled. -/
def field (c : FieldCall) : String × String × Bool :=
  (c.type.getD "text", c.analyzer.getD "ik_max_word", c.enabled.getD true)

theorem written_eq_iff {c c' : FieldCall} : c.written = c'.written ↔ c.field = c'.field := by
  unfold written field
  cases c.enabled.getD true <;> cases c'.enabled.getD true <;> simp [and_comm]

end FieldCall

/-- The `append` calls of a run. -/
def IndexOp.call? : IndexOp → Option FieldCall
  | .append c => some c
  | .create _ _ _ => none

/-- The last `append` for a key. -/
def lastCall (ops : List IndexOp) (key : String) : Option FieldCall :=
  ((ops.filterMap IndexOp.call?).filter (·.key = key)).getLast?

/-- The assignments to members of `_properties`. -/
def fields (ops : List IndexOp) : List (String × Json.Value) :=
  (ops.filterMap IndexOp.call?).map fun c => (c.key, c.written)

theorem lastOf_fields (ops : List IndexOp) (key : String) :
    lastOf (fields ops) key = (lastCall ops key).map FieldCall.written := by
  simp [lastOf, fields, lastCall, List.filter_map, Function.comp_def]

namespace ESIndex

/-- The settings that the constructor writes. -/
def settings : Json.Value :=
  .object [⟨"analysis", .object [⟨"analyzer", .object [⟨"ik",
    .object [⟨"tokenizer", .string "ik_max_word"⟩]⟩]⟩]⟩]

/-- The value that `create` serializes. -/
def body (isDynamic : Option Bool) (properties : Json.Value) : Json.Value :=
  .object [⟨"mappings", .object [⟨"dynamic", .bool (isDynamic.getD true)⟩,
    ⟨"properties", properties⟩]⟩, ⟨"settings", settings⟩]

/-- The state after the calls `ops` of a new `ESIndex`. -/
structure Built (indexName : String) (docType : Option String) (ops : List IndexOp) (s : ESIndex) :
    Prop where
  indexName : s.indexName = indexName
  docType : s.docType = docType.getD "_doc"
  /-- `_index` has the settings, and the mappings of an earlier `create`. -/
  index : s.index = .object [⟨"settings", settings⟩] ∨
    ∃ isDynamic properties, s.index = body isDynamic properties
  properties : Json.Value.sets (fields ops) = some s.properties

variable {s : ESIndex} {indexName indexName' : String} {docType docType' : Option String}
  {ops ops' : List IndexOp} {isDynamic isDynamic' : Option Bool}

theorem append_eq (s : ESIndex) (c : FieldCall) : s.append c =
    (s.properties.set c.key c.written).map fun properties => { s with properties := properties } := by
  have htype : ("analyzer" : String) < "type" := by decide
  have henabled : ¬("enabled" : String) < "analyzer" := by decide
  have hlast : ("enabled" : String) < "type" := by decide
  rw [Option.map_eq_bind]
  change _ = (s.properties.set c.key c.written).bind fun properties =>
    some { s with properties := properties }
  unfold append FieldCall.written
  cases c.enabled.getD true <;> simp [Value.set, Members.insert, htype, henabled, hlast]

theorem new_eq (indexName : String) (docType : Option String) : new indexName docType =
    some ⟨indexName, docType.getD "_doc", .null, .object [⟨"settings", settings⟩]⟩ := rfl

/-- `create` replaces the mappings of an earlier `create`. -/
theorem Built.mapped (h : Built indexName docType ops s) (isDynamic : Option Bool) :
    s.mapped isDynamic = some { s with index := body isDynamic s.properties } := by
  have hproperties : ¬("properties" : String) < "dynamic" := by decide
  have hmappings : ("mappings" : String) < "settings" := by decide
  unfold ESIndex.mapped
  rcases h.index with hi | ⟨d, p, hi⟩ <;>
    simp [hi, body, Value.set, Members.insert, hproperties, hmappings]

theorem create_snd (s : ESIndex) (env : IndexEnv) (id : Option String) (isDynamic : Option Bool) :
    (s.create env id isDynamic).map Prod.snd = s.mapped isDynamic := by
  unfold create
  cases s.mapped isDynamic with
  | none => rfl
  | some s =>
    simp only [Option.bind_eq_bind, Option.bind_some]
    split <;> rfl

/-- **One call.** -/
theorem Built.step (h : Built indexName docType ops s) (op : IndexOp) :
    ∃ s', s.step op = some s' ∧ Built indexName docType (ops ++ [op]) s' := by
  have hsets : ∀ {c : FieldCall} {v : Json.Value}, s.properties.set c.key c.written = some v →
      Json.Value.sets (fields (ops ++ [.append c])) = some v := by
    intro c v hv
    have hp := h.properties
    rw [Json.Value.sets] at hp ⊢
    simp only [fields, List.filterMap_append, List.map_append, List.foldlM_append] at hp ⊢
    rw [hp]
    simpa [IndexOp.call?] using hv
  cases op with
  | append c =>
    obtain ⟨properties, hp⟩ : ∃ v, s.properties.set c.key c.written = some v := by
      obtain ⟨v', hv', hf⟩ := fields_sets (fields ops)
      rw [h.properties, Option.some.injEq] at hv'
      obtain ⟨w, hw, -⟩ := (hv' ▸ hf).set c.key c.written
      exact ⟨w, hw⟩
    refine ⟨{ s with properties := properties }, ?_, h.indexName, h.docType, h.index, hsets hp⟩
    rw [ESIndex.step, append_eq, hp, Option.map_some]
  | create env id isDynamic =>
    refine ⟨_, (create_snd s env id isDynamic).trans (h.mapped isDynamic), h.indexName, h.docType,
      .inr ⟨isDynamic, s.properties, rfl⟩, ?_⟩
    have hf : fields (ops ++ [.create env id isDynamic]) = fields ops := by
      simp [fields, IndexOp.call?]
    rw [hf]
    exact h.properties

/-- **A run** of `append` and `create` calls. It never throws. -/
theorem built (indexName : String) (docType : Option String) (ops : List IndexOp) :
    ∃ s, after indexName docType ops = some s ∧ Built indexName docType ops s := by
  induction ops using List.reverseRecOn with
  | nil => exact ⟨_, rfl, rfl, rfl, .inl rfl, rfl⟩
  | append_singleton ops op ih =>
    obtain ⟨s, hs, hb⟩ := ih
    obtain ⟨s', hs', hb'⟩ := hb.step op
    refine ⟨s', ?_, hb'⟩
    unfold after at hs ⊢
    rw [new_eq, Option.bind_eq_bind, Option.bind_some] at hs ⊢
    rw [List.foldlM_append, hs]
    simpa using hs'

theorem bodyAfter_eq (indexName : String) (docType : Option String) (ops : List IndexOp)
    (isDynamic : Option Bool) : ∃ properties,
      Json.Value.sets (fields ops) = some properties ∧
      bodyAfter indexName docType ops isDynamic = some (body isDynamic properties) := by
  obtain ⟨s, hs, hb⟩ := built indexName docType ops
  refine ⟨s.properties, hb.properties, ?_⟩
  rw [bodyAfter, hs, Option.bind_eq_bind, Option.bind_some, hb.mapped]
  rfl

/-- **What `create` depends on.** After any two runs of calls, `create` serializes the same value
exactly if the last `append` for each key sets the same field, or there is none, and `is_dynamic` is
the same. The `create` calls before, and how they ended, do not count. -/
theorem bodyAfter_eq_iff (indexName indexName' : String) (docType docType' : Option String)
    (ops ops' : List IndexOp) (isDynamic isDynamic' : Option Bool) :
    bodyAfter indexName docType ops isDynamic = bodyAfter indexName' docType' ops' isDynamic' ↔
      isDynamic.getD true = isDynamic'.getD true ∧
      ∀ key, (lastCall ops key).map FieldCall.field = (lastCall ops' key).map FieldCall.field := by
  obtain ⟨p, hp, hb⟩ := bodyAfter_eq indexName docType ops isDynamic
  obtain ⟨p', hp', hb'⟩ := bodyAfter_eq indexName' docType' ops' isDynamic'
  have hfields : p = p' ↔ ∀ key, (lastCall ops key).map FieldCall.field =
      (lastCall ops' key).map FieldCall.field := by
    rw [← Option.some.injEq, ← hp, ← hp', sets_eq_iff]
    refine forall_congr' fun key => ?_
    rw [lastOf_fields, lastOf_fields]
    cases lastCall ops key <;> cases lastCall ops' key <;> simp [FieldCall.written_eq_iff]
  rw [hb, hb', ← hfields]
  simp [body]

end ESIndex

/-! ## What the server is sent -/

/-- The server has taken what it was sent. -/
def Accepted (rsp : Except String Cpr.Response) : Prop :=
  ∃ r, rsp = .ok r ∧ 200 ≤ r.statusCode ∧ r.statusCode < 300

theorem accept_iff (rsp : Except String Cpr.Response) (status : Int → String)
    (what : String → String) : (accept rsp status what).ok = true ↔ Accepted rsp := by
  unfold accept Accepted
  cases rsp with
  | error e => simp
  | ok r =>
    by_cases h : r.statusCode < 200 ∨ r.statusCode ≥ 300
    · simp only [h, if_true]
      refine iff_of_false (by simp) ?_
      rintro ⟨r', he, hr⟩
      cases he
      omega
    · simp only [h, if_false, true_iff]
      exact ⟨r, rfl, by omega⟩

theorem accept_error (rsp : Except String Cpr.Response) (status : Int → String)
    (what : String → String) :
    (accept rsp status what).error = none ↔ (accept rsp status what).ok = true := by
  unfold accept
  split
  · simp
  · split <;> simp

theorem ESIndex.Built.create_cases {s : ESIndex} {indexName : String} {docType : Option String}
    {ops : List IndexOp} (h : Built indexName docType ops s) (env : IndexEnv) (id : Option String)
    (isDynamic : Option Bool) :
    let s' := { s with index := body isDynamic s.properties }
    JsonUtil.serialize env.toSearchEnv (body isDynamic s.properties) = none ∧
        s.create env id isDynamic = some (⟨false, some "索引序列化失败！"⟩, s') ∨
      ∃ text status what,
        JsonUtil.serialize env.toSearchEnv (body isDynamic s.properties) = some text ∧
        s.create env id isDynamic = some (accept (env.index indexName (docType.getD "_doc")
          (id.getD "default_index_id") text) status what, s') := by
  intro s'
  unfold create
  rw [h.mapped, Option.bind_eq_bind, Option.bind_some, ← h.indexName, ← h.docType]
  cases JsonUtil.serialize env.toSearchEnv (body isDynamic s.properties) with
  | none => exact .inl ⟨rfl, rfl⟩
  | some text => exact .inr ⟨text, _, _, rfl, rfl⟩

/-- **`create` after any calls.** It returns `true` exactly if the value with the last field for each
key is serialized, and the server takes it under the names of the constructor. Else an error is
logged. -/
theorem ESIndex.create_iff (indexName : String) (docType : Option String) (ops : List IndexOp)
    (env : IndexEnv) (id : Option String) (isDynamic : Option Bool) :
    ∃ s properties r s', after indexName docType ops = some s ∧
      Fields properties (fun key => (lastCall ops key).map FieldCall.written) ∧
      s.create env id isDynamic = some (r, s') ∧ (r.error = none ↔ r.ok = true) ∧
      (r.ok = true ↔ ∃ text,
        JsonUtil.serialize env.toSearchEnv (body isDynamic properties) = some text ∧
        Accepted (env.index indexName (docType.getD "_doc") (id.getD "default_index_id") text)) := by
  obtain ⟨s, hs, hb⟩ := built indexName docType ops
  obtain ⟨properties, hp, hf⟩ := fields_sets (fields ops)
  obtain rfl : s.properties = properties := Option.some.inj (hb.properties.symm.trans hp)
  rw [funext (lastOf_fields ops)] at hf
  rcases hb.create_cases env id isDynamic with ⟨hn, hc⟩ | ⟨text, status, what, ht, hc⟩
  · exact ⟨s, s.properties, _, _, hs, hf, hc, by simp, by simp [hn]⟩
  · exact ⟨s, s.properties, _, _, hs, hf, hc, accept_error .., by simp [accept_iff, ht]⟩

/-! ## `ESInsert` -/

/-- The assignments to members of `_item`. -/
def items (ops : List InsertOp) : List (String × Json.Value) :=
  ops.filterMap fun
    | .append key val => some (key, val)
    | .insert _ _ => none

namespace ESInsert

/-- **A run** of `append` and `insert` calls. It never throws. -/
theorem after_eq (indexName : String) (docType : Option String) (ops : List InsertOp) :
    ∃ item, Json.Value.sets (items ops) = some item ∧
      after indexName docType ops = some ⟨indexName, docType.getD "_doc", item⟩ := by
  induction ops using List.reverseRecOn with
  | nil => exact ⟨_, rfl, rfl⟩
  | append_singleton ops op ih =>
    obtain ⟨item, hi, ha⟩ := ih
    unfold after at ha ⊢
    rw [List.foldlM_append, ha]
    cases op with
    | append key val =>
      obtain ⟨item', hi', -⟩ := fields_sets (items (ops ++ [.append key val]))
      have hset : item.set key val = some item' := by
        rw [Json.Value.sets] at hi hi'
        simp only [items, List.filterMap_append, List.foldlM_append] at hi hi'
        rw [hi] at hi'
        simpa using hi'
      refine ⟨item', hi', ?_⟩
      simp [step, append, hset]
    | insert env id =>
      have hsame : items (ops ++ [.insert env id]) = items ops := by simp [items]
      exact ⟨item, hsame ▸ hi, rfl⟩

/-- **What `insert` depends on.** After any two runs of calls with the same names, the documents are
the same exactly if the last `append` for each key has the same value. An `insert` clears nothing: a
document has the keys of the ones before. -/
theorem after_eq_iff (indexName : String) (docType : Option String) (ops ops' : List InsertOp) :
    after indexName docType ops = after indexName docType ops' ↔
      ∀ key, lastOf (items ops) key = lastOf (items ops') key := by
  obtain ⟨item, hi, ha⟩ := after_eq indexName docType ops
  obtain ⟨item', hi', ha'⟩ := after_eq indexName docType ops'
  rw [ha, ha', ← sets_eq_iff, hi, hi']
  simp

/-- **`insert` after any calls.** It returns `true` exactly if the document with the last value for
each key is serialized, and the server takes it. Else an error is logged. -/
theorem insert_iff (indexName : String) (docType : Option String) (ops : List InsertOp)
    (env : IndexEnv) (id : Option String) :
    ∃ s item, after indexName docType ops = some s ∧ Fields item (lastOf (items ops)) ∧
      ((s.insert env id).error = none ↔ (s.insert env id).ok = true) ∧
      ((s.insert env id).ok = true ↔ ∃ text,
        JsonUtil.serialize env.toSearchEnv item = some text ∧
        Accepted (env.index indexName (docType.getD "_doc") (id.getD "") text)) := by
  obtain ⟨item, hi, ha⟩ := after_eq indexName docType ops
  obtain ⟨item', hi', hf⟩ := fields_sets (items ops)
  obtain rfl : item = item' := Option.some.inj (hi.symm.trans hi')
  refine ⟨_, item, ha, hf, ?_⟩
  unfold insert
  cases JsonUtil.serialize env.toSearchEnv item with
  | none => simp
  | some text => simp [accept_error, accept_iff]

end ESInsert

/-- `remove` returns `true` exactly if the server takes it. Else an error is logged. -/
theorem ESRemove.remove_iff (indexName : String) (docType : Option String) (env : IndexEnv)
    (id : String) :
    (((new indexName docType).remove env id).error = none ↔
      ((new indexName docType).remove env id).ok = true) ∧
    (((new indexName docType).remove env id).ok = true ↔
      Accepted (env.remove indexName (docType.getD "_doc") id)) :=
  ⟨accept_error .., accept_iff ..⟩

end CharSystem
