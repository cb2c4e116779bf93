import CharSystem.Json

/-!
# `ESSearch`: a search query that is built in place (`icsearch.hpp`)

* Each `append_...` method of the source appends a clause to a member of `_bool`. They are two
  methods with a member's name: `appendTerms` and `appendMatch`. A method gives `none` where
  `jsoncpp` throws.
* `search` puts `_bool` in a query, serializes it, and sends it. The writer, the reader and the
  server are the environment's (`SearchEnv`). What it logs at debug level and prints is left out.
* A run of an `ESSearch` is a sequence of method calls (`SearchOp`).
-/

namespace CharSystem

open Json

/-- `cpr::Response`. -/
structure Cpr.Response where
  statusCode : Int
  text : String
  deriving DecidableEq, Repr

/-- What the environment does in one `search`. -/
structure SearchEnv where
  /-- `Json::StreamWriter::write`: what it returns, and what is in the stream after it. -/
  write : Json.Value → Int × String
  /-- `elasticlient::Client::search` of an index, a document type and a body: the response, or the
  text of the exception. -/
  search : String → String → String → Except String Cpr.Response
  /-- `Json::CharReader::parse`: what it returns, and what is in the root after it. -/
  parse : String → Bool × Json.Value

namespace JsonUtil

/-- `Json_Util::serialize`. -/
def serialize (env : SearchEnv) (root : Json.Value) : Option String :=
  let (ret, str) := env.write root
  if ret < 0 then none else some str

/-- `Json_Util::unserialize`: what it returns, and the root. -/
def unserialize (env : SearchEnv) (str : String) : Bool × Json.Value :=
  env.parse str

end JsonUtil

/-- `class ESSearch`, without its client. -/
structure ESSearch where
  indexName : String
  docType : String
  bool : Json.Value

/-- What `search` returns, and the error that it logs. -/
structure SearchReturn where
  value : Json.Value
  error : Option String

namespace ESSearch

/-- The constructor. `docType` has a default argument. -/
def new (indexName : String) (docType : Option String) : ESSearch where
  indexName := indexName
  docType := docType.getD "_doc"
  bool := .null

/-- `append_..._terms`, with the member of `_bool` that it appends to. The caller's `key` is not
used. -/
def appendTerms (name : String) (s : ESSearch) (_key : String) (vals : List String) :
    Option ESSearch := do
  let terms ← vals.foldlM (fun terms val => terms.push "key" (.string val)) Json.Value.null
  let tmp ← Json.Value.null.set "terms" terms
  let bool ← s.bool.push name tmp
  return { s with bool := bool }

/-- `append_..._match`, with the member of `_bool` that it appends to. -/
def appendMatch (name : String) (s : ESSearch) (key val : String) : Option ESSearch := do
  let clause ← Json.Value.null.set key (.string val)
  let tmp ← Json.Value.null.set "match" clause
  let bool ← s.bool.push name tmp
  return { s with bool := bool }

/-- `append_must_not_terms`. -/
def appendMustNotTerms : ESSearch → String → List String → Option ESSearch := appendTerms "must_not"

/-- `append_should_match`. -/
def appendShouldMatch : ESSearch → String → String → Option ESSearch := appendMatch "should"

/-- `append_must_terms`. -/
def appendMustTerms : ESSearch → String → List String → Option ESSearch := appendTerms "must"

/-- `append_must_match`. -/
def appendMustMatch : ESSearch → String → String → Option ESSearch := appendMatch "must"

/-- The value that `search` serializes. -/
def query (s : ESSearch) : Option Json.Value := do
  let query ← Json.Value.null.set "bool" s.bool
  Json.Value.null.set "query" query

/-- `search`: what it returns, and the new state. -/
def search (s : ESSearch) (env : SearchEnv) : Option (SearchReturn × ESSearch) := do
  let tmp ← s.query
  match JsonUtil.serialize env tmp with
  | none => return ({ value := .null, error := some "索引序列化失败！" }, s)
  | some body =>
    match env.search s.indexName s.docType body with
    | .error what => return ({ value := .null, error := some s!"检索数据 {body} 失败: {what}" }, s)
    | .ok rsp =>
      if rsp.statusCode < 200 ∨ rsp.statusCode ≥ 300 then
        let statusCode := rsp.statusCode
        let error := s!"检索数据 {body} 失败，响应状态码异常: {statusCode}"
        return ({ value := .null, error := some error }, s)
      else
        -- a text that is not JSON gives what the reader left
        let (_, back) := JsonUtil.unserialize env rsp.text
        return ({ value := back, error := none }, s)

end ESSearch

/-- A call of an `append_...` method. -/
inductive ClauseCall where
  | mustNotTerms (key : String) (vals : List String)
  | shouldMatch (key val : String)
  | mustTerms (key : String) (vals : List String)
  | mustMatch (key val : String)
  deriving DecidableEq, Repr

/-- A call of an `ESSearch` method. -/
inductive SearchOp where
  | append (c : ClauseCall)
  | search (env : SearchEnv)

namespace ESSearch

/-- The call of a clause. -/
def append (s : ESSearch) : ClauseCall → Option ESSearch
  | .mustNotTerms key vals => s.appendMustNotTerms key vals
  | .shouldMatch key val => s.appendShouldMatch key val
  | .mustTerms key vals => s.appendMustTerms key vals
  | .mustMatch key val => s.appendMustMatch key val

/-- The state after a call. -/
def step (s : ESSearch) : SearchOp → Option ESSearch
  | .append c => s.append c
  | .search env => (s.search env).map Prod.snd

/-- The value that a `search` after the calls serializes. -/
def queryAfter (indexName : String) (docType : Option String) (ops : List SearchOp) :
    Option Json.Value := do
  let s ← ops.foldlM step (new indexName docType)
  s.query

end ESSearch

/-! ## What the operations do -/

/-- The members of a `bool` query that an `ESSearch` builds, in key order. -/
inductive Kind where
  | must
  | mustNot
  | should
  deriving DecidableEq, Repr

/-- The name of the member. -/
def Kind.name : Kind → String
  | .must => "must"
  | .mustNot => "must_not"
  | .should => "should"

theorem Kind.name_inj {k k' : Kind} : k.name = k'.name ↔ k = k' := by
  cases k <;> cases k' <;> decide

namespace ClauseCall

/-- The member that a call appends to. -/
def kind : ClauseCall → Kind
  | .mustNotTerms _ _ => .mustNot
  | .shouldMatch _ _ => .should
  | .mustTerms _ _ => .must
  | .mustMatch _ _ => .must

/-- `{"match":{key:val}}`. -/
def matchClause (key val : String) : Json.Value :=
  .object [⟨"match", .object [⟨key, .string val⟩]⟩]

/-- What `append_..._terms` writes. Without values, the member `terms` is null. -/
def termsWritten (vals : List String) : Json.Value :=
  .object [⟨"terms", ofLists [⟨"key", vals.map .string⟩]⟩]

/-- The clause that the code writes for a call. -/
def written : ClauseCall → Json.Value
  | .mustNotTerms _ vals => termsWritten vals
  | .shouldMatch key val => matchClause key val
  | .mustTerms _ vals => termsWritten vals
  | .mustMatch key val => matchClause key val

end ClauseCall

namespace ESSearch

variable (s : ESSearch)

/-- The loop of `append_..._terms`. -/
theorem terms_eq (vals : List String) :
    vals.foldlM (fun terms val => terms.push "key" (.string val)) Json.Value.null =
      some (ofLists [⟨"key", vals.map .string⟩]) := by
  have hpushes : vals.foldlM (fun terms val => terms.push "key" (.string val)) Json.Value.null =
      Json.Value.pushes (vals.map fun val => ("key", .string val)) := by
    rw [Json.Value.pushes, List.foldlM_map]
  rw [hpushes]
  refine pushes_eq_ofLists (List.pairwise_singleton _ _) fun key => ?_
  by_cases hk : key = "key"
  · subst hk
    simp [elemsOf, List.filter_map, Function.comp_def]
  · simp [elemsOf, List.filter_map, Function.comp_def, hk, Ne.symm hk]

/-- A call appends its clause to its member. -/
theorem append_eq (c : ClauseCall) :
    s.append c = (s.bool.push c.kind.name c.written).map fun bool => { s with bool := bool } := by
  have hterms : ∀ name key vals, appendTerms name s key vals =
      (s.bool.push name (ClauseCall.termsWritten vals)).map fun bool => { s with bool := bool } := by
    intro name key vals
    rw [appendTerms, terms_eq, Option.map_eq_bind]
    rfl
  have hmatch : ∀ name key val, appendMatch name s key val =
      (s.bool.push name (ClauseCall.matchClause key val)).map fun bool => { s with bool := bool } := by
    intro name key val
    rw [Option.map_eq_bind]
    rfl
  cases c with
  | mustNotTerms key vals => exact hterms "must_not" key vals
  | shouldMatch key val => exact hmatch "should" key val
  | mustTerms key vals => exact hterms "must" key vals
  | mustMatch key val => exact hmatch "must" key val

theorem query_eq :
    s.query = some (.object [⟨"query", .object [⟨"bool", s.bool⟩]⟩]) := rfl

/-- **`search` leaves the state**, on every path. -/
theorem search_snd (env : SearchEnv) : (s.search env).map Prod.snd = some s := by
  simp only [search, query_eq, Option.bind_eq_bind, Option.bind_some]
  split
  · rfl
  · split
    · rfl
    · split <;> rfl

end ESSearch

end CharSystem
