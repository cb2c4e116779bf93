import CharSystem.Search.Basic

/-!
# The query that `ESSearch` builds

* `calls_pushes`: the `append_...` calls of a run are appends to the members of `_bool`, each of the
  clause that the code writes; `search` calls are nothing.
* `ESSearch.queryAfter_congr`: the query depends on the calls of each kind, in their order, and not
  on how they interleave, nor on the `search` calls between them.
* `asked`: the query that the calls ask for, with their own field names.
* `Build.query_iff`: the code builds it exactly when every `append_..._terms` call is for the field
  `"key"`, the name that the code writes for every field.
* `userIds`: a call for another field.
-/

namespace CharSystem

open Json

/-! ## Runs -/

/-- The `append_...` calls of a run. -/
def SearchOp.call? : SearchOp → Option ClauseCall
  | .append c => some c
  | .search _ => none

/-- The calls of a kind, in order. -/
def Kind.callsOf (k : Kind) (ops : List SearchOp) : List ClauseCall :=
  (ops.filterMap SearchOp.call?).filter (·.kind = k)

/-- The appends to members of `_bool`. -/
def written (calls : List ClauseCall) : List (String × Json.Value) :=
  calls.map fun c => (c.kind.name, c.written)

/-- The lists of clauses, for each kind, in key order. -/
def clauses (clause : ClauseCall → Json.Value) (calls : List ClauseCall) :
    List ((_ : String) × List Json.Value) :=
  [Kind.must, .mustNot, .should].map fun k =>
    ⟨k.name, (calls.filter (·.kind = k)).map clause⟩

theorem elemsOf_written (calls : List ClauseCall) (key : String) :
    elemsOf (written calls) key = (calls.filter (·.kind.name = key)).map ClauseCall.written := by
  simp [elemsOf, written, List.filter_map, Function.comp_def]

/-- **A run** of `append_...` and `search` calls. -/
theorem calls_pushes (s : ESSearch) (ps : List (String × Json.Value))
    (h : Json.Value.pushes ps = some s.bool) (ops : List SearchOp) : ∃ s',
      ops.foldlM ESSearch.step s = some s' ∧
      Json.Value.pushes (ps ++ written (ops.filterMap SearchOp.call?)) = some s'.bool := by
  induction ops generalizing s ps with
  | nil => exact ⟨s, rfl, by simpa [written] using h⟩
  | cons op ops ih =>
    rw [List.foldlM_cons]
    cases op with
    | append c =>
      obtain ⟨bool, hbool, -⟩ := lists_pushes (ps ++ [(c.kind.name, c.written)])
      have hpush : s.bool.push c.kind.name c.written = some bool := by
        rw [Json.Value.pushes] at h hbool
        rw [List.foldlM_append, h] at hbool
        simpa using hbool
      have hstep : s.step (.append c) = some { s with bool := bool } := by
        rw [ESSearch.step, ESSearch.append_eq, hpush, Option.map_some]
      rw [hstep]
      obtain ⟨s', hs', hps⟩ := ih { s with bool := bool } _ hbool
      exact ⟨s', hs', by rw [← hps]; simp [written, SearchOp.call?]⟩
    | search env =>
      rw [ESSearch.step, ESSearch.search_snd]
      exact ih s ps h

/-- The query after a run. -/
theorem ESSearch.queryAfter_eq (indexName : String) (docType : Option String)
    (ops : List SearchOp) : ∃ bool,
      Json.Value.pushes (written (ops.filterMap SearchOp.call?)) = some bool ∧
      queryAfter indexName docType ops =
        some (.object [⟨"query", .object [⟨"bool", bool⟩]⟩]) := by
  obtain ⟨s, hs, hps⟩ := calls_pushes (.new indexName docType) [] rfl ops
  exact ⟨s.bool, hps, by rw [queryAfter, hs]; rfl⟩

/-! ## The kinds are independent -/

/-- **Interleaving.** Two runs with the same calls of each kind, in order, build the same query. -/
theorem ESSearch.queryAfter_congr {ops ops' : List SearchOp}
    (h : ∀ k : Kind, k.callsOf ops = k.callsOf ops') (indexName indexName' : String)
    (docType docType' : Option String) : ∃ v,
      queryAfter indexName docType ops = some v ∧ queryAfter indexName' docType' ops' = some v := by
  obtain ⟨bool, hbool, hq⟩ := queryAfter_eq indexName docType ops
  obtain ⟨bool', hbool', hq'⟩ := queryAfter_eq indexName' docType' ops'
  have hsame : Json.Value.pushes (written (ops.filterMap SearchOp.call?)) =
      Json.Value.pushes (written (ops'.filterMap SearchOp.call?)) := by
    refine pushes_congr fun key => ?_
    rw [elemsOf_written, elemsOf_written]
    by_cases hk : ∃ k : Kind, k.name = key
    · obtain ⟨k, rfl⟩ := hk
      simp only [Kind.name_inj]
      exact congrArg (List.map ClauseCall.written) (h k)
    · simp only [fun c : ClauseCall => eq_false (fun hc => hk ⟨c.kind, hc⟩)]
      simp
  obtain rfl : bool = bool' := Option.some.inj (hbool.symm.trans (hsame.trans hbool'))
  exact ⟨_, hq, hq'⟩

/-- A server that cannot be reached. -/
def unreachable : SearchEnv where
  write := fun _ => (0, "")
  search := fun _ _ _ => .error "connection refused"
  parse := fun _ => (false, .null)

/-- Two clauses of different kinds, with and without a failed search between them. -/
theorem ESSearch.queryAfter_congr_unreachable : ∃ v,
    queryAfter "user" none [.append (.mustMatch "phone" "1"), .search unreachable,
      .append (.shouldMatch "nickname" "a")] = some v ∧
    queryAfter "user" none [.append (.shouldMatch "nickname" "a"),
      .append (.mustMatch "phone" "1")] = some v :=
  ESSearch.queryAfter_congr (fun k => by cases k <;> rfl) "user" "user" none none

/-! ## The query that the calls ask for -/

/-- The clause that a call asks for, with its own field name. -/
def ClauseCall.clause : ClauseCall → Json.Value
  | .mustNotTerms key vals => .object [⟨"terms", .object [⟨key, .array (vals.map .string)⟩]⟩]
  | .shouldMatch key val => .object [⟨"match", .object [⟨key, .string val⟩]⟩]
  | .mustTerms key vals => .object [⟨"terms", .object [⟨key, .array (vals.map .string)⟩]⟩]
  | .mustMatch key val => .object [⟨"match", .object [⟨key, .string val⟩]⟩]

/-- `{"query":{"bool":B}}`, where `B` has the kinds that got a call, each with its clauses. -/
def queryWith (clause : ClauseCall → Json.Value) (calls : List ClauseCall) : Json.Value :=
  .object [⟨"query", .object [⟨"bool", .object (arrays (clauses clause calls))⟩]⟩]

/-- The query that the calls ask for. -/
def asked (calls : List ClauseCall) : Json.Value := queryWith ClauseCall.clause calls

/-- The values of a call. -/
def ClauseCall.vals : ClauseCall → List String
  | .mustNotTerms _ vals => vals
  | .shouldMatch _ val => [val]
  | .mustTerms _ vals => vals
  | .mustMatch _ val => [val]

/-- A call of `append_..._terms` is for the field `"key"`. -/
def ClauseCall.TermsKey : ClauseCall → Prop
  | .mustNotTerms key _ => key = "key"
  | .mustTerms key _ => key = "key"
  | _ => True

instance : DecidablePred ClauseCall.TermsKey
  | .mustNotTerms key _ => inferInstanceAs (Decidable (key = "key"))
  | .shouldMatch _ _ => inferInstanceAs (Decidable True)
  | .mustTerms key _ => inferInstanceAs (Decidable (key = "key"))
  | .mustMatch _ _ => inferInstanceAs (Decidable True)

/-- The calls that build a query: at least one, and each with a value. -/
structure Build where
  calls : List ClauseCall
  calls_ne : calls ≠ []
  vals_ne : ∀ c ∈ calls, c.vals ≠ []

/-- The query after the calls, on a new `ESSearch`. -/
def Build.query (b : Build) (indexName : String) (docType : Option String) : Option Json.Value :=
  ESSearch.queryAfter indexName docType (b.calls.map .append)

section Clauses

variable {clause clause' : ClauseCall → Json.Value} {calls : List ClauseCall}

theorem sorted_clauses : Members.Sorted (clauses clause calls) := by
  simp only [Members.Sorted, clauses, List.map_cons, List.map_nil, List.pairwise_cons,
    List.mem_cons, forall_eq_or_imp, Kind.name]
  refine ⟨⟨by decide, by decide, nofun⟩, ⟨by decide, nofun⟩, nofun, List.Pairwise.nil⟩

theorem dlookup_clauses (key : String) : ((clauses clause calls).dlookup key).getD [] =
    (calls.filter (·.kind.name = key)).map clause := by
  by_cases hk : ∃ k : Kind, k.name = key
  · obtain ⟨k, rfl⟩ := hk
    simp only [Kind.name_inj]
    cases k <;> simp [clauses, Kind.name]
  · have hne : ∀ k : Kind, key ≠ k.name := fun k he => hk ⟨k, he.symm⟩
    rw [List.filter_eq_nil_iff.mpr fun c _ => by simpa using (hne c.kind).symm]
    simp [clauses, hne]

/-- Some kind got a call. -/
theorem ofLists_clauses (h : calls ≠ []) :
    ofLists (clauses clause calls) = .object (arrays (clauses clause calls)) := by
  obtain ⟨c, cs, rfl⟩ := List.exists_cons_of_ne_nil h
  have hmem : ⟨c.kind.name, ((c :: cs).filter (·.kind = c.kind)).map clause⟩ ∈
      clauses clause (c :: cs) :=
    List.mem_map.mpr ⟨c.kind, by cases c.kind <;> simp, rfl⟩
  exact ofLists_eq_object hmem (by simp)

/-- The query has the clause of each call. -/
theorem queryWith_eq_iff (h : calls ≠ []) :
    queryWith clause calls = queryWith clause' calls ↔ ∀ c ∈ calls, clause c = clause' c := by
  constructor
  · intro he c hc
    have hobj : ofLists (clauses clause calls) = ofLists (clauses clause' calls) := by
      rw [ofLists_clauses h, ofLists_clauses h]
      simpa [queryWith] using he
    have hlists := (lists_ofLists sorted_clauses).inj (hobj ▸ lists_ofLists sorted_clauses)
    have hkind := congrFun hlists c.kind.name
    rw [dlookup_clauses, dlookup_clauses] at hkind
    exact (List.map_inj_left.mp hkind c (List.mem_filter.mpr ⟨hc, by simp⟩)).symm
  · intro he
    have hclauses : clauses clause calls = clauses clause' calls := by
      refine List.map_congr_left fun k _ => ?_
      rw [List.map_congr_left fun c hc => he c (List.mem_filter.mp hc).1]
    rw [queryWith, queryWith, hclauses]

end Clauses

/-- The code writes the clause that a call asks for. -/
theorem ClauseCall.written_eq_iff {c : ClauseCall} (h : c.vals ≠ []) :
    c.written = c.clause ↔ c.TermsKey := by
  have hterms : ∀ {key : String} {vals : List String}, vals ≠ [] →
      (termsWritten vals = .object [⟨"terms", .object [⟨key, .array (vals.map .string)⟩]⟩] ↔
        key = "key") := by
    intro key vals hne
    have hobj : ofLists [⟨"key", vals.map .string⟩] =
        .object [⟨"key", .array (vals.map .string)⟩] := by
      obtain ⟨val, vals, rfl⟩ := List.exists_cons_of_ne_nil hne
      rfl
    rw [termsWritten, hobj]
    simp [eq_comm]
  cases c with
  | mustNotTerms key vals => exact hterms h
  | shouldMatch key val => exact iff_of_true rfl trivial
  | mustTerms key vals => exact hterms h
  | mustMatch key val => exact iff_of_true rfl trivial

/-- What the code builds. -/
theorem Build.query_eq (b : Build) (indexName : String) (docType : Option String) :
    b.query indexName docType = some (queryWith ClauseCall.written b.calls) := by
  obtain ⟨bool, hbool, hq⟩ := ESSearch.queryAfter_eq indexName docType (b.calls.map .append)
  have hcalls : (b.calls.map SearchOp.append).filterMap SearchOp.call? = b.calls := by
    rw [List.filterMap_map]
    exact List.filterMap_some
  rw [hcalls, pushes_eq_ofLists sorted_clauses fun key => by
    rw [elemsOf_written, dlookup_clauses], ofLists_clauses b.calls_ne] at hbool
  rw [Build.query, hq, queryWith, Option.some.inj hbool]

example : ESSearch.queryAfter "user" none
    [.append (.shouldMatch "nickname" "a"), .append (.mustTerms "user_id" ["u1", "u2"])] =
    some (.object [⟨"query", .object [⟨"bool", .object [
      ⟨"must", .array [.object [⟨"terms",
        .object [⟨"key", .array [.string "u1", .string "u2"]⟩]⟩]]⟩,
      ⟨"should", .array [.object [⟨"match", .object [⟨"nickname", .string "a"⟩]⟩]]⟩]⟩]⟩]) :=
  rfl

/-- **When the query says what was asked.** -/
theorem Build.query_iff (b : Build) (indexName : String) (docType : Option String) :
    b.query indexName docType = some (asked b.calls) ↔ ∀ c ∈ b.calls, c.TermsKey := by
  rw [b.query_eq, Option.some.injEq, asked, queryWith_eq_iff b.calls_ne]
  exact forall₂_congr fun c hc => ClauseCall.written_eq_iff (b.vals_ne c hc)

/-- A call for the field `user_id`. -/
def userIds : Build where
  calls := [.mustTerms "user_id" ["u1"]]
  calls_ne := List.cons_ne_nil _ _
  vals_ne := by decide

/-- The query of `userIds` is for the field `key`. -/
theorem not_asked : ¬ ∀ (b : Build) (indexName : String) (docType : Option String),
    b.query indexName docType = some (asked b.calls) := by
  intro h
  have he := h userIds "user" none
  rw [Build.query_eq, Option.some.injEq, asked, queryWith_eq_iff userIds.calls_ne] at he
  have hkey := he (.mustTerms "user_id" ["u1"]) List.mem_cons_self
  rw [ClauseCall.written_eq_iff (by decide)] at hkey
  revert hkey
  decide

end CharSystem
