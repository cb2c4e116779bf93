import CharSystem.Run
import Mathlib.Data.String.Basic
import Mathlib.Logic.Function.Basic

/-!
# `Discovery` and the registry (`etcd.hpp`)

`class Discovery` turns what the etcd client reports into calls of `put_cb` and `del_cb`. The client
and the server are not part of the repository: a response is data (`Response`), and the registry is
a map from keys to values that the changes of all clients update (`Change.apply`).

* A callback is a function on a state `σ`: what its calls change. A null `std::function` is `none`.
* `Change.event`: the event that a watcher gets for a committed change. A `delete` of an absent key
  commits nothing and gives no event.
* `selects`: the keys of `ls(base_dir)` and of a recursive `Watcher` on `base_dir`.
* `Discovery.callback_ofEvents`: events may be delivered in one response or in several.
-/

namespace CharSystem

/-- `etcd::Value`: `key()` and `as_string()`. -/
structure Value where
  key : String
  asString : String
  deriving DecidableEq, Repr

/-- `etcd::Event::EventType`. `callback` ignores every type but the first two. -/
inductive EventType where
  | PUT
  | DELETE_
  | INVALID
  deriving DecidableEq, Repr

/-- `etcd::Event`. -/
structure Event where
  eventType : EventType
  kv : Value
  prevKv : Value
  deriving DecidableEq, Repr

/-- `etcd::Response`: what `Discovery` reads of the answer of `ls` (`values`) and of a notification
(`events`). -/
structure Response where
  errorCode : Int
  values : List Value
  events : List Event
  deriving DecidableEq, Repr

/-- A notification of the events `events`, without error. -/
def Response.ofEvents (events : List Event) : Response where
  errorCode := 0
  values := []
  events := events

/-- `class Discovery`: its callbacks. -/
structure Discovery (σ : Type) where
  putCb : Option (String → String → σ → σ)
  delCb : Option (String → String → σ → σ)

namespace Discovery

variable {σ : Type} (d : Discovery σ)

/-- `if (_put_cb) _put_cb(key, value)`. -/
def put (s : σ) (v : Value) : σ :=
  match d.putCb with
  | some putCb => putCb v.key v.asString s
  | none => s

/-- `if (_del_cb) _del_cb(key, value)`. -/
def del (s : σ) (v : Value) : σ :=
  match d.delCb with
  | some delCb => delCb v.key v.asString s
  | none => s

/-- The body of the loop of `callback`. -/
def onEvent (s : σ) (ev : Event) : σ :=
  match ev.eventType with
  | .PUT => d.put s ev.kv
  | .DELETE_ => d.del s ev.prevKv
  | .INVALID => s

/-- `callback`. -/
def callback (s : σ) (resp : Response) : σ :=
  if resp.errorCode ≠ 0 then s else resp.events.foldl d.onEvent s

end Discovery

/-! ## The registry -/

/-- The content of the registry. -/
abbrev Registry := String → Option String

/-- A change that a client commits. -/
inductive Change where
  | put (key value : String)
  | delete (key : String)
  deriving DecidableEq, Repr

namespace Change

/-- The key that a change is about. -/
def key : Change → String
  | .put key _ => key
  | .delete key => key

/-- The registry after a change. -/
def apply (reg : Registry) : Change → Registry
  | .put key value => Function.update reg key (some value)
  | .delete key => Function.update reg key none

/-- The event of a change that is committed in `reg`. The previous value of a created key is
empty. -/
def event (reg : Registry) : Change → Option Event
  | .put key value =>
    some
      { eventType := .PUT
        kv := ⟨key, value⟩
        prevKv := match reg key with
          | some prev => ⟨key, prev⟩
          | none => ⟨"", ""⟩ }
  | .delete key =>
    match reg key with
    | some prev => some { eventType := .DELETE_, kv := ⟨key, ""⟩, prevKv := ⟨key, prev⟩ }
    | none => none

end Change

/-- `base_dir` is a string prefix of the key. -/
def selects (baseDir key : String) : Bool := baseDir.toList.isPrefixOf key.toList

/-! ## What the operations do -/

namespace Discovery

variable {σ : Type} (d : Discovery σ)

@[simp] theorem callback_ofEvents (s : σ) (events : List Event) :
    d.callback s (.ofEvents events) = run d.onEvent s events := rfl

/-- A response with several events is the responses with one event each. -/
theorem callback_ofEvents_append (s : σ) (events events' : List Event) :
    d.callback s (.ofEvents (events ++ events')) =
      d.callback (d.callback s (.ofEvents events)) (.ofEvents events') := by
  simp only [callback_ofEvents, run_append]

/-- A notification with an error code changes nothing. -/
theorem callback_error (s : σ) {resp : Response} (h : resp.errorCode ≠ 0) :
    d.callback s resp = s :=
  if_pos h

end Discovery

namespace Change

variable {reg : Registry} {ev : Event}

@[simp] theorem apply_self_put (reg : Registry) (key value : String) :
    (put key value).apply reg key = some value := Function.update_self ..

@[simp] theorem apply_self_delete (reg : Registry) (key : String) :
    (delete key).apply reg key = none := Function.update_self ..

theorem apply_of_ne (reg : Registry) {c : Change} {key : String} (h : c.key ≠ key) :
    c.apply reg key = reg key := by
  cases c with
  | put key' value => exact Function.update_of_ne (Ne.symm h) _ _
  | delete key' => exact Function.update_of_ne (Ne.symm h) _ _

/-- The keys that no change is about. -/
theorem run_apply_of_notMem (reg : Registry) {cs : List Change} {key : String}
    (h : ∀ c ∈ cs, c.key ≠ key) : run Change.apply reg cs key = reg key := by
  induction cs generalizing reg with
  | nil => rfl
  | cons c cs ih =>
    rw [run_cons, ih _ fun c' hc => h c' (List.mem_cons_of_mem c hc)]
    exact apply_of_ne reg (h c List.mem_cons_self)

theorem apply_congr {reg reg' : Registry} {c : Change} {key : String}
    (h : c.key = key ∨ reg key = reg' key) : c.apply reg key = c.apply reg' key := by
  by_cases hc : c.key = key
  · subst hc
    cases c <;> simp [Change.key]
  · rw [apply_of_ne reg hc, apply_of_ne reg' hc]
    exact h.resolve_left hc

/-- Two registries agree on a key after changes that agree on the changes about it, if there are
any or the registries agreed before. -/
theorem run_apply_filter {p : Change → Bool} {key : String} (hp : ∀ c, c.key = key → p c = true)
    {reg reg' : Registry} {cs : List Change} (h : (∃ c ∈ cs, c.key = key) ∨ reg key = reg' key) :
    run Change.apply reg (cs.filter p) key = run Change.apply reg' cs key := by
  induction cs generalizing reg reg' with
  | nil => simpa using h
  | cons c cs ih =>
    by_cases hc : c.key = key
    · rw [List.filter_cons_of_pos (hp c hc)]
      exact ih (.inr (apply_congr (.inl hc)))
    · have hrest : (∃ c ∈ cs, c.key = key) ∨ reg key = reg' key := by simpa [hc] using h
      cases hpc : p c with
      | true =>
        rw [List.filter_cons_of_pos hpc]
        exact ih (hrest.imp_right fun he => apply_congr (.inr he))
      | false =>
        rw [List.filter_cons_of_neg (by simp [hpc])]
        exact ih (hrest.imp_right fun he => by rw [apply_of_ne reg' hc, he])

/-- What `callback` does on the event of a change: the callback for the change, with the previous
value of a deleted key. -/
theorem onEvent_event {σ : Type} (d : Discovery σ) (s : σ) {c : Change}
    (h : c.event reg = some ev) :
    (∃ value, c = .put ev.kv.key value ∧ d.onEvent s ev = d.put s ⟨ev.kv.key, value⟩) ∨
      ∃ prev, c = .delete ev.kv.key ∧ reg ev.kv.key = some prev ∧
        d.onEvent s ev = d.del s ⟨ev.kv.key, prev⟩ := by
  cases c with
  | put key value =>
    cases h
    exact .inl ⟨value, rfl, rfl⟩
  | delete key =>
    simp only [event] at h
    split at h
    · rename_i prev hprev
      cases h
      exact .inr ⟨prev, rfl, hprev, rfl⟩
    · cases h

/-- The key of an event. -/
theorem event_key {c : Change} (h : c.event reg = some ev) : ev.kv.key = c.key := by
  cases c with
  | put key value => cases h; rfl
  | delete key =>
    simp only [event] at h
    split at h
    · cases h; rfl
    · cases h

end Change

end CharSystem
