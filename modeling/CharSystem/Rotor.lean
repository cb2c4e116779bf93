import Mathlib.Algebra.BigOperators.Group.List.Basic
import Mathlib.Data.List.Count
import Mathlib.Data.List.Nodup
import Mathlib.Data.List.Rotate

/-!
# Round robin over a list that grows and shrinks

A list of items and the position of the item that is shown next. The position wraps at the end that
the list has at that time; adding and removing items does not touch it.

* `Rotor.shows_mul`: with a fixed list, every full turn shows the items in cyclic order.
  `Rotor.count_shows`: the share of each item.
* `OnTurn`: what has been shown since a start, while items are added at the end. `OnTurn.done`: when
  the position is back at the start, one turn of a list between the two has been shown.
* `Rotor.shows_erase_iff`: when the removal of an item skips no other one.
-/

namespace CharSystem

/-- A list, and the position of the item that is shown next. -/
structure Rotor (α : Type) where
  items : List α
  pos : Nat

namespace Rotor

variable {α : Type}

/-- The item that is shown next. -/
def shown (r : Rotor α) : Option α := r.items[r.pos]?

/-- The position after the item has been shown. -/
def next (r : Rotor α) : Rotor α :=
  if r.items.length = 0 then r else { r with pos := (r.pos + 1) % r.items.length }

/-- A new item at the end. -/
def push (r : Rotor α) (a : α) : Rotor α := { r with items := r.items ++ [a] }

/-- The item at `i` removed. -/
def erase (r : Rotor α) (i : Nat) : Rotor α := { r with items := r.items.eraseIdx i }

/-- The next `n` items shown. -/
def shows (r : Rotor α) : Nat → List (Option α)
  | 0 => []
  | n + 1 => r.shown :: r.next.shows n

variable {r : Rotor α}

@[simp] theorem next_items : r.next.items = r.items := by
  unfold next
  split <;> rfl

theorem next_pos (h : r.pos < r.items.length) :
    r.next.pos = (r.pos + 1) % r.items.length := by
  unfold next
  rw [if_neg (by omega)]

theorem next_pos_lt (h : r.items ≠ []) : r.next.pos < r.items.length := by
  have hlen := List.length_pos_iff.mpr h
  unfold next
  rw [if_neg (by omega)]
  exact Nat.mod_lt _ hlen

theorem next_of_lt (h : r.pos + 1 < r.items.length) : r.next.pos = r.pos + 1 := by
  rw [next_pos (by omega), Nat.mod_eq_of_lt h]

theorem next_of_eq (h : r.pos + 1 = r.items.length) : r.next.pos = 0 := by
  rw [next_pos (by omega), h, Nat.mod_self]

theorem shown_of_lt (h : r.pos < r.items.length) : r.shown = some r.items[r.pos] :=
  List.getElem?_eq_getElem h

/-! ## Full turns -/

/-- The `i`-th item shown, counted from the position. -/
theorem shows_eq (h : r.pos < r.items.length) (n : Nat) :
    r.shows n = (List.range n).map fun i => r.items[(r.pos + i) % r.items.length]? := by
  induction n generalizing r with
  | zero => rfl
  | succ n ih =>
    have hnext : r.next.pos < r.next.items.length := by
      rw [next_items]
      exact next_pos_lt (List.ne_nil_of_length_pos (by omega))
    rw [shows, ih hnext, List.range_succ_eq_map, List.map_cons, List.map_map, next_items]
    congr 1
    · rw [shown, Nat.add_zero, Nat.mod_eq_of_lt h]
    · refine List.map_congr_left fun i _ => ?_
      have hi : (r.next.pos + i) % r.items.length = (r.pos + (i + 1)) % r.items.length := by
        rw [next_pos h, Nat.mod_add_mod]
        congr 1
        omega
      simp only [Function.comp_apply, hi]

/-- One turn. -/
theorem shows_length (h : r.pos < r.items.length) :
    r.shows r.items.length = (r.items.rotate r.pos).map some := by
  rw [shows_eq h]
  refine List.ext_getElem (by simp) fun i hi _ => ?_
  have hi : i < r.items.length := by simpa using hi
  have hmod : (r.pos + i) % r.items.length < r.items.length := Nat.mod_lt _ (by omega)
  simp only [List.getElem_map, List.getElem_range, List.getElem_rotate, Nat.add_comm i]
  exact List.getElem?_eq_getElem hmod

theorem shows_add (r : Rotor α) (m n : Nat) :
    r.shows (m + n) = r.shows m ++ (next^[m] r).shows n := by
  induction m generalizing r with
  | zero => simp [shows]
  | succ m ih =>
    rw [Nat.succ_add, shows, ih, shows, Function.iterate_succ_apply, List.cons_append]

/-- The rotor after `n` items have been shown. -/
theorem iterate_next (h : r.pos < r.items.length) (n : Nat) :
    next^[n] r = ⟨r.items, (r.pos + n) % r.items.length⟩ := by
  induction n with
  | zero =>
    rw [Function.iterate_zero_apply, Nat.add_zero, Nat.mod_eq_of_lt h]
  | succ n ih =>
    rw [Function.iterate_succ_apply', ih]
    unfold next
    rw [if_neg (by simp only; omega), Nat.mod_add_mod, Nat.add_assoc]

/-- **Full turns** show the items in cyclic order. -/
theorem shows_mul (h : r.pos < r.items.length) (k : Nat) :
    r.shows (k * r.items.length) =
      (List.replicate k ((r.items.rotate r.pos).map some)).flatten := by
  induction k with
  | zero => simp [shows]
  | succ k ih =>
    have hturn : next^[r.items.length] r = r := by
      rw [iterate_next h, Nat.add_mod_right, Nat.mod_eq_of_lt h]
    rw [Nat.succ_mul, Nat.add_comm, shows_add, hturn, ih, shows_length h, List.replicate_succ,
      List.flatten_cons]

/-- A part of a turn. -/
theorem shows_of_le (h : r.pos < r.items.length) {n : Nat} (hn : n ≤ r.items.length) :
    r.shows n = ((r.items.rotate r.pos).take n).map some := by
  have hlen : ∀ (n : Nat) (r : Rotor α), (r.shows n).length = n := by
    intro n
    induction n with
    | zero => exact fun _ => rfl
    | succ n ih => exact fun r => by rw [shows, List.length_cons, ih]
  obtain ⟨m, hm⟩ := Nat.exists_eq_add_of_le hn
  have hturn := shows_length h
  rw [hm, shows_add] at hturn
  rw [List.map_take, ← hturn, List.take_append_of_le_length (by rw [hlen]), List.take_of_length_le]
  rw [hlen]

/-- **Shares.** How often an item is shown: once in every full turn for each place that it has, and
perhaps in the turn that has begun. -/
theorem count_shows [DecidableEq α] (h : r.pos < r.items.length) (n : Nat) (c : α) :
    (r.shows n).count (some c) = n / r.items.length * r.items.count c +
      ((r.items.rotate r.pos).take (n % r.items.length)).count c := by
  have hcount : ∀ l : List α, (l.map some).count (some c) = l.count c := fun l =>
    List.count_map_of_injective l some (fun _ _ => Option.some.inj) c
  have hback : next^[n / r.items.length * r.items.length] r = r := by
    rw [iterate_next h, Nat.add_mul_mod_self_right, Nat.mod_eq_of_lt h]
  have hmod : n % r.items.length ≤ r.items.length :=
    Nat.le_of_lt (Nat.mod_lt n (by omega))
  calc (r.shows n).count (some c)
      = (r.shows (n / r.items.length * r.items.length + n % r.items.length)).count (some c) := by
        rw [Nat.div_add_mod']
    _ = (r.shows (n / r.items.length * r.items.length)).count (some c) +
          (r.shows (n % r.items.length)).count (some c) := by
        rw [shows_add, hback, List.count_append]
    _ = _ := by
        rw [shows_mul h, shows_of_le h hmod, List.count_flatten, List.map_replicate, hcount, hcount,
          List.sum_replicate_nat, (List.rotate_perm r.items r.pos).count_eq]

/-! ## Removal -/

/-- The items that are shown after the removal of one at or behind the position. -/
theorem shows_erase {l t : List α} {c : α} (hitems : r.items = l ++ c :: t)
    (hpos : r.pos ≤ l.length) (hlt : r.pos + 1 < r.items.length) :
    (r.erase l.length).shows (r.items.length - 1) = (l.drop r.pos ++ t ++ l.take r.pos).map some := by
  have herase : r.items.eraseIdx l.length = l ++ t := by
    rw [hitems, List.eraseIdx_append_of_length_le (Nat.le_refl _)]
    simp
  have hlen : (l ++ t).length = r.items.length - 1 := by
    rw [hitems]
    simp
  have hturn := shows_length (r := r.erase l.length) (by simp only [erase, herase]; omega)
  simp only [erase, herase, hlen] at hturn
  rw [erase, herase, hturn, List.rotate_eq_drop_append_take (by omega),
    List.drop_append_of_le_length hpos, List.take_append_of_le_length hpos]

/-- What is shown after the removal of an item that is not behind the position. -/
theorem shown_erase {p : Nat} (h : p ≤ r.pos) : (r.erase p).shown = r.items[r.pos + 1]? :=
  List.getElem?_eraseIdx_of_ge h

/-- **Removal.** Among distinct items, the removal of the item at `p` keeps the order in which the
others are shown in the next turn, exactly when the position is at most `p` and not at the end. -/
theorem shows_erase_iff [DecidableEq α] (hnodup : r.items.Nodup) (hpos : r.pos < r.items.length)
    {p : Nat} {c : α} (hp : r.items[p]? = some c) (hlen : 2 ≤ r.items.length) :
    (r.erase p).shows (r.items.length - 1) = (r.shows r.items.length).filter (· ≠ some c) ↔
      r.pos ≤ p ∧ r.pos + 1 < r.items.length := by
  obtain ⟨hlt, hc⟩ := List.getElem?_eq_some_iff.mp hp
  constructor
  · intro he
    by_contra hn
    obtain ⟨m, hm⟩ := Nat.exists_eq_add_of_le' hlen
    -- The head of both sides: the item that is shown next without the removal, and with it.
    have hhead : r.items[r.pos + 1]? :: (r.erase p).next.shows m =
        (r.shown :: r.next.shows (m + 1)).filter (· ≠ some c) := by
      rw [hm] at he
      rw [← shown_erase (show p ≤ r.pos by omega)]
      exact he
    by_cases hend : r.pos + 1 < r.items.length
    · have hne : r.shown ≠ some c := by
        intro hs
        have hp := (List.getElem?_inj hpos hnodup).mp (hs.trans hp.symm)
        omega
      rw [List.filter_cons_of_pos (by simpa using hne)] at hhead
      have hp := (List.getElem?_inj hend hnodup).mp (List.cons.inj hhead).1
      omega
    · have hnone : none ∈ r.shows r.items.length := by
        rw [List.getElem?_eq_none (by omega)] at hhead
        rw [hm, shows]
        exact List.mem_of_mem_filter (hhead ▸ List.mem_cons_self)
      rw [shows_length hpos] at hnone
      simp at hnone
  · rintro ⟨hle, hend⟩
    have hsplit : r.items = r.items.take p ++ c :: r.items.drop (p + 1) := by
      rw [← hc, List.cons_getElem_drop_succ, List.take_append_drop]
    have hl : (r.items.take p).length = p := by simp; omega
    generalize r.items.take p = l at hsplit hl
    generalize r.items.drop (p + 1) = t at hsplit
    subst hl
    have hmem : c ∉ l ∧ c ∉ t := by
      rw [hsplit, List.nodup_middle, List.nodup_cons, List.mem_append, not_or] at hnodup
      exact hnodup.1
    have hkeep : ∀ x : List α, c ∉ x → (x.map some).filter (· ≠ some c) = x.map some := by
      intro x hx
      refine List.filter_eq_self.mpr fun a ha => ?_
      obtain ⟨b, hb, rfl⟩ := List.mem_map.mp ha
      simpa using fun hbc : b = c => hx (hbc ▸ hb)
    rw [shows_erase hsplit hle hend, shows_length hpos,
      List.rotate_eq_drop_append_take (by omega)]
    rw [hsplit, List.drop_append_of_le_length hle, List.take_append_of_le_length hle]
    simp only [List.map_append, List.map_cons, List.filter_append]
    rw [List.filter_cons_of_neg (by simp), hkeep _ fun h => hmem.1 (List.mem_of_mem_drop h),
      hkeep _ hmem.2, hkeep _ fun h => hmem.1 (List.mem_of_mem_take h)]

end Rotor

/-! ## One turn while items are added -/

/-- `seen` has been shown since `start` was, the item at its position included but not in `seen`;
the position of `r` has not passed that item again. Either the position has not wrapped, or it
wrapped at the end of `ys`. -/
structure OnTurn {α : Type} (start r : Rotor α) (seen : List α) : Prop where
  startLt : start.pos < start.items.length
  grown : start.items <+: r.items
  posLt : r.pos < r.items.length
  seenEq : start.pos < r.pos ∧ seen = (r.items.take r.pos).drop (start.pos + 1) ∨
    r.pos ≤ start.pos ∧ ∃ ys, start.items <+: ys ∧ ys <+: r.items ∧
      seen = ys.drop (start.pos + 1) ++ ys.take r.pos

namespace OnTurn

variable {α : Type} {start r : Rotor α} {seen : List α}

theorem begin (h : start.pos < start.items.length) : OnTurn start start.next [] := by
  have hpos : start.next.pos < start.next.items.length := by
    rw [Rotor.next_items]
    exact Rotor.next_pos_lt (List.ne_nil_of_length_pos (by omega))
  refine ⟨h, by rw [Rotor.next_items], hpos, ?_⟩
  by_cases hend : start.pos + 1 < start.items.length
  · refine .inl ⟨by rw [Rotor.next_of_lt hend]; omega, ?_⟩
    rw [Rotor.next_of_lt hend]
    simp
  · have hzero : start.next.pos = 0 := Rotor.next_of_eq (by omega)
    refine .inr ⟨by omega, start.items, List.prefix_refl _, by rw [Rotor.next_items], ?_⟩
    rw [hzero, List.drop_eq_nil_of_le (by omega)]
    simp

/-- A new item. -/
theorem push (h : OnTurn start r seen) (a : α) : OnTurn start (r.push a) seen := by
  have hgrown : r.items <+: r.items ++ [a] := List.prefix_append _ _
  refine ⟨h.startLt, h.grown.trans hgrown, ?_, ?_⟩
  · have hlt := h.posLt
    simp only [Rotor.push, List.length_append, List.length_singleton]
    omega
  · refine h.seenEq.imp (And.imp_right fun hs => ?_) (And.imp_right fun ⟨ys, h1, h2, hs⟩ => ?_)
    · rw [hs, Rotor.push, List.take_append_of_le_length (Nat.le_of_lt h.posLt)]
    · exact ⟨ys, h1, h2.trans hgrown, hs⟩

/-- The item at the position is shown, and the start is not reached. -/
theorem next (h : OnTurn start r seen) (hne : r.pos ≠ start.pos) :
    ∃ a, r.shown = some a ∧ OnTurn start r.next (seen ++ [a]) := by
  have hlt := h.posLt
  refine ⟨r.items[r.pos], Rotor.shown_of_lt hlt, h.startLt, by rw [Rotor.next_items]; exact h.grown,
    ?_, ?_⟩
  · rw [Rotor.next_items]
    exact Rotor.next_pos_lt (List.ne_nil_of_length_pos (by omega))
  rw [Rotor.next_items]
  rcases h.seenEq with ⟨hpos, hs⟩ | ⟨hpos, ys, h1, h2, hs⟩
  · have hmore : seen ++ [r.items[r.pos]] = (r.items.take (r.pos + 1)).drop (start.pos + 1) := by
      rw [hs, List.take_add_one, List.getElem?_eq_getElem hlt,
        List.drop_append_of_le_length (by simp; omega)]
      rfl
    by_cases hend : r.pos + 1 < r.items.length
    · refine .inl ?_
      rw [Rotor.next_of_lt hend]
      exact ⟨by omega, hmore⟩
    · -- The position wraps: the list that it has turned through ends here.
      refine .inr ?_
      rw [Rotor.next_of_eq (by omega)]
      refine ⟨Nat.zero_le _, r.items, h.grown, List.prefix_refl _, ?_⟩
      rw [hmore, List.take_of_length_le (by omega)]
      simp
  · have hys : start.items.length ≤ ys.length := h1.length_le
    have hlen : ys.length ≤ r.items.length := h2.length_le
    have hstart := h.startLt
    refine .inr ?_
    rw [Rotor.next_of_lt (by omega)]
    refine ⟨by omega, ys, h1, h2, ?_⟩
    have hget : ys[r.pos]? = some r.items[r.pos] := by
      rw [List.getElem?_eq_getElem (by omega), h2.getElem]
    rw [hs, List.take_add_one, hget, List.append_assoc]
    rfl

/-- **One turn.** When the position is back at the start, what has been shown is one turn of a list
`ys` that has the items of the start and none but those of the end. -/
theorem done (h : OnTurn start r seen) (hpos : r.pos = start.pos) {c : α} (hc : start.shown = some c) :
    ∃ ys, start.items <+: ys ∧ ys <+: r.items ∧ c :: seen = ys.rotate start.pos := by
  rcases h.seenEq with ⟨hlt, -⟩ | ⟨-, ys, h1, h2, hs⟩
  · omega
  · have hle := h1.length_le
    have hstart := h.startLt
    refine ⟨ys, h1, h2, ?_⟩
    have hget : ys[start.pos] = c := by
      rw [Rotor.shown_of_lt hstart, Option.some.injEq] at hc
      rw [← hc, h1.getElem]
    rw [hs, hpos, List.rotate_eq_drop_append_take (by omega), ← List.cons_append, ← hget,
      List.cons_getElem_drop_succ]

end OnTurn

end CharSystem
