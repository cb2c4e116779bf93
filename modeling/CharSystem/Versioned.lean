import Mathlib.Logic.Basic

/-!
# Versioned copies

The owner of a value counts its changes (`version`). A copy remembers the version that it was made
from, and whoever uses the copy makes it again only when the versions differ, or when there is none
yet (`bound` is false). Copies may have copies.

* `Follows bound copy orig`: a copy in use with the version of the original has its value.
* A change with a new version (`Follows.bump`) keeps that, and a refresh gives the original
  (`Follows.refresh_eq`).
* `Follows.silent_iff`: a change without a new version breaks it exactly for a copy that is up to
  date.
-/

namespace CharSystem

/-- A value and the number of its changes. -/
structure Versioned (α : Type) where
  value : α
  version : Nat
  deriving DecidableEq, Repr

namespace Versioned

variable {α : Type} {bound : Prop} {copy orig : Versioned α}

/-- The copy is in use and has the version of the original: it will not be made again. -/
def UpToDate (bound : Prop) (copy orig : Versioned α) : Prop := bound ∧ copy.version = orig.version

/-- A copy that is up to date has the value of the original. -/
structure Follows (bound : Prop) (copy orig : Versioned α) : Prop where
  version_le : copy.version ≤ orig.version
  value_eq : UpToDate bound copy orig → copy.value = orig.value

/-- The copy that a user works with. -/
def refresh (bound : Prop) [Decidable bound] (copy orig : Versioned α) : Versioned α :=
  if copy.version ≠ orig.version ∨ ¬ bound then orig else copy

theorem Follows.refl (bound : Prop) (orig : Versioned α) : Follows bound orig orig :=
  ⟨Nat.le_refl _, fun _ => rfl⟩

/-- A copy in use with the version of the original. -/
theorem Follows.eq_of_upToDate (h : Follows bound copy orig) (hu : UpToDate bound copy orig) :
    copy = orig := by
  have hv := h.value_eq hu
  obtain ⟨-, hn⟩ := hu
  cases copy
  cases orig
  simp only at hv hn
  rw [hv, hn]

/-- **A refreshed copy is the original.** -/
theorem Follows.refresh_eq [Decidable bound] (h : Follows bound copy orig) :
    refresh bound copy orig = orig := by
  unfold refresh
  split
  · rfl
  · rename_i hn
    rw [not_or, not_not, not_not] at hn
    exact h.eq_of_upToDate ⟨hn.2, hn.1⟩

/-- A change with a new version. -/
theorem Follows.bump (h : Follows bound copy orig) {orig' : Versioned α}
    (hv : orig.version < orig'.version) : Follows bound copy orig' :=
  ⟨Nat.le_of_lt (Nat.lt_of_le_of_lt h.version_le hv), fun hu =>
    absurd hu.2 (Nat.ne_of_lt (Nat.lt_of_le_of_lt h.version_le hv))⟩

/-- No change, or one that no user of the copy can see. -/
theorem Follows.congr (h : Follows bound copy orig) {orig' : Versioned α}
    (hv : orig'.version = orig.version) (he : bound → orig'.value = orig.value) :
    Follows bound copy orig' :=
  ⟨by rw [hv]; exact h.version_le, fun hu => by
    rw [he hu.1]
    exact h.value_eq ⟨hu.1, hu.2.trans hv⟩⟩

/-- **A change without a new version** goes unnoticed exactly when the copy is up to date. -/
theorem Follows.silent_iff (h : Follows bound copy orig) {orig' : Versioned α}
    (hv : orig'.version = orig.version) (hne : orig'.value ≠ orig.value) :
    Follows bound copy orig' ↔ ¬ UpToDate bound copy orig := by
  constructor
  · intro h' hu
    have he : copy.value = orig'.value := h'.value_eq ⟨hu.1, hu.2.trans hv.symm⟩
    exact hne (he.symm.trans (h.value_eq hu))
  · intro hn
    exact ⟨by rw [hv]; exact h.version_le, fun hu => absurd ⟨hu.1, hu.2.trans hv⟩ hn⟩

end Versioned

end CharSystem
