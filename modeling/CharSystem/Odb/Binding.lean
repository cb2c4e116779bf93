import CharSystem.Odb.Basic
import CharSystem.Run

/-!
# Bindings that are up to date (`person-odb.cxx`)

A binding is made from the image and counts as current while it has the version of the image. The
image gets a new version when `init` or `grow` report that the name buffer grew. If the conversion of
`_update` throws, `init` reports nothing, also when the name buffer has grown before.

* `Inv`: the prepared statements follow their bindings. Every operation keeps it.
* `Current`: every binding that counts as current describes the name buffer as it is.
* `Ready`: a statement can be executed. `Ready.valid`: it goes through arrays that describe the images.
-/

namespace CharSystem.Odb

namespace Statements

variable {τ ι : Type} (rt : Runtime τ ι) (s : Statements ι)

/-- A binding, with the image version that it was made for. -/
def made (sk : StatementKind) : Versioned (List MysqlBind) :=
  ⟨(s.imageBinding sk).value, s.imageVersion sk⟩

/-- What `bind` makes of the image. -/
def layout (sk : StatementKind) : Versioned (List MysqlBind) := ⟨bind s.image sk, s.image.version⟩

/-- The binding has been made. -/
def Bound (sk : StatementKind) : Prop := (s.imageBinding sk).version ≠ 0

/-- Every binding that counts as current is what `bind` makes of the image. -/
def Current : Prop := ∀ sk, Versioned.Follows (s.Bound sk) (s.made sk) (s.layout sk)

/-- A binding counts as current. -/
def UpToDate (sk : StatementKind) : Prop := Versioned.UpToDate (s.Bound sk) (s.made sk) (s.layout sk)

/-- A prepared statement follows its binding. -/
def Prepares (p : Prepared) (b : Binding) : Prop := Versioned.Follows (p.version ≠ 0) p b

/-- The ids keep version 0, and the prepared statements, which have taken over `taken`, follow their
bindings. -/
structure Inv (taken : Slot → Prepared) : Prop where
  idVersion : s.idImage.version = 0
  idImageVersion : s.idImageVersion = 0
  updateIdImageVersion : s.updateIdImageVersion = 0
  id_bound : s.idImageBinding.version ≠ 0 → s.idImageBinding.value = bindId
  follows : ∀ sl, Prepares (taken sl) (s.binding sl)
  follows_id : (taken .update).version ≠ 0 → s.idImageBinding.version ≠ 0

end Statements

/-- A call goes through the image binding of this kind, or through none. -/
def StatementCall.Uses : StatementCall → StatementKind → Prop
  | .insert, sk => sk = .insert
  | .update, sk => sk = .update
  | .erase, _ => True
  | .select, sk => sk = .select
  | .fetch, sk => sk = .select
  | .refetch, sk => sk = .select

open Statements

variable {τ ι : Type} {rt : Runtime τ ι} {s : Statements ι} {taken : Slot → Prepared}

/-! ## The image -/

theorem bind_congr {i i' : ImageType ι} (h : i.nameValue.SameAs i'.nameValue) (sk : StatementKind) :
    bind i sk = bind i' sk := by
  unfold bind
  rw [h.1, h.2]

theorem bind_ne {i i' : ImageType ι} (h : i.nameValue.capacity ≠ i'.nameValue.capacity)
    (sk : StatementKind) : bind i sk ≠ bind i' sk := by
  cases sk <;> simp [bind, h]

theorem Buffer.grow_of_le {b : Buffer} {size addr : Nat} (h : size ≤ b.capacity) :
    b.grow rt size addr = b :=
  if_neg (Nat.not_lt.mpr h)

theorem Buffer.grow_of_lt {b : Buffer} {size addr : Nat} (h : b.capacity < size) :
    b.grow rt size addr = { data := addr, capacity := rt.growTo b.capacity size, bytes := [] } :=
  if_pos h

theorem Buffer.le_grow (b : Buffer) (size addr : Nat) : size ≤ (b.grow rt size addr).capacity := by
  unfold Buffer.grow
  split
  · exact rt.le_growTo _ _
  · omega

theorem Buffer.capacity_lt_grow {b : Buffer} {size : Nat} (addr : Nat) (h : b.capacity < size) :
    b.capacity < (b.grow rt size addr).capacity :=
  Nat.lt_of_lt_of_le h (b.le_grow size addr)

variable (rt) in
/-- The image after `init`, up to its version. -/
theorem init_snd (i : ImageType ι) (obj : Person τ) (sk : StatementKind) (addr : Nat) :
    (init rt i obj sk addr).2.version = i.version ∧
      (init rt i obj sk addr).2.nameValue.SameAs (i.nameValue.grow rt obj.name.length addr) := by
  unfold init
  cases sk <;> cases rt.setImage obj.update with
  | error e => exact ⟨rfl, rfl, rfl⟩
  | ok u => cases u <;> exact ⟨rfl, rfl, rfl⟩

/-- The columns in the image after `init`. -/
theorem init_ok {obj : Person τ} {u : Option ι} (hu : rt.setImage obj.update = .ok u)
    (i : ImageType ι) (sk : StatementKind) (addr : Nat) :
    (init rt i obj sk addr).1 =
        .ok (i.nameValue.capacity != (i.nameValue.grow rt obj.name.length addr).capacity) ∧
      (init rt i obj sk addr).2.Holds obj.age obj.name u ∧
      (sk = .insert → (init rt i obj sk addr).2.idNull = false) := by
  unfold init
  rw [hu]
  cases sk <;> cases u with
  | none =>
    exact ⟨rfl, ⟨rfl, rfl, rfl, List.take_length, rfl, nofun⟩, by simp [setName]⟩
  | some v =>
    exact ⟨rfl, ⟨rfl, rfl, rfl, List.take_length, rfl, fun w hw => Option.some.inj hw⟩, by
      simp [setName]⟩

theorem init_error {obj : Person τ} {e : Error} (hu : rt.setImage obj.update = .error e)
    (i : ImageType ι) (sk : StatementKind) (addr : Nat) :
    (init rt i obj sk addr).1 = .error e := by
  unfold init
  rw [hu]

/-! ## What the steps keep -/

namespace Statements

section Frame

variable (s) (sk : StatementKind) (id : UInt64) (u : Bool)

@[simp] theorem rebind_image : (s.rebind sk).image = s.image := by unfold rebind; split <;> rfl
@[simp] theorem rebind_idImage : (s.rebind sk).idImage = s.idImage := by unfold rebind; split <;> rfl
@[simp] theorem rebind_idImageBinding : (s.rebind sk).idImageBinding = s.idImageBinding := by
  unfold rebind; split <;> rfl
@[simp] theorem rebindId_image : s.rebindId.image = s.image := by unfold rebindId; split <;> rfl
@[simp] theorem rebindId_idImage : s.rebindId.idImage = s.idImage := by unfold rebindId; split <;> rfl
@[simp] theorem rebindId_imageBinding : s.rebindId.imageBinding = s.imageBinding := by
  unfold rebindId; split <;> rfl
@[simp] theorem rebindId_imageVersion : s.rebindId.imageVersion = s.imageVersion := by
  unfold rebindId; split <;> rfl
@[simp] theorem rebindUpdateId_image : (s.rebindUpdateId u).image = s.image := by
  unfold rebindUpdateId; split
  · cases u <;> simp
  · rfl
@[simp] theorem rebindUpdateId_idImage : (s.rebindUpdateId u).idImage = s.idImage := by
  unfold rebindUpdateId; split
  · cases u <;> simp
  · rfl

end Frame

/-- A change of the images that keeps the layout of the name buffer, or gives the image a new
version. -/
theorem Current.of_image (h : s.Current) {s' : Statements ι} (hb : s'.imageBinding = s.imageBinding)
    (hv : s'.imageVersion = s.imageVersion)
    (hi : s.image.version < s'.image.version ∨ s'.image.version = s.image.version ∧
      s'.image.nameValue.SameAs s.image.nameValue) : s'.Current := by
  intro sk
  have hs := h sk
  unfold Bound made at hs ⊢
  rw [hb, hv]
  rcases hi with hlt | ⟨he, hsame⟩
  · exact hs.bump hlt
  · exact hs.congr he fun _ => bind_congr hsame sk

/-- No binding counts as current. -/
theorem Current.of_newer (h : ∀ sk, s.imageVersion sk < s.image.version) : s.Current :=
  fun sk => ⟨Nat.le_of_lt (h sk), fun hu => absurd hu.2 (Nat.ne_of_lt (h sk))⟩

/-- **Binding the image** brings the binding up to date. -/
theorem Current.bindImage (h : s.Current) (sk : StatementKind) : (s.bindImage sk).Current := by
  intro sk'
  by_cases hsk : sk' = sk
  · subst hsk
    refine ⟨?_, fun _ => ?_⟩
    · simp [made, layout, Statements.bindImage]
    · simp [made, layout, Statements.bindImage]
  · have hs := h sk'
    have hl : (s.bindImage sk).layout sk' = s.layout sk' := rfl
    unfold Bound made at hs ⊢
    rw [hl]
    simpa only [Statements.bindImage, Function.update_of_ne hsk] using hs

/-- A binding with a new version. -/
theorem Inv.setBinding (h : s.Inv taken) {sk : StatementKind} {b : Binding}
    (hv : (s.imageBinding sk).version < b.version) :
    { s with imageBinding := Function.update s.imageBinding sk b }.Inv taken := by
  refine { h with follows := fun sl => ?_ }
  -- The binding of a statement whose image binding is another one does not change.
  have hsame : ∀ {b'}, b' = s.binding sl → Prepares (taken sl) b' := fun he => he ▸ h.follows sl
  cases sl with
  | persist =>
    by_cases hsk : StatementKind.insert = sk
    · subst hsk
      exact (h.follows .persist).bump (by simpa [binding] using hv)
    · exact hsame (Function.update_of_ne hsk _ _)
  | update =>
    by_cases hsk : StatementKind.update = sk
    · subst hsk
      exact (h.follows .update).bump (by simpa [binding] using hv)
    · exact hsame (by simp only [binding, Function.update_of_ne hsk])
  | find =>
    by_cases hsk : StatementKind.select = sk
    · subst hsk
      exact (h.follows .find).bump (by simpa [binding] using hv)
    · exact hsame (Function.update_of_ne hsk _ _)
  | _ => exact hsame rfl

theorem Inv.bindImage (h : s.Inv taken) (sk : StatementKind) : (s.bindImage sk).Inv taken :=
  { h.setBinding (b := ⟨bind s.image sk, (s.imageBinding sk).version + 1⟩) (Nat.lt_succ_self _) with
    idVersion := h.idVersion }

/-- A binding in use with a new version, made for the same image. -/
theorem Current.bumpBinding (h : s.Current) {sk : StatementKind} (hb : s.Bound sk) :
    { s with
      imageBinding := Function.update s.imageBinding sk
        { s.imageBinding sk with version := (s.imageBinding sk).version + 1 } }.Current := by
  intro sk'
  have hs := h sk'
  by_cases hsk : sk' = sk
  · subst hsk
    refine ⟨hs.version_le, fun hu => ?_⟩
    simpa [made, layout] using hs.value_eq ⟨hb, hu.2⟩
  · unfold Bound made at hs ⊢
    simp only [Function.update_of_ne hsk]
    exact hs

instance (s : Statements ι) (sk : StatementKind) : Decidable (s.Bound sk) :=
  inferInstanceAs (Decidable ((s.imageBinding sk).version ≠ 0))

/-- `rebind` refreshes the binding. -/
theorem made_rebind (s : Statements ι) (sk : StatementKind) :
    (s.rebind sk).made sk = Versioned.refresh (s.Bound sk) (s.made sk) (s.layout sk) := by
  have hiff : s.image.version ≠ s.imageVersion sk ∨ (s.imageBinding sk).version = 0 ↔
      (s.made sk).version ≠ (s.layout sk).version ∨ ¬ s.Bound sk :=
    or_congr ne_comm not_not.symm
  unfold Statements.rebind Versioned.refresh
  by_cases hb : s.image.version ≠ s.imageVersion sk ∨ (s.imageBinding sk).version = 0
  · rw [if_pos hb, if_pos (hiff.mp hb)]
    simp [made, layout, Statements.bindImage]
  · rw [if_neg hb, if_neg fun h => hb (hiff.mpr h)]

/-- **`rebind`** in a current state: the binding is made and is what `bind` makes of the image. -/
theorem Current.rebind (h : s.Current) (sk : StatementKind) : (s.rebind sk).Current ∧
    (s.rebind sk).Bound sk ∧ ((s.rebind sk).imageBinding sk).value = bind s.image sk := by
  refine ⟨?_, ?_, congrArg Versioned.value ((made_rebind s sk).trans (h sk).refresh_eq)⟩
  · unfold Statements.rebind
    split
    · exact h.bindImage sk
    · exact h
  · unfold Statements.rebind
    split
    · simp [Bound, Statements.bindImage]
    · rename_i hn
      exact (not_or.mp hn).2

theorem Inv.rebind (h : s.Inv taken) (sk : StatementKind) : (s.rebind sk).Inv taken := by
  unfold Statements.rebind
  split
  · exact h.bindImage sk
  · exact h

/-- **`rebindId`**: the id image is bound, once. -/
theorem Inv.rebindId (h : s.Inv taken) :
    s.rebindId.Inv taken ∧ s.rebindId.idImageBinding.version ≠ 0 := by
  unfold Statements.rebindId
  split
  · rename_i hb
    have h0 : s.idImageBinding.version = 0 := hb.resolve_left fun hne =>
      hne (h.idVersion.trans h.idImageVersion.symm)
    refine ⟨{ h with
      idImageVersion := h.idVersion
      id_bound := fun _ => rfl
      follows := fun sl => ?_
      follows_id := fun _ => Nat.succ_ne_zero _ }, Nat.succ_ne_zero _⟩
    cases sl with
    | persist => exact h.follows .persist
    | find => exact h.follows .find
    | erase => exact (h.follows .erase).bump (Nat.lt_succ_self _)
    | findId => exact (h.follows .findId).bump (Nat.lt_succ_self _)
    | update =>
      -- The parameters of `update_statement` end with the id, but no statement has them yet.
      exact (h.follows .update).congr rfl fun hp => absurd h0 (h.follows_id hp)
  · rename_i hb
    rw [not_or] at hb
    exact ⟨h, hb.2⟩

theorem Current.rebindId (h : s.Current) : s.rebindId.Current :=
  h.of_image (rebindId_imageBinding s) (rebindId_imageVersion s)
    (.inr ⟨by rw [rebindId_image], by rw [rebindId_image]; exact ⟨rfl, rfl⟩⟩)

/-! ## Statements that can be executed -/

/-- A call leaves the bindings and the versions, so what was current is current. -/
theorem Current.of_same {s' : Statements ι} (h : s.Current) (hs : s.SameBindings s') : s'.Current :=
  h.of_image hs.imageBinding hs.imageVersion (.inr ⟨hs.version, hs.name⟩)

theorem SameBindings.binding {s' : Statements ι} (hs : s.SameBindings s') (sl : Slot) :
    s'.binding sl = s.binding sl := by
  cases sl <;> simp only [Statements.binding, hs.imageBinding, hs.idImageBinding]

theorem SameBindings.bind {s' : Statements ι} (hs : s.SameBindings s') (sk : StatementKind) :
    Odb.bind s'.image sk = Odb.bind s.image sk := bind_congr hs.name sk

/-- The copy of a binding that is made and describes the images. -/
theorem Inv.copy_described (h : s.Inv taken) (sl : Slot) (hb : (s.binding sl).version ≠ 0)
    (hd : (s.binding sl).value = s.described sl) : (s.binding sl).value = s.described sl ∧
      ((taken sl).version = (s.binding sl).version → (taken sl).value = s.described sl) := by
  refine ⟨hd, fun hv => ?_⟩
  rw [← hd]
  exact (h.follows sl).value_eq ⟨by rw [hv]; exact hb, hv⟩

/-- The call whose only parameter is the id. -/
theorem Inv.valid_erase (h : s.Inv taken) (hid : s.idImageBinding.version ≠ 0) :
    s.Valid taken .erase := by
  refine ⟨fun sl hsl => ?_, nofun, nofun⟩
  obtain rfl := List.mem_singleton.mp hsl
  exact h.copy_described .erase hid (h.id_bound hid)

/-- The state in which a statement is executed. -/
structure Ready (s : Statements ι) (taken : Slot → Prepared) (sk : StatementKind) : Prop where
  inv : s.Inv taken
  current : s.Current
  bound : s.Bound sk
  made : (s.imageBinding sk).value = Odb.bind s.image sk
  id_bound : s.idImageBinding.version ≠ 0

/-- **What a call goes through** describes the images as they are. -/
theorem Ready.valid {sk : StatementKind} (h : s.Ready taken sk) {c : StatementCall}
    (hc : StatementCall.Uses c sk) : s.Valid taken c := by
  have hid := h.inv.id_bound h.id_bound
  have hbound := h.bound
  have hmade := h.made
  cases c with
  | erase => exact h.inv.valid_erase h.id_bound
  | select =>
    obtain rfl : sk = .select := hc
    refine ⟨fun sl hsl => ?_, nofun, nofun⟩
    rcases List.mem_cons.mp hsl with rfl | hsl
    · exact h.inv.copy_described .findId h.id_bound hid
    · obtain rfl := List.mem_singleton.mp hsl
      exact h.inv.copy_described .find hbound hmade
  | insert =>
    obtain rfl : sk = .insert := hc
    refine ⟨fun sl hsl => ?_, fun _ => hid, nofun⟩
    obtain rfl := List.mem_singleton.mp hsl
    exact h.inv.copy_described .persist hbound hmade
  | update =>
    obtain rfl : sk = .update := hc
    refine ⟨fun sl hsl => ?_, nofun, nofun⟩
    obtain rfl := List.mem_singleton.mp hsl
    refine h.inv.copy_described .update hbound ?_
    simp only [binding, described, hmade, hid]
  | fetch =>
    obtain rfl : sk = .select := hc
    refine ⟨fun sl hsl => ?_, nofun, nofun⟩
    obtain rfl := List.mem_singleton.mp hsl
    exact h.inv.copy_described .find hbound hmade
  | refetch =>
    obtain rfl : sk = .select := hc
    exact ⟨nofun, nofun, fun _ => hmade⟩

/-- Binding the image makes a statement ready once the id is bound. -/
theorem Ready.bindImage (hi : s.Inv taken) (hc : s.Current) (hid : s.idImageBinding.version ≠ 0)
    (sk : StatementKind) : (s.bindImage sk).Ready taken sk := by
  refine ⟨hi.bindImage sk, hc.bindImage sk, ?_, ?_, hid⟩
  · simp [Bound, Statements.bindImage]
  · simp [Statements.bindImage]

/-- `rebind` makes a statement ready once the id is bound. -/
theorem Ready.rebind (hi : s.Inv taken) (hc : s.Current) (hid : s.idImageBinding.version ≠ 0)
    (sk : StatementKind) : (s.rebind sk).Ready taken sk := by
  obtain ⟨h1, h2, h3⟩ := hc.rebind sk
  exact ⟨hi.rebind sk, h1, h2, by rw [rebind_image, h3], by rw [rebind_idImageBinding]; exact hid⟩

/-- `persist` binds the image first and the id after it. -/
theorem Ready.rebind_rebindId (hi : s.Inv taken) (hc : s.Current) (sk : StatementKind) :
    ((s.rebind sk).rebindId).Ready taken sk := by
  obtain ⟨h1, h2, h3⟩ := hc.rebind sk
  obtain ⟨h4, h5⟩ := (hi.rebind sk).rebindId
  refine ⟨h4, h1.rebindId, ?_, ?_, h5⟩
  · unfold Bound
    rw [rebindId_imageBinding]
    exact h2
  · rw [rebindId_imageBinding, rebindId_image, rebind_image, h3]

/-- `update` gives its binding a new version when the id in it has been bound. -/
theorem Ready.rebindUpdateId (hi : s.Inv taken) (hc : s.Current) (u : Bool) :
    ((s.rebind .update).rebindUpdateId u).Ready taken .update := by
  have hr := Ready.rebind_rebindId hi hc .update
  obtain ⟨h1, h2, h3⟩ := hc.rebind .update
  have hi1 := hi.rebind .update
  rw [← rebind_image s .update] at h3
  generalize s.rebind .update = s1 at hr h1 h2 h3 hi1
  unfold Statements.rebindUpdateId
  split
  · have hi2 : { s1.rebindId with
        updateIdImageVersion := s1.rebindId.idImage.version }.Inv taken :=
      { hr.inv with updateIdImageVersion := hr.inv.idVersion }
    cases u with
    | true =>
      exact ⟨hi2, hr.current.of_image rfl rfl (.inr ⟨rfl, rfl, rfl⟩), hr.bound, hr.made, hr.id_bound⟩
    | false =>
      refine ⟨hi2.setBinding (Nat.lt_succ_self _), ?_, ?_, ?_, hr.id_bound⟩
      · exact (hr.current.bumpBinding hr.bound).of_image rfl rfl (.inr ⟨rfl, rfl, rfl⟩)
      · simp [Bound]
      · simpa using hr.made
  · rename_i hn
    rw [not_or] at hn
    exact ⟨hi1, h1, h2, h3, hn.2⟩

end Statements

namespace Session

variable {M : Mysql ι} {s : Session M}

/-- The prepared statements follow their bindings. -/
def Inv (s : Session M) : Prop := s.sts.Inv (M.taken s.st)

/-- A statement can be executed. -/
def Ready (s : Session M) (sk : StatementKind) : Prop := s.sts.Ready (M.taken s.st) sk

/-- **A call** keeps the invariant. -/
theorem Inv.call (h : s.Inv) {c : StatementCall} (hv : s.sts.Valid (M.taken s.st) c)
    (hid : s.sts.idImageBinding.version ≠ 0) : (s.call c).2.Inv := by
  have hs := M.call_same c s.st s.sts hv
  have ht := M.call_taken c s.st s.sts hv
  refine ⟨hs.idVersion.trans h.idVersion, hs.idImageVersion.trans h.idImageVersion,
    hs.updateIdImageVersion.trans h.updateIdImageVersion, ?_, fun sl => ?_, fun _ => ?_⟩
  · change (M.call c s.st s.sts).2.2.idImageBinding.version ≠ 0 →
      (M.call c s.st s.sts).2.2.idImageBinding.value = bindId
    rw [hs.idImageBinding]
    exact h.id_bound
  · change Prepares (M.taken (M.call c s.st s.sts).2.1 sl) ((M.call c s.st s.sts).2.2.binding sl)
    rw [hs.binding]
    rcases ht sl with ht | ⟨-, ht⟩
    · rw [ht]
      exact h.follows sl
    · rw [ht]
      exact .refl _ _
  · change (M.call c s.st s.sts).2.2.idImageBinding.version ≠ 0
    rw [hs.idImageBinding]
    exact hid

/-- **A call** leaves its statement ready. -/
theorem Ready.call {sk : StatementKind} (h : s.Ready sk) {c : StatementCall}
    (hc : StatementCall.Uses c sk) : (s.call c).2.Ready sk := by
  have hv := Statements.Ready.valid h hc
  have hs := M.call_same c s.st s.sts hv
  refine ⟨Inv.call h.inv hv h.id_bound, h.current.of_same hs, ?_, ?_, ?_⟩
  · change ((M.call c s.st s.sts).2.2.imageBinding sk).version ≠ 0
    rw [hs.imageBinding]
    exact h.bound
  · change ((M.call c s.st s.sts).2.2.imageBinding sk).value = bind (M.call c s.st s.sts).2.2.image sk
    rw [hs.imageBinding, hs.bind]
    exact h.made
  · change (M.call c s.st s.sts).2.2.idImageBinding.version ≠ 0
    rw [hs.idImageBinding]
    exact h.id_bound

end Session

end CharSystem.Odb
