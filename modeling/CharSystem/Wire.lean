import Mathlib.Algebra.Group.Nat.Even
import Mathlib.Data.List.Basic

/-!
# Tagged binary fields

A message is a list of fields. A field is a tag and a payload, and a tag is a number that says which
field it is and how the payload ends. Numbers are varints: seven bits a byte, the lowest first, and
the high bit of every byte but the last is set.

* `varint`/`readVarint`: a number and its bytes. `readVarint` reads at most `k` bytes.
* `delimited`/`readDelimited`: bytes with their length in front.
* `Record`: a field with its payload, and `Record.bytes`/`Record.read`.

Each reader has two lemmas: it reads what was written and leaves the rest, and it leaves less than it
was given. A reader that has read something reads the same of a longer input (`_append`).
-/

namespace CharSystem

/-- Bytes of a message. -/
abbrev Bytes := List UInt8

namespace Wire

/-- The varint of a number. -/
def varint (n : Nat) : Bytes :=
  if n < 128 then [n.toUInt8] else (n % 128 + 128).toUInt8 :: varint (n / 128)
termination_by n
decreasing_by omega

/-- The number at the start of the bytes, in at most `k` of them, and the bytes after it. -/
def readVarint : Nat → Bytes → Option (Nat × Bytes)
  | 0, _ => none
  | _ + 1, [] => none
  | k + 1, b :: bs =>
    if b.toNat < 128 then some (b.toNat, bs)
    else (readVarint k bs).map fun (n, rest) => (b.toNat - 128 + 128 * n, rest)

theorem toNat_toUInt8 {n : Nat} (h : n < 256) : n.toUInt8.toNat = n := by
  simp [Nat.mod_eq_of_lt h]

theorem readVarint_varint {k n : Nat} (h : n < 128 ^ (k + 1)) (rest : Bytes) :
    readVarint (k + 1) (varint n ++ rest) = some (n, rest) := by
  induction k generalizing n with
  | zero =>
    have hn : n < 128 := h
    rw [varint, if_pos hn]
    simp only [List.cons_append, List.nil_append, readVarint, toNat_toUInt8 (by omega : n < 256), hn,
      if_true]
  | succ k ih =>
    rw [varint]
    split
    · rename_i hn
      simp only [List.cons_append, List.nil_append, readVarint, toNat_toUInt8 (by omega : n < 256), hn,
        if_true]
    · have hb : (n % 128 + 128).toUInt8.toNat = n % 128 + 128 := toNat_toUInt8 (by omega)
      have hdiv : n / 128 < 128 ^ (k + 1) :=
        Nat.div_lt_of_lt_mul (by rwa [Nat.mul_comm, ← Nat.pow_succ])
      rw [List.cons_append, readVarint, hb, if_neg (by omega), ih hdiv]
      simp only [Option.map_some, Option.some.injEq, Prod.mk.injEq, and_true]
      omega

/-- A varint has at least one byte. -/
theorem readVarint_lt {k : Nat} {bs rest : Bytes} {n : Nat} (h : readVarint k bs = some (n, rest)) :
    rest.length < bs.length := by
  induction k generalizing bs n with
  | zero => cases h
  | succ k ih =>
    cases bs with
    | nil => cases h
    | cons b bs =>
      simp only [readVarint] at h
      split at h
      · cases h
        simp
      · obtain ⟨⟨m, r⟩, hr, he⟩ := Option.map_eq_some_iff.mp h
        cases he
        exact Nat.lt_succ_of_lt (ih hr)

theorem readVarint_append {k : Nat} {bs rest : Bytes} {n : Nat} (h : readVarint k bs = some (n, rest))
    (more : Bytes) : readVarint k (bs ++ more) = some (n, rest ++ more) := by
  induction k generalizing bs n with
  | zero => cases h
  | succ k ih =>
    cases bs with
    | nil => cases h
    | cons b bs =>
      simp only [List.cons_append, readVarint] at h ⊢
      split at h
      · rename_i hb
        cases h
        rw [if_pos hb]
      · rename_i hb
        obtain ⟨⟨m, r⟩, hr, he⟩ := Option.map_eq_some_iff.mp h
        cases he
        rw [if_neg hb, ih hr]
        rfl

/-! ## Bytes with their length -/

/-- Bytes with their length in front. -/
def delimited (s : Bytes) : Bytes := varint s.length ++ s

/-- The bytes after a length of less than `limit`, and the bytes after them. -/
def readDelimited (limit : Nat) (bs : Bytes) : Option (Bytes × Bytes) :=
  match readVarint 5 bs with
  | none => none
  | some (n, rest) =>
    if n < limit ∧ n ≤ rest.length then some (rest.take n, rest.drop n) else none

variable {limit : Nat} {s bs rest : Bytes}

theorem readDelimited_delimited (h : s.length < limit) (hlimit : limit ≤ 128 ^ 5) (rest : Bytes) :
    readDelimited limit (delimited s ++ rest) = some (s, rest) := by
  unfold readDelimited delimited
  rw [List.append_assoc, readVarint_varint (by omega)]
  simp [h]

/-- A length that is too large. -/
theorem readDelimited_long (h : limit ≤ s.length) (hlen : s.length < 128 ^ 5) (rest : Bytes) :
    readDelimited limit (delimited s ++ rest) = none := by
  unfold readDelimited delimited
  rw [List.append_assoc, readVarint_varint hlen]
  exact if_neg fun hn => Nat.not_lt.mpr h hn.1

theorem readDelimited_le (h : readDelimited limit bs = some (s, rest)) : rest.length ≤ bs.length := by
  unfold readDelimited at h
  split at h
  · cases h
  · rename_i n r hr
    have hlt := readVarint_lt hr
    split at h
    · cases h
      rw [List.length_drop]
      omega
    · cases h

theorem readDelimited_bound (h : readDelimited limit bs = some (s, rest)) : s.length < limit := by
  unfold readDelimited at h
  split at h
  · cases h
  · split at h
    · rename_i hn
      cases h
      rw [List.length_take]
      omega
    · cases h

theorem readDelimited_append (h : readDelimited limit bs = some (s, rest)) (more : Bytes) :
    readDelimited limit (bs ++ more) = some (s, rest ++ more) := by
  unfold readDelimited at h ⊢
  split at h
  · cases h
  · rename_i n r hr
    rw [readVarint_append hr]
    split at h
    · rename_i hn
      cases h
      have hlen : n < limit ∧ n ≤ (r ++ more).length := ⟨hn.1, by rw [List.length_append]; omega⟩
      simp only [hlen, and_self, if_true, List.take_append_of_le_length hn.2,
        List.drop_append_of_le_length hn.2]
    · cases h

/-! ## Fields -/

/-- The payloads. (Groups of fields, which newer formats do not write, are left out.) -/
inductive Payload where
  | varint (n : UInt64)
  | fixed64 (bs : Bytes)
  | delimited (bs : Bytes)
  | fixed32 (bs : Bytes)
  deriving DecidableEq, Repr

namespace Payload

/-- The three low bits of a tag. -/
def wireType : Payload → Nat
  | .varint _ => 0
  | .fixed64 _ => 1
  | .delimited _ => 2
  | .fixed32 _ => 5

/-- The lengths are right. -/
def Valid (limit : Nat) : Payload → Prop
  | .varint _ => True
  | .fixed64 bs => bs.length = 8
  | .delimited bs => bs.length < limit
  | .fixed32 bs => bs.length = 4

/-- The bytes of a payload. -/
def bytes : Payload → Bytes
  | .varint n => Wire.varint n.toNat
  | .fixed64 bs => bs
  | .delimited bs => Wire.delimited bs
  | .fixed32 bs => bs

/-- `n` bytes. -/
def readFixed (n : Nat) (bs : Bytes) : Option (Bytes × Bytes) :=
  if n ≤ bs.length then some (bs.take n, bs.drop n) else none

/-- The payload after a tag. -/
def read (limit wireType : Nat) (bs : Bytes) : Option (Payload × Bytes) :=
  match wireType with
  | 0 => (readVarint 10 bs).map fun (n, rest) => (.varint (.ofNat n), rest)
  | 1 => (readFixed 8 bs).map fun (s, rest) => (.fixed64 s, rest)
  | 2 => (readDelimited limit bs).map fun (s, rest) => (.delimited s, rest)
  | 5 => (readFixed 4 bs).map fun (s, rest) => (.fixed32 s, rest)
  | _ => none

variable {limit wireType n : Nat} {p : Payload} {s bs rest : Bytes}

theorem readFixed_append (h : readFixed n bs = some (s, rest)) (more : Bytes) :
    readFixed n (bs ++ more) = some (s, rest ++ more) := by
  unfold readFixed at h ⊢
  split at h
  · rename_i hn
    cases h
    rw [if_pos (by rw [List.length_append]; omega), List.take_append_of_le_length hn,
      List.drop_append_of_le_length hn]
  · cases h

theorem readFixed_le (h : readFixed n bs = some (s, rest)) :
    s.length = n ∧ rest.length ≤ bs.length := by
  unfold readFixed at h
  split at h
  · cases h
    rw [List.length_take, List.length_drop]
    omega
  · cases h

theorem readFixed_self (h : s.length = n) (rest : Bytes) : readFixed n (s ++ rest) = some (s, rest) := by
  unfold readFixed
  rw [if_pos (by rw [List.length_append]; omega), ← h]
  simp

theorem read_bytes (h : p.Valid limit) (hlimit : limit ≤ 128 ^ 5) (rest : Bytes) :
    read limit p.wireType (p.bytes ++ rest) = some (p, rest) := by
  cases p with
  | varint n =>
    have hn : n.toNat < 128 ^ (9 + 1) := Nat.lt_trans n.toNat_lt (by decide)
    simp [read, Payload.wireType, bytes, readVarint_varint hn]
  | fixed64 bs => simp [read, Payload.wireType, bytes, readFixed_self h]
  | delimited bs => simp [read, Payload.wireType, bytes, readDelimited_delimited h hlimit]
  | fixed32 bs => simp [read, Payload.wireType, bytes, readFixed_self h]

/-- What a payload that was read is, and what it leaves. -/
theorem read_spec (h : read limit wireType bs = some (p, rest)) :
    p.wireType = wireType ∧ p.Valid limit ∧ rest.length ≤ bs.length ∧
      ∀ more, read limit wireType (bs ++ more) = some (p, rest ++ more) := by
  unfold read at h
  split at h
  · obtain ⟨⟨n, r⟩, hr, he⟩ := Option.map_eq_some_iff.mp h
    cases he
    refine ⟨rfl, trivial, Nat.le_of_lt (readVarint_lt hr), fun more => ?_⟩
    simp [read, readVarint_append hr]
  · obtain ⟨⟨s, r⟩, hr, he⟩ := Option.map_eq_some_iff.mp h
    cases he
    obtain ⟨h1, h2⟩ := readFixed_le hr
    exact ⟨rfl, h1, h2, fun more => by simp [read, readFixed_append hr]⟩
  · obtain ⟨⟨s, r⟩, hr, he⟩ := Option.map_eq_some_iff.mp h
    cases he
    refine ⟨rfl, readDelimited_bound hr, readDelimited_le hr, fun more => ?_⟩
    simp [read, readDelimited_append hr]
  · obtain ⟨⟨s, r⟩, hr, he⟩ := Option.map_eq_some_iff.mp h
    cases he
    obtain ⟨h1, h2⟩ := readFixed_le hr
    exact ⟨rfl, h1, h2, fun more => by simp [read, readFixed_append hr]⟩
  · cases h

end Payload

/-- A field with its number. -/
structure Record (limit : Nat) where
  number : Nat
  payload : Payload
  number_pos : 0 < number
  number_lt : number < 2 ^ 29
  valid : payload.Valid limit

namespace Record

variable {limit t : Nat} {bs rest : Bytes}

/-- The tag in front of a field. -/
def tag (f : Record limit) : Nat := f.number * 8 + f.payload.wireType

theorem wireType_cases (p : Payload) : p.wireType < 6 ∧ p.wireType ≠ 4 ∧ p.wireType ≠ 3 := by
  cases p <;> simp [Payload.wireType]

/-- The field after its tag. -/
def read (limit t : Nat) (bs : Bytes) : Option (Record limit × Bytes) :=
  if hn : 0 < t / 8 ∧ t / 8 < 2 ^ 29 then
    match h : Payload.read limit (t % 8) bs with
    | none => none
    | some (p, rest) => some (⟨t / 8, p, hn.1, hn.2, (Payload.read_spec h).2.1⟩, rest)
  else none

/-- What a field that was read is, and what it leaves. -/
theorem read_eq_some {f : Record limit} : read limit t bs = some (f, rest) ↔
    f.tag = t ∧ Payload.read limit (t % 8) bs = some (f.payload, rest) := by
  unfold read
  constructor
  · intro h
    split at h
    · split at h
      · cases h
      · rename_i p r hp
        cases h
        refine ⟨?_, hp⟩
        change t / 8 * 8 + p.wireType = t
        rw [(Payload.read_spec hp).1]
        omega
    · cases h
  · rintro ⟨ht, hp⟩
    have hw := (Payload.read_spec hp).1
    have hlow := wireType_cases f.payload
    have h1 := f.number_pos
    have h2 := f.number_lt
    have hnum : f.number = t / 8 := by
      rw [tag] at ht
      omega
    rw [dif_pos (by omega)]
    split
    · rename_i hnone
      rw [hp] at hnone
      cases hnone
    · rename_i p r hp'
      rw [hp] at hp'
      cases hp'
      obtain ⟨number, payload, h3, h4, h5⟩ := f
      simp only at hnum
      subst hnum
      rfl

theorem read_bytes (f : Record limit) (hlimit : limit ≤ 128 ^ 5) (rest : Bytes) :
    read limit f.tag (f.payload.bytes ++ rest) = some (f, rest) := by
  have hlow := wireType_cases f.payload
  have hmod : f.tag % 8 = f.payload.wireType := by
    rw [tag]
    omega
  rw [read_eq_some, hmod]
  exact ⟨rfl, Payload.read_bytes f.valid hlimit rest⟩

end Record

end Wire

end CharSystem
