import CharSystem.Echo.Basic

/-!
# What the Echo service reads and writes (`main.pb.cc`, `server.cc`)

* `Field`, `Message.apply`: what one turn of the loop of `_InternalParse` reads, and what it does to
  the message.
* `Reads`: the fields of an input. `internalParse_of_reads` and `reads_of_internalParse`: the loop
  accepts exactly the inputs that have fields, and applies them in order.
* `Message.Readable`: the string is valid UTF-8 and not too long for a reader.
* `Message.parseFrom_append`: bytes after one another are read as a merge.
* `Message.serializeTo_spec`: `ByteSizeLong` is the number of bytes, and what is written is read back
  exactly when the message is readable. (`_InternalSerialize` only logs a string that is not valid.)
* `EchoService_Stub.echo_iff`: what a call gives.
-/

namespace CharSystem

/-- A field that `_InternalParse` reads. -/
inductive Field (pb : Protobuf) where
  | message (s : Bytes)
  | unknown (f : {f : pb.UnknownField // pb.tagOf f ≠ 10})

namespace Message

variable {pb : Protobuf} {name : MessageName}

/-- What a field does to a message. -/
def apply (m : Message pb name) : Field pb → Message pb name
  | .message s => { m with message := s }
  | .unknown f => { m with unknownFields := m.unknownFields ++ [f] }

/-- The fields of an input. -/
inductive Reads (pb : Protobuf) : Bytes → List (Field pb) → Prop
  | nil : Reads pb [] []
  | message {bs bs1 bs2 s : Bytes} {fs : List (Field pb)} :
    pb.readTag bs = some (10, bs1) → pb.inlineGreedyStringParser bs1 = some (s, bs2) →
    pb.verifyUTF8 s = true → Reads pb bs2 fs → Reads pb bs (.message s :: fs)
  | unknown {bs bs1 bs2 : Bytes} {f : {f : pb.UnknownField // pb.tagOf f ≠ 10}}
    {fs : List (Field pb)} :
    pb.readTag bs = some (pb.tagOf f.val, bs1) →
    pb.unknownFieldParse (pb.tagOf f.val) bs1 = some (f.val, bs2) →
    Reads pb bs2 fs → Reads pb bs (.unknown f :: fs)

/-! ## The loop -/

section Loop

variable {m m' : Message pb name} {ptr ptr1 ptr2 : Bytes}

/-- The check of the tag of the string field. -/
theorem tag_eq_ten_iff {tag : Nat} : tag >>> 3 = 1 ∧ tag % 256 = 10 ↔ tag = 10 := by
  rw [Nat.shiftRight_eq_div_pow]
  omega

theorem tag_and_seven (tag : Nat) : tag &&& 7 = tag % 8 := Nat.and_two_pow_sub_one_eq_mod tag 3

theorem readTag_ne_nil {tag : Nat} (ht : pb.readTag ptr = some (tag, ptr1)) : ptr ≠ [] := by
  rintro rfl
  exact absurd (pb.readTag_lt _ _ _ ht) (by simp)

theorem internalParse_nil : m.internalParse [] = some ⟨m, [], none⟩ := by
  rw [internalParse, if_pos rfl]

/-- The string field. -/
theorem internalParse_message {s : Bytes} (ht : pb.readTag ptr = some (10, ptr1))
    (hs : pb.inlineGreedyStringParser ptr1 = some (s, ptr2)) :
    m.internalParse ptr =
      if pb.verifyUTF8 s then (m.apply (.message s)).internalParse ptr2 else none := by
  rw [internalParse, if_neg (readTag_ne_nil ht)]
  split
  · rename_i hn
    rw [ht] at hn
    cases hn
  · rename_i tag bs1 ht'
    rw [ht] at ht'
    cases ht'
    rw [dif_pos (tag_eq_ten_iff.mpr rfl)]
    split
    · rename_i hn
      rw [hs] at hn
      cases hn
    · rename_i s' bs2 hs'
      rw [hs] at hs'
      cases hs'
      rfl

/-- Another field. -/
theorem internalParse_unknown {f : {f : pb.UnknownField // pb.tagOf f ≠ 10}}
    (ht : pb.readTag ptr = some (pb.tagOf f.val, ptr1))
    (hu : pb.unknownFieldParse (pb.tagOf f.val) ptr1 = some (f.val, ptr2)) :
    m.internalParse ptr = (m.apply (.unknown f)).internalParse ptr2 := by
  obtain ⟨h0, h4⟩ := pb.tagOf_field f.val
  rw [internalParse, if_neg (readTag_ne_nil ht)]
  split
  · rename_i hn
    rw [ht] at hn
    cases hn
  · rename_i tag bs1 ht'
    rw [ht] at ht'
    cases ht'
    rw [dif_neg (fun h => f.property (tag_eq_ten_iff.mp h)), if_neg (by rw [tag_and_seven]; omega)]
    split
    · rename_i hn
      rw [hu] at hn
      cases hn
    · rename_i f' bs2 hu'
      obtain ⟨rfl, rfl⟩ := Prod.mk.inj (Option.some.inj (hu.symm.trans hu'))
      rfl

/-- **What a turn of the loop does**, if the parse ends at the end of the input. -/
theorem internalParse_cases {rest : Bytes} (h : m.internalParse ptr = some ⟨m', rest, none⟩) :
    (ptr = [] ∧ m' = m) ∨
    (∃ s ptr1 ptr2, pb.readTag ptr = some (10, ptr1) ∧
      pb.inlineGreedyStringParser ptr1 = some (s, ptr2) ∧ pb.verifyUTF8 s = true ∧
      (m.apply (.message s)).internalParse ptr2 = some ⟨m', rest, none⟩) ∨
    (∃ f ptr1 ptr2, pb.readTag ptr = some (pb.tagOf f.val, ptr1) ∧
      pb.unknownFieldParse (pb.tagOf f.val) ptr1 = some (f.val, ptr2) ∧
      (m.apply (.unknown f)).internalParse ptr2 = some ⟨m', rest, none⟩) := by
  rw [internalParse] at h
  split at h
  · rename_i hnil
    cases h
    exact .inl ⟨hnil, rfl⟩
  · split at h
    · cases h
    · rename_i tag ptr1 ht
      split at h
      · rename_i h10
        obtain rfl := tag_eq_ten_iff.mp h10
        split at h
        · cases h
        · rename_i s ptr2 hs
          split at h
          · rename_i hutf8
            exact .inr (.inl ⟨s, ptr1, ptr2, ht, hs, hutf8, h⟩)
          · cases h
      · rename_i h10
        split at h
        · cases h
        · split at h
          · cases h
          · rename_i f ptr2 hu
            have htag := pb.unknown_tag _ _ _ _ hu
            subst htag
            exact .inr (.inr ⟨⟨f, fun he => h10 (tag_eq_ten_iff.mpr he)⟩, ptr1, ptr2, ht, hu, h⟩)

end Loop

/-! ## The fields of an input -/

theorem Reads.append {bs cs : Bytes} {fs gs : List (Field pb)} (h : Reads pb bs fs)
    (h' : Reads pb cs gs) : Reads pb (bs ++ cs) (fs ++ gs) := by
  induction h with
  | nil => exact h'
  | message ht hs hutf8 _ ih =>
    exact .message (pb.readTag_append _ _ _ _ ht) (pb.string_append _ _ _ _ hs) hutf8 ih
  | unknown ht hu _ ih =>
    exact .unknown (pb.readTag_append _ _ _ _ ht) (pb.unknown_append _ _ _ _ _ hu) ih

/-- **The loop applies the fields**, and goes on after them. -/
theorem internalParse_of_reads {bs : Bytes} {fs : List (Field pb)} (h : Reads pb bs fs)
    (m : Message pb name) (more : Bytes) :
    m.internalParse (bs ++ more) = (fs.foldl apply m).internalParse more := by
  induction h generalizing m with
  | nil => rfl
  | message ht hs hutf8 _ ih =>
    rw [internalParse_message (pb.readTag_append _ _ _ _ ht) (pb.string_append _ _ _ _ hs),
      if_pos hutf8, ih, List.foldl_cons]
  | unknown ht hu _ ih =>
    rw [internalParse_unknown (pb.readTag_append _ _ _ _ ht) (pb.unknown_append _ _ _ _ _ hu), ih,
      List.foldl_cons]

/-- **An input that is accepted has fields.** -/
theorem reads_of_internalParse {bs rest : Bytes} {m m' : Message pb name}
    (h : m.internalParse bs = some ⟨m', rest, none⟩) :
    ∃ fs, Reads pb bs fs ∧ m' = fs.foldl apply m := by
  induction hn : bs.length using Nat.strongRecOn generalizing bs m with
  | ind n ih =>
    subst hn
    obtain ⟨rfl, rfl⟩ | ⟨s, ptr1, ptr2, ht, hs, hutf8, h⟩ | ⟨f, ptr1, ptr2, ht, hu, h⟩ :=
      internalParse_cases h
    · exact ⟨[], .nil, rfl⟩
    · have hlt : ptr2.length < bs.length :=
        Nat.lt_of_le_of_lt (pb.string_le _ _ _ hs) (pb.readTag_lt _ _ _ ht)
      obtain ⟨fs, hfs, hm⟩ := ih _ hlt h rfl
      exact ⟨.message s :: fs, .message ht hs hutf8 hfs, hm⟩
    · have hlt : ptr2.length < bs.length :=
        Nat.lt_of_le_of_lt (pb.unknown_le _ _ _ _ hu) (pb.readTag_lt _ _ _ ht)
      obtain ⟨fs, hfs, hm⟩ := ih _ hlt h rfl
      exact ⟨.unknown f :: fs, .unknown ht hu hfs, hm⟩

/-- The parse of a whole input. -/
theorem parseFrom_eq_some {bs : Bytes} {m : Message pb name} :
    parseFrom name bs = some m ↔ ∃ fs, Reads pb bs fs ∧ m = fs.foldl apply .new := by
  unfold parseFrom
  constructor
  · intro h
    split at h
    · rename_i m' rest hp
      cases h
      exact reads_of_internalParse hp
    · cases h
  · rintro ⟨fs, hfs, rfl⟩
    have hp := internalParse_of_reads hfs (.new : Message pb name) []
    rw [List.append_nil, internalParse_nil] at hp
    rw [hp]

/-! ## What is written -/

/-- The fields that `_InternalSerialize` writes. -/
def fields (m : Message pb name) : List (Field pb) :=
  (if !m.message.isEmpty then [.message m.message] else []) ++ m.unknownFields.map .unknown

theorem foldl_unknown (m : Message pb name) (fs : List {f : pb.UnknownField // pb.tagOf f ≠ 10}) :
    (fs.map Field.unknown).foldl apply m = { m with unknownFields := m.unknownFields ++ fs } := by
  induction fs generalizing m with
  | nil => simp
  | cons f fs ih =>
    rw [List.map_cons, List.foldl_cons, ih]
    simp [apply]

/-- The fields of a message do what `MergeImpl` does. -/
theorem foldl_fields (toMsg fromMsg : Message pb name) :
    fromMsg.fields.foldl apply toMsg = toMsg.mergeImpl fromMsg := by
  unfold fields mergeImpl
  rw [List.foldl_append, foldl_unknown]
  split <;> rfl

theorem new_mergeImpl (m : Message pb name) : (.new : Message pb name).mergeImpl m = m := by
  refine Message.ext ?_ rfl
  cases hm : m.message <;> simp [mergeImpl, new, hm]

/-- `CopyFrom` leaves a copy. -/
theorem copyFrom_eq (m fromMsg : Message pb name) : m.copyFrom fromMsg = fromMsg :=
  new_mergeImpl fromMsg

theorem reads_unknown (fs : List {f : pb.UnknownField // pb.tagOf f ≠ 10}) :
    Reads pb (pb.serializeUnknownFields (fs.map (·.val))) (fs.map .unknown) := by
  rw [pb.serializeUnknownFields_eq]
  induction fs with
  | nil => exact .nil
  | cons f fs ih =>
    rw [List.map_cons, List.map_cons, List.flatMap_cons, List.append_assoc]
    exact .unknown (pb.readTag_varint _ _ (pb.tagOf_lt f.val)) (pb.unknown_payload f.val _) ih

/-- The bytes of the string field. -/
def stringBytes (m : Message pb name) : Bytes :=
  if !m.message.isEmpty then Wire.varint 10 ++ Wire.delimited m.message else []

theorem internalSerialize_eq (m : Message pb name) : m.internalSerialize =
    m.stringBytes ++ pb.serializeUnknownFields (m.unknownFields.map (·.val)) := by
  unfold internalSerialize stringBytes
  congr 1
  · rw [pb.writeString_eq]
  · split
    · rfl
    · rename_i hn
      have hnil : m.unknownFields = [] := by simpa using hn
      rw [hnil, pb.serializeUnknownFields_eq]
      rfl

/-- **`ByteSizeLong`** is the number of bytes that are written. -/
theorem byteSizeLong_eq (m : Message pb name) : m.byteSizeLong = m.internalSerialize.length := by
  have hten : (Wire.varint 10).length = 1 := by
    rw [Wire.varint, if_pos (by omega)]
    rfl
  have hstring : m.stringBytes.length =
      if !m.message.isEmpty then 1 + pb.stringSize m.message else 0 := by
    unfold stringBytes
    split
    · rw [List.length_append, hten, pb.stringSize_eq]
    · rfl
  have hunknown : pb.computeUnknownFieldsSize (m.unknownFields.map (·.val)) =
      if !m.unknownFields.isEmpty then pb.computeUnknownFieldsSize (m.unknownFields.map (·.val))
      else 0 := by
    split
    · rfl
    · rename_i hn
      have hnil : m.unknownFields = [] := by simpa using hn
      rw [hnil, pb.computeUnknownFieldsSize_eq, pb.serializeUnknownFields_eq]
      rfl
  rw [internalSerialize_eq, List.length_append, hstring, ← pb.computeUnknownFieldsSize_eq, hunknown]
  unfold byteSizeLong
  by_cases hn : m.unknownFields.isEmpty
  · simp [hn]
  · simp [hn]

theorem message_length_le (m : Message pb name) : m.message.length ≤ m.byteSizeLong := by
  rw [byteSizeLong_eq, internalSerialize_eq, List.length_append, stringBytes]
  cases hm : m.message with
  | nil => exact Nat.zero_le _
  | cons b bs =>
    simp only [List.isEmpty_cons, Bool.not_false, if_true, List.length_append, Wire.delimited]
    omega

/-- The string is valid UTF-8, and not too long for a reader. -/
def Readable (m : Message pb name) : Prop :=
  pb.verifyUTF8 m.message = true ∧ m.message.length < maxStringSize

instance (m : Message pb name) : Decidable m.Readable := inferInstanceAs (Decidable (_ ∧ _))

theorem readable_new : (.new : Message pb name).Readable :=
  ⟨(pb.verifyUTF8_iff _).mpr ⟨"", rfl⟩, show 0 < maxStringSize by decide⟩

/-- What is written has the fields of the message, if it is readable. -/
theorem reads_internalSerialize {m : Message pb name} (h : m.Readable) :
    Reads pb m.internalSerialize m.fields := by
  obtain ⟨hutf8, hlen⟩ := h
  rw [internalSerialize_eq, stringBytes, fields]
  split
  · refine Reads.append ?_ (reads_unknown _)
    have ht := pb.readTag_varint 10 (Wire.delimited m.message) (by omega)
    have hs := pb.string_delimited m.message [] hlen
    rw [List.append_nil] at hs
    exact .message ht hs hutf8 .nil
  · exact reads_unknown _

/-- The string field, when no string can be read. -/
theorem internalParse_long {m : Message pb name} {ptr ptr1 : Bytes}
    (ht : pb.readTag ptr = some (10, ptr1)) (hs : pb.inlineGreedyStringParser ptr1 = none) :
    m.internalParse ptr = none := by
  rw [internalParse, if_neg (readTag_ne_nil ht)]
  split
  · rfl
  · rename_i tag bs1 ht'
    rw [ht] at ht'
    cases ht'
    rw [dif_pos (tag_eq_ten_iff.mpr rfl)]
    split
    · rfl
    · rename_i s bs2 hs'
      rw [hs] at hs'
      cases hs'

/-- A string that is not readable is written, and not accepted. -/
theorem internalParse_unreadable {m : Message pb name} (h : ¬ m.Readable)
    (hlen : m.message.length < maxMessageSize) (m0 : Message pb name) :
    m0.internalParse m.internalSerialize = none := by
  have hne : m.message.isEmpty = false := by
    rw [Bool.eq_false_iff]
    intro he
    refine h ?_
    unfold Readable
    rw [List.isEmpty_iff.mp he]
    exact (readable_new : (.new : Message pb name).Readable)
  have ht := pb.readTag_varint 10
    (Wire.delimited m.message ++ pb.serializeUnknownFields (m.unknownFields.map (·.val))) (by omega)
  rw [internalSerialize_eq, stringBytes, hne, if_pos (show (!false) = true from rfl), List.append_assoc]
  by_cases hlong : m.message.length < maxStringSize
  · rw [internalParse_message ht (pb.string_delimited _ _ hlong), if_neg fun hutf8 => h ⟨hutf8, hlong⟩]
  · exact internalParse_long ht (pb.string_long _ _ (Nat.le_of_not_lt hlong) hlen)

/-- A message that was read is readable. -/
theorem readable_of_reads {bs : Bytes} {fs : List (Field pb)} (h : Reads pb bs fs)
    {m : Message pb name} (hm : m.Readable) : (fs.foldl apply m).Readable := by
  induction h generalizing m with
  | nil => exact hm
  | message _ hs hutf8 _ ih => exact ih ⟨hutf8, pb.string_lt _ _ _ hs⟩
  | unknown _ _ _ ih => exact ih hm

theorem serializeTo_eq_some {m : Message pb name} {bs : Bytes} :
    m.serializeTo = some bs ↔ m.byteSizeLong < maxMessageSize ∧ m.internalSerialize = bs := by
  unfold serializeTo
  split
  · rename_i hlt
    rw [Option.some.injEq, and_iff_right hlt]
  · rename_i hlt
    exact iff_of_false nofun fun h => hlt h.1

/-! ## Round trips -/

theorem parseFrom_nil : parseFrom name [] = some (.new : Message pb name) :=
  parseFrom_eq_some.mpr ⟨[], .nil, rfl⟩

/-- The request of the client. -/
def helloWorld : EchoRequest wireProtobuf := .setMessage .new (utf8 "hello world")

/-- The size of a message with a short string and no unknown fields. -/
theorem byteSizeLong_le {m : Message pb name} (hu : m.unknownFields = [])
    (hlen : m.message.length < 128) : m.byteSizeLong ≤ m.message.length + 2 := by
  have hs : (Wire.delimited m.message).length = m.message.length + 1 := by
    rw [Wire.delimited, Wire.varint, if_pos hlen, List.length_append, List.length_singleton]
    omega
  unfold byteSizeLong
  rw [hu, pb.stringSize_eq, hs]
  simp only [List.isEmpty_nil, Bool.not_true, Bool.false_eq_true, if_false]
  split <;> omega

theorem helloWorld_lt : helloWorld.byteSizeLong < maxMessageSize :=
  Nat.lt_of_le_of_lt (byteSizeLong_le rfl (by decide)) (by decide)

/-- **Bytes after one another are read as a merge.** Whatever bytes `as` a message `a` was read from,
with the bytes of a message `b` after them they are read as `b` merged into `a`, if the string of `b`
is valid UTF-8 and not too long for a reader, and are not accepted otherwise. -/
theorem parseFrom_append {as bs : Bytes} {a b : Message pb name} (ha : parseFrom name as = some a)
    (hb : b.serializeTo = some bs) :
    parseFrom name (as ++ bs) =
      if b.Readable then some (a.mergeImpl b) else none := by
  obtain ⟨fs, hfs, rfl⟩ := parseFrom_eq_some.mp ha
  obtain ⟨hlt, rfl⟩ := serializeTo_eq_some.mp hb
  have hlen : b.message.length < maxMessageSize := Nat.lt_of_le_of_lt b.message_length_le hlt
  split
  · rename_i hread
    refine parseFrom_eq_some.mpr ⟨_, hfs.append (reads_internalSerialize hread), ?_⟩
    rw [List.foldl_append, foldl_fields]
  · rename_i hread
    unfold parseFrom
    rw [internalParse_of_reads hfs, internalParse_unreadable hread hlen]

theorem parseFrom_append_helloWorld :
    parseFrom .EchoRequest ([] ++ helloWorld.internalSerialize) =
      if helloWorld.Readable then some ((.new : EchoRequest wireProtobuf).mergeImpl helloWorld)
      else none :=
  parseFrom_append parseFrom_nil (serializeTo_eq_some.mpr ⟨helloWorld_lt, rfl⟩)

/-- The bytes of one message. -/
theorem parseFrom_serializeTo {m : Message pb name} {bs : Bytes} (h : m.serializeTo = some bs) :
    parseFrom name bs = if m.Readable then some m else none := by
  obtain ⟨hlt, rfl⟩ := serializeTo_eq_some.mp h
  split
  · rename_i hread
    refine parseFrom_eq_some.mpr ⟨_, reads_internalSerialize hread, ?_⟩
    rw [foldl_fields, new_mergeImpl]
  · rename_i hread
    unfold parseFrom
    rw [internalParse_unreadable hread (Nat.lt_of_le_of_lt m.message_length_le hlt)]

theorem readable_of_parseFrom {m : Message pb name} {bs : Bytes} (h : parseFrom name bs = some m) :
    m.Readable := by
  obtain ⟨fs, hfs, rfl⟩ := parseFrom_eq_some.mp h
  exact readable_of_reads hfs readable_new

/-- **What is written is read back.** For every message that is not too large, `ByteSizeLong` is the
number of bytes written. They are read as the message, with its unknown fields in order, exactly when
the message can be read from any bytes at all, which is when its string is valid UTF-8 and not too
long for a reader. -/
theorem serializeTo_spec (m : Message pb name) (h : m.byteSizeLong < maxMessageSize) :
    ∃ bs, m.serializeTo = some bs ∧ bs.length = m.byteSizeLong ∧
      (parseFrom name bs = some m ↔ m.Readable) ∧
      (parseFrom name bs = some m ↔ ∃ input, parseFrom name input = some m) := by
  have hbs := serializeTo_eq_some.mpr ⟨h, rfl⟩
  have hp := parseFrom_serializeTo hbs
  have hiff : parseFrom name m.internalSerialize = some m ↔ m.Readable := by
    rw [hp]
    split
    · rename_i hread
      exact iff_of_true rfl hread
    · rename_i hread
      exact iff_of_false nofun hread
  refine ⟨_, hbs, m.byteSizeLong_eq.symm, hiff, fun hm => ⟨_, hm⟩, fun ⟨input, hi⟩ => ?_⟩
  exact hiff.mpr (readable_of_parseFrom hi)

theorem serializeTo_spec_helloWorld : ∃ bs, helloWorld.serializeTo = some bs ∧
    bs.length = helloWorld.byteSizeLong ∧
    (parseFrom .EchoRequest bs = some helloWorld ↔ helloWorld.Readable) ∧
    (parseFrom .EchoRequest bs = some helloWorld ↔
      ∃ input, parseFrom .EchoRequest input = some helloWorld) :=
  serializeTo_spec helloWorld helloWorld_lt

end Message

/-! ## A call -/

section Call

variable {pb : Protobuf}

theorem utf8_append (s t : String) : utf8 (s ++ t) = utf8 s ++ utf8 t := by
  unfold utf8
  rw [String.toByteArray_append]
  simp

/-- The response to a request. -/
def reply (request : EchoRequest pb) : EchoResponse pb := EchoServiceImpl.echo request .new

/-- The reply to a valid request is valid. -/
theorem verifyUTF8_reply {request : EchoRequest pb} (h : pb.verifyUTF8 request.message = true) :
    pb.verifyUTF8 (reply request).message = true := by
  obtain ⟨s, hs⟩ := (pb.verifyUTF8_iff _).mp h
  refine (pb.verifyUTF8_iff _).mpr ⟨"回复：" ++ s, ?_⟩
  rw [utf8_append, ← hs]
  rfl

theorem serve_eq {bs : Bytes} {request : EchoRequest pb}
    (h : Message.parseFrom .EchoRequest bs = some request) :
    serve pb bs = (reply request).serializeTo := by
  unfold serve
  rw [h]
  rfl

/-- The answer of the server to a request that is not too large. -/
theorem serve_internalSerialize {request : EchoRequest pb} (h : request.byteSizeLong < maxMessageSize) :
    serve pb request.internalSerialize =
      if request.Readable then (reply request).serializeTo else none := by
  have hparse := Message.parseFrom_serializeTo (Message.serializeTo_eq_some.mpr ⟨h, rfl⟩)
  split
  · rename_i hread
    rw [if_pos hread] at hparse
    exact serve_eq hparse
  · rename_i hread
    rw [if_neg hread] at hparse
    unfold serve
    rw [hparse]
    rfl

/-- **What a call gives.** A call of `Echo` gives a response exactly when request and response can be
written, carried and read. The response is then the string of the request with `回复：` in front, and
has no unknown fields, whatever the request has. -/
theorem EchoService_Stub.echo_iff (brpc : Brpc) (request : EchoRequest pb)
    (response : EchoResponse pb) :
    EchoService_Stub.echo brpc request = some response ↔
      request.byteSizeLong < maxMessageSize ∧ (reply request).byteSizeLong < maxMessageSize ∧
      (brpc.carryRequest request.internalSerialize).isSome ∧
      (brpc.carryResponse (reply request).internalSerialize).isSome ∧
      pb.verifyUTF8 request.message = true ∧ (reply request).message.length < maxStringSize ∧
      response = ⟨utf8 "回复：" ++ request.message, []⟩ := by
  have hreply : (reply request).Readable ↔
      pb.verifyUTF8 (reply request).message = true ∧ (reply request).message.length < maxStringSize :=
    Iff.rfl
  have hlen : request.message.length ≤ (reply request).message.length := by
    change _ ≤ (utf8 "回复：" ++ request.message).length
    rw [List.length_append]
    omega
  unfold EchoService_Stub.echo
  constructor
  · intro h
    simp only [Option.bind_eq_bind, Option.bind_eq_some_iff] at h
    obtain ⟨sent, hsent, body, hbody, served, hserved, answer, hanswer, hback⟩ := h
    obtain ⟨hreq, rfl⟩ := Message.serializeTo_eq_some.mp hsent
    obtain rfl := brpc.carryRequest_eq _ _ hbody
    obtain rfl := brpc.carryResponse_eq _ _ hanswer
    rw [serve_internalSerialize hreq] at hserved
    split at hserved
    · rename_i hread
      obtain ⟨hresp, rfl⟩ := Message.serializeTo_eq_some.mp hserved
      have hp := Message.parseFrom_serializeTo hserved
      rw [hp] at hback
      split at hback
      · rename_i hread'
        cases hback
        exact ⟨hreq, hresp, by rw [hbody]; rfl, by rw [hanswer]; rfl, hread.1, hread'.2, rfl⟩
      · cases hback
    · cases hserved
  · rintro ⟨hreq, hresp, hcarry, hcarry', hutf8, hlong, rfl⟩
    obtain ⟨body, hbody⟩ := Option.isSome_iff_exists.mp hcarry
    obtain ⟨answer, hanswer⟩ := Option.isSome_iff_exists.mp hcarry'
    obtain rfl := brpc.carryRequest_eq _ _ hbody
    obtain rfl := brpc.carryResponse_eq _ _ hanswer
    have hread : request.Readable := ⟨hutf8, Nat.lt_of_le_of_lt hlen hlong⟩
    have hreceived := Message.serializeTo_eq_some.mpr ⟨hresp, rfl⟩
    have hback := Message.parseFrom_serializeTo hreceived
    rw [if_pos (hreply.mpr ⟨verifyUTF8_reply hutf8, hlong⟩)] at hback
    simp only [Message.serializeTo_eq_some.mpr ⟨hreq, rfl⟩, Option.bind_eq_bind, Option.bind_some,
      hbody, serve_internalSerialize hreq, if_pos hread, hreceived, hanswer, hback]
    rfl

/-- A transport that carries bodies of at most 64 MiB. -/
def limitedBrpc : Brpc where
  carryRequest bs := if bs.length ≤ 2 ^ 26 then some bs else none
  carryResponse bs := if bs.length ≤ 2 ^ 26 then some bs else none
  carryRequest_eq _ _ h := (Option.some.inj (Option.ite_none_right_eq_some.mp h).2).symm
  carryResponse_eq _ _ h := (Option.some.inj (Option.ite_none_right_eq_some.mp h).2).symm

theorem echo_iff_helloWorld :
    EchoService_Stub.echo limitedBrpc Message.helloWorld =
      some ⟨utf8 "回复：" ++ utf8 "hello world", []⟩ := by
  have hlt : (reply Message.helloWorld).byteSizeLong ≤ 22 := Message.byteSizeLong_le rfl (by decide)
  have hcarry : ∀ {name : MessageName} (m : Message wireProtobuf name), m.byteSizeLong ≤ 2 ^ 26 →
      (limitedBrpc.carryRequest m.internalSerialize).isSome ∧
        (limitedBrpc.carryResponse m.internalSerialize).isSome := fun m hm => by
    rw [m.byteSizeLong_eq] at hm
    have hsome : (if m.internalSerialize.length ≤ 2 ^ 26 then some m.internalSerialize else none) =
        some m.internalSerialize := if_pos hm
    exact ⟨congrArg Option.isSome hsome, congrArg Option.isSome hsome⟩
  have hreq : Message.helloWorld.byteSizeLong ≤ 13 := Message.byteSizeLong_le rfl (by decide)
  exact (EchoService_Stub.echo_iff limitedBrpc Message.helloWorld _).mpr
    ⟨Message.helloWorld_lt, Nat.lt_of_le_of_lt hlt (by decide),
      (hcarry _ (Nat.le_trans hreq (by decide))).1, (hcarry _ (Nat.le_trans hlt (by decide))).2,
      (wireProtobuf.verifyUTF8_iff _).mpr ⟨_, rfl⟩, by decide, rfl⟩

end Call

end CharSystem
