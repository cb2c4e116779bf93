import CharSystem.Wire

/-!
# The messages of the Echo service (`main.pb.cc`, `main.pb.h`, `server.cc`)

`protoc` generates one class for each of the two messages, with the same text but for the names
(`MessageName`). Each has one `string` field and the fields that a newer sender may know.

* `Protobuf`: what the generated code uses of the protobuf library, with what the library documents:
  the wire format of a tag and of a string, how long a string a reader takes, that an unknown field is
  written as it was read, what valid UTF-8 is, and that a reader looks at nothing after what it reads.
* `Message`: the members of a message. The unknown fields come from `_InternalParse`, which keeps only
  fields whose tag is not `10`.
* `Message.internalParse`, `internalSerialize`, `byteSizeLong`, `mergeImpl`, `copyFrom`: as generated.
  `parseFrom` and `serializeTo` are the entry points of the library that call them.
* `Brpc`: what carries the bytes of a call to the server and back.
* `EchoServiceImpl.echo`, and a call of a client (`EchoService_Stub.echo`), with the bytes that
  it sends and gets.
-/

namespace CharSystem

/-- The largest message of the library has less than `2^31` bytes. -/
def maxMessageSize : Nat := 2 ^ 31

/-- A reader takes strings of less than `2^31 - 16` bytes (`ReadSize` keeps a margin of 16). -/
def maxStringSize : Nat := 2 ^ 31 - 16

/-- The bytes of a string. -/
def utf8 (s : String) : Bytes := s.toByteArray.data.toList

/-- The protobuf library, for the generated code (module doc). -/
structure Protobuf where
  UnknownField : Type
  /-- `ReadTag`; none for a null pointer. -/
  readTag : Bytes → Option (Nat × Bytes)
  inlineGreedyStringParser : Bytes → Option (Bytes × Bytes)
  unknownFieldParse : Nat → Bytes → Option (UnknownField × Bytes)
  verifyUTF8 : Bytes → Bool
  /-- `WriteStringMaybeAliased`: what it writes. -/
  writeStringMaybeAliased : Nat → Bytes → Bytes
  /-- `InternalSerializeUnknownFieldsToArray`: what it writes. -/
  serializeUnknownFields : List UnknownField → Bytes
  stringSize : Bytes → Nat
  computeUnknownFieldsSize : List UnknownField → Nat
  /-- The tag of an unknown field, and the bytes after its tag. -/
  tagOf : UnknownField → Nat
  payload : UnknownField → Bytes
  readTag_varint : ∀ tag rest, tag < 2 ^ 32 →
    readTag (Wire.varint tag ++ rest) = some (tag, rest)
  readTag_lt : ∀ bs tag rest, readTag bs = some (tag, rest) → rest.length < bs.length
  readTag_append : ∀ bs tag rest more, readTag bs = some (tag, rest) →
    readTag (bs ++ more) = some (tag, rest ++ more)
  string_delimited : ∀ s rest, s.length < maxStringSize →
    inlineGreedyStringParser (Wire.delimited s ++ rest) = some (s, rest)
  string_long : ∀ s rest, maxStringSize ≤ s.length → s.length < maxMessageSize →
    inlineGreedyStringParser (Wire.delimited s ++ rest) = none
  string_lt : ∀ bs s rest, inlineGreedyStringParser bs = some (s, rest) → s.length < maxStringSize
  string_le : ∀ bs s rest, inlineGreedyStringParser bs = some (s, rest) → rest.length ≤ bs.length
  string_append : ∀ bs s rest more, inlineGreedyStringParser bs = some (s, rest) →
    inlineGreedyStringParser (bs ++ more) = some (s, rest ++ more)
  unknown_payload : ∀ f rest, unknownFieldParse (tagOf f) (payload f ++ rest) = some (f, rest)
  unknown_tag : ∀ tag bs f rest, unknownFieldParse tag bs = some (f, rest) → tagOf f = tag
  unknown_le : ∀ tag bs f rest, unknownFieldParse tag bs = some (f, rest) → rest.length ≤ bs.length
  unknown_append : ∀ tag bs f rest more, unknownFieldParse tag bs = some (f, rest) →
    unknownFieldParse tag (bs ++ more) = some (f, rest ++ more)
  tagOf_lt : ∀ f, tagOf f < 2 ^ 32
  /-- A field has a number, and its tag does not end a group. -/
  tagOf_field : ∀ f, tagOf f ≠ 0 ∧ tagOf f % 8 ≠ 4
  verifyUTF8_iff : ∀ bs, verifyUTF8 bs = true ↔ ∃ s, bs = utf8 s
  writeString_eq : ∀ number s,
    writeStringMaybeAliased number s = Wire.varint (number * 8 + 2) ++ Wire.delimited s
  stringSize_eq : ∀ s, stringSize s = (Wire.delimited s).length
  serializeUnknownFields_eq : ∀ fs,
    serializeUnknownFields fs = fs.flatMap fun f => Wire.varint (tagOf f) ++ payload f
  computeUnknownFieldsSize_eq : ∀ fs,
    computeUnknownFieldsSize fs = (serializeUnknownFields fs).length

/-- The wire format itself as the library. (Groups are not read.) -/
def wireProtobuf : Protobuf where
  UnknownField := Wire.Record maxStringSize
  readTag bs := (Wire.readVarint 5 bs).filter (·.1 < 2 ^ 32)
  inlineGreedyStringParser := Wire.readDelimited maxStringSize
  unknownFieldParse := Wire.Record.read maxStringSize
  verifyUTF8 bs := (ByteArray.mk bs.toArray).validateUTF8
  writeStringMaybeAliased number s := Wire.varint (number * 8 + 2) ++ Wire.delimited s
  serializeUnknownFields fs := fs.flatMap fun f => Wire.varint f.tag ++ f.payload.bytes
  stringSize s := (Wire.delimited s).length
  computeUnknownFieldsSize fs :=
    (fs.flatMap fun f => Wire.varint f.tag ++ f.payload.bytes).length
  tagOf := Wire.Record.tag
  payload f := f.payload.bytes
  readTag_varint tag rest h := by
    have hlt : tag < 128 ^ (4 + 1) := Nat.lt_trans h (by decide)
    rw [Wire.readVarint_varint hlt]
    exact Option.filter_eq_some_iff.mpr ⟨rfl, by simpa using h⟩
  readTag_lt bs tag rest h := Wire.readVarint_lt (Option.filter_eq_some_iff.mp h).1
  readTag_append bs tag rest more h := by
    obtain ⟨hr, hlt⟩ := Option.filter_eq_some_iff.mp h
    rw [Wire.readVarint_append hr]
    exact Option.filter_eq_some_iff.mpr ⟨rfl, hlt⟩
  string_delimited s rest h := Wire.readDelimited_delimited h (by decide) rest
  string_long s rest h hlt := Wire.readDelimited_long h (Nat.lt_trans hlt (by decide)) rest
  string_lt bs s rest h := Wire.readDelimited_bound h
  string_le bs s rest h := Wire.readDelimited_le h
  string_append bs s rest more h := Wire.readDelimited_append h more
  unknown_payload f rest := f.read_bytes (by decide) rest
  unknown_tag tag bs f rest h := (Wire.Record.read_eq_some.mp h).1
  unknown_le tag bs f rest h := (Wire.Payload.read_spec (Wire.Record.read_eq_some.mp h).2).2.2.1
  unknown_append tag bs f rest more h := by
    obtain ⟨ht, hp⟩ := Wire.Record.read_eq_some.mp h
    exact Wire.Record.read_eq_some.mpr ⟨ht, (Wire.Payload.read_spec hp).2.2.2 more⟩
  tagOf_lt f := by
    have hw := Wire.Record.wireType_cases f.payload
    have hn := f.number_lt
    unfold Wire.Record.tag
    omega
  tagOf_field f := by
    have hw := Wire.Record.wireType_cases f.payload
    have hn := f.number_pos
    unfold Wire.Record.tag
    omega
  verifyUTF8_iff bs := by
    rw [ByteArray.validateUTF8_eq_true_iff]
    constructor
    · exact fun h => ⟨⟨_, h⟩, by simp [utf8]⟩
    · rintro ⟨s, rfl⟩
      have hs : ByteArray.mk (utf8 s).toArray = s.toByteArray := by simp [utf8]
      rw [hs]
      exact s.isValidUTF8
  writeString_eq _ _ := rfl
  stringSize_eq _ := rfl
  serializeUnknownFields_eq _ := rfl
  computeUnknownFieldsSize_eq _ := rfl

/-- The two messages. -/
inductive MessageName where
  | EchoRequest
  | EchoResponse
  deriving DecidableEq, Repr

/-- A message: `_impl_.message_` and `_internal_metadata_`. -/
@[ext] structure Message (pb : Protobuf) (name : MessageName) where
  message : Bytes
  unknownFields : List {f : pb.UnknownField // pb.tagOf f ≠ 10}

/-- `class EchoRequest`. -/
abbrev EchoRequest (pb : Protobuf) := Message pb .EchoRequest
/-- `class EchoResponse`. -/
abbrev EchoResponse (pb : Protobuf) := Message pb .EchoResponse

namespace Message

variable {pb : Protobuf} {name : MessageName}

/-- The constructor. -/
def new : Message pb name where
  message := []
  unknownFields := []

/-- `set_message`. -/
def setMessage (m : Message pb name) (message : Bytes) : Message pb name :=
  { m with message := message }

/-- `Clear`. -/
def clear (_ : Message pb name) : Message pb name where
  message := []
  unknownFields := []

/-- `MergeImpl`. -/
def mergeImpl (toMsg fromMsg : Message pb name) : Message pb name where
  message := if !fromMsg.message.isEmpty then fromMsg.message else toMsg.message
  unknownFields := toMsg.unknownFields ++ fromMsg.unknownFields

/-- `CopyFrom` of another message. -/
def copyFrom (m fromMsg : Message pb name) : Message pb name := m.clear.mergeImpl fromMsg

/-- Where `_InternalParse` stops: the message, the rest, and the tag that ended it, if one did. -/
structure Parsed (pb : Protobuf) (name : MessageName) where
  message : Message pb name
  ptr : Bytes
  lastTag : Option Nat

/-- `_InternalParse` into the message `m`. -/
def internalParse (m : Message pb name) (ptr : Bytes) : Option (Parsed pb name) :=
  if ptr = [] then some ⟨m, [], none⟩
  else
    match _ht : pb.readTag ptr with
    | none => none
    | some (tag, ptr1) =>
      if h10 : tag >>> 3 = 1 ∧ tag % 256 = 10 then
        match _hs : pb.inlineGreedyStringParser ptr1 with
        | none => none
        | some (str, ptr2) =>
          if pb.verifyUTF8 str then internalParse { m with message := str } ptr2 else none
      -- handle_unusual
      else if tag = 0 ∨ tag &&& 7 = 4 then some ⟨m, ptr1, some tag⟩
      else
        match hu : pb.unknownFieldParse tag ptr1 with
        | none => none
        | some (f, ptr2) =>
          have htag : pb.tagOf f ≠ 10 := fun he => h10 (by
            rw [pb.unknown_tag tag ptr1 f ptr2 hu] at he
            rw [he]
            decide)
          internalParse { m with unknownFields := m.unknownFields ++ [⟨f, htag⟩] } ptr2
termination_by ptr.length
decreasing_by
  · exact Nat.lt_of_le_of_lt (pb.string_le _ _ _ _hs) (pb.readTag_lt _ _ _ _ht)
  · exact Nat.lt_of_le_of_lt (pb.unknown_le _ _ _ _ hu) (pb.readTag_lt _ _ _ _ht)

/-- `_InternalSerialize`: what it writes. -/
def internalSerialize (m : Message pb name) : Bytes :=
  (if !m.message.isEmpty then pb.writeStringMaybeAliased 1 m.message else []) ++
    if !m.unknownFields.isEmpty then pb.serializeUnknownFields (m.unknownFields.map (·.val)) else []

/-- `ByteSizeLong`. -/
def byteSizeLong (m : Message pb name) : Nat :=
  let totalSize := if !m.message.isEmpty then 1 + pb.stringSize m.message else 0
  if !m.unknownFields.isEmpty then
    totalSize + pb.computeUnknownFieldsSize (m.unknownFields.map (·.val))
  else totalSize

/-- `ParseFromString`: the message is cleared, and the parse must end at the end of the input. -/
def parseFrom (name : MessageName) (bs : Bytes) : Option (Message pb name) :=
  match internalParse (.new : Message pb name) bs with
  | some ⟨m, _, none⟩ => some m
  | _ => none

/-- `SerializeToString`: a message that is too large is not written. -/
def serializeTo (m : Message pb name) : Option Bytes :=
  if m.byteSizeLong < maxMessageSize then some m.internalSerialize else none

end Message

/-- `EchoServiceImpl::Echo`. -/
def EchoServiceImpl.echo {pb : Protobuf} (request : EchoRequest pb) (response : EchoResponse pb) :
    EchoResponse pb :=
  response.setMessage (utf8 "回复：" ++ request.message)

/-- The transport, for one call: what reaches the other side of the bytes that a side sends; none if
the call fails on the way (a body over the limit of the transport, a timeout, a lost connection). What
reaches the other side is what was sent. -/
structure Brpc where
  carryRequest : Bytes → Option Bytes
  carryResponse : Bytes → Option Bytes
  carryRequest_eq : ∀ sent received, carryRequest sent = some received → received = sent
  carryResponse_eq : ∀ sent received, carryResponse sent = some received → received = sent

/-- The server: from the bytes of a request to those of the response. -/
def serve (pb : Protobuf) (bs : Bytes) : Option Bytes := do
  let request : EchoRequest pb ← Message.parseFrom .EchoRequest bs
  (EchoServiceImpl.echo request .new).serializeTo

/-- `EchoService_Stub::Echo`: the request is sent, and the response is read. -/
def EchoService_Stub.echo {pb : Protobuf} (brpc : Brpc) (request : EchoRequest pb) :
    Option (EchoResponse pb) := do
  let body ← brpc.carryRequest (← request.serializeTo)
  let answer ← brpc.carryResponse (← serve pb body)
  Message.parseFrom .EchoResponse answer

end CharSystem
