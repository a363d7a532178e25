import FieldWire.Varint

/-! # Field headers

Every field starts with a header: one varint that packs the id of the field and its wire type as
`8 * id + tag`. -/

namespace FieldWire

structure FieldHeader where
  id : UInt64
  wireType : WireType
  deriving DecidableEq, Repr, Inhabited

namespace FieldHeader

/-- The largest id that fits beside the three bits of the tag, `2 ^ 61 - 1`. -/
def maxId : UInt64 := 2305843009213693951

def make (id : UInt64) (wireType : WireType) : Except Error FieldHeader :=
  if id ≤ maxId then .ok ⟨id, wireType⟩ else .error (.fieldIdRange id)

/-- The packed header. The arithmetic is modulo `2 ^ 64`, so only the low 61 bits of the id take part. -/
def pack (header : FieldHeader) : UInt64 :=
  header.id * 8 + header.wireType.tag.toUInt64

def unpack (packed : UInt64) : Except Error FieldHeader :=
  let tag := (packed % 8).toUInt8
  match WireType.ofTag? tag with
  | some wireType => .ok ⟨packed / 8, wireType⟩
  | none => .error (.unknownWireType tag)

def encode (header : FieldHeader) : Bytes :=
  Varint.encode header.pack

/-- The buffer with the header at its end, and the number of bytes written. -/
def appendTo (buffer : Bytes) (header : FieldHeader) : Bytes × Nat :=
  Varint.appendTo buffer header.pack

/-- The header at the front of the input, and the input that is left. The varint of an unknown tag is
    consumed; a varint that cannot be read is not. -/
def read (input : Bytes) : Except Error FieldHeader × Bytes :=
  match Varint.read input with
  | (.ok packed, rest) => (unpack packed, rest)
  | (.error e, rest) => (.error e, rest)

theorem length_lt_of_read {input rest : Bytes} {header : FieldHeader} (h : read input = (.ok header, rest)) :
    rest.length < input.length := by
  unfold read at h
  split at h
  · next hv =>
    cases (Prod.mk.inj h).2
    exact Varint.length_lt_of_read hv
  · cases h

end FieldHeader
end FieldWire
