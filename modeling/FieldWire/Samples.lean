import FieldWire.Limits
import FieldWire.Payload

/-! # Sample inputs

Byte strings built without the checks of the encoder, so malformed ones too: single fields, nested messages in a
chain, and messages of a given length. -/

namespace FieldWire.Samples

/-- Limits above what samples need: one MiB and 64 levels. -/
def roomyLimits : Limits := ⟨1048576, 64⟩

/-- A header and the payload as it is. The id is not checked: the header keeps its low 61 bits. -/
def rawField (id : UInt64) (wireType : WireType) (payload : Bytes) : Bytes :=
  FieldHeader.encode ⟨id, wireType⟩ ++ payload

/-- The body as a nested message under the id. -/
def wrapNested (id : UInt64) (body : Bytes) : Bytes :=
  rawField id .message (Prefixed.encode body)

/-- Messages nested in each other under id 1, `levels` of them but at least one, and zero under id 1 in the
    innermost. -/
def nestChain : Nat → Bytes
  | 0 => rawField 1 .uint64 (Varint.encode 0)
  | 1 => rawField 1 .uint64 (Varint.encode 0)
  | levels + 2 => wrapNested 1 (nestChain (levels + 1))

inductive SizeError where
  | tooShort
  | noLayout
  deriving DecidableEq, Repr

def SizeError.message : SizeError → String
  | tooShort => "a binary field takes at least 3 bytes"
  | noLayout => "no binary field has this length"

def filler : UInt8 := 0xaa

/-- The length of the contents of a field whose header and length prefix take the given numbers of bytes, if the
    field can have the total length. -/
def contentsLength? (total headerLength prefixLength : Nat) : Option Nat :=
  let contents := total - (headerLength + prefixLength)
  if headerLength + prefixLength ≤ total ∧ Varint.encodedLength (UInt64.ofNat contents) = prefixLength then
    some contents
  else
    none

/-- The contents of a binary field under the id that is `total` bytes long: the first length that fits, from the
    shortest prefix on. -/
def fit? (total : Nat) (id : UInt64) : Option Nat :=
  let headerLength := Varint.encodedLength (FieldHeader.pack ⟨id, .binary⟩)
  [1, 2, 3, 4, 5, 6, 7, 8, 9].findSome? (contentsLength? total headerLength)

/-- A message of the given length that holds one binary field. The field has id 1, or id 16 with its longer
    header where no field with id 1 has that length. -/
def sizedMessage (length : Nat) : Except SizeError Bytes :=
  if length < 3 then
    .error .tooShort
  else
    let layout? := [1, 16].findSome? fun id => (fit? length id).map fun contents => (id, contents)
    match layout? with
    | some (id, contents) => .ok (rawField id .binary (Prefixed.encode (List.replicate contents filler)))
    | none => .error .noLayout

end FieldWire.Samples
