import FieldWire.Message.Basic
import FieldWire.Payload

/-! # The wire form of messages

A message is written field by field in insertion order: the header of the field, then its payload. Byte strings
and nested messages have their length in front. Writing fails only where an id does not fit into a header. -/

namespace FieldWire

mutual

/-- The wire form of the field that holds the value under the id. The body of a nested message is written
    before the id of its field is checked. -/
def Value.encodeField (id : UInt64) : Value → Except Error Bytes
  | .uint64 n => do
    let header ← FieldHeader.make id .uint64
    return header.encode ++ Varint.encode n
  | .binary bytes => do
    let header ← FieldHeader.make id .binary
    return header.encode ++ Prefixed.encode bytes
  | .message m => do
    let body ← m.encode
    let header ← FieldHeader.make id .message
    return header.encode ++ Prefixed.encode body

def Message.encode : Message → Except Error Bytes
  | ⟨fields, _⟩ => Message.encodeFields fields

def Message.encodeFields : List (UInt64 × Value) → Except Error Bytes
  | [] => return []
  | (id, v) :: rest => do
    let field ← v.encodeField id
    let others ← Message.encodeFields rest
    return field ++ others

end

/-! ### Writing into a buffer -/

/-- Writes fields one after another into a buffer. It does not look for repeated ids. -/
structure Encoder where
  buffer : Bytes

namespace Encoder

def empty : Encoder := ⟨[]⟩

/-- Appends the header of a field and then its payload. Nothing is appended if the id does not fit into a header. -/
def writeField (encoder : Encoder) (id : UInt64) (wireType : WireType) (writePayload : Encoder → Encoder) :
    Except Error Unit × Encoder :=
  match FieldHeader.make id wireType with
  | .ok header => (.ok (), writePayload ⟨(header.appendTo encoder.buffer).1⟩)
  | .error e => (.error e, encoder)

def writeVarint (n : UInt64) (encoder : Encoder) : Encoder := ⟨(Varint.appendTo encoder.buffer n).1⟩

/-- Appends bytes with their length in front. -/
def writePrefixed (bytes : Bytes) (encoder : Encoder) : Encoder :=
  ⟨(encoder.writeVarint (UInt64.ofNat bytes.length)).buffer ++ bytes⟩

def writeUInt64 (encoder : Encoder) (id n : UInt64) : Except Error Unit × Encoder :=
  encoder.writeField id .uint64 (writeVarint n)

def writeBinary (encoder : Encoder) (id : UInt64) (bytes : Bytes) : Except Error Unit × Encoder :=
  encoder.writeField id .binary (writePrefixed bytes)

/-- Appends a nested message. Its body is written first, into a buffer of its own. -/
def writeMessage (encoder : Encoder) (id : UInt64) (m : Message) : Except Error Unit × Encoder :=
  match m.encode with
  | .ok body => encoder.writeField id .message (writePrefixed body)
  | .error e => (.error e, encoder)

/-- Appends one field, and leaves the buffer as it was if the field cannot be written. -/
def write (encoder : Encoder) (id : UInt64) : Value → Except Error Unit × Encoder
  | .uint64 n => encoder.writeUInt64 id n
  | .binary bytes => encoder.writeBinary id bytes
  | .message m => encoder.writeMessage id m

end Encoder
end FieldWire
