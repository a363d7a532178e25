import FieldWire.FieldHeader
import FieldWire.Index

/-! # Values and messages

A message holds fields, an id and a value each; a value is an integer, a byte string or a message again. Fields are kept
in the order in which they were inserted, which is the order in which they are written, with an index of their positions
by id beside them. Inserting keeps the ids of a message distinct and within `FieldHeader.maxId`. Lookups go through the
index and treat a message as a set of fields keyed by id; the order of the fields shows only where they are listed. -/

namespace FieldWire

mutual

inductive Value where
  | uint64 (n : UInt64)
  | binary (bytes : Bytes)
  | message (m : Message)

structure Message where
  /-- The fields in insertion order. -/
  fields : List (UInt64 × Value)
  /-- The positions of the fields. -/
  index : Index

end

instance : Inhabited Value := ⟨.uint64 0⟩

instance : Inhabited Message := ⟨⟨[], .empty⟩⟩

/-! ### Values -/

namespace Value

/-- The wire type that the value is written with. -/
def wireType : Value → WireType
  | uint64 _ => .uint64
  | binary _ => .binary
  | message _ => .message

def asUInt64? : Value → Option UInt64
  | uint64 n => some n
  | _ => none

def asBinary? : Value → Option Bytes
  | binary bytes => some bytes
  | _ => none

def asMessage? : Value → Option Message
  | message m => some m
  | _ => none

end Value

/-! ### Fields of a message -/

namespace Message

def empty : Message := ⟨[], .empty⟩

def size (m : Message) : Nat := m.fields.length

def isEmpty (m : Message) : Bool := m.fields.isEmpty

def contains (m : Message) (id : UInt64) : Bool := m.index.contains id

def get? (m : Message) (id : UInt64) : Option Value := m.index.at? m.fields id

/-- The message with one more field at its end. The id must fit into a header and be new to the message; that
    it fits is checked first. -/
def insert (m : Message) (id : UInt64) (v : Value) : Except Error Message :=
  if FieldHeader.maxId < id then
    .error (.fieldIdRange id)
  else if m.contains id then
    .error (.duplicateField id)
  else
    .ok ⟨m.fields ++ [(id, v)], m.index.set id m.fields.length⟩

/-- Inserts a field in place: its position is entered into the index, and then the field into the list. What was done
    before a failure stays. -/
def place (m : Message) (id : UInt64) (v : Value) : Except Error Unit × Message :=
  if FieldHeader.maxId < id then
    (.error (.fieldIdRange id), m)
  else if m.contains id then
    (.error (.duplicateField id), m)
  else
    let entered : Message := ⟨m.fields, m.index.set id m.fields.length⟩
    (.ok (), ⟨entered.fields ++ [(id, v)], entered.index⟩)

/-- The message with more fields, inserted one after another. -/
def insertAll (m : Message) (fields : List (UInt64 × Value)) : Except Error Message :=
  fields.foldlM (fun m f => m.insert f.1 f.2) m

def ofFields (fields : List (UInt64 × Value)) : Except Error Message := empty.insertAll fields

def get (m : Message) (id : UInt64) : Except Error Value :=
  match m.get? id with
  | some v => .ok v
  | none => .error (.missingField id)

def getUInt64 (m : Message) (id : UInt64) : Except Error UInt64 := do
  match ← m.get id with
  | .uint64 n => pure n
  | v => throw (.typeMismatch id .uint64 v.wireType)

def getBinary (m : Message) (id : UInt64) : Except Error Bytes := do
  match ← m.get id with
  | .binary bytes => pure bytes
  | v => throw (.typeMismatch id .binary v.wireType)

def getMessage (m : Message) (id : UInt64) : Except Error Message := do
  match ← m.get id with
  | .message nested => pure nested
  | v => throw (.typeMismatch id .message v.wireType)

def sorted (m : Message) : List (UInt64 × Value) := m.index.walk m.fields

def ids (m : Message) : List UInt64 := m.index.ids

end Message

/-! ### Depth -/

mutual

def Value.depth : Value → Nat
  | .uint64 _ => 0
  | .binary _ => 0
  | .message m => m.depth

/-- The number of message levels in a message, its own included. -/
def Message.depth : Message → Nat
  | ⟨fields, _⟩ => 1 + Message.depthOfFields fields

/-- The greatest number of message levels below one list of fields. -/
def Message.depthOfFields : List (UInt64 × Value) → Nat
  | [] => 0
  | (_, v) :: rest => max v.depth (Message.depthOfFields rest)

end

end FieldWire
