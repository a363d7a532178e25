import FieldWire.WireType

/-! # Errors

What can go wrong when a message is built, read, written or hashed, and the text of each error. -/

namespace FieldWire

/-- The cause of a failure. Every failure ends the operation that raised it. -/
inductive Error where
  | typeMismatch (id : UInt64) (expected actual : WireType)
  | missingField (id : UInt64)
  | fieldIdRange (id : UInt64)
  | oversizeMessage (length : Nat) (max : UInt64)
  | depthExceeded (max : UInt64)
  | truncated (what : String)
  | unknownWireType (tag : UInt8)
  | duplicateField (id : UInt64)
  | invalidState (what : String)
  | malformedVarint (length : Nat)
  /-- A length is beyond what memory can hold. -/
  | lengthOverflow (length : UInt64)
  | unknownAlgorithm (name : String)
  deriving DecidableEq, Repr, Inhabited

namespace Error

/-! ### Truncations and states by name -/

def varintMissing : Error := truncated "missing varint prefix"

def varintCut : Error := truncated "not enough bytes to decode varint"

def payloadCut : Error := truncated "not enough bytes remaining in input"

def parserFailed : Error := invalidState "parser failed earlier"

def parserUnfinished : Error := invalidState "not finished parsing"

def stackEmpty : Error := invalidState "decoder stack is empty"

def notNested : Error := invalidState "not inside a nested message"

def nestedUnfinished : Error := invalidState "nested messages left unfinished"

def message : Error → String
  | typeMismatch id expected actual => s!"field {id} has type {actual.name} (expected {expected.name})"
  | missingField id => s!"field {id} not present"
  | fieldIdRange id => s!"field id {id} exceeds the maximum of 2^61-1"
  | oversizeMessage length max => s!"oversized message: {length} bytes (max {max})"
  | depthExceeded max => s!"max depth of {max} nested messages exceeded"
  | truncated what => s!"message truncated: {what}"
  | unknownWireType tag => s!"unknown wiretype: {tag}"
  | duplicateField id => s!"duplicate field id: {id}"
  | invalidState what => s!"invalid state: {what}"
  | malformedVarint length => s!"malformed varint: non-minimal {length}-byte encoding"
  | lengthOverflow length => s!"length {length} does not fit in memory"
  | unknownAlgorithm name => s!"unknown hash algorithm: {name}"

end Error
end FieldWire
