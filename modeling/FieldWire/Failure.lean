import FieldWire.Error

/-! # Kinds of parse failures

A coarse classification of the errors that a parse can end with, used to say what is expected of an input. -/

namespace FieldWire

inductive Failure where
  | truncated
  | oversizeMessage
  | depthExceeded
  | unknownWireType
  | duplicateField
  | malformedVarint
  deriving DecidableEq, Repr

namespace Failure

/-- Every kind, in the order in which kinds are listed. -/
def all : List Failure :=
  [truncated, oversizeMessage, depthExceeded, unknownWireType, duplicateField, malformedVarint]

def name : Failure → String
  | truncated => "Truncated"
  | oversizeMessage => "OversizeMessage"
  | depthExceeded => "DepthExceeded"
  | unknownWireType => "UnknownWiretype"
  | duplicateField => "DuplicateField"
  | malformedVarint => "MalformedVarint"

def covers : Failure → Error → Bool
  | truncated, .truncated _ => true
  | oversizeMessage, .oversizeMessage .. => true
  | depthExceeded, .depthExceeded _ => true
  | unknownWireType, .unknownWireType _ => true
  | duplicateField, .duplicateField _ => true
  | malformedVarint, .malformedVarint _ => true
  | _, _ => false

def covering (e : Error) : List Failure := all.filter (·.covers e)

end Failure
end FieldWire
