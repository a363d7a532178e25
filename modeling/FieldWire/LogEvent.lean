import FieldWire.Hash.Algorithm

/-! # Log events

What parsing and checking report to whoever follows them. A log event has a level, a fixed text and named details
in a fixed order. -/

namespace FieldWire

inductive LogLevel where
  | trace
  | debug
  | warn
  deriving DecidableEq, Repr

def LogLevel.name : LogLevel → String
  | trace => "TRACE"
  | debug => "DEBUG"
  | warn => "WARN"

inductive LogEvent where
  | oversizedRefused (length : Nat) (max : UInt64)
  | depthRefused (max : UInt64)
  /-- The header of a field is read, `depth` levels deep. -/
  | field (depth : Nat) (id : UInt64) (wireType : WireType)
  | overrun (announced available : Nat)
  /-- A message of so many bytes and root fields is parsed. -/
  | parsed (length fields : Nat)
  | outputRefused (length : Nat) (max : UInt64)
  | committed (algorithm : HashAlgorithm) (digest : Digest)
  | mismatch (expected actual : Digest) (algorithm : HashAlgorithm)
  deriving DecidableEq, Repr

namespace LogEvent

def level : LogEvent → LogLevel
  | field .. => .trace
  | mismatch .. => .warn
  | _ => .debug

def message : LogEvent → String
  | oversizedRefused .. => "rejecting oversized message"
  | depthRefused .. => "rejecting nested message: depth exceeded"
  | field .. => "field"
  | overrun .. => "length prefix overruns buffer"
  | parsed .. => "parsed message"
  | outputRefused .. => "refusing to emit oversized message"
  | committed .. => "computed commitment"
  | mismatch .. => "commitment mismatch"

def details : LogEvent → List (String × String)
  | oversizedRefused length max => [("len", toString length), ("max", toString max)]
  | depthRefused max => [("max", toString max)]
  | field depth id wireType =>
    [("depth", toString depth), ("field_id", toString id), ("wire_type", wireType.name)]
  | overrun announced available => [("want", toString announced), ("have", toString available)]
  | parsed length fields => [("len", toString length), ("fields", toString fields)]
  | outputRefused length max => [("len", toString length), ("max", toString max)]
  | committed algorithm digest => [("algorithm", algorithm.name), ("digest", digest.hex)]
  | mismatch expected actual algorithm =>
    [("expected", expected.hex), ("actual", actual.hex), ("algorithm", algorithm.name)]

end LogEvent
end FieldWire
