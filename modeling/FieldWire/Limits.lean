/-! # Limits

How much of an input a parser takes on: a greatest length in bytes and a greatest number of message levels. -/

namespace FieldWire

/-- Limits of a parse. A limit is a number of 64 bits, as are the lengths that the wire format can announce. -/
structure Limits where
  /-- The greatest length of a message in bytes. -/
  maxLength : UInt64
  /-- The greatest number of message levels, the outermost one included. -/
  maxDepth : UInt64
  deriving DecidableEq, Repr

namespace Limits

/-- One KiB and eight levels: small, since a message is most often a credential. -/
def default : Limits := ⟨1024, 8⟩

instance : Inhabited Limits := ⟨default⟩

end Limits
end FieldWire
