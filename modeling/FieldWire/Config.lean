import FieldWire.Codec
import FieldWire.Json.Basic

/-! # Configurations as JSON

Limits, codecs, hash algorithms, wire types and digests are read from JSON and written as compact JSON. A field that
is missing in limits or in a codec has its default. -/

namespace FieldWire

/-- The one of the candidates that has the name. -/
def Json.named? {α : Type} (candidates : List α) (name : α → String) (json : Json) : Option α := do
  let text ← json.caseName?
  candidates.find? (name · == text)

namespace Limits

/-- Limits from a record of two numbers below `2 ^ 64`. -/
def ofJson? (json : Json) : Option Limits := do
  let record ← json.record? ["max_length", "max_depth"]
  let number? (json : Json) : Option UInt64 := (json.below? UInt64.size).map UInt64.ofNat
  let maxLength ← Json.field? record "max_length" number? default.maxLength
  let maxDepth ← Json.field? record "max_depth" number? default.maxDepth
  return ⟨maxLength, maxDepth⟩

def toJson (limits : Limits) : String :=
  Json.objectText [("max_length", toString limits.maxLength), ("max_depth", toString limits.maxDepth)]

end Limits

namespace HashAlgorithm

def ofJson? (json : Json) : Option HashAlgorithm := json.named? [sha256, sha512_256, blake3] name

def toJson (algorithm : HashAlgorithm) : String := Json.quotedText algorithm.name

end HashAlgorithm

namespace Codec

def ofJson? (json : Json) : Option Codec := do
  let record ← json.record? ["limits", "algorithm"]
  let limits ← Json.field? record "limits" Limits.ofJson? default.limits
  let algorithm ← Json.field? record "algorithm" HashAlgorithm.ofJson? default.algorithm
  return ⟨limits, algorithm⟩

def toJson (codec : Codec) : String :=
  Json.objectText [("limits", codec.limits.toJson), ("algorithm", codec.algorithm.toJson)]

end Codec

namespace WireType

def configName : WireType → String
  | uint64 => "UInt64"
  | message => "Message"
  | binary => "Binary"

def ofJson? (json : Json) : Option WireType := json.named? [uint64, message, binary] configName

def toJson (wireType : WireType) : String := Json.quotedText wireType.configName

end WireType

namespace Digest

/-- A digest from an array of 32 numbers below 256. -/
def ofJson? : Json → Option Digest
  | .array items => do
    let bytes ← items.mapM (Json.below? 256)
    ofBytes? (bytes.map UInt8.ofNat)
  | _ => none

def toJson (d : Digest) : String := Json.arrayText (d.toBytes.map fun b => toString b)

end Digest
end FieldWire
