import FieldWire.Failure
import FieldWire.Hex

/-! # Golden vectors

What every reader and writer of the format has to agree on: the form of some integers, which messages are accepted
under the default limits, and the SHA-256 digest of those that are. Bytes are given in hexadecimal
(`Hex.decode_encoded`). -/

namespace FieldWire

/-- The bytes of a text, or none if it is no hexadecimal text. -/
def Hex.bytesOf (text : String) : Bytes :=
  match decode text.toUTF8.toList with
  | .ok bytes => bytes
  | .error _ => []

theorem Hex.decode_eq_bytesOf {text : String} (h : (decode text.toUTF8.toList).isOk) :
    decode text.toUTF8.toList = .ok (bytesOf text) := by
  rw [bytesOf]
  cases hdecode : decode text.toUTF8.toList with
  | ok bytes => rfl
  | error e =>
    rw [hdecode] at h
    cases h

/-- The form of an integer, or bytes that are no form of any. -/
structure VarintVector where
  encoded : String
  value : Option UInt64

inductive Expected where
  /-- It is accepted, with the digest whose digits are given. -/
  | digest (hex : String)
  | failure (kind : Failure)

structure MessageVector where
  name : String
  description : String
  encoded : String
  expected : Expected

def VarintVector.bytes (v : VarintVector) : Bytes := Hex.bytesOf v.encoded

def MessageVector.bytes (v : MessageVector) : Bytes := Hex.bytesOf v.encoded

def varintVectors : List VarintVector := [
  ⟨"01", some 0⟩,
  ⟨"03", some 1⟩,
  ⟨"55", some 42⟩,
  ⟨"ff", some 127⟩,
  ⟨"0202", some 128⟩,
  ⟨"feff", some 16383⟩,
  ⟨"040002", some 16384⟩,
  ⟨"fcffff", some 2097151⟩,
  ⟨"08000002", some 2097152⟩,
  ⟨"80ffffffffffffff", some 72057594037927935⟩,
  ⟨"000000000000000001", some 72057594037927936⟩,
  ⟨"00ffffffffffffffff", some 18446744073709551615⟩,
  -- no bytes at all
  ⟨"", none⟩,
  -- one byte of two
  ⟨"02", none⟩,
  -- five bytes of nine
  ⟨"00ffffffff", none⟩,
  -- 0 in two bytes
  ⟨"0200", none⟩,
  -- 127 in two bytes
  ⟨"fe01", none⟩,
  -- a small value in nine bytes
  ⟨"000100000000000000", none⟩]

def messageVectors : List MessageVector := [
  ⟨"empty", "Message with no fields", "",
    .digest "c4694f2e93d5c4e7d51f9c5deb75e6cc8be5e1114178c6a45b6fc2c566a0aa8c"⟩,
  ⟨"single_uint64", "\x7b1: 42\x7d", "1155",
    .digest "ab172781cdc0ccebeb15b4103b0929b4e92819563714a6bee2ca1c167e1bf85d"⟩,
  ⟨"nested", "\x7b1: \x7b1: 42\x7d, 2: \"hi\"\x7d", "1505115527056869",
    .digest "73dd599ab7c8fd9094af84d59c716eeb5725df2e364ca3e4edd892757caebb7a"⟩,
  ⟨"mixed", "Binary, max uint64 and a nested message, ids out of order",
    "3709deadbeef1100ffffffffffffffff250977011101",
    .digest "8ba0bdf4004682f301fe3c4ea24e6111f2e9aee3d7c5004e0e59d100556e6ca9"⟩,
  ⟨"in_order", "\x7b1: 1, 2: 1\x7d", "11032103",
    .digest "e052d8c292904afdff58a6354b87db86e650e76b4ef3a0d6bce1ec72e361a546"⟩,
  ⟨"out_of_order", "\x7b2: 1, 1: 1\x7d hashes the same as \x7b1: 1, 2: 1\x7d", "21031103",
    .digest "e052d8c292904afdff58a6354b87db86e650e76b4ef3a0d6bce1ec72e361a546"⟩,
  ⟨"large_ids", "Two-byte field prefix and the largest packable field id", "0e7d037800f8ffffffffffffff0f",
    .digest "d81ec90b63cf3bedbb15cb748dac6f51e1fb58b833c9e967fc09c54b317063bc"⟩,
  ⟨"credential", "Credential-shaped message with two nesting levels",
    "170b616c6963652110207eaa0c354d174101010101010101010101010101010101010101010101010101010101010101012505110b",
    .digest "b21e192b7e198e5ef7775e309f0f602d6a8d0b1406862c5437c069ccfd009821"⟩,
  ⟨"max_depth", "Eight nested levels, the default maximum", "151d151915151511150d150915051101",
    .digest "804ba40a0b09ce36cba13f8df0a8e4dcfa78bbe4e72fe71c5ee0a2ce769db949"⟩,
  ⟨"too_deep", "Nine nested levels, one past the default maximum", "1521151d151915151511150d150915051101",
    .failure .depthExceeded⟩,
  ⟨"truncated_binary", "Binary length prefix overruns the buffer", "270b6869",
    .failure .truncated⟩,
  ⟨"truncated_nested", "Nested message length prefix overruns the buffer", "15091155",
    .failure .truncated⟩,
  ⟨"missing_value", "uint64 field prefix with no value", "11",
    .failure .truncated⟩,
  ⟨"duplicate_field", "\x7b1: 42, 1: 42\x7d", "11551155",
    .failure .duplicateField⟩,
  ⟨"duplicate_field_mixed_types", "Field 1 as uint64 then as binary", "11551701",
    .failure .duplicateField⟩,
  ⟨"duplicate_field_nested", "Duplicate inside a nested message", "150911551155",
    .failure .duplicateField⟩,
  ⟨"unknown_wiretype", "Wiretype 1 is not defined", "1301",
    .failure .unknownWireType⟩,
  ⟨"non_minimal_value", "uint64 value 0 encoded in two bytes", "110200",
    .failure .malformedVarint⟩]

/-- Every vector is given by a hexadecimal text, so its bytes are those of the text. -/
theorem Hex.decode_encoded :
    (∀ v ∈ varintVectors, decode v.encoded.toUTF8.toList = .ok v.bytes) ∧
      ∀ v ∈ messageVectors, decode v.encoded.toUTF8.toList = .ok v.bytes := by
  have hvarints : ∀ v ∈ varintVectors, (decode v.encoded.toUTF8.toList).isOk := by decide +kernel
  have hmessages : ∀ v ∈ messageVectors, (decode v.encoded.toUTF8.toList).isOk := by decide +kernel
  exact ⟨fun v hv => decode_eq_bytesOf (hvarints v hv), fun v hv => decode_eq_bytesOf (hmessages v hv)⟩

def MessageVector.find? (name : String) : Option MessageVector := messageVectors.find? (·.name == name)

end FieldWire
