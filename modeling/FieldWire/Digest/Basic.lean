import FieldWire.Hex

/-! # Digests

A digest is a string of 32 bytes. It is shown in hexadecimal. -/

namespace FieldWire

/-- The result of a hash function. -/
structure Digest where
  bytes : Vector UInt8 32
  deriving DecidableEq, Repr, Inhabited

namespace Digest

def length : Nat := 32

def toBytes (d : Digest) : Bytes := d.bytes.toList

/-- The digest that consists of the given bytes, if their number is right. -/
def ofBytes? (bytes : Bytes) : Option Digest :=
  if h : bytes.length = 32 then some ⟨⟨bytes.toArray, h⟩⟩ else none

def hex (d : Digest) : String := Hex.encode d.toBytes

/-- The first 16 digits, with the name of the construction. -/
def abbreviated (d : Digest) : String :=
  let first := Hex.encode (d.toBytes.take 8)
  s!"Verihash({first}...)"

/-- The digest that a text in UTF-8 stands for. -/
def ofHex (text : Bytes) : Except Hex.Error Digest := do
  let bytes ← Hex.decode text
  match ofBytes? bytes with
  | some d => return d
  | none => throw .invalidLength

@[simp] theorem length_toBytes (d : Digest) : d.toBytes.length = 32 := by
  simp [toBytes]

@[simp] theorem ofBytes?_toBytes (d : Digest) : ofBytes? d.toBytes = some d := by
  obtain ⟨⟨bytes, hsize⟩⟩ := d
  simp [ofBytes?, toBytes, hsize]

end Digest
end FieldWire
