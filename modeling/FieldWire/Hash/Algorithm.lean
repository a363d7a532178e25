import FieldWire.Error
import FieldWire.Hash.Blake3

/-! # Hash algorithms

The hash functions by name. Each has 32 bytes of result. -/

namespace FieldWire

inductive HashAlgorithm where
  | sha256
  | sha512_256
  | blake3
  deriving DecidableEq, Repr, Inhabited

namespace HashAlgorithm

/-- The name that is written, in configurations too. -/
def name : HashAlgorithm → String
  | sha256 => "sha256"
  | sha512_256 => "sha512-256"
  | blake3 => "blake3"

/-- The algorithm that a user names: the case of ASCII letters is free, and the SHA-2 functions have further
    spellings. -/
def parse (text : String) : Except Error HashAlgorithm :=
  match text.map Char.toLower with
  | "sha256" | "sha-256" => .ok sha256
  | "sha512-256" | "sha512/256" | "sha-512/256" => .ok sha512_256
  | "blake3" => .ok blake3
  | _ => .error (.unknownAlgorithm text)

def hash : HashAlgorithm → Bytes → Digest
  | sha256 => Sha2.sha256.hash
  | sha512_256 => Sha2.sha512_256.hash
  | blake3 => Blake3.hash

end HashAlgorithm
end FieldWire
