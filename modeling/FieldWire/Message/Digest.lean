import FieldWire.Hash.Algorithm
import FieldWire.Message.Basic

/-! # Digests of messages

Each value of a tree has a digest of its own: the hash of its node. The node of an integer or a byte string holds
the value itself. The node of a message holds a record for each field, the id and the digest of its value, in
ascending order of id, so the digest does not depend on the order of the fields. A node starts with a byte that
tells the three types apart.

The construction is fixed: every commitment made with it depends on the bytes of the nodes. -/

namespace FieldWire

/-! ### Nodes -/

namespace Node

def messageTag : UInt8 := 79

def binaryTag : UInt8 := 100

def uint64Tag : UInt8 := 117

def ofUInt64 (n : UInt64) : Bytes := uint64Tag :: littleEndian 8 n.toNat

def ofBinary (bytes : Bytes) : Bytes := binaryTag :: bytes

/-- The record of a field: its id and the digest of its value. -/
def record (field : UInt64 × Digest) : Bytes := littleEndian 8 field.1.toNat ++ field.2.toBytes

/-- The node of a message: the records of its fields. -/
def ofFields (fields : List (UInt64 × Digest)) : Bytes := messageTag :: fields.flatMap record

end Node

mutual

/-- The bytes that are hashed for a value. -/
def Value.node (hash : Bytes → Digest) : Value → Bytes
  | .uint64 n => Node.ofUInt64 n
  | .binary bytes => Node.ofBinary bytes
  | .message m => m.node hash

def Message.node (hash : Bytes → Digest) : Message → Bytes
  | ⟨fields, index⟩ => Node.ofFields (index.walk (Message.digestsOfFields hash fields))

/-- The ids of fields with the digests of their values. -/
def Message.digestsOfFields (hash : Bytes → Digest) : List (UInt64 × Value) → List (UInt64 × Digest)
  | [] => []
  | (id, v) :: rest => (id, hash (v.node hash)) :: Message.digestsOfFields hash rest

end

/-! ### Digests -/

/-- The digest of a value under any hash function. -/
def Value.digestWith (hash : Bytes → Digest) (v : Value) : Digest := hash (v.node hash)

def Message.digestWith (hash : Bytes → Digest) (m : Message) : Digest := hash (m.node hash)

@[simp] theorem Value.digestWith_message (hash : Bytes → Digest) (m : Message) :
    (Value.message m).digestWith hash = m.digestWith hash := rfl

def Value.digest (v : Value) (algorithm : HashAlgorithm) : Digest := v.digestWith algorithm.hash

def Message.digest (m : Message) (algorithm : HashAlgorithm) : Digest := m.digestWith algorithm.hash

/-! ### All that is hashed -/

mutual

/-- The node of a value and the nodes of all values in it. -/
def Value.nodes (hash : Bytes → Digest) : Value → List Bytes
  | .uint64 n => [Node.ofUInt64 n]
  | .binary bytes => [Node.ofBinary bytes]
  | .message m => m.nodes hash

def Message.nodes (hash : Bytes → Digest) : Message → List Bytes
  | ⟨fields, index⟩ =>
    Node.ofFields (index.walk (Message.digestsOfFields hash fields)) :: Message.nodesOfFields hash fields

def Message.nodesOfFields (hash : Bytes → Digest) : List (UInt64 × Value) → List Bytes
  | [] => []
  | (_, v) :: rest => v.nodes hash ++ Message.nodesOfFields hash rest

end

end FieldWire
