import FieldWire.Forest.Basic
import FieldWire.Payload

/-! # Wire forms of forests

The bytes that stand for a forest, whatever its ids: field after field, each a header and a payload. -/

namespace FieldWire

mutual

/-- The payload of the fields with the contents. -/
def Tree.payload : Tree → Payload
  | .uint64 n => .uint64 n
  | .binary bytes => .binary bytes
  | .nested fs => .nested (Forest.wireForm fs)

def Forest.wireForm : Forest → Bytes
  | [] => []
  | (id, t) :: rest => t.payload.encodeField id ++ Forest.wireForm rest

end
end FieldWire
