import FieldWire.LogEvent
import FieldWire.Message.Basic

/-! # Messages as log events

The log events that tell of the fields of a message: field after field in insertion order, each with the level that it
stands at, and the fields of a nested message right behind the field that holds it. -/

namespace FieldWire

mutual

/-- The log events of the fields in the value of a field at the given level. -/
def Value.announcements (depth : Nat) : Value → List LogEvent
  | .uint64 _ => []
  | .binary _ => []
  | .message m => m.announcements (depth + 1)

/-- The log events of the fields of a message at the given level, and of all fields in them. -/
def Message.announcements (depth : Nat) : Message → List LogEvent
  | ⟨fields, _⟩ => Message.announcementsOfFields depth fields

def Message.announcementsOfFields (depth : Nat) : List (UInt64 × Value) → List LogEvent
  | [] => []
  | (id, v) :: rest =>
    .field depth id v.wireType :: (v.announcements depth ++ Message.announcementsOfFields depth rest)

end

end FieldWire
