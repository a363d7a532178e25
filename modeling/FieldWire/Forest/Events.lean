import FieldWire.Event
import FieldWire.Forest.Basic

/-! # Forests as events

The events that tell of a forest, in the order in which a parser finds them: a nested message is begun, then come the
events of its fields, then it is ended with the id of its field. -/

namespace FieldWire

mutual

/-- The events of the field with the id and the contents. -/
def Tree.events (id : UInt64) : Tree → List Event
  | .uint64 n => [.uint64 id n]
  | .binary bytes => [.binary id bytes]
  | .nested fs => .beginNested :: (Forest.events fs ++ [.endNested id])

def Forest.events : Forest → List Event
  | [] => []
  | (id, t) :: rest => t.events id ++ Forest.events rest

end

theorem Forest.events_append (fs gs : Forest) : events (fs ++ gs) = fs.events ++ gs.events := by
  induction fs with
  | nil => rfl
  | cons f rest ih => rw [List.cons_append, events, events, ih, List.append_assoc]

end FieldWire
