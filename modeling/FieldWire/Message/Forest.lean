import FieldWire.Forest.Basic
import FieldWire.Message.Basic

/-! # Messages and forests

A message is a forest with an index at every level. The forest of a message forgets the indexes; the message of a forest
has at every level the index of the fields that stand there. -/

namespace FieldWire

mutual

/-- The value without indexes. -/
def Value.tree : Value → Tree
  | .uint64 n => .uint64 n
  | .binary bytes => .binary bytes
  | .message m => .nested m.forest

def Message.forest : Message → Forest
  | ⟨fields, _⟩ => Message.trees fields

def Message.trees : List (UInt64 × Value) → Forest
  | [] => []
  | (id, v) :: rest => (id, v.tree) :: Message.trees rest

end

mutual

/-- The value with an index at every level. -/
def Tree.value : Tree → Value
  | .uint64 n => .uint64 n
  | .binary bytes => .binary bytes
  | .nested fs => .message ⟨Forest.values fs, .of (Forest.values fs)⟩

def Forest.values : Forest → List (UInt64 × Value)
  | [] => []
  | (id, t) :: rest => (id, t.value) :: Forest.values rest

end

/-- The message with the fields and an index at every level. -/
def Forest.message (fs : Forest) : Message := ⟨fs.values, .of fs.values⟩

/-! ### There and back -/

theorem Forest.values_eq_map (fs : Forest) : fs.values = fs.map fun f => (f.1, f.2.value) := by
  induction fs with
  | nil => rfl
  | cons f rest ih => rw [values, List.map_cons, ih]

theorem Forest.trees_values {fs : Forest} (h : ∀ f ∈ fs, f.2.value.tree = f.2) : Message.trees fs.values = fs := by
  induction fs with
  | nil => rfl
  | cons f rest ih =>
    obtain ⟨hf, hrest⟩ := List.forall_mem_cons.mp h
    rw [values, Message.trees, ih hrest, hf]

theorem Tree.tree_value (t : Tree) : t.value.tree = t := by
  induction t using Tree.ind with
  | uint64 n => rfl
  | binary bytes => rfl
  | nested fs ih => rw [value, Value.tree, Message.forest, Forest.trees_values ih]

theorem Forest.forest_message (fs : Forest) : fs.message.forest = fs := trees_values fun f _ => f.2.tree_value

end FieldWire
