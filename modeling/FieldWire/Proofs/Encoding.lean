import FieldWire.Forest.WireForm
import FieldWire.Message.Encoding
import FieldWire.Message.Forest

/-! # Writing messages of forests

What is written for the message of a forest is the wire form of the forest, where every id fits into a header
(`Forest.encode_message`). So writing does not fail there, and it does not look at an index. -/

namespace FieldWire

theorem FieldHeader.make_of_le {id : UInt64} (h : id ≤ maxId) (t : WireType) : make id t = .ok ⟨id, t⟩ := if_pos h

theorem FieldHeader.make_of_lt {id : UInt64} (h : maxId < id) (t : WireType) : make id t = .error (.fieldIdRange id) :=
  if_neg (UInt64.not_le.mpr h)

/-- Fields are written one after another, if each of them can be written. -/
theorem Forest.encodeFields_of_trees {fs : Forest}
    (h : ∀ f ∈ fs, f.2.value.encodeField f.1 = .ok (f.2.payload.encodeField f.1)) :
    Message.encodeFields fs.values = .ok fs.wireForm := by
  induction fs with
  | nil => rfl
  | cons f rest ih =>
    obtain ⟨id, t⟩ := f
    obtain ⟨hfield, hrest⟩ := List.forall_mem_cons.mp h
    rw [values, Message.encodeFields, hfield, ih hrest]
    rfl

theorem Tree.encodeField_value (t : Tree) :
    ∀ id, id ≤ FieldHeader.maxId → t.All Forest.Fits → t.value.encodeField id = .ok (t.payload.encodeField id) := by
  induction t using Tree.ind with
  | uint64 n =>
    intro id hid _
    rw [value, Value.encodeField, FieldHeader.make_of_le hid]
    rfl
  | binary bytes =>
    intro id hid _
    rw [value, Value.encodeField, FieldHeader.make_of_le hid]
    rfl
  | nested fs ih =>
    intro id hid hfits
    obtain ⟨hlevel, hbelow⟩ := Forest.all_iff.mp hfits
    have hbody := Forest.encodeFields_of_trees fun f hf => ih f hf f.1 (hlevel f hf) (hbelow f hf)
    rw [value, Value.encodeField, Message.encode, hbody, FieldHeader.make_of_le hid]
    rfl

/-- What is written for a message whose ids fit into headers is the wire form of its fields. -/
theorem Forest.encode_message {fs : Forest} (h : fs.All Fits) : fs.message.encode = .ok fs.wireForm := by
  obtain ⟨hlevel, hbelow⟩ := all_iff.mp h
  exact encodeFields_of_trees fun f hf => f.2.encodeField_value f.1 (hlevel f hf) (hbelow f hf)

/-- A field is refused for its id alone. The body of a nested message is written by then. -/
theorem Tree.encodeField_value_of_lt {id : UInt64} (hid : FieldHeader.maxId < id) {t : Tree} (h : t.All Forest.Fits) :
    t.value.encodeField id = .error (.fieldIdRange id) := by
  cases t with
  | uint64 n =>
    rw [value, Value.encodeField, FieldHeader.make_of_lt hid]
    rfl
  | binary bytes =>
    rw [value, Value.encodeField, FieldHeader.make_of_lt hid]
    rfl
  | nested fs =>
    have hbody : Message.encode ⟨Forest.values fs, .of (Forest.values fs)⟩ = .ok (Forest.wireForm fs) :=
      Forest.encode_message h
    rw [value, Value.encodeField, hbody, FieldHeader.make_of_lt hid]
    rfl

/-! ### Depth -/

theorem Forest.depthOfFields_of_trees {fs : Forest} (h : ∀ f ∈ fs, f.2.value.depth = f.2.depth) :
    Message.depthOfFields fs.values = fs.depthBelow := by
  induction fs with
  | nil => rfl
  | cons f rest ih =>
    obtain ⟨hf, hrest⟩ := List.forall_mem_cons.mp h
    rw [values, Message.depthOfFields, depthBelow, ih hrest, hf]

theorem Tree.depth_value (t : Tree) : t.value.depth = t.depth := by
  induction t using Tree.ind with
  | uint64 n => rfl
  | binary bytes => rfl
  | nested fs ih => rw [value, Value.depth, Message.depth, Forest.depthOfFields_of_trees ih, depth]

theorem Forest.depth_message (fs : Forest) : fs.message.depth = fs.depth := by
  rw [message, Message.depth, depthOfFields_of_trees fun f _ => f.2.depth_value, depth]

theorem Forest.depthBelow_append (fs gs : Forest) : (fs ++ gs).depthBelow = max fs.depthBelow gs.depthBelow := by
  induction fs with
  | nil => exact (Nat.zero_max _).symm
  | cons f rest ih =>
    obtain ⟨id, t⟩ := f
    rw [List.cons_append, depthBelow, depthBelow, ih, Nat.max_assoc]

end FieldWire
