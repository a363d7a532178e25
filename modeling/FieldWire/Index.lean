/-! # Positions by id

An ordered map from field ids to positions in a list of fields. Its entries ascend strictly by id, so that an id has one
position at most, and a walk over them meets the ids in order. -/

namespace FieldWire

/-- Positions of some ids. -/
structure Index where
  /-- The ids with their positions. -/
  entries : List (UInt64 × Nat)
  ascending : entries.Pairwise fun e f => e.1 < f.1
  deriving DecidableEq, Repr

namespace Index

def empty : Index := ⟨[], .nil⟩

instance : Inhabited Index := ⟨empty⟩

def ids (x : Index) : List UInt64 := x.entries.map (·.1)

def find? (x : Index) (id : UInt64) : Option Nat := (x.entries.find? (·.1 == id)).map (·.2)

def contains (x : Index) (id : UInt64) : Bool := (x.find? id).isSome

theorem pairwise_set (x : Index) (id : UInt64) (position : Nat) :
    (x.entries.filter (·.1 < id) ++ (id, position) :: x.entries.filter (id < ·.1)).Pairwise fun e f => e.1 < f.1 := by
  refine List.pairwise_append.mpr ⟨x.ascending.filter _, List.pairwise_cons.mpr ⟨?_, x.ascending.filter _⟩, ?_⟩
  · exact fun e he => of_decide_eq_true (List.mem_filter.mp he).2
  · intro e he f hf
    have hlt : e.1 < id := of_decide_eq_true (List.mem_filter.mp he).2
    rcases List.mem_cons.mp hf with rfl | hf
    · exact hlt
    · exact UInt64.lt_trans hlt (of_decide_eq_true (List.mem_filter.mp hf).2)

/-- The index in which the id has the position, whether or not it had another one before. -/
def set (x : Index) (id : UInt64) (position : Nat) : Index :=
  ⟨x.entries.filter (·.1 < id) ++ (id, position) :: x.entries.filter (id < ·.1), x.pairwise_set id position⟩

/-- The index of ids that stand in a list. -/
def ofIds (ids : List UInt64) : Index := ids.zipIdx.foldl (fun x e => x.set e.1 e.2) empty

/-! ### Items at positions

A position beyond the end of the list stands for no item. The index of a list has none such. -/

variable {α : Type}

/-- The index of a list of items by their ids. -/
def of (items : List (UInt64 × α)) : Index := ofIds (items.map (·.1))

/-- The item at the position of the id. -/
def at? (x : Index) (items : List (UInt64 × α)) (id : UInt64) : Option α := do
  let position ← x.find? id
  let item ← items[position]?
  return item.2

/-- The items at all positions, in ascending order of id. -/
def walk (x : Index) (items : List (UInt64 × α)) : List (UInt64 × α) :=
  x.entries.filterMap fun e => items[e.2]?.map fun item => (e.1, item.2)

end Index
end FieldWire
