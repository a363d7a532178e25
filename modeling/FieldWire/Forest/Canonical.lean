import FieldWire.Forest.Basic

/-! # Canonical form

The canonical form of a forest has the fields in ascending order of id, at every level. -/

namespace FieldWire

def Forest.sorted (fs : Forest) : Forest := fs.mergeSort (·.1 ≤ ·.1)

mutual

/-- The tree with the fields of all its levels in order. -/
def Tree.canonical : Tree → Tree
  | .uint64 n => .uint64 n
  | .binary bytes => .binary bytes
  | .nested fs => .nested (Forest.canonicalBelow fs).sorted

/-- The fields as they stand, each with the canonical form of its contents. -/
def Forest.canonicalBelow : Forest → Forest
  | [] => []
  | (id, t) :: rest => (id, t.canonical) :: Forest.canonicalBelow rest

end

namespace Forest

def canonical (fs : Forest) : Forest := fs.canonicalBelow.sorted

theorem canonicalBelow_eq_map (fs : Forest) : fs.canonicalBelow = fs.map fun f => (f.1, f.2.canonical) := by
  induction fs with
  | nil => rfl
  | cons f rest ih => rw [canonicalBelow, List.map_cons, ih]

theorem perm_sorted (fs : Forest) : fs.sorted.Perm fs := List.mergeSort_perm _ _

theorem pairwise_sorted (fs : Forest) : fs.sorted.Pairwise fun f g => f.1 ≤ g.1 := by
  have h : fs.sorted.Pairwise fun f g => decide (f.1 ≤ g.1) = true := by
    apply List.pairwise_mergeSort
    · exact fun a b c hab hbc => decide_eq_true (UInt64.le_trans (of_decide_eq_true hab) (of_decide_eq_true hbc))
    · intro a b
      simpa only [Bool.or_eq_true, decide_eq_true_eq] using UInt64.le_total a.1 b.1
  exact h.imp of_decide_eq_true

end Forest

/-- The fields of a canonical form ascend at every level. -/
theorem Tree.canonical_ascends (t : Tree) : t.canonical.All fun level => level.Pairwise fun f g => f.1 ≤ g.1 := by
  induction t using Tree.ind with
  | uint64 n => trivial
  | binary bytes => trivial
  | nested fs ih =>
    refine Forest.all_iff.mpr ⟨Forest.pairwise_sorted _, fun f hf => ?_⟩
    have hf' := (Forest.perm_sorted _).mem_iff.mp hf
    rw [Forest.canonicalBelow_eq_map] at hf'
    obtain ⟨g, hg, rfl⟩ := List.mem_map.mp hf'
    exact ih g hg

end FieldWire
