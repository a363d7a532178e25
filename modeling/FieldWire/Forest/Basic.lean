import FieldWire.FieldHeader

/-! # Field forests

What an input can say: a list of fields, each of them an id and an integer, a byte string or a list of fields again. Ids
may repeat and may be too great for a header; what a message can hold is less (`Forest.Valid`). -/

namespace FieldWire

/-- The contents of one field. -/
inductive Tree where
  | uint64 (n : UInt64)
  | binary (bytes : Bytes)
  | nested (fields : List (UInt64 × Tree))
  deriving Repr

/-- The fields of one level, in order. -/
abbrev Forest := List (UInt64 × Tree)

theorem Tree.ind {motive : Tree → Prop} (uint64 : ∀ n, motive (.uint64 n)) (binary : ∀ bytes, motive (.binary bytes))
    (nested : ∀ fs : Forest, (∀ f ∈ fs, motive f.2) → motive (.nested fs)) (t : Tree) : motive t := by
  refine Tree.rec (motive_2 := fun fs => ∀ f ∈ fs, motive f.2) (motive_3 := fun f => motive f.2) uint64 binary nested
    (List.forall_mem_nil _) ?_ (fun _ _ ih => ih) t
  exact fun f rest hf hrest => List.forall_mem_cons.mpr ⟨hf, hrest⟩

/-! ### Depth -/

mutual

/-- The number of levels in a tree. -/
def Tree.depth : Tree → Nat
  | .uint64 _ => 0
  | .binary _ => 0
  | .nested fs => 1 + Forest.depthBelow fs

/-- The greatest number of levels below the one of the fields. -/
def Forest.depthBelow : Forest → Nat
  | [] => 0
  | (_, t) :: rest => max t.depth (Forest.depthBelow rest)

end

/-- The number of levels, that of the fields included. -/
def Forest.depth (fs : Forest) : Nat := 1 + fs.depthBelow

/-! ### Properties of every level -/

mutual

/-- Every level in the tree has the property. -/
def Tree.All (P : Forest → Prop) : Tree → Prop
  | .uint64 _ => True
  | .binary _ => True
  | .nested fs => P fs ∧ Forest.AllBelow P fs

/-- Every level below the one of the fields has the property. -/
def Forest.AllBelow (P : Forest → Prop) : Forest → Prop
  | [] => True
  | (_, t) :: rest => t.All P ∧ Forest.AllBelow P rest

end

mutual

def Tree.decAll (P : Forest → Prop) [DecidablePred P] : (t : Tree) → Decidable (t.All P)
  | .uint64 _ => isTrue trivial
  | .binary _ => isTrue trivial
  | .nested fs => @instDecidableAnd _ _ (inferInstanceAs (Decidable (P fs))) (Forest.decAllBelow P fs)

def Forest.decAllBelow (P : Forest → Prop) [DecidablePred P] : (fs : Forest) → Decidable (fs.AllBelow P)
  | [] => isTrue trivial
  | (_, t) :: rest => @instDecidableAnd _ _ (t.decAll P) (Forest.decAllBelow P rest)

end

namespace Forest

/-- Every level has the property, that of the fields included. -/
def All (P : Forest → Prop) (fs : Forest) : Prop := P fs ∧ fs.AllBelow P

instance (P : Forest → Prop) [DecidablePred P] (fs : Forest) : Decidable (fs.All P) :=
  @instDecidableAnd _ _ (inferInstanceAs (Decidable (P fs))) (decAllBelow P fs)

def Fits (fs : Forest) : Prop := ∀ f ∈ fs, f.1 ≤ FieldHeader.maxId

instance : DecidablePred Fits := fun fs => inferInstanceAs (Decidable (∀ f ∈ fs, f.1 ≤ FieldHeader.maxId))

def Distinct (fs : Forest) : Prop := (fs.map (·.1)).Nodup

instance : DecidablePred Distinct := fun fs => inferInstanceAs (Decidable (fs.map (·.1)).Nodup)

/-- At every level the ids fit into headers and are distinct. -/
def Valid (fs : Forest) : Prop := fs.All fun level => level.Fits ∧ level.Distinct

instance : DecidablePred Valid := fun fs =>
  inferInstanceAs (Decidable (fs.All fun level => level.Fits ∧ level.Distinct))

end Forest

def Tree.Valid (t : Tree) : Prop := t.All fun level => level.Fits ∧ level.Distinct

instance : DecidablePred Tree.Valid := Tree.decAll fun level => level.Fits ∧ level.Distinct

section
variable {P Q : Forest → Prop}

theorem Forest.allBelow_iff {fs : Forest} : fs.AllBelow P ↔ ∀ f ∈ fs, f.2.All P := by
  induction fs with
  | nil => simp [AllBelow]
  | cons f rest ih => simp [AllBelow, ih]

theorem Forest.all_iff {fs : Forest} : fs.All P ↔ P fs ∧ ∀ f ∈ fs, f.2.All P := by
  rw [All, allBelow_iff]

theorem Tree.All.imp (h : ∀ fs, P fs → Q fs) (t : Tree) : t.All P → t.All Q := by
  induction t using Tree.ind with
  | uint64 n => exact id
  | binary bytes => exact id
  | nested fs ih =>
    intro ht
    obtain ⟨hlevel, hbelow⟩ := Forest.all_iff.mp ht
    exact Forest.all_iff.mpr ⟨h fs hlevel, fun f hf => ih f hf (hbelow f hf)⟩

theorem Forest.All.imp (h : ∀ fs, P fs → Q fs) {fs : Forest} (hfs : fs.All P) : fs.All Q := by
  obtain ⟨hlevel, hbelow⟩ := all_iff.mp hfs
  exact all_iff.mpr ⟨h fs hlevel, fun f hf => Tree.All.imp h f.2 (hbelow f hf)⟩

theorem Tree.All.and (t : Tree) : t.All P → t.All Q → t.All fun fs => P fs ∧ Q fs := by
  induction t using Tree.ind with
  | uint64 n => exact fun _ _ => trivial
  | binary bytes => exact fun _ _ => trivial
  | nested fs ih =>
    intro hp hq
    obtain ⟨hp, hpbelow⟩ := Forest.all_iff.mp hp
    obtain ⟨hq, hqbelow⟩ := Forest.all_iff.mp hq
    exact Forest.all_iff.mpr ⟨⟨hp, hq⟩, fun f hf => ih f hf (hpbelow f hf) (hqbelow f hf)⟩

theorem Forest.All.and {fs : Forest} (hp : fs.All P) (hq : fs.All Q) : fs.All fun level => P level ∧ Q level := by
  obtain ⟨hp, hpbelow⟩ := all_iff.mp hp
  obtain ⟨hq, hqbelow⟩ := all_iff.mp hq
  exact all_iff.mpr ⟨⟨hp, hq⟩, fun f hf => Tree.All.and f.2 (hpbelow f hf) (hqbelow f hf)⟩

theorem Forest.all_fits_cons_iff {f : UInt64 × Tree} {rest : Forest} :
    Forest.All Fits (f :: rest) ↔ (f.1 ≤ FieldHeader.maxId ∧ f.2.All Fits) ∧ Forest.All Fits rest := by
  rw [all_iff, all_iff, Fits, Fits, List.forall_mem_cons, List.forall_mem_cons, and_and_and_comm]

end
end FieldWire
