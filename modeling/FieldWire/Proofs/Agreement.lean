import FieldWire.Forest.Canonical
import FieldWire.Message.Agreement
import FieldWire.Proofs.Built

/-! # Agreement of messages

On built values, agreement is equality of the canonical forms of their trees (`Tree.agrees_iff_canonical`). Agreement
looks the fields of one message up in another, one way only; the counting argument that makes it symmetric is that a
list without repetitions, all of whose members are in a list of the same length, is a rearrangement of it. -/

namespace FieldWire

/-! ### Looking fields up -/

theorem Message.fieldsAgree_iff {fields : List (UInt64 × Value)} {m : Message} :
    fieldsAgree fields m = true ↔ ∀ f ∈ fields, ∃ w, m.get? f.1 = some w ∧ f.2.agrees w = true := by
  induction fields with
  | nil => simp [fieldsAgree]
  | cons f rest ih =>
    obtain ⟨id, v⟩ := f
    rw [fieldsAgree, Bool.and_eq_true, ih, List.forall_mem_cons]
    refine and_congr ?_ Iff.rfl
    cases m.get? id <;> simp

theorem Message.agrees_iff {m n : Message} : m.agrees n = true ↔
    m.size = n.size ∧ ∀ f ∈ m.fields, ∃ w, n.get? f.1 = some w ∧ f.2.agrees w = true := by
  obtain ⟨fields, index⟩ := m
  rw [agrees, Bool.and_eq_true, beq_iff_eq, fieldsAgree_iff]
  rfl

namespace Forest

/-- Agreement in terms of the fields that are there. -/
theorem agrees_message_iff {fs gs : Forest} (h : gs.Distinct) :
    fs.message.agrees gs.message = true ↔ fs.length = gs.length ∧
      ∀ f ∈ fs, ∃ g ∈ gs, g.1 = f.1 ∧ f.2.value.agrees g.2.value = true := by
  have hsize : ∀ hs : Forest, hs.message.size = hs.length := fun hs => by
    rw [Message.size, message, values_eq_map, List.length_map]
  rw [Message.agrees_iff, hsize, hsize, message, values_eq_map, List.forall_mem_map]
  refine and_congr Iff.rfl (forall₂_congr fun f _ => ?_)
  constructor
  · rintro ⟨w, hw, hag⟩
    obtain ⟨t, ht, rfl⟩ := (get?_message_eq_some_iff h).mp hw
    exact ⟨(f.1, t), ht, rfl, hag⟩
  · rintro ⟨g, hg, hid, hag⟩
    exact ⟨g.2.value, (get?_message_eq_some_iff h).mpr ⟨g.2, hid ▸ hg, rfl⟩, hag⟩

/-! ### Canonical forms -/

/-- Fields with distinct ids have one sorted order. -/
theorem sorted_eq_iff_perm {fs gs : Forest} (h : fs.Distinct) : fs.sorted = gs.sorted ↔ fs.Perm gs := by
  constructor
  · intro heq
    have hfs := fs.perm_sorted
    rw [heq] at hfs
    exact hfs.symm.trans gs.perm_sorted
  · intro hperm
    refine List.Perm.eq_of_pairwise ?_ (pairwise_sorted fs) (pairwise_sorted gs)
      ((fs.perm_sorted.trans hperm).trans gs.perm_sorted.symm)
    intro f g hf hg hfg hgf
    -- Two fields of one id are one field of `fs`.
    have hg' : g ∈ fs := hperm.mem_iff.mpr (gs.perm_sorted.mem_iff.mp hg)
    exact List.inj_on_of_nodup_map h (fs.perm_sorted.mem_iff.mp hf) hg' (UInt64.le_antisymm hfg hgf)

theorem canonical_eq_iff_perm {fs gs : Forest} (h : fs.Distinct) :
    fs.canonical = gs.canonical ↔ fs.canonicalBelow.Perm gs.canonicalBelow := by
  have hdistinct : Distinct fs.canonicalBelow := by
    rw [Distinct, canonicalBelow_eq_map, List.map_map]
    exact h
  exact sorted_eq_iff_perm hdistinct

/-- Messages agree exactly if their canonical forms are equal, if that holds of the trees in them. -/
theorem agrees_iff_canonical_of_trees {fs gs : Forest} (hfs : fs.All Distinct) (hgs : gs.All Distinct)
    (htrees : ∀ f ∈ fs, ∀ t : Tree, f.2.All Distinct → t.All Distinct →
      (f.2.value.agrees t.value = true ↔ f.2.canonical = t.canonical)) :
    fs.message.agrees gs.message = true ↔ fs.canonical = gs.canonical := by
  obtain ⟨hdistinct, hbelow⟩ := all_iff.mp hfs
  obtain ⟨hdistinct', hbelow'⟩ := all_iff.mp hgs
  rw [agrees_message_iff hdistinct', canonical_eq_iff_perm hdistinct, canonicalBelow_eq_map, canonicalBelow_eq_map]
  constructor
  · rintro ⟨hlen, hfound⟩
    have hsub : fs.map (fun f => (f.1, f.2.canonical)) ⊆ gs.map fun g => (g.1, g.2.canonical) := by
      intro x hx
      obtain ⟨f, hf, rfl⟩ := List.mem_map.mp hx
      obtain ⟨g, hg, hid, hag⟩ := hfound f hf
      have hcanon := (htrees f hf g.2 (hbelow f hf) (hbelow' g hg)).mp hag
      exact List.mem_map.mpr ⟨g, hg, by rw [hid, hcanon]⟩
    have hnodup : (fs.map fun f => (f.1, f.2.canonical)).Nodup := by
      refine List.Nodup.of_map (·.1) ?_
      rw [List.map_map]
      exact hdistinct
    refine (List.subperm_of_subset hnodup hsub).perm_of_length_le ?_
    rw [List.length_map, List.length_map]
    exact Nat.le_of_eq hlen.symm
  · intro h
    have hlen := h.length_eq
    rw [List.length_map, List.length_map] at hlen
    refine ⟨hlen, fun f hf => ?_⟩
    obtain ⟨g, hg, heq⟩ := List.mem_map.mp (h.mem_iff.mp (List.mem_map_of_mem hf))
    obtain ⟨hid, hcanon⟩ := Prod.mk.inj heq
    exact ⟨g, hg, hid, (htrees f hf g.2 (hbelow f hf) (hbelow' g hg)).mpr hcanon.symm⟩

end Forest

theorem Tree.agrees_iff_canonical (s : Tree) : ∀ t : Tree, s.All Forest.Distinct → t.All Forest.Distinct →
    (s.value.agrees t.value = true ↔ s.canonical = t.canonical) := by
  induction s using Tree.ind with
  | uint64 m =>
    intro t _ _
    cases t <;> simp [value, Value.agrees, canonical]
  | binary as =>
    intro t _ _
    cases t <;> simp [value, Value.agrees, canonical]
  | nested fs ih =>
    intro t hfs ht
    cases t with
    | uint64 n => simp [value, Value.agrees, canonical]
    | binary bs => simp [value, Value.agrees, canonical]
    | nested gs =>
      rw [canonical, canonical, nested.injEq]
      exact Forest.agrees_iff_canonical_of_trees hfs ht ih

theorem Forest.agrees_iff_canonical {fs gs : Forest} (hfs : fs.All Distinct) (hgs : gs.All Distinct) :
    fs.message.agrees gs.message = true ↔ fs.canonical = gs.canonical :=
  agrees_iff_canonical_of_trees hfs hgs fun f _ => f.2.agrees_iff_canonical

theorem Value.Built.agrees_iff_canonical {a b : Value} (ha : a.Built) (hb : b.Built) :
    a.agrees b = true ↔ a.tree.canonical = b.tree.canonical := by
  obtain ⟨s, hs, rfl⟩ := ha.exists_tree
  obtain ⟨t, ht, rfl⟩ := hb.exists_tree
  rw [Tree.tree_value, Tree.tree_value]
  exact s.agrees_iff_canonical t hs.distinct ht.distinct

theorem Value.Built.agrees_comm {a b : Value} (ha : a.Built) (hb : b.Built) :
    a.agrees b = true ↔ b.agrees a = true := by
  rw [ha.agrees_iff_canonical hb, hb.agrees_iff_canonical ha, eq_comm]

theorem Message.Built.agrees_iff_canonical {m n : Message} (hm : m.Built) (hn : n.Built) :
    m.agrees n = true ↔ m.forest.canonical = n.forest.canonical := by
  have hvalues := (Value.Built.message hm).agrees_iff_canonical (.message hn)
  rwa [Value.agrees, Value.tree, Value.tree, Tree.canonical, Tree.canonical, Tree.nested.injEq] at hvalues

theorem Message.Built.agrees_self {m : Message} (h : m.Built) : m.agrees m = true := by
  exact (h.agrees_iff_canonical h).mpr rfl

/-- The values that are found may as well be compared with those that they are looked up for. -/
theorem Message.Built.agrees_iff_found {m n : Message} (hm : m.Built) (hn : n.Built) : m.agrees n = true ↔
    m.size = n.size ∧ ∀ f ∈ m.fields, ∃ w, n.get? f.1 = some w ∧ w.agrees f.2 = true := by
  rw [agrees_iff]
  refine and_congr Iff.rfl (forall₂_congr fun f hf => exists_congr fun w => and_congr_right fun hw => ?_)
  exact (hm.of_mem hf).agrees_comm (hn.of_mem (hn.indexed.get?_eq_some_iff.mp hw))

/-! ### What agreement says -/

theorem Value.wireType_eq_of_agrees {v w : Value} (h : v.agrees w = true) : v.wireType = w.wireType := by
  cases v <;> cases w <;> simp_all [agrees, wireType]

theorem Forest.ids_eq_of_agrees {fs gs : Forest} (hfs : fs.All Distinct) (hgs : gs.All Distinct)
    (h : fs.message.agrees gs.message = true) : fs.message.ids = gs.message.ids := by
  obtain ⟨hdistinct, -⟩ := all_iff.mp hfs
  obtain ⟨hdistinct', -⟩ := all_iff.mp hgs
  have hcanon := (agrees_iff_canonical hfs hgs).mp h
  have hperm := ((canonical_eq_iff_perm hdistinct).mp hcanon).map (·.1)
  simp only [canonicalBelow_eq_map, List.map_map] at hperm
  rw [Distinct, ← map_fst_values] at hdistinct hdistinct'
  refine Index.ids_of_congr hdistinct hdistinct' ?_
  rw [map_fst_values, map_fst_values]
  exact hperm

end FieldWire
