import FieldWire.Message.Forest
import FieldWire.Proofs.Insertion

/-! # Messages built by inserting

A message is built if it comes from the empty message by inserting values that are built themselves. These are the
messages of valid forests and no others (`Message.built_iff`): the index of a built message leads from each id to the
position of its field, at every level. -/

namespace FieldWire

mutual

inductive Value.Built : Value → Prop where
  | uint64 (n : UInt64) : Value.Built (.uint64 n)
  | binary (bytes : Bytes) : Value.Built (.binary bytes)
  | message {m : Message} : Message.Built m → Value.Built (.message m)

/-- A message comes from the empty one by inserting built values, one after another. -/
inductive Message.Built : Message → Prop where
  | empty : Message.Built .empty
  | insert {m m' : Message} {id : UInt64} {v : Value} :
    Message.Built m → Value.Built v → m.insert id v = .ok m' → Message.Built m'

end

theorem Message.insertAll_cons_eq_ok_iff {m m' : Message} {id : UInt64} {v : Value} {rest : List (UInt64 × Value)} :
    m.insertAll ((id, v) :: rest) = .ok m' ↔ ∃ n, m.insert id v = .ok n ∧ n.insertAll rest = .ok m' := by
  rw [insertAll_cons]
  cases m.insert id v <;> simp

namespace Forest

/-! ### Forests field by field -/

theorem valid_iff {fs : Forest} : fs.Valid ↔ fs.Fits ∧ fs.Distinct ∧ ∀ f ∈ fs, f.2.Valid := by
  rw [Valid, all_iff, and_assoc]
  rfl

theorem Valid.fits {fs : Forest} (h : fs.Valid) : fs.All Fits := All.imp (fun _ hlevel => hlevel.1) h

theorem Valid.allDistinct {fs : Forest} (h : fs.Valid) : fs.All Distinct := All.imp (fun _ hlevel => hlevel.2) h

theorem valid_iff_distinct {fs : Forest} (h : fs.All Fits) : fs.Valid ↔ fs.All Distinct :=
  ⟨Valid.allDistinct, fun hdistinct => h.and hdistinct⟩

theorem Valid.distinct {fs : Forest} (h : fs.Valid) : fs.Distinct := (valid_iff.mp h).2.1

theorem distinct_concat {fs : Forest} {id : UInt64} {t : Tree} :
    Distinct (fs ++ [(id, t)]) ↔ fs.Distinct ∧ id ∉ fs.map (·.1) := by
  rw [Distinct, Distinct, List.map_append, List.map_singleton, List.nodup_append]
  simp only [List.nodup_cons, List.not_mem_nil, not_false_eq_true, List.nodup_nil, and_self, true_and,
    List.mem_singleton, forall_eq, and_congr_right_iff]
  exact fun _ => ⟨fun h hmem => h id hmem rfl, fun h i hi heq => h (heq ▸ hi)⟩

/-- If ids repeat, there is a first field whose id is one of those before it. -/
theorem exists_repeat_of_not_distinct {fs : Forest} (h : ¬fs.Distinct) :
    ∃ (before : Forest) (id : UInt64) (t : Tree) (after : Forest),
      fs = before ++ (id, t) :: after ∧ before.Distinct ∧ id ∈ before.map (·.1) := by
  induction fs using List.reverseRecOn with
  | nil => exact absurd List.nodup_nil h
  | append_singleton fs f ih =>
    obtain ⟨id, t⟩ := f
    by_cases hfs : Distinct fs
    · have hold : id ∈ fs.map (·.1) := by_contra fun hnew => h (distinct_concat.mpr ⟨hfs, hnew⟩)
      exact ⟨fs, id, t, [], rfl, hfs, hold⟩
    · obtain ⟨before, i, s, after, rfl, hbefore, hold⟩ := ih hfs
      exact ⟨before, i, s, after ++ [(id, t)], by simp, hbefore, hold⟩

theorem valid_concat {fs : Forest} {id : UInt64} {t : Tree} :
    Valid (fs ++ [(id, t)]) ↔ fs.Valid ∧ (id ≤ FieldHeader.maxId ∧ id ∉ fs.map (·.1)) ∧ t.Valid := by
  rw [valid_iff, valid_iff, distinct_concat]
  simp only [Fits, List.forall_mem_append, List.forall_mem_singleton]
  tauto

theorem valid_of_append {fs gs : Forest} (h : Valid (fs ++ gs)) : fs.Valid := by
  obtain ⟨hfits, hdistinct, htrees⟩ := valid_iff.mp h
  rw [Distinct, List.map_append] at hdistinct
  exact valid_iff.mpr ⟨fun f hf => hfits f (List.mem_append_left _ hf), (List.nodup_append.mp hdistinct).1,
    fun f hf => htrees f (List.mem_append_left _ hf)⟩

/-! ### Operations on messages of forests -/

theorem map_fst_values (fs : Forest) : fs.values.map (·.1) = fs.map (·.1) := by
  rw [values_eq_map, List.map_map]
  rfl

theorem indexed_message {fs : Forest} (h : fs.Distinct) : fs.message.Indexed where
  nodup := by rwa [message, map_fst_values]
  index_eq := rfl

theorem contains_message {fs : Forest} (h : fs.Distinct) {id : UInt64} :
    fs.message.contains id = true ↔ id ∈ fs.map (·.1) := by
  rw [(indexed_message h).contains_iff, message, map_fst_values]

theorem get?_message_eq_some_iff {fs : Forest} (h : fs.Distinct) {id : UInt64} {v : Value} :
    fs.message.get? id = some v ↔ ∃ t, (id, t) ∈ fs ∧ t.value = v := by
  rw [(indexed_message h).get?_eq_some_iff, message, values_eq_map]
  simp

/-- What it takes for a field to be accepted, and what comes of it. -/
theorem insert_message_eq_ok_iff {fs : Forest} (h : fs.Distinct) {m : Message} {id : UInt64} {t : Tree} :
    fs.message.insert id t.value = .ok m ↔
      (id ≤ FieldHeader.maxId ∧ id ∉ fs.map (·.1)) ∧ m = message (fs ++ [(id, t)]) := by
  have hvalues : values (fs ++ [(id, t)]) = fs.values ++ [(id, t.value)] := by
    rw [values_eq_map, values_eq_map, List.map_append, List.map_singleton]
  rw [(indexed_message h).insert_eq_ok_iff, ← and_assoc, message, map_fst_values, message, hvalues]

/-- Fields are accepted one after another if their ids fit, repeat neither each other nor those that are there. -/
theorem insertAll_message_eq_ok_iff {fs gs : Forest} (h : fs.Distinct) {m : Message} :
    fs.message.insertAll gs.values = .ok m ↔ (gs.Fits ∧ Distinct (fs ++ gs)) ∧ m = message (fs ++ gs) := by
  induction gs generalizing fs with
  | nil =>
    have hnone : fs.message.insertAll (values []) = .ok fs.message := rfl
    rw [hnone, List.append_nil, Except.ok.injEq]
    exact ⟨fun heq => ⟨⟨List.forall_mem_nil _, h⟩, heq.symm⟩, fun hm => hm.2.symm⟩
  | cons g rest ih =>
    obtain ⟨id, t⟩ := g
    have happ : fs ++ (id, t) :: rest = fs ++ [(id, t)] ++ rest := by simp
    rw [values, Message.insertAll_cons_eq_ok_iff, happ]
    constructor
    · rintro ⟨m', hm', hrest⟩
      obtain ⟨⟨hid, hnew⟩, rfl⟩ := (insert_message_eq_ok_iff h).mp hm'
      obtain ⟨⟨hfits, hdistinct⟩, rfl⟩ := (ih (distinct_concat.mpr ⟨h, hnew⟩)).mp hrest
      exact ⟨⟨List.forall_mem_cons.mpr ⟨hid, hfits⟩, hdistinct⟩, rfl⟩
    · rintro ⟨⟨hfits, hdistinct⟩, rfl⟩
      obtain ⟨hid, hrest⟩ := List.forall_mem_cons.mp hfits
      have hfirst : Distinct (fs ++ [(id, t)]) := by
        rw [Distinct, List.map_append] at hdistinct
        exact (List.nodup_append.mp hdistinct).1
      have hnew := (distinct_concat.mp hfirst).2
      exact ⟨_, (insert_message_eq_ok_iff h).mpr ⟨⟨hid, hnew⟩, rfl⟩, (ih hfirst).mpr ⟨⟨hrest, hdistinct⟩, rfl⟩⟩

theorem message_nil : message [] = .empty := rfl

theorem distinct_nil : Distinct [] := List.nodup_nil

theorem valid_nil : Valid [] := valid_iff.mpr ⟨List.forall_mem_nil _, distinct_nil, List.forall_mem_nil _⟩

end Forest

theorem Message.ofFields_values {fs : Forest} (h : fs.Valid) : ofFields fs.values = .ok fs.message := by
  have hfits : ∀ f ∈ fs, f.1 ≤ FieldHeader.maxId := (Forest.valid_iff.mp h).1
  exact (Forest.insertAll_message_eq_ok_iff Forest.distinct_nil).mpr ⟨⟨hfits, h.distinct⟩, rfl⟩

theorem Tree.Valid.fits {t : Tree} (h : t.Valid) : t.All Forest.Fits := All.imp (fun _ hlevel => hlevel.1) t h

theorem Tree.Valid.distinct {t : Tree} (h : t.Valid) : t.All Forest.Distinct := All.imp (fun _ hlevel => hlevel.2) t h

/-! ### Built messages -/

mutual

theorem Value.Built.exists_tree {v : Value} : v.Built → ∃ t : Tree, t.Valid ∧ t.value = v
  | .uint64 n => ⟨.uint64 n, trivial, rfl⟩
  | .binary bytes => ⟨.binary bytes, trivial, rfl⟩
  | .message hm => by
    obtain ⟨fs, hfs, rfl⟩ := hm.exists_forest
    exact ⟨.nested fs, hfs, rfl⟩

theorem Message.Built.exists_forest {m : Message} : m.Built → ∃ fs : Forest, fs.Valid ∧ fs.message = m
  | .empty => ⟨[], Forest.valid_nil, rfl⟩
  | .insert hm hv h => by
    obtain ⟨fs, hfs, rfl⟩ := hm.exists_forest
    obtain ⟨t, ht, rfl⟩ := hv.exists_tree
    obtain ⟨hid, rfl⟩ := (Forest.insert_message_eq_ok_iff hfs.distinct).mp h
    exact ⟨_, Forest.valid_concat.mpr ⟨hfs, hid, ht⟩, rfl⟩

end

theorem Forest.built_message_of_values {fs : Forest} (hvalues : ∀ f ∈ fs, f.2.Valid → f.2.value.Built) (h : fs.Valid) :
    fs.message.Built := by
  induction fs using List.reverseRecOn with
  | nil => exact .empty
  | append_singleton fs f ih =>
    obtain ⟨id, t⟩ := f
    obtain ⟨hfs, hid, ht⟩ := valid_concat.mp h
    have hbuilt := ih (fun g hg => hvalues g (List.mem_append_left _ hg)) hfs
    exact .insert hbuilt (hvalues (id, t) (by simp) ht) ((insert_message_eq_ok_iff hfs.distinct).mpr ⟨hid, rfl⟩)

theorem Tree.built_value (t : Tree) : t.Valid → t.value.Built := by
  induction t using Tree.ind with
  | uint64 n => exact fun _ => .uint64 n
  | binary bytes => exact fun _ => .binary bytes
  | nested fs ih => exact fun h => .message (Forest.built_message_of_values ih h)

theorem Value.built_iff {v : Value} : v.Built ↔ ∃ t : Tree, t.Valid ∧ t.value = v := by
  refine ⟨Built.exists_tree, ?_⟩
  rintro ⟨t, ht, rfl⟩
  exact t.built_value ht

/-- Fields with built values are those of valid trees, whatever their ids are. -/
theorem Forest.exists_values_of_built {fields : List (UInt64 × Value)} (h : ∀ f ∈ fields, f.2.Built) :
    ∃ fs : Forest, (∀ f ∈ fs, f.2.Valid) ∧ fs.values = fields := by
  induction fields with
  | nil => exact ⟨[], List.forall_mem_nil _, rfl⟩
  | cons f rest ih =>
    obtain ⟨id, v⟩ := f
    obtain ⟨hv, hrest⟩ := List.forall_mem_cons.mp h
    obtain ⟨t, ht, rfl⟩ := hv.exists_tree
    obtain ⟨fs, hfs, rfl⟩ := ih hrest
    exact ⟨(id, t) :: fs, List.forall_mem_cons.mpr ⟨ht, hfs⟩, rfl⟩

/-- The built messages are those of valid forests. -/
theorem Message.built_iff {m : Message} : m.Built ↔ ∃ fs : Forest, fs.Valid ∧ fs.message = m := by
  refine ⟨Built.exists_forest, ?_⟩
  rintro ⟨fs, hfs, rfl⟩
  exact Forest.built_message_of_values (fun f _ => f.2.built_value) hfs

theorem Message.Built.indexed {m : Message} (h : m.Built) : m.Indexed := by
  obtain ⟨fs, hfs, rfl⟩ := h.exists_forest
  exact Forest.indexed_message hfs.distinct

theorem Message.Built.of_mem {m : Message} {f : UInt64 × Value} (h : m.Built) (hf : f ∈ m.fields) : f.2.Built := by
  obtain ⟨fs, hfs, rfl⟩ := h.exists_forest
  rw [Forest.message, Forest.values_eq_map] at hf
  obtain ⟨g, hg, rfl⟩ := List.mem_map.mp hf
  exact g.2.built_value ((Forest.valid_iff.mp hfs).2.2 g hg)

end FieldWire
