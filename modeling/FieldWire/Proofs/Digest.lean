import FieldWire.Message.Digest
import FieldWire.Proofs.Rearrangement

/-! # Digests and equality

Values that agree have one digest under every hash function (`digestWith_eq_of_agrees`). Values with one digest agree,
or two different nodes of theirs have one hash (`agrees_or_collision_of_digestWith_eq`): a node tells its type by its
first byte, and the records of a message can be told apart since all have one length. The nodes of a value are all that
is hashed for it (`Value.Built.digestWith_congr`). -/

namespace FieldWire

variable {hash : Bytes → Digest}

/-! ### Nodes can be read back -/

namespace Node

theorem littleEndian_inj {m n : UInt64} (h : littleEndian 8 m.toNat = littleEndian 8 n.toNat) : m = n := by
  have hnat := congrArg ofLittleEndian h
  rw [ofLittleEndian_littleEndian, ofLittleEndian_littleEndian, Nat.one_shiftLeft, Nat.mod_eq_of_lt m.toNat_lt,
    Nat.mod_eq_of_lt n.toNat_lt] at hnat
  exact UInt64.toNat_inj.mp hnat

theorem toBytes_inj {d e : Digest} (h : d.toBytes = e.toBytes) : d = e := by
  have hof := congrArg Digest.ofBytes? h
  rw [Digest.ofBytes?_toBytes, Digest.ofBytes?_toBytes] at hof
  exact Option.some.inj hof

/-- A list of records is read back record by record: each has 40 bytes. -/
theorem flatMap_record_inj {xs : List (UInt64 × Digest)} :
    ∀ {ys : List (UInt64 × Digest)}, xs.flatMap record = ys.flatMap record → xs = ys := by
  have hlen : ∀ x, (record x).length = 40 := fun x => by simp [record]
  have hnil : ∀ y ys, [] ≠ record y ++ List.flatMap record ys := fun y ys h => by
    have := congrArg List.length h
    rw [List.length_append, hlen, List.length_nil] at this
    omega
  induction xs with
  | nil =>
    intro ys h
    cases ys with
    | nil => rfl
    | cons y ys => exact absurd h (hnil y ys)
  | cons x xs ih =>
    intro ys h
    cases ys with
    | nil => exact absurd h.symm (hnil x xs)
    | cons y ys =>
      rw [List.flatMap_cons, List.flatMap_cons] at h
      obtain ⟨hrecord, hrest⟩ := List.append_inj h (by rw [hlen, hlen])
      obtain ⟨hid, hdigest⟩ := List.append_inj hrecord (by rw [length_littleEndian, length_littleEndian])
      rw [ih hrest, Prod.ext (littleEndian_inj hid) (toBytes_inj hdigest)]

theorem ofFields_inj {xs ys : List (UInt64 × Digest)} (h : ofFields xs = ofFields ys) : xs = ys :=
  flatMap_record_inj (List.cons.inj h).2

end Node

/-! ### Nodes of trees -/

namespace Forest

def digests (hash : Bytes → Digest) (fs : Forest) : List (UInt64 × Digest) :=
  fs.map fun f => (f.1, f.2.value.digestWith hash)

theorem map_fst_digests (fs : Forest) : (fs.digests hash).map (·.1) = fs.map (·.1) := by
  rw [digests, List.map_map]
  rfl

theorem digestsOfFields_values (fs : Forest) : Message.digestsOfFields hash fs.values = fs.digests hash := by
  induction fs with
  | nil => rfl
  | cons f rest ih =>
    rw [values, Message.digestsOfFields, ih]
    rfl

/-- The node of a message holds a record of each field, as the index walks over them. -/
theorem node_message (fs : Forest) :
    fs.message.node hash = Node.ofFields ((Index.of (fs.digests hash)).walk (fs.digests hash)) := by
  rw [message, Message.node, digestsOfFields_values, Index.of, Index.of, map_fst_values, map_fst_digests]

theorem nodesOfFields_values (fs : Forest) :
    Message.nodesOfFields hash fs.values = fs.flatMap fun f => f.2.value.nodes hash := by
  induction fs with
  | nil => rfl
  | cons f rest ih => rw [values, Message.nodesOfFields, List.flatMap_cons, ih]

theorem nodes_message (fs : Forest) :
    fs.message.nodes hash = fs.message.node hash :: fs.flatMap fun f => f.2.value.nodes hash := by
  rw [message, Message.nodes, nodesOfFields_values, Message.node]

theorem nodes_subset {fs : Forest} {f : UInt64 × Tree} (hf : f ∈ fs) :
    f.2.value.nodes hash ⊆ fs.message.nodes hash := by
  intro x hx
  rw [nodes_message]
  exact List.mem_cons_of_mem _ (List.mem_flatMap.mpr ⟨f, hf, hx⟩)

/-- Messages with distinct ids have one node exactly if they have the same ids with the same digests. -/
theorem node_message_eq_iff {fs gs : Forest} (hfs : fs.Distinct) (hgs : gs.Distinct) :
    fs.message.node hash = gs.message.node hash ↔ (fs.digests hash).Perm (gs.digests hash) := by
  have hfs' : ((fs.digests hash).map (·.1)).Nodup := by rwa [map_fst_digests]
  have hgs' : ((gs.digests hash).map (·.1)).Nodup := by rwa [map_fst_digests]
  rw [node_message, node_message, ← Index.walk_of_eq_iff_perm hfs' hgs']
  exact ⟨Node.ofFields_inj, congrArg Node.ofFields⟩

end Forest

namespace Tree

theorem node_mem_nodes (t : Tree) : t.value.node hash ∈ t.value.nodes hash := by
  cases t with
  | uint64 n => exact List.mem_singleton.mpr rfl
  | binary bytes => exact List.mem_singleton.mpr rfl
  | nested fs =>
    show (Forest.message fs).node hash ∈ (Forest.message fs).nodes hash
    rw [Forest.nodes_message]
    exact List.mem_cons_self

theorem node_congr {hash' : Bytes → Digest} (t : Tree) :
    (∀ x ∈ t.value.nodes hash, hash' x = hash x) → t.value.node hash' = t.value.node hash := by
  induction t using Tree.ind with
  | uint64 n => exact fun _ => rfl
  | binary bytes => exact fun _ => rfl
  | nested fs ih =>
    intro h
    have hdigests : fs.digests hash' = fs.digests hash := by
      refine List.map_congr_left fun f hf => ?_
      have hin : ∀ x ∈ f.2.value.nodes hash, hash' x = hash x := fun x hx => h x (Forest.nodes_subset hf hx)
      rw [Value.digestWith, Value.digestWith, ih f hf hin, hin _ f.2.node_mem_nodes]
    show fs.message.node hash' = fs.message.node hash
    rw [Forest.node_message, Forest.node_message, hdigests]

/-! ### Order does not show -/

theorem Rearranged.digestWith_eq {s t : Tree} (h : s.Rearranged t) :
    s.All Forest.Distinct → s.value.digestWith hash = t.value.digestWith hash := by
  induction h with
  | refl t => exact fun _ => rfl
  | trans hst _ ih₁ ih₂ => exact fun hs => (ih₁ hs).trans (ih₂ (hst.distinct hs))
  | @perm fs gs hperm =>
    intro hs
    have hfs : fs.Distinct := (Forest.all_iff.mp hs).1
    have hgs : gs.Distinct := (Forest.all_iff.mp ((Rearranged.perm hperm).distinct hs)).1
    have hnode : fs.message.node hash = gs.message.node hash :=
      (Forest.node_message_eq_iff hfs hgs).mpr (hperm.map _)
    exact congrArg hash hnode
  | @field before after id s t hst ih =>
    intro hs
    have hin : s.All Forest.Distinct := (Forest.all_iff.mp hs).2 (id, s) (by simp)
    have hdigests : Forest.digests hash (before ++ (id, s) :: after) =
        Forest.digests hash (before ++ (id, t) :: after) := by
      simp only [Forest.digests, List.map_append, List.map_cons, ih hin]
    have hnode : (Forest.message (before ++ (id, s) :: after)).node hash =
        (Forest.message (before ++ (id, t) :: after)).node hash := by
      rw [Forest.node_message, Forest.node_message, hdigests]
    exact congrArg hash hnode

end Tree

theorem Message.Built.digestWith_eq {m n : Message} (hm : m.Built) (hn : n.Built) (h : m.agrees n = true) :
    m.digestWith hash = n.digestWith hash := by
  obtain ⟨fs, hfs, rfl⟩ := hm.exists_forest
  obtain ⟨gs, hgs, rfl⟩ := hn.exists_forest
  rw [← Value.digestWith_message, ← Value.digestWith_message]
  exact ((Forest.agrees_iff_rearranged hfs.allDistinct hgs.allDistinct).mp h).digestWith_eq hfs.allDistinct

/-! ### Digests bind -/

/-- Some node of the one list and another node of the other list have one hash. -/
def Collision (hash : Bytes → Digest) (xs ys : List Bytes) : Prop :=
  ∃ x ∈ xs, ∃ y ∈ ys, x ≠ y ∧ hash x = hash y

theorem Collision.mono {xs xs' ys ys' : List Bytes} (h : Collision hash xs ys) (hx : xs ⊆ xs') (hy : ys ⊆ ys') :
    Collision hash xs' ys' := by
  obtain ⟨x, hx', y, hy', hne, heq⟩ := h
  exact ⟨x, hx hx', y, hy hy', hne, heq⟩

/-- Messages with one node agree without a collision, if trees in them with one digest do. -/
theorem Forest.agrees_or_collision_of_trees {fs gs : Forest} (hfs : fs.Distinct) (hgs : gs.All Distinct)
    (htrees : ∀ f ∈ fs, ∀ t : Tree, t.All Distinct → f.2.value.digestWith hash = t.value.digestWith hash →
      f.2.value.agrees t.value = true ∨ Collision hash (f.2.value.nodes hash) (t.value.nodes hash))
    (h : fs.message.node hash = gs.message.node hash) :
    fs.message.agrees gs.message = true ∨ Collision hash (fs.message.nodes hash) (gs.message.nodes hash) := by
  by_cases hcollision : Collision hash (fs.message.nodes hash) (gs.message.nodes hash)
  · exact Or.inr hcollision
  · obtain ⟨hgs', hbelow⟩ := all_iff.mp hgs
    refine Or.inl ((agrees_message_iff hgs').mpr ?_)
    have hperm := (node_message_eq_iff hfs hgs').mp h
    have hlen := hperm.length_eq
    rw [digests, digests, List.length_map, List.length_map] at hlen
    refine ⟨hlen, fun f hf => ?_⟩
    obtain ⟨g, hg, heq⟩ := List.mem_map.mp (hperm.mem_iff.mp (List.mem_map_of_mem hf))
    obtain ⟨hid, hdigest⟩ := Prod.mk.inj heq
    rcases htrees f hf g.2 (hbelow g hg) hdigest.symm with hag | hc
    · exact ⟨g, hg, hid, hag⟩
    · exact absurd (hc.mono (nodes_subset hf) (nodes_subset hg)) hcollision

/-- The byte that the nodes of a type start with. -/
def Node.tag : WireType → UInt8
  | .uint64 => uint64Tag
  | .binary => binaryTag
  | .message => messageTag

theorem Node.tag_inj {s t : WireType} (h : tag s = tag t) : s = t := by
  revert h
  cases s <;> cases t <;> decide

theorem Value.head?_node (v : Value) : (v.node hash).head? = some (Node.tag v.wireType) := by
  cases v with
  | uint64 n => rfl
  | binary bytes => rfl
  | message m =>
    obtain ⟨fields, index⟩ := m
    rfl

theorem Value.wireType_eq_of_node_eq {v w : Value} (h : v.node hash = w.node hash) : v.wireType = w.wireType := by
  have hhead := congrArg List.head? h
  rw [head?_node, head?_node] at hhead
  exact Node.tag_inj (Option.some.inj hhead)

namespace Tree

theorem node_eq_or_collision {s t : Tree} (h : s.value.digestWith hash = t.value.digestWith hash) :
    s.value.node hash = t.value.node hash ∨ Collision hash (s.value.nodes hash) (t.value.nodes hash) := by
  by_cases hnode : s.value.node hash = t.value.node hash
  · exact Or.inl hnode
  · exact Or.inr ⟨_, s.node_mem_nodes, _, t.node_mem_nodes, hnode, h⟩

theorem agrees_or_collision (s : Tree) : ∀ t : Tree, s.All Forest.Distinct → t.All Forest.Distinct →
    s.value.digestWith hash = t.value.digestWith hash →
    s.value.agrees t.value = true ∨ Collision hash (s.value.nodes hash) (t.value.nodes hash) := by
  induction s using Tree.ind with
  | uint64 m =>
    intro t _ _ h
    rcases node_eq_or_collision h with hnode | hc
    · cases t with
      | uint64 n =>
        have hmn : m = n := Node.littleEndian_inj (List.cons.inj hnode).2
        exact Or.inl (beq_iff_eq.mpr hmn)
      | binary bytes => cases Value.wireType_eq_of_node_eq hnode
      | nested fs => cases Value.wireType_eq_of_node_eq hnode
    · exact Or.inr hc
  | binary as =>
    intro t _ _ h
    rcases node_eq_or_collision h with hnode | hc
    · cases t with
      | uint64 n => cases Value.wireType_eq_of_node_eq hnode
      | binary bs =>
        have hab : as = bs := (List.cons.inj hnode).2
        exact Or.inl (beq_iff_eq.mpr hab)
      | nested fs => cases Value.wireType_eq_of_node_eq hnode
    · exact Or.inr hc
  | nested fs ih =>
    intro t hfs ht h
    rcases node_eq_or_collision h with hnode | hc
    · cases t with
      | uint64 n => cases Value.wireType_eq_of_node_eq hnode
      | binary bytes => cases Value.wireType_eq_of_node_eq hnode
      | nested gs =>
        obtain ⟨hdistinct, hbelow⟩ := Forest.all_iff.mp hfs
        exact Forest.agrees_or_collision_of_trees hdistinct ht
          (fun f hf t ht hdigest => ih f hf t (hbelow f hf) ht hdigest) hnode
    · exact Or.inr hc

end Tree

/-! ### Main statements -/

/-- The nodes are all that is hashed: a hash function that gives the same results for them gives the same digest. -/
theorem Value.Built.digestWith_congr {hash' : Bytes → Digest} {v : Value} (hv : v.Built)
    (h : ∀ x ∈ v.nodes hash, hash' x = hash x) : v.digestWith hash' = v.digestWith hash := by
  obtain ⟨t, -, rfl⟩ := hv.exists_tree
  rw [digestWith, digestWith, t.node_congr h]
  exact h _ t.node_mem_nodes

/-- Values with one digest, under any hash function, agree, or two different nodes that are hashed for them have one
    hash. In particular a collision is needed for one digest of values of two types, or of messages with other ids. -/
theorem agrees_or_collision_of_digestWith_eq (hash : Bytes → Digest) {a b : Value} (ha : a.Built) (hb : b.Built)
    (h : a.digestWith hash = b.digestWith hash) :
    (a.agrees b = true ∧ a.wireType = b.wireType ∧ ∀ m n, a = .message m → b = .message n → m.ids = n.ids) ∨
      ∃ x ∈ a.nodes hash, ∃ y ∈ b.nodes hash, x ≠ y ∧ hash x = hash y := by
  obtain ⟨s, hs, rfl⟩ := ha.exists_tree
  obtain ⟨t, ht, rfl⟩ := hb.exists_tree
  rcases s.agrees_or_collision t hs.distinct ht.distinct h with hag | hc
  · refine Or.inl ⟨hag, Value.wireType_eq_of_agrees hag, fun m n hm hn => ?_⟩
    cases s <;> cases t <;> cases hm <;> cases hn
    exact Forest.ids_eq_of_agrees hs.distinct ht.distinct hag
  · exact Or.inr hc

/-- Two messages with the same ids and another value. The hash function cuts nodes to 32 bytes, which leaves out the
    second record, so the collision is that of the outermost nodes. -/
theorem collision_of_truncated_nodes : ∃ hash : Bytes → Digest,
    (Tree.value (.nested [(1, .uint64 5), (2, .binary [7])])).digestWith hash =
        (Tree.value (.nested [(2, .binary [8]), (1, .uint64 5)])).digestWith hash ∧
      ∃ x ∈ (Tree.value (.nested [(1, .uint64 5), (2, .binary [7])])).nodes hash,
        ∃ y ∈ (Tree.value (.nested [(2, .binary [8]), (1, .uint64 5)])).nodes hash, x ≠ y ∧ hash x = hash y := by
  have ha : (Tree.value (.nested [(1, .uint64 5), (2, .binary [7])])).Built := Tree.built_value _ (by decide)
  have hb : (Tree.value (.nested [(2, .binary [8]), (1, .uint64 5)])).Built := Tree.built_value _ (by decide)
  have h : (Tree.value (.nested [(1, .uint64 5), (2, .binary [7])])).digestWith
        (fun bytes => ⟨Vector.ofFn fun i => bytes.getD i 0⟩) =
      (Tree.value (.nested [(2, .binary [8]), (1, .uint64 5)])).digestWith
        (fun bytes => ⟨Vector.ofFn fun i => bytes.getD i 0⟩) := by cbv
  refine ⟨_, h, (agrees_or_collision_of_digestWith_eq _ ha hb h).resolve_left fun hag => ?_⟩
  exact absurd hag.1 (by decide)

/-- Values that agree have one digest, whatever the hash function is. The digest of a value is that of its canonical
    form, and of every other rearrangement of its fields. -/
theorem digestWith_eq_of_agrees (hash : Bytes → Digest) {a b : Value} (ha : a.Built) (hb : b.Built) :
    (a.agrees b = true → a.digestWith hash = b.digestWith hash) ∧
      a.digestWith hash = a.tree.canonical.value.digestWith hash ∧
      ∀ t, a.tree.Rearranged t → a.agrees t.value = true ∧ a.digestWith hash = t.value.digestWith hash := by
  obtain ⟨s, hs, rfl⟩ := ha.exists_tree
  obtain ⟨t, ht, rfl⟩ := hb.exists_tree
  rw [Tree.tree_value]
  refine ⟨fun hag => ?_, s.rearranged_canonical.digestWith_eq hs.distinct, fun u hu =>
    ⟨?_, hu.digestWith_eq hs.distinct⟩⟩
  · exact ((Tree.agrees_iff_rearranged hs.distinct ht.distinct).mp hag).digestWith_eq hs.distinct
  · exact (Tree.agrees_iff_rearranged hs.distinct (hu.distinct hs.distinct)).mpr hu

/-- The fields are in another order at both levels. -/
theorem digest_eq_of_orders :
    (Tree.value (.nested [(1, .binary []), (9, .nested [(4, .uint64 0), (2, .uint64 1)])])).digest .sha256 =
      (Tree.value (.nested [(9, .nested [(2, .uint64 1), (4, .uint64 0)]), (1, .binary [])])).digest .sha256 := by
  have ha : (Tree.value (.nested [(1, .binary []), (9, .nested [(4, .uint64 0), (2, .uint64 1)])])).Built :=
    Tree.built_value _ (by decide)
  have hb : (Tree.value (.nested [(9, .nested [(2, .uint64 1), (4, .uint64 0)]), (1, .binary [])])).Built :=
    Tree.built_value _ (by decide)
  exact (digestWith_eq_of_agrees HashAlgorithm.sha256.hash ha hb).1 (by decide)

end FieldWire
