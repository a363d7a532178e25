import FieldWire.Index
import Mathlib.Data.List.Permutation

/-! # Positions and items

The index of items with distinct ids leads from each id to its item (`at?_of_eq_some_iff`), and a walk over it meets
each item once, in ascending order of id (`perm_walk_of`, `pairwise_walk`). What is met does not depend on the order in
which the items stand (`walk_of_eq_iff_perm`). No position in it is beyond the end of the list (`checkedAt?_of`,
`checkedWalk?_of`). -/

namespace FieldWire.Index

/-! ### Entries -/

theorem pairwise_ids (x : Index) : x.ids.Pairwise (· < ·) := List.pairwise_map.mpr x.ascending

theorem nodup_ids (x : Index) : x.ids.Nodup := x.pairwise_ids.imp fun hlt => UInt64.ne_of_lt hlt

theorem find?_eq_some_iff {x : Index} {id : UInt64} {position : Nat} :
    x.find? id = some position ↔ (id, position) ∈ x.entries := by
  constructor
  · intro h
    obtain ⟨e, he, rfl⟩ := Option.map_eq_some_iff.mp h
    have hid : e.1 = id := by simpa using List.find?_some he
    exact hid ▸ List.mem_of_find?_eq_some he
  · intro h
    rw [find?]
    cases hfind : x.entries.find? (·.1 == id) with
    | none => exact absurd (beq_self_eq_true id) (List.find?_eq_none.mp hfind _ h)
    | some e =>
      have hid : e.1 = id := by simpa using List.find?_some hfind
      have heq : e = (id, position) := List.inj_on_of_nodup_map x.nodup_ids (List.mem_of_find?_eq_some hfind) h hid
      rw [heq]
      rfl

theorem contains_iff {x : Index} {id : UInt64} : x.contains id = true ↔ id ∈ x.ids := by
  rw [contains, Option.isSome_iff_exists, ids, List.mem_map]
  constructor
  · rintro ⟨position, h⟩
    exact ⟨_, find?_eq_some_iff.mp h, rfl⟩
  · rintro ⟨⟨i, position⟩, he, rfl⟩
    exact ⟨position, find?_eq_some_iff.mpr he⟩

theorem mem_set {x : Index} {id : UInt64} {position : Nat} {e : UInt64 × Nat} :
    e ∈ (x.set id position).entries ↔ e = (id, position) ∨ e ∈ x.entries ∧ e.1 ≠ id := by
  have hne : e.1 ≠ id ↔ e.1 < id ∨ id < e.1 := by
    rw [ne_eq, ← UInt64.toNat_inj, UInt64.lt_iff_toNat_lt, UInt64.lt_iff_toNat_lt]
    omega
  simp only [set, List.mem_append, List.mem_cons, List.mem_filter, decide_eq_true_eq, hne]
  tauto

theorem mem_ids_set {x : Index} {id i : UInt64} {position : Nat} :
    i ∈ (x.set id position).ids ↔ i = id ∨ i ∈ x.ids := by
  simp only [ids, List.mem_map, mem_set]
  constructor
  · rintro ⟨e, rfl | ⟨he, -⟩, rfl⟩
    · exact Or.inl rfl
    · exact Or.inr ⟨e, he, rfl⟩
  · by_cases hid : i = id
    · exact fun _ => ⟨_, Or.inl rfl, hid.symm⟩
    · rintro (heq | ⟨e, he, rfl⟩)
      · exact absurd heq hid
      · exact ⟨e, Or.inr ⟨he, hid⟩, rfl⟩

theorem ofIds_concat (ids : List UInt64) (id : UInt64) : ofIds (ids ++ [id]) = (ofIds ids).set id ids.length := by
  simp only [ofIds, List.zipIdx_append, List.foldl_append, List.zipIdx_cons, List.zipIdx_nil, List.foldl_cons,
    List.foldl_nil, Nat.zero_add]

/-- Each id is indexed with the place where it stands, and nothing else is. -/
theorem mem_ofIds {ids : List UInt64} (h : ids.Nodup) {e : UInt64 × Nat} :
    e ∈ (ofIds ids).entries ↔ ids[e.2]? = some e.1 := by
  obtain ⟨i, n⟩ := e
  induction ids using List.reverseRecOn with
  | nil => simp [ofIds, empty]
  | append_singleton ids id ih =>
    obtain ⟨hids, -, hnew⟩ := List.nodup_append.mp h
    rw [ofIds_concat, mem_set, ih hids, Prod.mk.injEq]
    rcases Nat.lt_trichotomy n ids.length with hlt | rfl | hgt
    · rw [List.getElem?_append_left hlt]
      have hne : ids[n]? = some i → i ≠ id := fun hi =>
        hnew i (List.mem_of_getElem? hi) id (List.mem_singleton.mpr rfl)
      constructor
      · rintro (⟨-, heq⟩ | ⟨hi, -⟩)
        · omega
        · exact hi
      · exact fun hi => .inr ⟨hi, hne hi⟩
    · simp [eq_comm]
    · have hout : (ids ++ [id])[n]? = none := List.getElem?_eq_none (by simp; omega)
      have hout' : ids[n]? = none := List.getElem?_eq_none (by omega)
      simp only [hout, hout']
      constructor
      · rintro (⟨-, heq⟩ | ⟨hi, -⟩)
        · omega
        · exact hi
      · exact fun hi => by cases hi

/-! ### Items -/

section Items
variable {α : Type} {items : List (UInt64 × α)}

theorem of_concat (items : List (UInt64 × α)) (id : UInt64) (a : α) :
    of (items ++ [(id, a)]) = (of items).set id items.length := by
  rw [of, of, List.map_append, List.map_singleton, ofIds_concat, List.length_map]

theorem mem_of (h : (items.map (·.1)).Nodup) {e : UInt64 × Nat} :
    e ∈ (of items).entries ↔ ∃ item, items[e.2]? = some item ∧ item.1 = e.1 := by
  rw [of, mem_ofIds h, List.getElem?_map, Option.map_eq_some_iff]

theorem mem_ids_of (h : (items.map (·.1)).Nodup) {id : UInt64} : id ∈ (of items).ids ↔ id ∈ items.map (·.1) := by
  rw [ids, List.mem_map, List.mem_map]
  constructor
  · rintro ⟨e, he, rfl⟩
    obtain ⟨item, hitem, hid⟩ := (mem_of h).mp he
    exact ⟨item, List.mem_of_getElem? hitem, hid⟩
  · rintro ⟨item, hitem, rfl⟩
    obtain ⟨n, hn⟩ := List.getElem?_of_mem hitem
    exact ⟨(item.1, n), (mem_of h).mpr ⟨item, hn, rfl⟩, rfl⟩

theorem at?_of_eq_some_iff (h : (items.map (·.1)).Nodup) {id : UInt64} {a : α} :
    (of items).at? items id = some a ↔ (id, a) ∈ items := by
  simp only [at?, Option.bind_eq_bind, Option.bind_eq_some_iff, Option.pure_def, Option.some.injEq,
    find?_eq_some_iff, mem_of h]
  constructor
  · rintro ⟨n, ⟨item, hitem, rfl⟩, item', hitem', rfl⟩
    cases hitem.symm.trans hitem'
    exact List.mem_of_getElem? hitem
  · intro ha
    obtain ⟨n, hn⟩ := List.getElem?_of_mem ha
    exact ⟨n, ⟨_, hn, rfl⟩, _, hn, rfl⟩

theorem pairwise_walk (x : Index) (items : List (UInt64 × α)) :
    (x.walk items).Pairwise fun f g => f.1 < g.1 := by
  refine List.pairwise_filterMap.mpr (x.ascending.imp fun {e f} hlt g hg k hk => ?_)
  obtain ⟨_, -, rfl⟩ := Option.map_eq_some_iff.mp hg
  obtain ⟨_, -, rfl⟩ := Option.map_eq_some_iff.mp hk
  exact hlt

theorem mem_walk_of (h : (items.map (·.1)).Nodup) {item : UInt64 × α} :
    item ∈ (of items).walk items ↔ item ∈ items := by
  simp only [walk, List.mem_filterMap, Option.map_eq_some_iff]
  constructor
  · rintro ⟨e, he, item', hitem', rfl⟩
    obtain ⟨item, hitem, hid⟩ := (mem_of h).mp he
    cases hitem.symm.trans hitem'
    rw [← hid]
    exact List.mem_of_getElem? hitem
  · intro hitem
    obtain ⟨n, hn⟩ := List.getElem?_of_mem hitem
    exact ⟨(item.1, n), (mem_of h).mpr ⟨item, hn, rfl⟩, item, hn, rfl⟩

theorem perm_walk_of (h : (items.map (·.1)).Nodup) : ((of items).walk items).Perm items := by
  have hnodup : ((of items).walk items).Nodup := by
    refine ((of items).pairwise_walk items).imp fun {f g} hlt => ?_
    rintro rfl
    exact UInt64.lt_irrefl _ hlt
  exact (List.perm_ext_iff_of_nodup hnodup (List.Nodup.of_map _ h)).mpr fun item => mem_walk_of h

/-- Items with distinct ids are met in one order, however they stand. -/
theorem walk_of_eq_iff_perm {items' : List (UInt64 × α)} (h : (items.map (·.1)).Nodup)
    (h' : (items'.map (·.1)).Nodup) : (of items).walk items = (of items').walk items' ↔ items.Perm items' := by
  constructor
  · intro heq
    have hwalk := perm_walk_of h
    rw [heq] at hwalk
    exact hwalk.symm.trans (perm_walk_of h')
  · intro hperm
    refine List.Perm.eq_of_pairwise ?_ (pairwise_walk _ _) (pairwise_walk _ _)
      ((perm_walk_of h).trans (hperm.trans (perm_walk_of h').symm))
    exact fun f g _ _ hfg hgf => absurd (UInt64.lt_trans hfg hgf) (UInt64.lt_irrefl _)

theorem ids_of_congr {items' : List (UInt64 × α)} (h : (items.map (·.1)).Nodup) (h' : (items'.map (·.1)).Nodup)
    (hperm : (items.map (·.1)).Perm (items'.map (·.1))) : (of items).ids = (of items').ids := by
  have hids : (of items).ids.Perm (of items').ids :=
    (List.perm_ext_iff_of_nodup (nodup_ids _) (nodup_ids _)).mpr fun id => by
      rw [mem_ids_of h, mem_ids_of h', hperm.mem_iff]
  refine hids.eq_of_pairwise ?_ (pairwise_ids _) (pairwise_ids _)
  exact fun i j _ _ hij hji => absurd (UInt64.lt_trans hij hji) (UInt64.lt_irrefl _)

/-! ### Positions in range -/

/-- The item at the position of the id, if it has one. There is no answer where that is beyond the end of the list. -/
def checkedAt? (x : Index) (items : List (UInt64 × α)) (id : UInt64) : Option (Option α) :=
  match x.find? id with
  | none => some none
  | some position => items[position]?.map fun item => some item.2

/-- The items at all positions, in ascending order of id. There is no answer where a position is beyond the end. -/
def checkedWalk? (x : Index) (items : List (UInt64 × α)) : Option (List (UInt64 × α)) :=
  x.entries.mapM fun e => items[e.2]?.map fun item => (e.1, item.2)

theorem mapM_eq_some_filterMap {β γ : Type} {f : β → Option γ} {l : List β} (h : ∀ b ∈ l, ∃ c, f b = some c) :
    l.mapM f = some (l.filterMap f) := by
  induction l with
  | nil => rfl
  | cons b rest ih =>
    obtain ⟨⟨c, hc⟩, hrest⟩ := List.forall_mem_cons.mp h
    rw [List.mapM_cons, ih hrest, hc, List.filterMap_cons_some hc]
    rfl

theorem checkedAt?_of (h : (items.map (·.1)).Nodup) (id : UInt64) :
    (of items).checkedAt? items id = some ((of items).at? items id) := by
  rw [checkedAt?, at?]
  cases hfind : (of items).find? id with
  | none => rfl
  | some position =>
    obtain ⟨item, hitem, -⟩ := (mem_of h).mp (find?_eq_some_iff.mp hfind)
    dsimp only at hitem ⊢
    simp [hitem]

theorem checkedWalk?_of (h : (items.map (·.1)).Nodup) :
    (of items).checkedWalk? items = some ((of items).walk items) := by
  refine mapM_eq_some_filterMap fun e he => ?_
  obtain ⟨item, hitem, -⟩ := (mem_of h).mp he
  exact ⟨(e.1, item.2), by rw [hitem, Option.map_some]⟩

theorem map_fst_walk_of (h : (items.map (·.1)).Nodup) : ((of items).walk items).map (·.1) = (of items).ids := by
  rw [walk, List.map_filterMap, ids]
  refine List.filterMap_eq_map_iff_forall_eq_some.mpr fun e he => ?_
  obtain ⟨item, hitem, -⟩ := (mem_of h).mp he
  rw [hitem, Option.map_some, Option.map_some]

end Items
end FieldWire.Index
