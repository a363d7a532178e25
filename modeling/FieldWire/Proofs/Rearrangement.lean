import FieldWire.Proofs.Agreement

/-! # Rearrangements

A rearrangement puts the fields of a tree into another order, at as many levels as it likes and at each of them as it
likes. Values of trees with distinct ids agree exactly if one tree is a rearrangement of the other
(`Tree.agrees_iff_rearranged`); the canonical form is one of them (`Tree.rearranged_canonical`). So agreement is an
equivalence (`Value.agrees_equivalence`), and what no single step changes is the same for values that agree. -/

namespace FieldWire

/-- One tree comes from another by steps, each of which puts the fields of one level into another order. -/
inductive Tree.Rearranged : Tree → Tree → Prop where
  | refl (t : Tree) : Rearranged t t
  | trans {s t u : Tree} : Rearranged s t → Rearranged t u → Rearranged s u
  /-- The fields of the outermost level are put into another order. -/
  | perm {fs gs : Forest} : fs.Perm gs → Rearranged (.nested fs) (.nested gs)
  /-- One field of the outermost level is rearranged. -/
  | field {before after : Forest} {id : UInt64} {s t : Tree} : Rearranged s t →
    Rearranged (.nested (before ++ (id, s) :: after)) (.nested (before ++ (id, t) :: after))

namespace Tree

theorem Rearranged.symm {s t : Tree} (h : s.Rearranged t) : t.Rearranged s := by
  induction h with
  | refl t => exact .refl t
  | trans _ _ ih₁ ih₂ => exact ih₂.trans ih₁
  | perm h => exact .perm h.symm
  | field _ ih => exact .field ih

theorem Rearranged.distinct {s t : Tree} (h : s.Rearranged t) : s.All Forest.Distinct → t.All Forest.Distinct := by
  induction h with
  | refl t => exact id
  | trans _ _ ih₁ ih₂ => exact ih₂ ∘ ih₁
  | perm hperm =>
    intro hs
    obtain ⟨hdistinct, hbelow⟩ := Forest.all_iff.mp hs
    exact Forest.all_iff.mpr
      ⟨(hperm.map _).nodup_iff.mp hdistinct, fun f hf => hbelow f (hperm.mem_iff.mpr hf)⟩
  | field _ ih =>
    intro hs
    obtain ⟨hdistinct, hbelow⟩ := Forest.all_iff.mp hs
    simp only [List.forall_mem_append, List.forall_mem_cons] at hbelow
    obtain ⟨hbefore, hfield, hafter⟩ := hbelow
    refine Forest.all_iff.mpr ⟨by simpa [Forest.Distinct] using hdistinct, ?_⟩
    simp only [List.forall_mem_append, List.forall_mem_cons]
    exact ⟨hbefore, ih hfield, hafter⟩

/-! ### Canonical forms -/

theorem rearranged_canonicalBelow {fs : Forest} (h : ∀ f ∈ fs, f.2.Rearranged f.2.canonical) :
    ∀ before, Rearranged (.nested (before ++ fs)) (.nested (before ++ fs.canonicalBelow)) := by
  induction fs with
  | nil => exact fun before => .refl _
  | cons f rest ih =>
    intro before
    obtain ⟨id, t⟩ := f
    obtain ⟨hf, hothers⟩ := List.forall_mem_cons.mp h
    have hfirst : Rearranged (.nested (before ++ (id, t) :: rest)) (.nested (before ++ (id, t.canonical) :: rest)) :=
      .field hf
    have hrest := ih hothers (before ++ [(id, t.canonical)])
    rw [List.append_assoc, List.append_assoc] at hrest
    exact hfirst.trans hrest

theorem rearranged_canonical (t : Tree) : t.Rearranged t.canonical := by
  induction t using Tree.ind with
  | uint64 n => exact .refl _
  | binary bytes => exact .refl _
  | nested fs ih =>
    have hsorted : Rearranged (.nested fs.canonicalBelow) (.nested fs.canonicalBelow.sorted) :=
      .perm fs.canonicalBelow.perm_sorted.symm
    exact (rearranged_canonicalBelow ih []).trans hsorted

theorem Rearranged.canonical_eq {s t : Tree} (h : s.Rearranged t) :
    s.All Forest.Distinct → s.canonical = t.canonical := by
  induction h with
  | refl t => exact fun _ => rfl
  | trans hst _ ih₁ ih₂ => exact fun hs => (ih₁ hs).trans (ih₂ (hst.distinct hs))
  | @perm fs gs hperm =>
    intro hs
    have hcanon : fs.canonical = gs.canonical := by
      refine (Forest.canonical_eq_iff_perm (Forest.all_iff.mp hs).1).mpr ?_
      rw [Forest.canonicalBelow_eq_map, Forest.canonicalBelow_eq_map]
      exact hperm.map _
    exact congrArg nested hcanon
  | @field before after id s t _ ih =>
    intro hs
    have hin : s.All Forest.Distinct := (Forest.all_iff.mp hs).2 (id, s) (by simp)
    have hfields : Forest.canonicalBelow (before ++ (id, s) :: after) =
        Forest.canonicalBelow (before ++ (id, t) :: after) := by
      simp only [Forest.canonicalBelow_eq_map, List.map_append, List.map_cons, ih hin]
    rw [canonical, canonical, hfields]

theorem agrees_iff_rearranged {s t : Tree} (hs : s.All Forest.Distinct) (ht : t.All Forest.Distinct) :
    s.value.agrees t.value = true ↔ s.Rearranged t := by
  rw [agrees_iff_canonical s t hs ht]
  constructor
  · intro h
    have ht' := t.rearranged_canonical.symm
    rw [← h] at ht'
    exact s.rearranged_canonical.trans ht'
  · exact fun h => h.canonical_eq hs

end Tree

theorem Forest.agrees_iff_rearranged {fs gs : Forest} (hfs : fs.All Distinct) (hgs : gs.All Distinct) :
    fs.message.agrees gs.message = true ↔ (Tree.nested fs).Rearranged (.nested gs) :=
  @Tree.agrees_iff_rearranged (.nested fs) (.nested gs) hfs hgs

/-! ### Main statement -/

/-- Agreement of built values is an equivalence, and to agree is to have one canonical form: that is the rearrangement
    in which the fields ascend at every level. Messages are compared like values. It does not matter which of two
    values that stand under one id is compared with which. -/
theorem Value.agrees_equivalence {a b c : Value} (ha : a.Built) (hb : b.Built) (hc : c.Built) :
    a.agrees a = true ∧
      (a.agrees b = true → b.agrees a = true) ∧
      (a.agrees b = true → b.agrees c = true → a.agrees c = true) ∧
      (a.agrees b = true ↔ a.tree.canonical = b.tree.canonical) ∧
      (a.tree.Rearranged a.tree.canonical ∧
        a.tree.canonical.All fun level => level.Pairwise fun f g => f.1 ≤ g.1) ∧
      ∀ m n, a = .message m → b = .message n →
        (m.agrees n = true ↔ m.forest.canonical = n.forest.canonical) ∧
        (m.agrees n = true ↔
          m.size = n.size ∧ ∀ f ∈ m.fields, ∃ w, n.get? f.1 = some w ∧ w.agrees f.2 = true) := by
  refine ⟨(ha.agrees_iff_canonical ha).mpr rfl, (ha.agrees_comm hb).mp, fun hab hbc => ?_, ha.agrees_iff_canonical hb,
    ⟨a.tree.rearranged_canonical, a.tree.canonical_ascends⟩, ?_⟩
  · rw [ha.agrees_iff_canonical hb] at hab
    rw [hb.agrees_iff_canonical hc] at hbc
    exact (ha.agrees_iff_canonical hc).mpr (hab.trans hbc)
  · rintro m n rfl rfl
    cases ha with
    | message hm =>
      cases hb with
      | message hn => exact ⟨hm.agrees_iff_canonical hn, hm.agrees_iff_found hn⟩

/-- The fields stand in another order at one level or at both. -/
theorem Value.agrees_equivalence_three_orders :
    let a := Tree.value (.nested [(1, .binary []), (9, .nested [(4, .uint64 0), (2, .uint64 1)])])
    let b := Tree.value (.nested [(9, .nested [(4, .uint64 0), (2, .uint64 1)]), (1, .binary [])])
    let c := Tree.value (.nested [(9, .nested [(2, .uint64 1), (4, .uint64 0)]), (1, .binary [])])
    a.agrees b = true ∧ b.agrees c = true ∧ a.agrees c = true ∧ b.agrees a = true ∧ a.agrees a = true ∧
      a.tree.canonical = b.tree.canonical := by
  intro a b c
  have ha : a.Built := Tree.built_value _ (by decide)
  have hb : b.Built := Tree.built_value _ (by decide)
  have hc : c.Built := Tree.built_value _ (by decide)
  have hab : a.agrees b = true := by decide
  have hbc : b.agrees c = true := by decide
  obtain ⟨hrefl, hsymm, htrans, hcanonical, -⟩ := agrees_equivalence ha hb hc
  exact ⟨hab, hbc, htrans hab hbc, hsymm hab, hrefl, hcanonical.mp hab⟩

end FieldWire
