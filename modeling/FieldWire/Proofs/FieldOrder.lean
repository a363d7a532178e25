import FieldWire.Proofs.Codec
import FieldWire.Proofs.Parser.Recorder
import FieldWire.Proofs.Rearrangement

/-! # The order of fields

A rearrangement of a tree has as many levels as the tree (`Tree.Rearranged.depth_eq`) and is written as a field of the
same length (`Tree.Rearranged.length_eq`): the length in front of a nested message is that of its bytes, whose order is
all that differs. A limit looks at nothing else, so messages that agree are accepted or refused alike
(`Message.acceptance_of_agrees`). -/

namespace FieldWire

/-! ### Depth -/

theorem Forest.depthBelow_eq_of_perm {fs gs : Forest} (h : fs.Perm gs) : fs.depthBelow = gs.depthBelow := by
  induction h with
  | nil => rfl
  | cons f _ ih =>
    obtain ⟨id, t⟩ := f
    rw [depthBelow, depthBelow, ih]
  | swap f g rest =>
    obtain ⟨i, s⟩ := f
    obtain ⟨j, t⟩ := g
    simp only [depthBelow]
    exact Nat.max_left_comm _ _ _
  | trans _ _ ih₁ ih₂ => exact ih₁.trans ih₂

theorem Tree.Rearranged.depth_eq {s t : Tree} (h : s.Rearranged t) : s.depth = t.depth := by
  induction h with
  | refl t => rfl
  | trans _ _ ih₁ ih₂ => exact ih₁.trans ih₂
  | perm hperm => rw [depth, depth, Forest.depthBelow_eq_of_perm hperm]
  | field _ ih => rw [depth, depth, Forest.depthBelow_append, Forest.depthBelow_append, Forest.depthBelow,
      Forest.depthBelow, ih]

/-! ### Length -/

theorem Payload.length_encodeField_nested (id : UInt64) {as bs : Bytes} (h : as.length = bs.length) :
    ((nested as).encodeField id).length = ((nested bs).encodeField id).length := by
  simp only [encodeField, wireType, encode, Prefixed.encode, List.length_append, h]

/-- The bytes of a nested message are as many, and with them those of the field that holds it. -/
theorem Tree.Rearranged.length_eq {s t : Tree} (h : s.Rearranged t) :
    s.payload.contents.length = t.payload.contents.length ∧
      ∀ id, (s.payload.encodeField id).length = (t.payload.encodeField id).length := by
  induction h with
  | refl t => exact ⟨rfl, fun _ => rfl⟩
  | trans _ _ ih₁ ih₂ => exact ⟨ih₁.1.trans ih₂.1, fun id => (ih₁.2 id).trans (ih₂.2 id)⟩
  | @perm fs gs hperm =>
    have hlen : fs.wireForm.length = gs.wireForm.length := by
      rw [Forest.wireForm_eq_flatMap, Forest.wireForm_eq_flatMap]
      exact (hperm.flatMap_right _).length_eq
    exact ⟨hlen, fun id => Payload.length_encodeField_nested id hlen⟩
  | @field before after i s t _ ih =>
    have hlen : (Forest.wireForm (before ++ (i, s) :: after)).length =
        (Forest.wireForm (before ++ (i, t) :: after)).length := by
      simp only [Forest.wireForm_append, Forest.wireForm, List.length_append, ih.2 i]
    exact ⟨hlen, fun id => Payload.length_encodeField_nested id hlen⟩

/-! ### Main statement -/

namespace Message

/-- Messages that agree have as many levels and are written as equally many bytes. So under every pair of limits the
    bytes of both are read back, as messages that agree, or those of both are refused with one error; and a codec
    writes both, or refuses both with one error for their length. -/
theorem acceptance_of_agrees {m n : Message} (hm : m.Built) (hn : n.Built) (h : m.agrees n = true) :
    m.depth = n.depth ∧ ∃ bytes bytes', m.encode = .ok bytes ∧ n.encode = .ok bytes' ∧ bytes.length = bytes'.length ∧
      (∀ limits : Limits,
        (∃ m' n', decode limits bytes = .ok m' ∧ decode limits bytes' = .ok n' ∧ m'.agrees n' = true) ∨
          ∃ e, decode limits bytes = .error e ∧ decode limits bytes' = .error e) ∧
      ∀ codec : Codec,
        (∃ length max, (codec.encode m).1 = .error (.core (.oversizeMessage length max)) ∧
            (codec.encode n).1 = .error (.core (.oversizeMessage length max))) ∨
          (codec.encode m).1 = .ok bytes ∧ (codec.encode n).1 = .ok bytes' := by
  obtain ⟨fs, hfs, rfl⟩ := hm.exists_forest
  obtain ⟨gs, hgs, rfl⟩ := hn.exists_forest
  have hrearranged := (Forest.agrees_iff_rearranged hfs.allDistinct hgs.allDistinct).mp h
  have hdepth : fs.depth = gs.depth := hrearranged.depth_eq
  have hlen : fs.wireForm.length = gs.wireForm.length := hrearranged.length_eq.1
  have hfs' := Forest.encode_message hfs.fits
  have hgs' := Forest.encode_message hgs.fits
  refine ⟨by rw [fs.depth_message, gs.depth_message, hdepth], fs.wireForm, gs.wireForm, hfs', hgs', hlen,
    fun limits => ?_, fun codec => ?_⟩
  · rw [decode_wireForm hfs, decode_wireForm hgs, hlen, hdepth]
    split
    · exact Or.inr ⟨_, rfl, rfl⟩
    · split
      · exact Or.inr ⟨_, rfl, rfl⟩
      · exact Or.inl ⟨_, _, rfl, rfl, h⟩
  · rw [Codec.encode_fst_of_encode_eq_ok hfs', Codec.encode_fst_of_encode_eq_ok hgs', hlen]
    split
    · exact Or.inl ⟨_, _, rfl, rfl⟩
    · exact Or.inr ⟨rfl, rfl⟩

/-- The fields stand in another order at both levels. Both messages are within 8 bytes and two levels, and beyond any
    smaller limits. -/
theorem acceptance_of_agrees_two_orders :
    let m := Forest.message [(9, .nested [(4, .uint64 0), (2, .uint64 1)]), (1, .binary [])]
    let n := Forest.message [(1, .binary []), (9, .nested [(2, .uint64 1), (4, .uint64 0)])]
    let bytes := [0x95, 0x09, 0x41, 0x01, 0x21, 0x03, 0x17, 0x01]
    let bytes' := [0x17, 0x01, 0x95, 0x09, 0x21, 0x03, 0x41, 0x01]
    (m.encode = .ok bytes ∧ n.encode = .ok bytes') ∧
      (∃ m' n', decode ⟨8, 2⟩ bytes = .ok m' ∧ decode ⟨8, 2⟩ bytes' = .ok n' ∧ m'.agrees n' = true) ∧
      (∃ e, decode ⟨8, 1⟩ bytes = .error e ∧ decode ⟨8, 1⟩ bytes' = .error e) ∧
      ∃ length max, ((⟨⟨7, 2⟩, .sha256⟩ : Codec).encode m).1 = .error (.core (.oversizeMessage length max)) ∧
        ((⟨⟨7, 2⟩, .sha256⟩ : Codec).encode n).1 = .error (.core (.oversizeMessage length max)) := by
  intro m n bytes bytes'
  have hm : m.Built := built_iff.mpr ⟨_, by decide, rfl⟩
  have hn : n.Built := built_iff.mpr ⟨_, by decide, rfl⟩
  obtain ⟨-, written, written', hm', hn', -, hread, hwrite⟩ := acceptance_of_agrees hm hn (by decide)
  have hbytes : m.encode = .ok bytes := by cbv
  have hbytes' : n.encode = .ok bytes' := by cbv
  cases hm'.symm.trans hbytes
  cases hn'.symm.trans hbytes'
  have hwithin : decode ⟨8, 2⟩ bytes = .ok m := by cbv
  have hdeep : decode ⟨8, 1⟩ bytes = .error (.depthExceeded 1) := by cbv
  have hlong : ((⟨⟨7, 2⟩, .sha256⟩ : Codec).encode m).1 = .error (.core (.oversizeMessage 8 7)) := by cbv
  refine ⟨⟨hbytes, hbytes'⟩, (hread ⟨8, 2⟩).resolve_right ?_, (hread ⟨8, 1⟩).resolve_left ?_,
    (hwrite ⟨⟨7, 2⟩, .sha256⟩).resolve_right ?_⟩
  · rintro ⟨e, he, -⟩
    cases hwithin.symm.trans he
  · rintro ⟨m', -, hm', -⟩
    cases hdeep.symm.trans hm'
  · rintro ⟨hok, -⟩
    cases hlong.symm.trans hok

end Message
end FieldWire
