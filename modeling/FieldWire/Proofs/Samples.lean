import FieldWire.Proofs.RoundTrip
import FieldWire.Proofs.Varint.Length
import FieldWire.Samples

/-! # Messages of any length

Bytes with their length in front do not come in every total: where one more byte of contents makes the length a byte
longer, a total is skipped (`exists_fills_iff`). The total before a skipped one is not (`exists_fills_of_gap`), so what a
field misses with a header of one byte, it has with a header of two. The search for a layout tries both, and ends with
one for every length that a field can have at all (`sizedMessage_layout`). -/

namespace FieldWire.Samples
open Varint

/-! ### Contents and their length -/

/-- So many bytes of contents, with their length in front, take `total` bytes. -/
def Fills (contents total : Nat) : Prop := ∃ n, Shortest n contents ∧ n + contents = total

/-- Contents of `2 ^ (7 * k)` bytes are one too many for a length of `k` bytes, and the last ones that are not are one byte
    short of the total with it. -/
def Gap (total : Nat) : Prop := ∃ k, 1 ≤ k ∧ k ≤ 8 ∧ total = 2 ^ (7 * k) + k

/-- What a length of `k` bytes tells is more by far than what one of fewer bytes does. -/
theorem two_pow_add_le {k : Nat} (hpos : 0 < k) : 2 ^ (7 * (k - 1)) + k ≤ 2 ^ (7 * k) := by
  obtain ⟨j, rfl⟩ : ∃ j, k = j + 1 := ⟨k - 1, by omega⟩
  have hle : j < 2 ^ (7 * j) := Nat.lt_of_lt_of_le Nat.lt_two_pow_self (Nat.pow_le_pow_right (by decide) (by omega))
  rw [Nat.add_sub_cancel, Nat.mul_succ, Nat.pow_add]
  omega

theorem not_fills_of_gap {contents total : Nat} (hgap : Gap total) : ¬Fills contents total := by
  obtain ⟨k, hpos, hle, rfl⟩ := hgap
  rintro ⟨n, hn, htotal⟩
  rcases Nat.lt_or_ge k n with hlt | hge
  · -- The length is too long for contents that are so short.
    have hleast := hn.least (by omega)
    have hpow : 2 ^ (7 * k) ≤ 2 ^ (7 * (n - 1)) := Nat.pow_le_pow_right (by decide) (by omega)
    omega
  · -- The length is too short for contents that are so long.
    have hcontents := hn.lt
    rw [capacity_of_le (by omega)] at hcontents
    have hpow : 2 ^ (7 * n) ≤ 2 ^ (7 * k) := Nat.pow_le_pow_right (by decide) (by omega)
    omega

/-- A length of `k` bytes takes up to as many bytes of contents as it can tell. -/
theorem fills_of_le {k contents : Nat} (hpos : 1 ≤ k) (hle : k ≤ 8) (hlt : contents < 2 ^ (7 * k))
    (hge : 2 ^ (7 * k) ≤ contents + k) : Fills contents (k + contents) := by
  have hpow := two_pow_add_le hpos
  refine ⟨k, ⟨hpos, by rw [maxLength]; omega, ?_, fun _ => by omega⟩, rfl⟩
  rwa [capacity_of_le hle]

theorem exists_fills_of_gap {total : Nat} (hgap : Gap (total + 1)) : ∃ contents, Fills contents total := by
  obtain ⟨k, hpos, hle, htotal⟩ := hgap
  have hpow := Nat.two_pow_pos (7 * k)
  obtain rfl : total = k + (2 ^ (7 * k) - 1) := by omega
  exact ⟨_, fills_of_le hpos hle (by omega) (by omega)⟩

theorem exists_fills_iff {total : Nat} (hpos : 0 < total) (hlt : total < 2 ^ 64) :
    (∃ contents, Fills contents total) ↔ ¬Gap total := by
  refine ⟨fun ⟨contents, hfills⟩ hgap => not_fills_of_gap hgap hfills, fun hgap => ?_⟩
  -- The contents are a little shorter than the total, and so is their length than that of the total, if at all.
  obtain ⟨n, hn⟩ := exists_shortest_of_lt hlt
  have hnpos := hn.pos
  have hnle := hn.le
  have hself := hn.le_of_pos hpos
  rw [maxLength] at hnle
  by_cases hleast : 1 < n → 2 ^ (7 * (n - 1)) ≤ total - n
  · exact ⟨total - n, n, ⟨hnpos, hn.le, Nat.lt_of_le_of_lt (Nat.sub_le _ _) hn.lt, hleast⟩, by omega⟩
  · obtain ⟨hone, hshort⟩ := Classical.not_imp.mp hleast
    have hlong := hn.least hone
    obtain ⟨k, rfl⟩ : ∃ k, n = k + 1 := ⟨n - 1, by omega⟩
    rw [Nat.add_sub_cancel] at hshort hlong
    have hmiss : total ≠ 2 ^ (7 * k) + k := fun heq => hgap ⟨k, by omega, by omega, heq⟩
    have hfills := @fills_of_le k (total - k) (by omega) (by omega) (by omega) (by omega)
    rw [Nat.add_sub_of_le (by omega)] at hfills
    exact ⟨_, hfills⟩

/-! ### The search -/

theorem contentsLength?_eq_some_iff {total headerLength prefixLength contents : Nat} (hlt : total < 2 ^ 64) :
    contentsLength? total headerLength prefixLength = some contents ↔
      Shortest prefixLength contents ∧ headerLength + prefixLength + contents = total := by
  have hlength : ∀ v, v ≤ total → (encodedLength (UInt64.ofNat v) = prefixLength ↔ Shortest prefixLength v) := by
    intro v hv
    rw [← length_encode_eq, length_encode_eq_iff, UInt64.toNat_ofNat_of_lt' (Nat.lt_of_le_of_lt hv hlt)]
  rw [contentsLength?]
  constructor
  · intro h
    split at h
    · next hfits =>
      cases h
      exact ⟨(hlength _ (Nat.sub_le _ _)).mp hfits.2, by omega⟩
    · cases h
  · rintro ⟨hshort, rfl⟩
    rw [Nat.add_sub_cancel_left]
    exact if_pos ⟨Nat.le_add_right _ _, (hlength _ (Nat.le_add_left _ _)).mpr hshort⟩

/-- The length of the header of a binary field with the id. -/
def headerLength (id : UInt64) : Nat := encodedLength (FieldHeader.pack ⟨id, .binary⟩)

theorem fills_of_fit?_eq_some {total contents : Nat} {id : UInt64} (hlt : total < 2 ^ 64)
    (h : fit? total id = some contents) : headerLength id ≤ total ∧ Fills contents (total - headerLength id) := by
  obtain ⟨n, -, hn⟩ := List.exists_of_findSome?_eq_some h
  obtain ⟨hshort, htotal⟩ := (contentsLength?_eq_some_iff hlt).mp hn
  rw [← headerLength] at htotal
  exact ⟨by omega, n, hshort, by omega⟩

/-- The search goes through all lengths of lengths, so it finds contents that fill the total if there are any. -/
theorem exists_fit?_iff {total : Nat} {id : UInt64} (hlt : total < 2 ^ 64) (hle : headerLength id ≤ total) :
    (∃ contents, fit? total id = some contents) ↔ ∃ contents, Fills contents (total - headerLength id) := by
  constructor
  · rintro ⟨contents, hfit⟩
    exact ⟨contents, (fills_of_fit?_eq_some hlt hfit).2⟩
  · rintro ⟨contents, n, hn, htotal⟩
    have hmem : n ∈ [1, 2, 3, 4, 5, 6, 7, 8, 9] := by
      have hpos := hn.pos
      have hmax := hn.le
      rw [maxLength] at hmax
      simp only [List.mem_cons, List.not_mem_nil, or_false]
      omega
    have hsome : contentsLength? total (headerLength id) n = some contents :=
      (contentsLength?_eq_some_iff hlt).mpr ⟨hn, by omega⟩
    exact Option.isSome_iff_exists.mp (List.findSome?_isSome_iff.mpr ⟨n, hmem, Option.isSome_of_eq_some hsome⟩)

/-- There is a layout with id 1, unless that leaves a gap, and then there is one with id 16. -/
theorem exists_layout {length : Nat} (hmin : 3 ≤ length) (hmax : length < 2 ^ 64) :
    ∃ id contents, fit? length id = some contents ∧
      sizedMessage length = .ok (rawField id .binary (Prefixed.encode (List.replicate contents filler))) ∧
      ((id = 16 ∧ Gap (length - 1)) ∨ (id = 1 ∧ ¬Gap (length - 1))) := by
  have hone : headerLength 1 = 1 := by decide
  have htwo : headerLength 16 = 2 := by decide
  have hfirst := (@exists_fit?_iff length 1 hmax (by omega)).trans
    (hone ▸ @exists_fills_iff (length - 1) (by omega) (by omega))
  by_cases hgap : Gap (length - 1)
  · have hnone : fit? length 1 = none :=
      Option.eq_none_iff_forall_ne_some.mpr fun contents hfit => hfirst.mp ⟨contents, hfit⟩ hgap
    obtain ⟨contents, hfit⟩ : ∃ contents, fit? length 16 = some contents := by
      refine (exists_fit?_iff hmax (by omega)).mpr (exists_fills_of_gap ?_)
      rwa [htwo, show length - 2 + 1 = length - 1 by omega]
    refine ⟨16, contents, hfit, ?_, Or.inl ⟨rfl, hgap⟩⟩
    simp [sizedMessage, hnone, hfit, Nat.not_lt.mpr hmin]
  · obtain ⟨contents, hfit⟩ := hfirst.mpr hgap
    refine ⟨1, contents, hfit, ?_, Or.inr ⟨rfl, hgap⟩⟩
    simp [sizedMessage, hfit, Nat.not_lt.mpr hmin]

/-! ### The message -/

theorem length_rawField {id : UInt64} {length contents : Nat} (hlt : length < 2 ^ 64)
    (h : fit? length id = some contents) :
    (rawField id .binary (Prefixed.encode (List.replicate contents filler))).length = length := by
  obtain ⟨hle, n, hn, htotal⟩ := fills_of_fit?_eq_some hlt h
  have hcontents : (UInt64.ofNat contents).toNat = contents := UInt64.toNat_ofNat_of_lt' (show contents < 2 ^ 64 by omega)
  have hn' : (encode (UInt64.ofNat contents)).length = n := length_encode_eq_iff.mpr (by rwa [hcontents])
  rw [rawField, Prefixed.encode, List.length_append, List.length_append, List.length_replicate, hn', FieldHeader.encode,
    length_encode_eq, ← headerLength]
  omega

theorem decode_rawField {id : UInt64} (hid : id ≤ FieldHeader.maxId) (contents : Bytes) {limits : Limits}
    (hlen : (rawField id .binary (Prefixed.encode contents)).length ≤ limits.maxLength.toNat)
    (hdepth : 1 ≤ limits.maxDepth.toNat) :
    Message.decode limits (rawField id .binary (Prefixed.encode contents)) =
      .ok (Forest.message [(id, .binary contents)]) := by
  have hvalid : Forest.Valid [(id, .binary contents)] :=
    Forest.valid_iff.mpr
      ⟨List.forall_mem_singleton.mpr hid, List.nodup_singleton _, List.forall_mem_singleton.mpr trivial⟩
  have hform : Forest.wireForm [(id, .binary contents)] = rawField id .binary (Prefixed.encode contents) :=
    List.append_nil _
  have hlevels : Forest.depth [(id, .binary contents)] = 1 := rfl
  have hdecode := Message.decode_wireForm hvalid limits
  rw [hform, hlevels, if_neg (Nat.not_lt.mpr hlen), if_neg (Nat.not_lt.mpr hdepth)] at hdecode
  exact hdecode

/-- For each length from three bytes on the search ends with a message of that length. Under all limits that admit the
    length and one level it is read as one field, which holds the filler and nothing else. The id of the field is 1, but
    for the eight lengths that a field with id 1 skips, where the length of its contents grows by a byte; there it
    is 16. -/
theorem sizedMessage_layout {length : Nat} (hmin : 3 ≤ length) (hmax : length < 2 ^ 64) :
    ∃ bytes id contents, sizedMessage length = .ok bytes ∧ bytes.length = length ∧
      ((id = 16 ∧ ∃ k, 1 ≤ k ∧ k ≤ 8 ∧ length = 2 ^ (7 * k) + k + 1) ∨
        (id = 1 ∧ ¬∃ k, 1 ≤ k ∧ k ≤ 8 ∧ length = 2 ^ (7 * k) + k + 1)) ∧
      ∀ limits : Limits, length ≤ limits.maxLength.toNat → 1 ≤ limits.maxDepth.toNat →
        ∃ m, Message.decode limits bytes = .ok m ∧ m.fields = [(id, .binary (List.replicate contents 0xaa))] := by
  obtain ⟨id, contents, hfit, hsized, hid⟩ := exists_layout hmin hmax
  have hgap : Gap (length - 1) ↔ ∃ k, 1 ≤ k ∧ k ≤ 8 ∧ length = 2 ^ (7 * k) + k + 1 :=
    exists_congr fun k => and_congr_right fun _ => and_congr_right fun _ => by omega
  have hlen := length_rawField hmax hfit
  have hle : id ≤ FieldHeader.maxId := by
    rcases hid with ⟨rfl, -⟩ | ⟨rfl, -⟩ <;> decide
  rw [hgap] at hid
  refine ⟨_, id, contents, hsized, hlen, hid, fun limits hlength hdepth => ?_⟩
  exact ⟨_, decode_rawField hle _ (hlen.trans_le hlength) hdepth, rfl⟩

/-- The first and the last of the lengths that a field with id 1 skips. -/
theorem sizedMessage_layout_gaps :
    (∃ bytes contents m, sizedMessage 130 = .ok bytes ∧ bytes.length = 130 ∧ Message.decode ⟨130, 1⟩ bytes = .ok m ∧
        m.fields = [(16, .binary (List.replicate contents 0xaa))]) ∧
      ∃ bytes contents, sizedMessage (2 ^ 56 + 9) = .ok bytes ∧ bytes.length = 2 ^ 56 + 9 ∧
        ∀ limits : Limits, 2 ^ 56 + 9 ≤ limits.maxLength.toNat → 1 ≤ limits.maxDepth.toNat →
          ∃ m, Message.decode limits bytes = .ok m ∧ m.fields = [(16, .binary (List.replicate contents 0xaa))] := by
  obtain ⟨bytes, id, contents, hsized, hlen, hid, hread⟩ := @sizedMessage_layout 130 (by decide) (by decide)
  obtain ⟨bytes', id', contents', hsized', hlen', hid', hread'⟩ :=
    @sizedMessage_layout (2 ^ 56 + 9) (by decide) (by decide)
  obtain ⟨rfl, -⟩ := hid.resolve_right fun h => h.2 ⟨1, by decide⟩
  obtain ⟨rfl, -⟩ := hid'.resolve_right fun h => h.2 ⟨8, by decide⟩
  obtain ⟨m, hm⟩ := hread ⟨130, 1⟩ (by decide) (by decide)
  exact ⟨⟨bytes, contents, m, hsized, hlen, hm⟩, bytes', contents', hsized', hlen', hread'⟩

end FieldWire.Samples
