import FieldWire.Proofs.Field
import FieldWire.Proofs.Memory
import FieldWire.Proofs.Varint.Length
import FieldWire.Samples

/-! # What reading makes of headers and of lengths in front

A header is one varint, so it fails as a varint does, or for a tag that stands for no type; in the second case the
varint is consumed. Packing is a shift and unpacking undoes it only for ids that fit, and an id that does not is taken
for its low bits where nothing checks it (`FieldHeader.read_outcome`). Bytes with their length in front are split off
if all of them are there, and otherwise nothing is consumed, however great the length is (`Prefixed.split_outcome`). -/

namespace FieldWire

/-! ### Bits of a header -/

namespace FieldHeader

theorem mod_eight_eq_and (v : UInt64) : v % 8 = v &&& 7 := by
  apply UInt64.toNat_inj.mp
  rw [UInt64.toNat_mod, UInt64.toNat_and]
  exact (Nat.and_two_pow_sub_one_eq_mod v.toNat 3).symm

theorem pack_eq_or (header : FieldHeader) : header.pack = header.id <<< 3 ||| header.wireType.tag.toUInt64 := by
  have hshift : (header.id <<< 3).toNat = (header.id.toNat % 2 ^ 61) <<< 3 := by
    rw [UInt64.toNat_shiftLeft, show (3 : UInt64).toNat % 64 = 3 from rfl, Nat.shiftLeft_eq, Nat.shiftLeft_eq]
    omega
  apply UInt64.toNat_inj.mp
  rw [toNat_pack, UInt64.toNat_or, UInt8.toNat_toUInt64, hshift,
    ← Nat.shiftLeft_add_eq_or_of_lt (tag_lt header.wireType), Nat.shiftLeft_eq, Nat.mul_comm]

/-- What is taken for the tag are the three low bits. -/
theorem toUInt8_mod_eight_eq_iff {packed : UInt64} {tag : UInt8} :
    (packed % 8).toUInt8 = tag ↔ packed &&& 7 = tag.toUInt64 := by
  rw [← mod_eight_eq_and]
  constructor
  · rintro rfl
    apply UInt64.toNat_inj.mp
    rw [UInt8.toNat_toUInt64, UInt64.toNat_toUInt8, UInt64.toNat_mod, show (8 : UInt64).toNat = 8 from rfl]
    omega
  · intro h
    rw [h, UInt8.toUInt8_toUInt64]

/-- Only the low 61 bits of an id are packed. -/
theorem encode_eq_of_mod_eq {id low : UInt64} (h : id.toNat % 2 ^ 61 = low.toNat % 2 ^ 61) (t : WireType) :
    encode ⟨id, t⟩ = encode ⟨low, t⟩ := by
  have hpack : pack ⟨id, t⟩ = pack ⟨low, t⟩ := by
    apply UInt64.toNat_inj.mp
    rw [toNat_pack, toNat_pack, h]
  rw [encode, encode, hpack]

/-! ### What reading makes of a header -/

/-- No varint fails as a header with an unknown tag does. -/
theorem read_eq_unknown_iff {input rest : Bytes} {tag : UInt8} :
    read input = (.error (.unknownWireType tag), rest) ↔
      ∃ packed, Varint.decode input = .ok (packed, rest) ∧ packed &&& 7 = tag.toUInt64 ∧
        tag ≠ 0 ∧ tag ≠ 2 ∧ tag ≠ 3 := by
  rw [read_eq_error_iff]
  constructor
  · rintro (⟨hdecode, -⟩ | ⟨packed, hdecode, hunpack⟩)
    · rcases Varint.decode_eq_error_cases hdecode with h | h | ⟨length, h⟩ <;> cases h
    · obtain ⟨hnone, htag⟩ := unpack_eq_error_iff.mp hunpack
      cases htag
      exact ⟨packed, hdecode, toUInt8_mod_eight_eq_iff.mp rfl, WireType.ofTag?_eq_none_iff.mp hnone⟩
  · rintro ⟨packed, hdecode, hbits, hnone⟩
    obtain rfl := toUInt8_mod_eight_eq_iff.mpr hbits
    exact Or.inr ⟨packed, hdecode, unpack_eq_error_iff.mpr ⟨WireType.ofTag?_eq_none_iff.mpr hnone, rfl⟩⟩

/-- A header is the id shifted past the tag. Reading accepts what appending writes for an id that fits, with any bytes
    behind it, and nothing else. It fails for the tag exactly if there is a varint whose three low bits are a tag that
    is not in use, and then the varint is consumed. All other failures are those of the varint, and consume nothing. An
    id that does not fit is refused, and where it is packed without being checked, it is taken modulo `2 ^ 61`. -/
theorem read_outcome (input : Bytes) :
    (∀ header : FieldHeader, header.pack = header.id <<< 3 ||| header.wireType.tag.toUInt64) ∧
      (∀ header rest, read input = (.ok header, rest) ↔
        header.id ≤ maxId ∧ ∀ buffer, (appendTo buffer header).1 ++ rest = buffer ++ input) ∧
      (∀ tag rest, read input = (.error (.unknownWireType tag), rest) ↔
        ∃ packed, Varint.decode input = .ok (packed, rest) ∧ packed &&& 7 = tag.toUInt64 ∧
          tag ≠ 0 ∧ tag ≠ 2 ∧ tag ≠ 3) ∧
      (∀ e rest, (∀ tag, e ≠ .unknownWireType tag) →
        (read input = (.error e, rest) ↔ Varint.decode input = .error e ∧ rest = input)) ∧
      ∀ id t, maxId < id →
        make id t = .error (.fieldIdRange id) ∧
          ∃ low : UInt64, low.toNat = id.toNat % 2 ^ 61 ∧ make low t = .ok ⟨low, t⟩ ∧
            ∀ payload, Samples.rawField id t payload = (appendTo [] ⟨low, t⟩).1 ++ payload := by
  have happend : ∀ (buffer : Bytes) (header : FieldHeader), (appendTo buffer header).1 = buffer ++ header.encode :=
    fun buffer header => congrArg Prod.fst (Varint.appendTo_eq buffer header.pack)
  refine ⟨pack_eq_or, fun header rest => ?_, fun tag rest => read_eq_unknown_iff, fun e rest hne => ?_,
    fun id t hid => ⟨if_neg (UInt64.not_le.mpr hid), ?_⟩⟩
  · rw [read_eq_ok_iff]
    simp only [happend, List.append_assoc, List.append_cancel_left_eq, forall_const, eq_comm]
  · rw [read_eq_error_iff, or_iff_left]
    rintro ⟨packed, -, hunpack⟩
    obtain ⟨-, rfl⟩ := unpack_eq_error_iff.mp hunpack
    exact hne _ rfl
  · have hlt : id.toNat % 2 ^ 61 < 2 ^ 61 := Nat.mod_lt _ (Nat.two_pow_pos 61)
    have hlow : (UInt64.ofNat (id.toNat % 2 ^ 61)).toNat = id.toNat % 2 ^ 61 :=
      UInt64.toNat_ofNat_of_lt' (Nat.lt_of_lt_of_le hlt (by decide))
    have hfits : UInt64.ofNat (id.toNat % 2 ^ 61) ≤ maxId := id_le_maxId_iff.mpr (hlow.trans_lt hlt)
    refine ⟨UInt64.ofNat (id.toNat % 2 ^ 61), hlow, if_pos hfits, fun payload => ?_⟩
    rw [Samples.rawField, happend, List.nil_append, encode_eq_of_mod_eq (by rw [hlow, Nat.mod_mod])]

/-- A varint that is cut off stays where it is, and one with the tag 1 does not. Of the id `2 ^ 61 + 1` the header is
    that of the id 1. -/
theorem read_outcome_one_byte :
    read [0x02] = (.error .varintCut, [0x02]) ∧ read [0x13, 0xaa] = (.error (.unknownWireType 1), [0xaa]) ∧
      make 2305843009213693953 .binary = .error (.fieldIdRange 2305843009213693953) ∧
      ∃ low : UInt64, low = 1 ∧
        Samples.rawField 2305843009213693953 .binary [0x01] = (appendTo [] ⟨low, .binary⟩).1 ++ [0x01] := by
  obtain ⟨-, -, -, hother, hrange⟩ := read_outcome [0x02]
  obtain ⟨-, -, hunknown, -⟩ := read_outcome [0x13, 0xaa]
  obtain ⟨hmake, low, hlow, -, hraw⟩ := hrange 2305843009213693953 .binary (by decide)
  have hcut : ∀ tag, Error.varintCut ≠ .unknownWireType tag := nofun
  exact ⟨(hother _ _ hcut).mpr ⟨by decide, rfl⟩, (hunknown _ _).mpr ⟨9, by decide⟩, hmake, low,
    UInt64.toNat_inj.mp (hlow.trans (by decide)), hraw [0x01]⟩

end FieldHeader

/-! ### Lengths in front -/

namespace Prefixed

theorem read_eq_ok_iff_exists {input data rest : Bytes} :
    read input = (.ok data, rest) ↔
      ∃ length : UInt64, length.toNat = data.length ∧ input = Varint.encode length ++ data ++ rest := by
  rw [read_eq_ok_iff, encode]
  constructor
  · rintro ⟨hlt, hinput⟩
    exact ⟨UInt64.ofNat data.length, UInt64.toNat_ofNat_of_lt' hlt, hinput⟩
  · rintro ⟨length, hlength, hinput⟩
    rw [← hlength, UInt64.ofNat_toNat]
    exact ⟨length.toNat_lt, hinput⟩

theorem exists_read_eq_error_iff {input rest : Bytes} {e : Error} :
    (∃ cause, read input = (.error cause, rest) ∧ cause.toError = e) ↔
      rest = input ∧
        (Varint.decode input = .error e ∨
          e = .payloadCut ∧ ∃ (length : UInt64) (after : Bytes), input = Varint.encode length ++ after ∧
            after.length < length.toNat) := by
  simp only [read_eq_error_iff, ← Varint.decode_eq_ok_iff]
  constructor
  · rintro ⟨_, ⟨hrest, ⟨cause, hdecode, rfl⟩ | ⟨length, after, hdecode, hshort, rfl⟩⟩, rfl⟩
    · exact ⟨hrest, Or.inl hdecode⟩
    · exact ⟨hrest, Or.inr ⟨rfl, length, after, hdecode, hshort⟩⟩
  · rintro ⟨hrest, hdecode | ⟨rfl, length, after, hdecode, hshort⟩⟩
    · exact ⟨_, ⟨hrest, Or.inl ⟨e, hdecode, rfl⟩⟩, rfl⟩
    · exact ⟨_, ⟨hrest, Or.inr ⟨length, after, hdecode, hshort, rfl⟩⟩, rfl⟩

/-- Bytes are split off exactly if their length, as an integer of 64 bits, stands in front of them; what stands behind
    them is left. Otherwise nothing is consumed, and the length cannot be read, or there are fewer bytes behind it than
    it announces, be it as great as it may. With addresses of 64 bits no index is out of range on the way, and no
    length is too great. -/
theorem split_outcome (input : Bytes) :
    let outcome := ((read input).1.mapError PayloadError.toError, (read input).2)
    (∀ data rest, outcome = (.ok data, rest) ↔
        ∃ length : UInt64, length.toNat = data.length ∧ input = Varint.encode length ++ data ++ rest) ∧
      (∀ e rest, outcome = (.error e, rest) ↔
        rest = input ∧
          (Varint.decode input = .error e ∨
            e = .truncated "not enough bytes remaining in input" ∧
              ∃ (length : UInt64) (after : Bytes), input = Varint.encode length ++ after ∧
                after.length < length.toNat)) ∧
      checkedRead 64 input = some outcome := by
  intro outcome
  refine ⟨fun data rest => ?_, fun e rest => ?_, checkedRead_eq (Nat.le_refl 64) input⟩
  · rw [← read_eq_ok_iff_exists]
    rcases hread : read input with ⟨_ | _, _⟩ <;> simp [outcome, hread, Except.mapError]
  · have herror := @exists_read_eq_error_iff input rest e
    rw [Error.payloadCut] at herror
    rw [← herror]
    rcases hread : read input with ⟨_ | _, _⟩ <;> simp [outcome, hread, Except.mapError, and_comm]

/-- The greatest length that can be announced, with one byte behind it. -/
example : read [0x00, 0xff, 0xff, 0xff, 0xff, 0xff, 0xff, 0xff, 0xff, 0xaa] =
    (.error (.overrun (2 ^ 64 - 1) 1), [0x00, 0xff, 0xff, 0xff, 0xff, 0xff, 0xff, 0xff, 0xff, 0xaa]) := by decide

end Prefixed
end FieldWire
