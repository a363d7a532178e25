import FieldWire.Payload
import FieldWire.Proofs.Varint

/-! # Fields: one form for each id and payload

A field is a header and a payload. Each of the readers accepts what its writer produces, with any bytes behind it, and
nothing else: headers (`FieldHeader.read_eq_ok_iff`), bytes with their length in front (`Prefixed.read_eq_ok_iff`) and
payloads (`Payload.read_eq_ok_iff`). Where one of them fails, a varint cannot be read, a tag stands for no type, or a
length announces more than there is. More bytes behind an input matter to none of them, unless the input is cut off. -/

namespace FieldWire

/-! ### Headers -/

namespace FieldHeader

theorem id_le_maxId_iff {id : UInt64} : id ≤ maxId ↔ id.toNat < 2 ^ 61 := by
  rw [UInt64.le_iff_toNat_le, show maxId.toNat = 2 ^ 61 - 1 from rfl]
  omega

theorem tag_lt (t : WireType) : t.tag.toNat < 8 := by
  cases t <;> decide

/-- The tag has the three low bits to itself. Of the id there is room for the low 61 bits. -/
theorem toNat_pack (header : FieldHeader) :
    header.pack.toNat = 8 * (header.id.toNat % 2 ^ 61) + header.wireType.tag.toNat := by
  have htag := tag_lt header.wireType
  rw [pack, UInt64.toNat_add, UInt64.toNat_mul, UInt8.toNat_toUInt64, show (8 : UInt64).toNat = 8 from rfl]
  omega

theorem toNat_pack_of_le {header : FieldHeader} (h : header.id ≤ maxId) :
    header.pack.toNat = 8 * header.id.toNat + header.wireType.tag.toNat := by
  rw [toNat_pack, Nat.mod_eq_of_lt (id_le_maxId_iff.mp h)]

theorem unpack_pack {header : FieldHeader} (h : header.id ≤ maxId) : unpack header.pack = .ok header := by
  have hpack := toNat_pack_of_le h
  have htag := tag_lt header.wireType
  have hlow : (header.pack % 8).toUInt8 = header.wireType.tag := by
    apply UInt8.toNat_inj.mp
    rw [UInt64.toNat_toUInt8, UInt64.toNat_mod, hpack, show (8 : UInt64).toNat = 8 from rfl]
    omega
  have hhigh : header.pack / 8 = header.id := by
    apply UInt64.toNat_inj.mp
    rw [UInt64.toNat_div, hpack, show (8 : UInt64).toNat = 8 from rfl]
    omega
  simp only [unpack, hlow, hhigh, WireType.ofTag?_tag]

theorem eq_pack_of_unpack {packed : UInt64} {header : FieldHeader} (h : unpack packed = .ok header) :
    header.id ≤ maxId ∧ packed = header.pack := by
  unfold unpack at h
  dsimp only at h
  split at h
  · next t htag =>
    cases h
    have hlt := packed.toNat_lt
    have hid : (packed / 8) ≤ maxId := by
      rw [id_le_maxId_iff, UInt64.toNat_div, show (8 : UInt64).toNat = 8 from rfl]
      omega
    refine ⟨hid, ?_⟩
    apply UInt64.toNat_inj.mp
    rw [toNat_pack_of_le hid, ← WireType.ofTag?_eq_some_iff.mp htag, UInt64.toNat_toUInt8, UInt64.toNat_mod,
      UInt64.toNat_div, show (8 : UInt64).toNat = 8 from rfl]
    omega
  · cases h

theorem unpack_eq_error_iff {packed : UInt64} {e : Error} :
    unpack packed = .error e ↔
      WireType.ofTag? (packed % 8).toUInt8 = none ∧ e = .unknownWireType (packed % 8).toUInt8 := by
  rw [unpack]
  cases WireType.ofTag? (packed % 8).toUInt8 <;> simp [eq_comm]

theorem read_eq_ok_iff {input rest : Bytes} {header : FieldHeader} :
    read input = (.ok header, rest) ↔ header.id ≤ maxId ∧ input = header.encode ++ rest := by
  constructor
  · intro h
    unfold read at h
    split at h
    · next packed rest' hv =>
      obtain ⟨hun, rfl⟩ := Prod.mk.inj h
      obtain ⟨hid, rfl⟩ := eq_pack_of_unpack hun
      exact ⟨hid, Varint.read_eq_ok_iff.mp hv⟩
    · cases h
  · rintro ⟨hid, rfl⟩
    have hv : Varint.read (header.encode ++ rest) = (.ok header.pack, rest) := Varint.read_encode_append _ _
    simp only [read, hv, unpack_pack hid]

theorem read_eq_error_iff {input rest : Bytes} {e : Error} :
    read input = (.error e, rest) ↔
      (Varint.decode input = .error e ∧ rest = input) ∨
        ∃ packed, Varint.decode input = .ok (packed, rest) ∧ unpack packed = .error e := by
  rw [read, Varint.read]
  rcases Varint.decode input with e' | ⟨packed, after⟩
  · simp [eq_comm]
  · simp only [Prod.mk.injEq, reduceCtorEq, false_and, Except.ok.injEq, false_or]
    constructor
    · rintro ⟨he, rfl⟩
      exact ⟨packed, ⟨rfl, rfl⟩, he⟩
    · rintro ⟨_, ⟨rfl, rfl⟩, he⟩
      exact ⟨he, rfl⟩

theorem read_eq_error_cases {input rest : Bytes} {e : Error} (h : read input = (.error e, rest)) :
    Varint.decode input = .error e ∨ ∃ tag, e = .unknownWireType tag := by
  rcases read_eq_error_iff.mp h with ⟨hdecode, -⟩ | ⟨packed, -, hunpack⟩
  · exact Or.inl hdecode
  · obtain ⟨-, htag⟩ := unpack_eq_error_iff.mp hunpack
    exact Or.inr ⟨_, htag⟩

theorem encode_ne_nil (header : FieldHeader) : header.encode ≠ [] := Varint.encode_ne_nil _

theorem read_append (input more : Bytes) : (∃ what, (read input).1 = .error (.truncated what)) ∨
    read (input ++ more) = ((read input).1, (read input).2 ++ more) := by
  rcases Varint.read_append input more with ⟨what, hcut⟩ | happ
  · rcases hread : Varint.read input with ⟨e | packed, rest⟩ <;> rw [hread] at hcut <;> cases hcut
    exact Or.inl ⟨what, by rw [read, hread]⟩
  · right
    rw [read, read, happ]
    rcases Varint.read input with ⟨_ | _, rest⟩ <;> rfl

end FieldHeader

/-! ### Lengths in front -/

namespace Prefixed

theorem read_eq_ok_iff {input bytes rest : Bytes} :
    read input = (.ok bytes, rest) ↔ bytes.length < 2 ^ 64 ∧ input = encode bytes ++ rest := by
  constructor
  · intro h
    unfold read at h
    split at h
    · cases h
    · next length after hd =>
      split at h
      · next hs =>
        cases h
        obtain ⟨rfl, hlen⟩ := splitExactly?_eq_some_iff.mp hs
        refine ⟨hlen ▸ length.toNat_lt, ?_⟩
        rw [Varint.decode_eq_ok_iff.mp hd, encode, hlen, UInt64.ofNat_toNat, List.append_assoc]
      · cases h
  · rintro ⟨hlt, rfl⟩
    have hd : Varint.decode (encode bytes ++ rest) = .ok (UInt64.ofNat bytes.length, bytes ++ rest) :=
      Varint.decode_eq_ok_iff.mpr (by rw [encode, List.append_assoc])
    have hlen : (UInt64.ofNat bytes.length).toNat = bytes.length := by
      rw [UInt64.toNat_ofNat', Nat.mod_eq_of_lt hlt]
    have hs : splitExactly? (UInt64.ofNat bytes.length).toNat (bytes ++ rest) = some (bytes, rest) :=
      splitExactly?_eq_some_iff.mpr ⟨rfl, hlen.symm⟩
    simp only [read, hd, hs]

theorem read_eq_error_iff {input rest : Bytes} {e : PayloadError} :
    read input = (.error e, rest) ↔
      rest = input ∧
        ((∃ cause, Varint.decode input = .error cause ∧ e = .varint cause) ∨
          ∃ length after, Varint.decode input = .ok (length, after) ∧ after.length < length.toNat ∧
            e = .overrun length.toNat after.length) := by
  rw [read]
  rcases Varint.decode input with cause | ⟨length, after⟩
  · simp [eq_comm, and_comm]
  · dsimp only
    rcases hsplit : splitExactly? length.toNat after with _ | ⟨data, back⟩
    · have hshort := splitExactly?_eq_none_iff.mp hsplit
      constructor
      · intro h
        cases h
        exact ⟨rfl, Or.inr ⟨length, after, rfl, hshort, rfl⟩⟩
      · rintro ⟨rfl, ⟨cause, hcause, -⟩ | ⟨_, _, heq, -, rfl⟩⟩
        · cases hcause
        · cases heq
          rfl
    · obtain ⟨rfl, hlen⟩ := splitExactly?_eq_some_iff.mp hsplit
      constructor
      · intro h
        cases h
      · rintro ⟨rfl, ⟨cause, hcause, -⟩ | ⟨_, _, heq, hshort, -⟩⟩
        · cases hcause
        · cases heq
          rw [List.length_append] at hshort
          omega

theorem read_append (input more : Bytes) : (∃ e what, (read input).1 = .error e ∧ e.toError = .truncated what) ∨
    read (input ++ more) = ((read input).1, (read input).2 ++ more) := by
  rcases Varint.decode_append input more with ⟨what, hcut⟩ | happ
  · exact Or.inl ⟨.varint (.truncated what), what, by rw [read, hcut], rfl⟩
  · rw [read, read, happ]
    rcases Varint.decode input with e | ⟨length, rest⟩
    · exact Or.inr rfl
    · dsimp only [Except.map]
      rcases hsplit : splitExactly? length.toNat rest with _ | ⟨bytes, after⟩
      · exact Or.inl ⟨_, _, rfl, rfl⟩
      · right
        obtain ⟨rfl, hlen⟩ := splitExactly?_eq_some_iff.mp hsplit
        have hsplit' : splitExactly? length.toNat (bytes ++ after ++ more) = some (bytes, after ++ more) :=
          splitExactly?_eq_some_iff.mpr ⟨List.append_assoc _ _ _, hlen⟩
        rw [hsplit']

theorem length_lt_encode (bytes : Bytes) : bytes.length < (encode bytes).length := by
  have hlength := List.length_pos_iff.mpr (Varint.encode_ne_nil (UInt64.ofNat bytes.length))
  rw [encode, List.length_append]
  omega

end Prefixed

/-! ### Payloads -/

namespace Payload

/-- There is a varint in front of what a payload hands on, or in its place. -/
theorem length_lt_encode (payload : Payload) : payload.contents.length < payload.encode.length := by
  cases payload with
  | uint64 n => exact List.length_pos_iff.mpr (Varint.encode_ne_nil n)
  | binary bytes => exact Prefixed.length_lt_encode bytes
  | nested body => exact Prefixed.length_lt_encode body

theorem read_eq_ok_iff {t : WireType} {input rest : Bytes} {payload : Payload} :
    read t input = (.ok payload, rest) ↔
      payload.wireType = t ∧ payload.contents.length < 2 ^ 64 ∧ input = payload.encode ++ rest := by
  constructor
  · intro h
    unfold read at h
    split at h
    · split at h
      · next hv =>
        cases h
        exact ⟨rfl, by simp [contents], Varint.read_eq_ok_iff.mp hv⟩
      · cases h
    · split at h
      · next hp =>
        cases h
        exact ⟨rfl, Prefixed.read_eq_ok_iff.mp hp⟩
      · cases h
    · split at h
      · next hp =>
        cases h
        exact ⟨rfl, Prefixed.read_eq_ok_iff.mp hp⟩
      · cases h
  · rintro ⟨rfl, hlen, rfl⟩
    cases payload with
    | uint64 n =>
      have hv : Varint.read (encode (uint64 n) ++ rest) = (.ok n, rest) := Varint.read_encode_append n rest
      simp only [read, wireType, hv]
    | binary bytes =>
      have hp : Prefixed.read (encode (binary bytes) ++ rest) = (.ok bytes, rest) :=
        Prefixed.read_eq_ok_iff.mpr ⟨hlen, rfl⟩
      simp only [read, wireType, hp]
    | nested body =>
      have hp : Prefixed.read (encode (nested body) ++ rest) = (.ok body, rest) :=
        Prefixed.read_eq_ok_iff.mpr ⟨hlen, rfl⟩
      simp only [read, wireType, hp]

theorem read_eq_error_cases {t : WireType} {input rest : Bytes} {e : PayloadError}
    (h : read t input = (.error e, rest)) :
    (∃ cause, Varint.decode input = .error cause ∧ e = .varint cause) ∨
      ∃ announced available, available < announced ∧ e = .overrun announced available := by
  cases t with
  | uint64 =>
    rw [read, Varint.read] at h
    rcases hdecode : Varint.decode input with cause | _ <;> rw [hdecode] at h <;> cases h
    exact Or.inl ⟨cause, rfl, rfl⟩
  | binary | message =>
    rw [read] at h
    rcases hread : Prefixed.read input with ⟨e' | _, rest'⟩ <;> rw [hread] at h <;> cases h
    obtain ⟨-, hcause | ⟨length, after, -, hshort, rfl⟩⟩ := Prefixed.read_eq_error_iff.mp hread
    · exact Or.inl hcause
    · exact Or.inr ⟨_, _, hshort, rfl⟩

theorem read_append (t : WireType) (input more : Bytes) :
    (∃ e what, (read t input).1 = .error e ∧ e.toError = .truncated what) ∨
      read t (input ++ more) = ((read t input).1, (read t input).2 ++ more) := by
  cases t with
  | uint64 =>
    rcases Varint.read_append input more with ⟨what, hcut⟩ | happ
    · rcases hread : Varint.read input with ⟨e | n, rest⟩ <;> rw [hread] at hcut <;> cases hcut
      exact Or.inl ⟨.varint (.truncated what), what, by rw [read, hread], rfl⟩
    · right
      rw [read, read, happ]
      rcases Varint.read input with ⟨_ | _, rest⟩ <;> rfl
  | binary | message =>
    rcases Prefixed.read_append input more with ⟨e, what, hcut, hwhat⟩ | happ
    · rcases hread : Prefixed.read input with ⟨e' | bytes, rest⟩ <;> rw [hread] at hcut <;> cases hcut
      exact Or.inl ⟨e, what, by rw [read, hread], hwhat⟩
    · right
      rw [read, read, happ]
      rcases Prefixed.read input with ⟨_ | _, rest⟩ <;> rfl

end Payload
end FieldWire
