import FieldWire.Payload
import FieldWire.Proofs.Varint

/-! # Indices, shifts and lengths in range

Bytes are read through slices of the input, through a buffer of eight bytes, by a table of 256 entries and by shifts of
a word, all of which are partial: an index or a shift can be out of range. Read that way (`Varint.checkedDecode`,
`Prefixed.checkedRead`), inputs are found to be what `Varint.decode` and `Prefixed.read` find, so nothing is ever out of
range. A length can be beyond what memory can hold only where its addresses have fewer than 64 bits. -/

namespace FieldWire

/-! ### Slices and words -/

/-- The bytes from `start` to `stop`, if these are in range. -/
def slice? (bytes : Bytes) (start stop : Nat) : Option Bytes :=
  if start ≤ stop ∧ stop ≤ bytes.length then some ((bytes.take stop).drop start) else none

/-- The little-endian word in a buffer of eight zeros that the bytes are copied to the front of. -/
def word? (bytes : Bytes) : Option UInt64 := do
  let raw := List.replicate 8 (0 : UInt8)
  let kept ← slice? raw bytes.length raw.length
  return UInt64.ofNat (ofLittleEndian (bytes ++ kept))

def shiftLeft? (v : UInt64) (n : Nat) : Option UInt64 :=
  if n < 64 then some (v <<< UInt64.ofNat n) else none

def shiftRight? (v : UInt64) (n : Nat) : Option UInt64 :=
  if n < 64 then some (v >>> UInt64.ofNat n) else none

theorem slice?_of_le {bytes : Bytes} {start stop : Nat} (h : start ≤ stop) (h' : stop ≤ bytes.length) :
    slice? bytes start stop = some ((bytes.take stop).drop start) := if_pos ⟨h, h'⟩

theorem ofLittleEndian_append_zeros (bytes : Bytes) (n : Nat) :
    ofLittleEndian (bytes ++ List.replicate n 0) = ofLittleEndian bytes := by
  induction bytes with
  | nil =>
    induction n with
    | zero => rfl
    | succ n ih =>
      rw [List.nil_append] at ih ⊢
      rw [List.replicate_succ, ofLittleEndian.eq_def]
      dsimp only
      rw [ih]
      rfl
  | cons b bytes ih => rw [List.cons_append, ofLittleEndian, ih, ofLittleEndian]

theorem word?_of_length_le {bytes : Bytes} (h : bytes.length ≤ 8) :
    ∃ w, word? bytes = some w ∧ w.toNat = ofLittleEndian bytes := by
  have hlt : ofLittleEndian bytes < 2 ^ 64 := by
    have hbytes := ofLittleEndian_lt bytes
    rw [Nat.one_shiftLeft] at hbytes
    exact Nat.lt_of_lt_of_le hbytes (Nat.pow_le_pow_right (by decide) (by omega))
  have hkept : slice? (List.replicate 8 0) bytes.length (List.replicate 8 (0 : UInt8)).length =
      some (List.replicate (8 - bytes.length) 0) := by
    rw [slice?_of_le (by simpa using h) (Nat.le_refl _), List.take_length, List.drop_replicate]
  refine ⟨UInt64.ofNat (ofLittleEndian bytes), ?_, UInt64.toNat_ofNat_of_lt' hlt⟩
  simp only [word?, hkept, Option.bind_eq_bind, Option.bind_some, ofLittleEndian_append_zeros]
  rfl

theorem shiftRight?_of_lt (v : UInt64) {n : Nat} (h : n < 64) :
    ∃ w, shiftRight? v n = some w ∧ w.toNat = v.toNat >>> n := by
  refine ⟨_, if_pos h, ?_⟩
  rw [UInt64.toNat_shiftRight, UInt64.toNat_ofNat_of_lt' (by omega : n < 2 ^ 64), Nat.mod_eq_of_lt h]

theorem one_shiftLeft?_of_lt {n : Nat} (h : n < 64) : ∃ w, shiftLeft? 1 n = some w ∧ w.toNat = 2 ^ n := by
  refine ⟨_, if_pos h, ?_⟩
  rw [UInt64.toNat_shiftLeft, UInt64.toNat_ofNat_of_lt' (by omega : n < 2 ^ 64), Nat.mod_eq_of_lt h,
    UInt64.toNat_one, Nat.one_shiftLeft, Nat.mod_eq_of_lt (Nat.pow_lt_pow_right (by decide) h)]

/-! ### Varints -/

namespace Varint

/-- For each byte, the number of zero bits below its lowest one bit. -/
def zerosTable : List Nat :=
  (List.range 256).map fun byte => ((List.range 8).find? fun i => byte.testBit i).getD 8

def announced? (first : UInt8) : Option Nat :=
  if first = 0 then some maxLength else (zerosTable[first.toNat]?).map (· + 1)

/-- The value of the form of the given length at the front of the input, and the least value with such a form. -/
def valueAndLeast? (first : UInt8) (length : Nat) (input : Bytes) : Option (UInt64 × UInt64) :=
  if first = 0 then do
    let form ← slice? input 1 maxLength
    let v ← word? form
    return (v, escapeThreshold)
  else do
    let form ← slice? input 0 length
    let raw ← word? form
    let v ← shiftRight? raw length
    let least ← if 1 < length then shiftLeft? 1 (7 * (length - 1)) else some 0
    return (v, least)

/-- What `decode` finds, unless an index or a shift is out of range. -/
def checkedDecode (input : Bytes) : Option (Except Error (UInt64 × Bytes)) :=
  match input with
  | [] => some (.error .varintMissing)
  | first :: _ => do
    let length ← announced? first
    if input.length < length then
      return .error .varintCut
    let (v, least) ← valueAndLeast? first length input
    if v < least then
      return .error (.malformedVarint length)
    let rest ← slice? input length input.length
    return .ok (v, rest)

theorem announced?_eq (first : UInt8) : announced? first = some (decodedLength first) := by
  have hlt : first.toNat < 256 := first.toNat_lt
  by_cases hfirst : first = 0
  · rw [hfirst]
    rfl
  · rw [announced?, if_neg hfirst, zerosTable, List.getElem?_map, List.getElem?_range hlt, Option.map_some,
      Option.map_some, decodedLength]
    rcases (List.range 8).find? fun i => first.toNat.testBit i with _ | i <;> rfl

theorem valueAndLeast?_zero {more : Bytes} (h : 8 ≤ more.length) :
    ∃ v, valueAndLeast? 0 maxLength (0 :: more) = some (v, escapeThreshold) ∧
      v.toNat = carried ((0 :: more).take maxLength) := by
  have hle : maxLength ≤ (0 :: more).length := Nat.succ_le_succ h
  have hslice : slice? (0 :: more) 1 maxLength = some (more.take 8) := slice?_of_le (by decide) hle
  obtain ⟨v, hv, hword⟩ := word?_of_length_le (List.length_take_le 8 more)
  have hlen : ((0 :: more).take maxLength).length = maxLength := by rw [List.length_take, Nat.min_eq_left hle]
  refine ⟨v, ?_, ?_⟩
  · rw [valueAndLeast?, if_pos rfl, hslice, Option.bind_eq_bind, Option.bind_some, hv]
    rfl
  · -- The first byte is shifted out again.
    rw [hword, carried, hlen]
    show ofLittleEndian (more.take 8) = (0 + 256 * ofLittleEndian (more.take 8)) >>> 8
    rw [Nat.shiftRight_eq_div_pow]
    omega

theorem valueAndLeast?_succ {k : Nat} {first : UInt8} {input : Bytes} (hfirst : first ≠ 0) (hk : k < 8)
    (h : k + 1 ≤ input.length) :
    ∃ v least, valueAndLeast? first (k + 1) input = some (v, least) ∧ v.toNat = carried (input.take (k + 1)) ∧
      (v < least ↔ 1 < k + 1 ∧ v.toNat < 2 ^ (7 * k)) := by
  have hlen : (input.take (k + 1)).length = k + 1 := by rw [List.length_take, Nat.min_eq_left h]
  have hslice : slice? input 0 (k + 1) = some (input.take (k + 1)) := slice?_of_le (Nat.zero_le _) h
  obtain ⟨raw, hraw, hword⟩ := word?_of_length_le (hlen.trans_le hk)
  obtain ⟨v, hv, hshift⟩ := shiftRight?_of_lt raw (by omega : k + 1 < 64)
  have hcarried : v.toNat = carried (input.take (k + 1)) := by
    rw [hshift, hword, carried, hlen, Nat.min_eq_left hk]
  by_cases hone : 1 < k + 1
  · obtain ⟨least, hleast, hpow⟩ := one_shiftLeft?_of_lt (by omega : 7 * k < 64)
    refine ⟨v, least, ?_, hcarried, ?_⟩
    · simp only [valueAndLeast?, if_neg hfirst, hslice, hraw, hv, if_pos hone, Nat.add_sub_cancel, hleast,
        Option.bind_eq_bind, Option.bind_some]
      rfl
    · rw [UInt64.lt_iff_toNat_lt, hpow]
      exact (and_iff_right hone).symm
  · refine ⟨v, 0, ?_, hcarried, ?_⟩
    · simp only [valueAndLeast?, if_neg hfirst, hslice, hraw, hv, if_neg hone, Option.bind_eq_bind, Option.bind_some]
      rfl
    · exact ⟨fun hlt => absurd hlt UInt64.not_lt_zero, fun hlt => absurd hlt.1 hone⟩

/-- In a form that is as long as its first byte says, everything is in range. -/
theorem valueAndLeast?_eq {first : UInt8} {more : Bytes} (h : decodedLength first ≤ (first :: more).length) :
    ∃ v least, valueAndLeast? first (decodedLength first) (first :: more) = some (v, least) ∧
      v.toNat = carried ((first :: more).take (decodedLength first)) ∧
      (v < least ↔ 1 < decodedLength first ∧ v.toNat < 1 <<< (7 * (decodedLength first - 1))) := by
  rcases decodedLength_cases first with ⟨rfl, hmax⟩ | ⟨k, hk, hlength, hbit, -⟩
  · rw [hmax] at h ⊢
    obtain ⟨v, hv, hcarried⟩ := valueAndLeast?_zero (Nat.le_of_succ_le_succ h)
    refine ⟨v, escapeThreshold, hv, hcarried, ?_⟩
    rw [UInt64.lt_iff_toNat_lt]
    exact (and_iff_right (by decide)).symm
  · have hfirst : first ≠ 0 := by
      rintro rfl
      simp at hbit
    rw [hlength] at h ⊢
    rw [Nat.add_sub_cancel, Nat.one_shiftLeft]
    exact valueAndLeast?_succ hfirst hk h

theorem checkedDecode_eq (input : Bytes) : checkedDecode input = some (decode input) := by
  rcases input with _ | ⟨first, more⟩
  · rfl
  · simp only [checkedDecode, announced?_eq, Option.bind_eq_bind, Option.bind_some]
    by_cases hshort : (first :: more).length < decodedLength first
    · rw [if_pos hshort, decode_of_length_lt hshort]
      rfl
    · have hlen := Nat.le_of_not_lt hshort
      have htake : ((first :: more).take (decodedLength first)).length = decodedLength first := by
        rw [List.length_take, Nat.min_eq_left hlen]
      have hsplit : splitExactly? (decodedLength first) (first :: more) =
          some ((first :: more).take (decodedLength first), (first :: more).drop (decodedLength first)) :=
        splitExactly?_eq_some_iff.mpr ⟨(List.take_append_drop _ _).symm, htake⟩
      obtain ⟨v, least, hvalue, hv, hleast⟩ := valueAndLeast?_eq hlen
      rw [if_neg hshort, hvalue, decode, hsplit]
      simp only [Option.bind_some, htake, ← hv, ← hleast]
      by_cases hlong : v < least
      · rw [if_pos hlong, if_pos hlong]
        rfl
      · rw [if_neg hlong, if_neg hlong, slice?_of_le hlen (Nat.le_refl _), List.take_length, UInt64.ofNat_toNat]
        rfl

end Varint

/-! ### Lengths in front -/

namespace Prefixed

/-- What `read` finds, where addresses have the given number of bits, unless an index is out of range. -/
def checkedRead (addressBits : Nat) (input : Bytes) : Option (Except Error Bytes × Bytes) :=
  match Varint.checkedDecode input with
  | none => none
  | some (.error e) => some (.error e, input)
  | some (.ok (length, rest)) =>
    if 2 ^ addressBits ≤ length.toNat then
      some (.error (.lengthOverflow length), input)
    else if rest.length < length.toNat then
      some (.error .payloadCut, input)
    else do
      let bytes ← slice? rest 0 length.toNat
      let after ← slice? rest length.toNat rest.length
      return (.ok bytes, after)

theorem checkedRead_eq {addressBits : Nat} (h : 64 ≤ addressBits) (input : Bytes) :
    checkedRead addressBits input = some ((read input).1.mapError PayloadError.toError, (read input).2) := by
  rw [checkedRead, Varint.checkedDecode_eq, read]
  rcases Varint.decode input with e | ⟨length, rest⟩
  · rfl
  · have hfits : ¬2 ^ addressBits ≤ length.toNat :=
      Nat.not_le.mpr (Nat.lt_of_lt_of_le length.toNat_lt (Nat.pow_le_pow_right (by decide) h))
    dsimp only
    rw [if_neg hfits]
    by_cases hshort : rest.length < length.toNat
    · rw [if_pos hshort, splitExactly?_eq_none_iff.mpr hshort]
      rfl
    · have hlen := Nat.le_of_not_lt hshort
      have hsplit : splitExactly? length.toNat rest = some (rest.take length.toNat, rest.drop length.toNat) :=
        splitExactly?_eq_some_iff.mpr
          ⟨(List.take_append_drop _ _).symm, by rw [List.length_take, Nat.min_eq_left hlen]⟩
      rw [if_neg hshort, hsplit, slice?_of_le (Nat.zero_le _) hlen, slice?_of_le hlen (Nat.le_refl _), List.take_length]
      rfl

/-- With addresses of 32 bits, a length of 2 ^ 32 bytes does not fit. -/
example : checkedRead 32 [0x10, 0x00, 0x00, 0x00, 0x20] =
    some (.error (.lengthOverflow 4294967296), [0x10, 0x00, 0x00, 0x00, 0x20]) := by decide +kernel

end Prefixed
end FieldWire
