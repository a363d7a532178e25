import FieldWire.Proofs.Varint
import Mathlib.Order.Bounds.Defs

/-! # Lengths of varints

The length of a varint comes about in three ways: the writer counts the bytes that it appends, `encodedLength` computes
it from the significant bits of the value, and `decodedLength` reads it off the first byte that was written. Each of the
three is the length of the shortest form that holds the value, and there is only one such length, so they agree
(`lengths_agree`). -/

namespace FieldWire.Varint
variable {n : Nat} {v : UInt64} {first : UInt8}

/-! ### Counted -/

theorem appendTo_eq (buffer : Bytes) (v : UInt64) : appendTo buffer v = (buffer ++ encode v, (encode v).length) := by
  obtain ⟨n, hn, happend⟩ := exists_appendTo v
  have henc : encode v = form n v.toNat := congrArg Prod.fst (happend [])
  rw [happend, henc, length_form hn.pos hn.le]

theorem length_encode_eq_iff : (encode v).length = n ↔ Shortest n v.toNat := by
  obtain ⟨k, hk, henc⟩ := exists_shortest v
  rw [henc, length_form hk.pos hk.le]
  constructor
  · rintro rfl
    exact hk
  · exact hk.unique

theorem shortest_length_encode (v : UInt64) : Shortest (encode v).length v.toNat := length_encode_eq_iff.mp rfl

/-- A value is written in fewer than `n` bytes exactly if `n - 1` bytes hold it with seven bits each. -/
theorem length_encode_lt_iff (hle : n ≤ maxLength) :
    (encode v).length < n ↔ 1 < n ∧ v.toNat < 2 ^ (7 * (n - 1)) := by
  have hshort := shortest_length_encode v
  constructor
  · intro hlt
    have hpos := hshort.pos
    exact ⟨by omega, hshort.lt_of_lt hlt hle⟩
  · rintro ⟨hone, hlt⟩
    by_contra hge
    have hpow := Nat.lt_of_le_of_lt (hshort.least (by omega)) hlt
    have hless := (Nat.pow_lt_pow_iff_right (by decide)).mp hpow
    omega

/-! ### Computed -/

theorem toNat_lt_two_pow_bits (v : UInt64) : v.toNat < 2 ^ (64 - leadingZeros v) := BitVec.toNat_lt_two_pow_sub_clz

theorem two_pow_le_toNat (h : 64 - leadingZeros v ≠ 0) : 2 ^ (64 - leadingZeros v - 1) ≤ v.toNat := by
  have hne : v.toBitVec ≠ 0#64 := by
    intro hzero
    rw [leadingZeros, hzero] at h
    exact h rfl
  rw [Nat.sub_right_comm]
  exact BitVec.two_pow_sub_clz_le_toNat_of_ne_zero (by decide) hne

theorem shortest_encodedLength (v : UInt64) : Shortest (encodedLength v) v.toNat := by
  rw [encodedLength]
  split
  · next hlarge => exact ⟨by decide, Nat.le_refl _, v.toNat_lt, fun _ => UInt64.le_iff_toNat_le.mp hlarge⟩
  · next hlarge =>
    have hsmall : v.toNat < 2 ^ 56 := UInt64.lt_iff_toNat_lt.mp (UInt64.not_le.mp hlarge)
    have hlt := toNat_lt_two_pow_bits v
    dsimp only
    generalize hbits : 64 - leadingZeros v = bits at hlt ⊢
    split
    · next hzero =>
      rw [hzero] at hlt
      exact ⟨by decide, by decide, Nat.lt_of_lt_of_le hlt (by decide), fun h => absurd h (by decide)⟩
    · next hzero =>
      have hge : 2 ^ (bits - 1) ≤ v.toNat := hbits ▸ two_pow_le_toNat (hbits ▸ hzero)
      -- The bits are those of a value below the threshold, so they fit into eight bytes.
      have hfits : bits - 1 < 56 := (Nat.pow_lt_pow_iff_right (by decide)).mp (Nat.lt_of_le_of_lt hge hsmall)
      obtain ⟨k, hk⟩ : ∃ k, (bits + 6) / 7 = k + 1 := ⟨(bits + 6) / 7 - 1, by omega⟩
      rw [hk]
      refine ⟨k.succ_pos, by rw [maxLength]; omega, ?_, fun _ => ?_⟩
      · rw [capacity_succ (by omega)]
        exact Nat.lt_of_lt_of_le hlt (Nat.pow_le_pow_right (by decide) (by omega))
      · exact Nat.le_trans (Nat.pow_le_pow_right (by decide) (by omega)) hge

theorem length_encode_eq (v : UInt64) : (encode v).length = encodedLength v :=
  length_encode_eq_iff.mpr (shortest_encodedLength v)

theorem exists_shortest_of_lt {v : Nat} (hlt : v < 2 ^ 64) : ∃ n, Shortest n v := by
  have hshort := shortest_encodedLength (UInt64.ofNat v)
  rw [UInt64.toNat_ofNat_of_lt' hlt] at hshort
  exact ⟨_, hshort⟩

/-! ### Read off -/

theorem decodedLength_eq_maxLength_iff : decodedLength first = maxLength ↔ first = 0 := by
  rcases decodedLength_cases first with ⟨rfl, hmax⟩ | ⟨k, hk, hlen, hbit, -⟩
  · exact iff_of_true hmax rfl
  · refine iff_of_false (by rw [hlen, maxLength]; omega) ?_
    rintro rfl
    simp at hbit

theorem exists_first (v : UInt64) : ∃ first more, encode v = first :: more ∧ decodedLength first = (encode v).length := by
  obtain ⟨n, hn, henc⟩ := exists_shortest v
  obtain ⟨first, more, hcons⟩ := List.exists_cons_of_ne_nil (encode_ne_nil v)
  refine ⟨first, more, hcons, ?_⟩
  rw [decodedLength_of_form hn.pos hn.le hn.lt (henc.symm.trans hcons), length_encode_eq_iff.mpr hn]

/-! ### Main statement -/

theorem length_encode_of_le (h : 2 ^ 56 ≤ v.toNat) : (encode v).length = maxLength :=
  length_encode_eq_iff.mpr ⟨by decide, Nat.le_refl _, v.toNat_lt, fun _ => h⟩

theorem isLeast_length_encode (h : v.toNat < 2 ^ 56) :
    IsLeast {n | 1 ≤ n ∧ n ≤ 8 ∧ v.toNat < 2 ^ (7 * n)} (encode v).length := by
  have hmax : (encode v).length < maxLength := (length_encode_lt_iff (Nat.le_refl _)).mpr ⟨by decide, h⟩
  obtain ⟨-, hlt⟩ := (length_encode_lt_iff hmax).mp (Nat.lt_succ_self _)
  refine ⟨⟨(shortest_length_encode v).pos, Nat.le_of_lt_succ hmax, hlt⟩, ?_⟩
  rintro n ⟨hpos, hle, hn⟩
  exact Nat.le_of_lt_succ ((length_encode_lt_iff (Nat.succ_le_succ hle)).mpr ⟨by omega, hn⟩)

/-- Appending to a buffer leaves what is there and puts the form of the value behind it. The number of bytes that are
    counted there, the one that is computed from the value and the one that the first byte tells are all the length of
    the form: the least of one to eight bytes that hold the value with seven bits each, and nine where eight do not
    hold it. The first byte is zero in that case alone. -/
theorem lengths_agree (buffer : Bytes) (v : UInt64) :
    (appendTo buffer v).1 = buffer ++ encode v ∧
      (appendTo buffer v).2 = (encode v).length ∧
      encodedLength v = (encode v).length ∧
      (∃ first more, encode v = first :: more ∧ decodedLength first = (encode v).length ∧
        (first = 0 ↔ (encode v).length = 9)) ∧
      if v.toNat < 2 ^ 56 then
        IsLeast {n | 1 ≤ n ∧ n ≤ 8 ∧ v.toNat < 2 ^ (7 * n)} (encode v).length
      else
        (encode v).length = 9 := by
  have happend := appendTo_eq buffer v
  obtain ⟨first, more, hcons, hfirst⟩ := exists_first v
  refine ⟨congrArg Prod.fst happend, congrArg Prod.snd happend, ?_, ⟨first, more, hcons, hfirst, ?_⟩, ?_⟩
  · exact (length_encode_eq_iff.mpr (shortest_encodedLength v)).symm
  · rw [← hfirst]
    exact decodedLength_eq_maxLength_iff.symm
  · split
    · next hlt => exact isLeast_length_encode hlt
    · next hge => exact length_encode_of_le (Nat.le_of_not_lt hge)

/-- Eight bytes hold the value below the threshold; the threshold itself is written behind a zero byte. -/
example : encode (escapeThreshold - 1) = [0x80, 0xff, 0xff, 0xff, 0xff, 0xff, 0xff, 0xff] ∧
    encode escapeThreshold = [0x00, 0x00, 0x00, 0x00, 0x00, 0x00, 0x00, 0x00, 0x01] := by decide

end FieldWire.Varint
