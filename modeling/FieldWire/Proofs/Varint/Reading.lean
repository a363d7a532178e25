import FieldWire.Proofs.Memory
import FieldWire.Proofs.Varint.Length

/-! # What reading makes of an input

An input that is shorter than its first byte says is cut off (`decode_of_length_lt`). Any other starts with a form of
the length that its first byte says, and is judged by that form alone: it is refused if the value is written in fewer
bytes, and read otherwise (`decode_of_length_le`). So each input has one of three outcomes, and which one is told by
what would be written (`decode_outcome`). -/

namespace FieldWire.Varint
variable {first : UInt8} {more : Bytes}

theorem decode_of_length_le (h : decodedLength first ≤ (first :: more).length) :
    ∃ v : UInt64, (first :: more).take (decodedLength first) = form (decodedLength first) v.toNat ∧
      carried ((first :: more).take (decodedLength first)) = v.toNat ∧
      decode (first :: more) =
        if (encode v).length < decodedLength first then .error (.malformedVarint (decodedLength first))
        else .ok (v, (first :: more).drop (decodedLength first)) := by
  have hpos := decodedLength_pos first
  have hle := decodedLength_le first
  obtain ⟨v, rest, hv, happ⟩ := exists_form h
  have hlen := length_form hpos hle v.toNat
  have htake : (first :: more).take (decodedLength first) = form (decodedLength first) v.toNat := by
    rw [happ, List.take_left' hlen]
  have hdrop : (first :: more).drop (decodedLength first) = rest := by rw [happ, List.drop_left' hlen]
  refine ⟨v, htake, ?_, ?_⟩
  · rw [htake, carried_form hpos hle hv]
  · rw [hdrop, happ, decode_form_append hpos hle hv]
    simp only [length_encode_lt_iff hle]

theorem decode_eq_truncated_iff (input : Bytes) :
    (∃ what, decode input = .error (.truncated what)) ↔
      input = [] ∨ ∃ first ∈ input.head?, input.length < decodedLength first := by
  rcases input with _ | ⟨first, more⟩
  · exact iff_of_true ⟨_, rfl⟩ (Or.inl rfl)
  · simp only [reduceCtorEq, false_or, List.head?_cons, Option.mem_some_iff, exists_eq_left']
    constructor
    · rintro ⟨what, hcut⟩
      by_contra hlt
      obtain ⟨v, -, -, hdecode⟩ := decode_of_length_le (Nat.le_of_not_lt hlt)
      rw [hcut] at hdecode
      split at hdecode <;> cases hdecode
    · exact fun hlt => ⟨_, decode_of_length_lt hlt⟩

theorem read_eq_error_iff {input rest : Bytes} {e : Error} :
    read input = (.error e, rest) ↔ decode input = .error e ∧ rest = input := by
  rw [read]
  rcases decode input with e' | ⟨v, after⟩
  · simp [eq_comm]
  · simp

/-- Reading accepts what is written for a value, with any bytes behind it, and nothing else. An input is cut off if it
    is empty or shorter than its first byte says. All others start with a form of the length that the first byte says,
    and are refused as malformed, with that length, exactly if the value that the form carries is written in fewer
    bytes. Words, slices and the table of lengths give the same outcome, and nothing is ever out of range. What is
    consumed is the form that is accepted, or nothing. -/
theorem decode_outcome (input : Bytes) :
    (∀ v rest, decode input = .ok (v, rest) ↔ input = encode v ++ rest) ∧
      ((∃ what, decode input = .error (.truncated what)) ↔
        input = [] ∨ ∃ first ∈ input.head?, input.length < decodedLength first) ∧
      (∀ first ∈ input.head?, decodedLength first ≤ input.length →
        ∃ v : UInt64, input.take (decodedLength first) = form (decodedLength first) v.toNat ∧
          carried (input.take (decodedLength first)) = v.toNat ∧
          decode input =
            if (encode v).length < decodedLength first then .error (.malformedVarint (decodedLength first))
            else .ok (v, input.drop (decodedLength first))) ∧
      checkedDecode input = some (decode input) ∧
      (∀ v rest, read input = (.ok v, rest) ↔ decode input = .ok (v, rest)) ∧
      ∀ e rest, read input = (.error e, rest) ↔ decode input = .error e ∧ rest = input := by
  refine ⟨fun v rest => decode_eq_ok_iff, decode_eq_truncated_iff input, fun first hfirst hlen => ?_,
    checkedDecode_eq input, fun v rest => ?_, fun e rest => read_eq_error_iff⟩
  · obtain ⟨more, rfl⟩ := List.head?_eq_some_iff.mp hfirst
    exact decode_of_length_le hlen
  · rw [read_eq_ok_iff, decode_eq_ok_iff]

/-- In two bytes 127 is refused, as it is written in one; 128 is read. The same byte less is cut off. -/
theorem decode_outcome_two_bytes :
    decode [0xfe, 0x01, 0xaa] = .error (.malformedVarint 2) ∧ read [0x02, 0x02, 0xaa] = (.ok 128, [0xaa]) ∧
      ∃ what, decode [0x02] = .error (.truncated what) := by
  obtain ⟨-, -, hform, -⟩ := decode_outcome [0xfe, 0x01, 0xaa]
  obtain ⟨hok, -, -, -, hread, -⟩ := decode_outcome [0x02, 0x02, 0xaa]
  obtain ⟨-, hcut, -⟩ := decode_outcome [0x02]
  refine ⟨?_, (hread 128 [0xaa]).mpr ((hok 128 [0xaa]).mpr (by decide)), hcut.mpr (Or.inr ⟨0x02, rfl, by decide⟩)⟩
  obtain ⟨v, -, hcarried, hdecode⟩ := hform 0xfe rfl (by decide)
  obtain rfl : v = 127 := UInt64.toNat_inj.mp (hcarried.symm.trans (by decide))
  exact hdecode.trans (if_pos (by decide))

end FieldWire.Varint
