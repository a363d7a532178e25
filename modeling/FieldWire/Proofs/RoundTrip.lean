import FieldWire.Proofs.Decoder
import FieldWire.Proofs.Encoding
import FieldWire.Proofs.Parser.Grammar

/-! # Reading and writing messages

Reading and writing undo each other. What is read is written back byte for byte, so that a message has one wire form
only (`encode_eq_of_decode_eq_ok`). What is written is read back as the same message, and the limits cut off exactly the
messages that are too long or too deep (`decode_encode`). -/

namespace FieldWire.Message
open ParseStep

/-! ### Reading by a parse of one level -/

/-- A message is what the decoder holds after one level, with nothing left open. -/
theorem decode_eq (limits : Limits) (bytes : Bytes) :
    decode limits bytes =
      match level Decoder.handler limits bytes ⟨.empty, 0, []⟩ with
      | (.ok (), q) => if q.depth ≠ 0 then .error .parserUnfinished else q.state.finish
      | (.error e, _) => .error e := by
  simp only [decode, decodeLogged, Parser.parse, Parser.new, Bool.false_eq_true, ↓reduceIte]
  rcases level Decoder.handler limits bytes ⟨.empty, 0, []⟩ with ⟨_ | _, q⟩
  · rfl
  · simp only [Parser.finish, Parser.depth, Parser.state, Bool.false_eq_true, false_or, Decoder.handler]

/-- A message that is accepted leaves nothing open, and is what the decoder holds then. -/
theorem decode_of_level_eq_ok {limits : Limits} {bytes : Bytes} {q : Progress Decoder}
    (h : level Decoder.handler limits bytes ⟨.empty, 0, []⟩ = (.ok (), q)) : ∃ m, decode limits bytes = .ok m := by
  obtain ⟨-, fs, -, -, hdepth, -, hrun⟩ := level_eq_ok (exists_of_fields_eq_ok bytes) h
  obtain ⟨-, hstate⟩ := Decoder.run_forest_eq_ok_iff.mp hrun
  refine ⟨fs.message, ?_⟩
  rw [decode_eq, h]
  dsimp only
  rw [if_neg (not_not.mpr hdepth), hstate]
  rfl

/-- The errors of decoding are those of the parse alone. -/
theorem decode_eq_error_iff {limits : Limits} {bytes : Bytes} {e : Error} :
    decode limits bytes = .error e ↔ ∃ q, level Decoder.handler limits bytes ⟨.empty, 0, []⟩ = (.error e, q) := by
  rcases hlevel : level Decoder.handler limits bytes ⟨.empty, 0, []⟩ with ⟨e' | _, q⟩
  · rw [decode_eq, hlevel]
    simp
  · obtain ⟨m, hm⟩ := decode_of_level_eq_ok hlevel
    rw [hm]
    simp

theorem exists_level_of_decode_eq_ok {limits : Limits} {bytes : Bytes} {m : Message}
    (h : decode limits bytes = .ok m) : ∃ q, level Decoder.handler limits bytes ⟨.empty, 0, []⟩ = (.ok (), q) := by
  rcases hlevel : level Decoder.handler limits bytes ⟨.empty, 0, []⟩ with ⟨e' | _, q⟩
  · cases (decode_eq_error_iff.mpr ⟨q, hlevel⟩).symm.trans h
  · exact ⟨q, rfl⟩

/-- What is accepted is the wire form of a valid forest within the limits. -/
theorem exists_of_decode_eq_ok {limits : Limits} {bytes : Bytes} {m : Message} (h : decode limits bytes = .ok m) :
    ∃ fs : Forest, fs.Valid ∧ m = fs.message ∧ bytes = fs.wireForm ∧ bytes.length ≤ limits.maxLength.toNat ∧
      fs.depth ≤ limits.maxDepth.toNat := by
  rw [decode_eq] at h
  split at h
  · next q hlevel =>
    obtain ⟨hlen, fs, rfl, -, hdepth, hle, hrun⟩ := level_eq_ok (exists_of_fields_eq_ok bytes) hlevel
    obtain ⟨hvalid, hstate⟩ := Decoder.run_forest_eq_ok_iff.mp hrun
    rw [if_neg (not_not.mpr hdepth), hstate] at h
    cases h
    exact ⟨fs, hvalid, rfl, rfl, hlen, by simpa using hle⟩
  · cases h

/-- The wire form of a valid forest is read back, unless a limit cuts it off. The length is checked first. -/
theorem decode_wireForm {fs : Forest} (h : fs.Valid) (limits : Limits) :
    decode limits fs.wireForm =
      if limits.maxLength.toNat < fs.wireForm.length then
        .error (.oversizeMessage fs.wireForm.length limits.maxLength)
      else if limits.maxDepth.toNat < fs.depth then
        .error (.depthExceeded limits.maxDepth)
      else
        .ok fs.message := by
  have hrun : Decoder.handler.run fs.events Decoder.empty = (.ok (), ⟨[fs.message]⟩) :=
    Decoder.run_forest_eq_ok_iff.mpr ⟨h, rfl⟩
  rw [decode_eq]
  by_cases hlen : limits.maxLength.toNat < fs.wireForm.length
  · rw [if_pos hlen, level_of_length_lt hlen]
  · have hreads : Reads Decoder.handler limits fs.events fs.depth (level Decoder.handler limits fs.wireForm) :=
      reads_level h.fits (Nat.le_of_not_lt hlen)
    rw [if_neg hlen]
    by_cases hdepth : limits.maxDepth.toNat < fs.depth
    · obtain ⟨q, hq⟩ := hreads.beyond (p := ⟨.empty, 0, []⟩) hrun (Nat.zero_le _) (by simpa using hdepth)
      rw [if_pos hdepth, hq]
    · obtain ⟨log, hq⟩ := hreads.within (p := ⟨.empty, 0, []⟩) hrun (by simpa using hdepth)
      rw [if_neg hdepth, hq]
      rfl

/-! ### Main statements -/

/-- What is accepted under any limits is what is written for the message it is read as. The message is within the
    limits, and its ids are distinct and fit into headers at every level. No other bytes are accepted, under whatever
    limits, as a message with the same fields in the same order. -/
theorem encode_eq_of_decode_eq_ok {limits : Limits} {bytes : Bytes} {m : Message} (h : decode limits bytes = .ok m) :
    m.encode = .ok bytes ∧ bytes.length ≤ limits.maxLength.toNat ∧ m.depth ≤ limits.maxDepth.toNat ∧
      m.forest.All (fun level => level.Fits ∧ level.Distinct) ∧
      ∀ limits' bytes' m', decode limits' bytes' = .ok m' → m'.forest = m.forest → bytes' = bytes := by
  obtain ⟨fs, hvalid, rfl, rfl, hlen, hdepth⟩ := exists_of_decode_eq_ok h
  refine ⟨Forest.encode_message hvalid.fits, hlen, fs.depth_message.trans_le hdepth, ?_, ?_⟩
  · rw [Forest.forest_message]
    exact hvalid
  · intro limits' bytes' m' h' heq
    obtain ⟨gs, -, rfl, rfl, -, -⟩ := exists_of_decode_eq_ok h'
    rw [Forest.forest_message, Forest.forest_message] at heq
    rw [heq]

/-- Three fields, one of them a message with fields of the same ids in another order. -/
theorem encode_eq_of_decode_eq_ok_nested :
    decode .default [0x11, 0x55, 0x25, 0x0d, 0x37, 0x05, 0xaa, 0xbb, 0x11, 0x01, 0x37, 0x01] =
        .ok (Forest.message
          [(1, .uint64 42), (2, .nested [(3, .binary [0xaa, 0xbb]), (1, .uint64 0)]), (3, .binary [])]) ∧
      (Forest.message
        [(1, .uint64 42), (2, .nested [(3, .binary [0xaa, 0xbb]), (1, .uint64 0)]), (3, .binary [])]).encode =
        .ok [0x11, 0x55, 0x25, 0x0d, 0x37, 0x05, 0xaa, 0xbb, 0x11, 0x01, 0x37, 0x01] := by
  have h : decode .default [0x11, 0x55, 0x25, 0x0d, 0x37, 0x05, 0xaa, 0xbb, 0x11, 0x01, 0x37, 0x01] =
      .ok (Forest.message
        [(1, .uint64 42), (2, .nested [(3, .binary [0xaa, 0xbb]), (1, .uint64 0)]), (3, .binary [])]) := by
    cbv
  exact ⟨h, (encode_eq_of_decode_eq_ok h).1⟩

/-- What is written for a message that is built by inserting is read back as the same message, unless a limit cuts it
    off: first the one on the length, then the one on the depth. -/
theorem decode_encode {m : Message} (h : m.Built) :
    ∃ bytes, m.encode = .ok bytes ∧ ∀ limits : Limits,
      decode limits bytes =
        if limits.maxLength.toNat < bytes.length then .error (.oversizeMessage bytes.length limits.maxLength)
        else if limits.maxDepth.toNat < m.depth then .error (.depthExceeded limits.maxDepth)
        else .ok m := by
  obtain ⟨fs, hvalid, rfl⟩ := h.exists_forest
  rw [fs.depth_message]
  exact ⟨fs.wireForm, Forest.encode_message hvalid.fits, decode_wireForm hvalid⟩

/-- The third level of the message stands between shallow fields; each limit is tried at its least value and below. -/
theorem decode_encode_deep_branch :
    (Forest.message [(3, .uint64 200), (1, .nested [(1, .nested [])]), (2, .binary [7])]).encode =
        .ok [0x31, 0x22, 0x03, 0x15, 0x05, 0x15, 0x01, 0x27, 0x03, 0x07] ∧
      decode ⟨10, 3⟩ [0x31, 0x22, 0x03, 0x15, 0x05, 0x15, 0x01, 0x27, 0x03, 0x07] =
        .ok (Forest.message [(3, .uint64 200), (1, .nested [(1, .nested [])]), (2, .binary [7])]) ∧
      decode ⟨10, 2⟩ [0x31, 0x22, 0x03, 0x15, 0x05, 0x15, 0x01, 0x27, 0x03, 0x07] = .error (.depthExceeded 2) ∧
      decode ⟨9, 2⟩ [0x31, 0x22, 0x03, 0x15, 0x05, 0x15, 0x01, 0x27, 0x03, 0x07] = .error (.oversizeMessage 10 9) := by
  have hbuilt : (Forest.message [(3, .uint64 200), (1, .nested [(1, .nested [])]), (2, .binary [7])]).Built :=
    built_iff.mpr ⟨_, by decide, rfl⟩
  obtain ⟨bytes, henc, hread⟩ := decode_encode hbuilt
  have hbytes : (Forest.message [(3, .uint64 200), (1, .nested [(1, .nested [])]), (2, .binary [7])]).encode =
      .ok [0x31, 0x22, 0x03, 0x15, 0x05, 0x15, 0x01, 0x27, 0x03, 0x07] := by cbv
  cases henc.symm.trans hbytes
  exact ⟨hbytes, hread ⟨10, 3⟩, hread ⟨10, 2⟩, hread ⟨9, 2⟩⟩

end FieldWire.Message
