import FieldWire.Proofs.Parser.Append
import FieldWire.Proofs.Parser.Recorder
import FieldWire.Proofs.RoundTrip

/-! # Messages that are cut off

An input that is refused for anything but being cut off is refused alike with more bytes behind it
(`Message.decode_append_of_error`). So the front of an accepted message is either cut off or accepted, and it is
accepted exactly where it ends between two fields of the root (`Message.decode_cut`). -/

namespace FieldWire
open ParseStep

/-! ### The first fields of a forest -/

namespace Forest

theorem all_fits_append {fs gs : Forest} (hfs : fs.All Fits) (hgs : gs.All Fits) : All Fits (fs ++ gs) := by
  obtain ⟨hlevel, hbelow⟩ := all_iff.mp hfs
  obtain ⟨hlevel', hbelow'⟩ := all_iff.mp hgs
  exact all_iff.mpr ⟨List.forall_mem_append.mpr ⟨hlevel, hlevel'⟩, List.forall_mem_append.mpr ⟨hbelow, hbelow'⟩⟩

theorem depth_take_le (fs : Forest) (j : Nat) : depth (fs.take j) ≤ fs.depth := by
  have hsplit := depthBelow_append (fs.take j) (fs.drop j)
  rw [List.take_append_drop] at hsplit
  rw [depth, depth]
  omega

theorem valid_take {fs : Forest} (j : Nat) (h : fs.Valid) : Valid (fs.take j) := by
  have hsplit : Valid (fs.take j ++ fs.drop j) := by rwa [List.take_append_drop]
  exact valid_of_append hsplit

theorem take_fields_message (fs : Forest) (j : Nat) : fs.message.fields.take j = values (fs.take j) := by
  rw [message, values_eq_map, values_eq_map, List.map_take]

end Forest

namespace Message
variable {limits : Limits} {front back : Bytes}

/-- Written one after another, the fields of a valid forest are its wire form. -/
theorem encodeFields_values {fs : Forest} (h : fs.Valid) : encodeFields fs.values = .ok fs.wireForm :=
  Forest.encode_message h.fits

/-! ### More bytes behind a message -/

theorem decode_append_of_error {e : Error} (h : decode limits front = .error e) (he : ∀ what, e ≠ .truncated what)
    (hlen : (front ++ back).length ≤ limits.maxLength.toNat) : decode limits (front ++ back) = .error e := by
  obtain ⟨q, hq⟩ := decode_eq_error_iff.mp h
  exact decode_eq_error_iff.mpr ⟨q, level_append_of_error hq he hlen⟩

/-- If a message and the front of it are both accepted, the front holds its first fields. -/
theorem exists_append_of_decode_eq_ok {fs gs : Forest} {m m' : Message} (h : decode limits fs.wireForm = .ok m)
    (h' : decode limits gs.wireForm = .ok m') (hfs : fs.All Forest.Fits) (hgs : gs.All Forest.Fits)
    (hform : fs.wireForm = gs.wireForm ++ back) : ∃ hs, fs = gs ++ hs := by
  obtain ⟨q, hlevel⟩ := exists_level_of_decode_eq_ok h
  obtain ⟨q', hlevel'⟩ := exists_level_of_decode_eq_ok h'
  obtain ⟨hlen, -⟩ := level_eq_ok_iff.mp hlevel
  -- What follows the front is read to its end, so it is the wire form of further fields.
  rw [hform] at hlen hlevel
  rw [level_append hlevel' rfl hlen] at hlevel
  obtain ⟨-, hs, rfl, hhs, -⟩ := level_eq_ok (exists_of_fields_eq_ok back) hlevel
  rw [← Forest.wireForm_append] at hform hlen
  refine ⟨hs, Forest.wireForm_inj hfs (Forest.all_fits_append hgs hhs) ?_ hform⟩
  rw [hform]
  exact Nat.lt_of_le_of_lt hlen limits.maxLength.toNat_lt

/-- The first fields of an accepted message are accepted on their own. -/
theorem decode_wireForm_take {fs : Forest} (h : fs.Valid) (j : Nat)
    (hlen : (Forest.wireForm (fs.take j)).length ≤ limits.maxLength.toNat) (hdepth : fs.depth ≤ limits.maxDepth.toNat) :
    decode limits (Forest.wireForm (fs.take j)) = .ok (Forest.message (fs.take j)) := by
  have hle := Forest.depth_take_le fs j
  rw [decode_wireForm (Forest.valid_take j h), if_neg (Nat.not_lt.mpr hlen), if_neg (by omega)]

/-- Cutting a message off is reported as a truncation and as nothing else, and more bytes cure nothing else: any other
    error of the front is the error of the whole. The front of an accepted message is the message of its first fields if
    it is what is written for those, and is cut off otherwise. -/
theorem decode_cut (hlen : front.length + back.length ≤ limits.maxLength.toNat) :
    (∀ e, decode limits front = .error e → (∀ what, e ≠ .truncated what) →
        decode limits (front ++ back) = .error e) ∧
      ∀ m, decode limits (front ++ back) = .ok m →
        (∀ j, encodeFields (m.fields.take j) = .ok front →
          ∃ m', decode limits front = .ok m' ∧ m'.fields = m.fields.take j ∧ ofFields (m.fields.take j) = .ok m') ∧
        ((∀ j, encodeFields (m.fields.take j) ≠ .ok front) →
          ∃ what, decode limits front = .error (.truncated what)) := by
  rw [← List.length_append] at hlen
  refine ⟨fun e h he => decode_append_of_error h he hlen, fun m h => ?_⟩
  obtain ⟨fs, hvalid, rfl, hform, -, hdepth⟩ := exists_of_decode_eq_ok h
  refine ⟨fun j hj => ?_, fun hnone => ?_⟩
  · rw [Forest.take_fields_message, encodeFields_values (Forest.valid_take j hvalid)] at hj
    cases hj
    rw [List.length_append] at hlen
    refine ⟨_, decode_wireForm_take hvalid j (by omega) hdepth, (Forest.take_fields_message fs j).symm, ?_⟩
    rw [Forest.take_fields_message, ofFields_values (Forest.valid_take j hvalid)]
  · rcases hfront : decode limits front with e | m'
    · by_contra hcut
      have herror := decode_append_of_error hfront (fun what heq => hcut ⟨what, heq ▸ rfl⟩) hlen
      cases herror.symm.trans h
    · obtain ⟨gs, hgs, rfl, rfl, -, -⟩ := exists_of_decode_eq_ok hfront
      rw [hform] at h
      obtain ⟨hs, rfl⟩ := exists_append_of_decode_eq_ok h hfront hvalid.fits hgs.fits hform.symm
      refine absurd ?_ (hnone gs.length)
      rw [Forest.take_fields_message, List.take_left, encodeFields_values hgs]

/-- A message is cut between two fields and inside a nested message; a field that repeats an id stays refused. -/
theorem decode_cut_nested :
    (∃ m', decode ⟨10, 2⟩ [0x11, 0x55] = .ok m' ∧ m'.fields = [(1, .uint64 42)]) ∧
      (∃ what, decode ⟨10, 2⟩ [0x11, 0x55, 0x25, 0x0d, 0x37, 0x05, 0xaa] = .error (.truncated what)) ∧
      decode ⟨10, 2⟩ [0x11, 0x55, 0x11, 0x01, 0x00] = .error (.duplicateField 1) := by
  have hwhole : decode ⟨10, 2⟩ [0x11, 0x55, 0x25, 0x0d, 0x37, 0x05, 0xaa, 0xbb, 0x11, 0x01] =
      .ok (Forest.message [(1, .uint64 42), (2, .nested [(3, .binary [0xaa, 0xbb]), (1, .uint64 0)])]) := by
    cbv
  have hduplicate : decode ⟨10, 2⟩ [0x11, 0x55, 0x11, 0x01] = .error (.duplicateField 1) := by cbv
  obtain ⟨-, hfront⟩ := @decode_cut ⟨10, 2⟩ [0x11, 0x55] [0x25, 0x0d, 0x37, 0x05, 0xaa, 0xbb, 0x11, 0x01] (by decide)
  obtain ⟨-, hinside⟩ := @decode_cut ⟨10, 2⟩ [0x11, 0x55, 0x25, 0x0d, 0x37, 0x05, 0xaa] [0xbb, 0x11, 0x01] (by decide)
  obtain ⟨herror, -⟩ := @decode_cut ⟨10, 2⟩ [0x11, 0x55, 0x11, 0x01] [0x00] (by decide)
  refine ⟨?_, (hinside _ hwhole).2 ?_, herror _ hduplicate fun what h => ?_⟩
  · obtain ⟨m', hm', hfields, -⟩ := (hfront _ hwhole).1 1 (by cbv)
    exact ⟨m', hm', hfields⟩
  · rintro (_ | _ | j) h
    · cases h
    · cases h
    · rw [List.take_of_length_le (by simp [Forest.message, Forest.values])] at h
      cases h
  · cases h

end Message
end FieldWire
