import FieldWire.Failure
import FieldWire.Proofs.Memory
import FieldWire.Proofs.Parser.Depth
import FieldWire.Proofs.Parser.Replay
import FieldWire.Proofs.Parser.Session
import Mathlib.Logic.ExistsUnique

/-! # The failures of a parse

The error of a message that is not accepted is of exactly one of the kinds of `Failure` (`Message.failures_of_decode`).
The others cannot arise, each for a reason of its own: an id that is read fits into a header, the decoder always has a
message under construction to insert into, all levels are left when a parse succeeds, and nothing that is nested in a
message is longer than the message. -/

namespace FieldWire

/-! ### Kinds of errors -/

namespace Failure

theorem eq_of_covers {k k' : Failure} {e : Error} (h : k.covers e = true) (h' : k'.covers e = true) : k = k' := by
  cases k <;> cases e <;> simp only [covers, Bool.false_eq_true] at h <;> cases k' <;> simp [covers] at h' ⊢

theorem existsUnique_of_covers {k : Failure} {e : Error} (h : k.covers e = true) :
    ∃! kind : Failure, kind.covers e = true := ⟨k, h, fun _ hk => eq_of_covers hk h⟩

theorem not_mem_of_covers {k : Failure} {e : Error} (h : k.covers e = true) (id length : UInt64) (what : String)
    (expected actual : WireType) :
    e ∉ [.fieldIdRange id, .lengthOverflow length, .invalidState what, .typeMismatch id expected actual,
      .missingField id] := by
  simp only [List.mem_cons, List.not_mem_nil, or_false]
  rintro (rfl | rfl | rfl | rfl | rfl) <;> cases k <;> simp [covers] at h

end Failure

/-- The errors of the readers are of three kinds. -/
theorem Error.Unreadable.exists_covers {e : Error} (h : e.Unreadable) : ∃ kind : Failure, kind.covers e = true := by
  cases h with
  | truncated what => exact ⟨.truncated, rfl⟩
  | unknownWireType tag => exact ⟨.unknownWireType, rfl⟩
  | malformedVarint length => exact ⟨.malformedVarint, rfl⟩

namespace Parser
open ParseStep
variable {σ ρ : Type} {handler : Handler σ ρ} {s : σ} {limits : Limits} {buffers : List Bytes} {last : Bytes}

/-! ### Ends of parses -/

/-- After a message that is accepted, the handler is asked for its result. -/
theorem finish_of_parse_eq_ok (h : (((new handler s limits).feed buffers).2.parse last).1 = .ok ()) :
    (((new handler s limits).feed buffers).2.parse last).2.finish =
      handler.finish (((new handler s limits).feed buffers).2.parse last).2.state := by
  obtain ⟨hfailed, -⟩ := parse_eq_ok_iff.mp h
  obtain ⟨-, hbuffers⟩ := feed_failed_iff.mp hfailed
  have hdepth : (((new handler s limits).feed buffers).2.parse last).2.depth = 0 := by
    rw [← feed_concat]
    exact feed_depth (accepts_concat_iff.mpr ⟨hbuffers, h⟩)
  rw [finish_of_depth_eq_zero (parse_failed_iff.mpr h) hdepth, parse_handler, feed_handler]
  rfl

theorem exists_finish_of_parse_eq_ok
    (h : (((new Decoder.handler .empty limits).feed buffers).2.parse last).1 = .ok ()) :
    ∃ m, (((new Decoder.handler .empty limits).feed buffers).2.parse last).2.finish = .ok m := by
  have hready := ready_of_parse_eq_ok (Decoder.tracks_decoder limits) rfl h
  obtain ⟨root, hroot⟩ := List.length_eq_one_iff.mp hready.state
  refine ⟨root, ?_⟩
  rw [finish_of_parse_eq_ok h]
  show Decoder.finish _ = _
  rw [Decoder.finish, hroot]

end Parser

/-! ### Main statement -/

namespace Message
variable {limits : Limits} {bytes : Bytes}

theorem fails_of_decode_eq_error {e : Error} (h : decode limits bytes = .error e) :
    ∃ depth d, Parser.Fails limits (fun n d => Decoder.depth d = n) (fun e => ∃ id, e = .duplicateField id)
      bytes.length e depth d := by
  obtain ⟨q, hq⟩ := decode_eq_error_iff.mp h
  obtain ⟨hanswer, -⟩ := Parser.parse_new Decoder.handler .empty limits bytes
  rw [hq] at hanswer
  exact ⟨_, _, Parser.fails_of_parse_eq_error (Decoder.tracks_decoder limits) rfl (Parser.accepts_nil _) hanswer⟩

theorem exists_covers_of_decode_eq_error {e : Error} (h : decode limits bytes = .error e) :
    ∃ kind : Failure, kind.covers e = true := by
  obtain ⟨depth, d, hfails⟩ := fails_of_decode_eq_error h
  cases hfails with
  | tooLong _ _ => exact ⟨.oversizeMessage, rfl⟩
  | tooDeep _ _ => exact ⟨.depthExceeded, rfl⟩
  | unreadable _ hunreadable _ _ => exact hunreadable.exists_covers
  | refused _ hrefused _ _ =>
    obtain ⟨id, rfl⟩ := hrefused
    exact ⟨.duplicateField, rfl⟩

/-- Only the message itself is refused for its length, and nothing that is nested in it. -/
theorem length_lt_of_decode_eq_oversize {length : Nat} {max : UInt64}
    (h : decode limits bytes = .error (.oversizeMessage length max)) : limits.maxLength.toNat < bytes.length := by
  obtain ⟨depth, d, hfails⟩ := fails_of_decode_eq_error h
  refine hfails.length_lt ?_
  rintro ⟨id, hid⟩
  cases hid

theorem decode_of_length_lt (hlen : limits.maxLength.toNat < bytes.length) :
    decode limits bytes = .error (.oversizeMessage bytes.length limits.maxLength) :=
  decode_eq_error_iff.mpr ⟨_, ParseStep.level_of_length_lt hlen _⟩

/-- An input that is not accepted fails with an error of exactly one kind. It is refused for its length exactly if that
    is beyond the limit, with its own length in the error, and then no handler hears of anything. After a message that
    is accepted the decoder has a result. Nothing that is read on the way is out of range, and with addresses of 64
    bits no length is too great for them. -/
theorem failures_of_decode (limits : Limits) (bytes : Bytes) :
    (∀ e, decode limits bytes = .error e → (∃! kind : Failure, kind.covers e = true) ∧
        ∀ id length what expected actual, e ∉ [.fieldIdRange id, .lengthOverflow length, .invalidState what,
          .typeMismatch id expected actual, .missingField id]) ∧
      ((∃ length max, decode limits bytes = .error (.oversizeMessage length max)) ↔
        limits.maxLength.toNat < bytes.length) ∧
      (limits.maxLength.toNat < bytes.length →
        decode limits bytes = .error (.oversizeMessage bytes.length limits.maxLength) ∧
          ∀ (σ ρ : Type) (handler : Handler σ ρ) (s : σ),
            ((Parser.new handler.watched (s, []) limits).parse bytes).2.state = (s, [])) ∧
      (∀ buffers last, (((Parser.new Decoder.handler .empty limits).feed buffers).2.parse last).1 = .ok () →
        ∃ m, (((Parser.new Decoder.handler .empty limits).feed buffers).2.parse last).2.finish = .ok m) ∧
      ∀ input, Varint.checkedDecode input = some (Varint.decode input) ∧
        Prefixed.checkedRead 64 input =
          some ((Prefixed.read input).1.mapError PayloadError.toError, (Prefixed.read input).2) := by
  refine ⟨fun e he => ?_, ⟨?_, fun hlen => ⟨_, _, decode_of_length_lt hlen⟩⟩, fun hlen => ?_, ?_, fun input => ?_⟩
  · obtain ⟨kind, hkind⟩ := exists_covers_of_decode_eq_error he
    exact ⟨Failure.existsUnique_of_covers hkind, Failure.not_mem_of_covers hkind⟩
  · rintro ⟨length, max, he⟩
    exact length_lt_of_decode_eq_oversize he
  · exact ⟨decode_of_length_lt hlen, fun σ ρ handler s => Parser.parse_of_length_lt handler.watched (s, []) hlen⟩
  · exact fun buffers last h => Parser.exists_finish_of_parse_eq_ok h
  · exact ⟨Varint.checkedDecode_eq input, Prefixed.checkedRead_eq (Nat.le_refl 64) input⟩

/-- A nested message has a field of no known type. Under a smaller limit the message around it is too long, and nothing
    of it is looked at. -/
theorem failures_of_decode_nested :
    (decode ⟨3, 2⟩ [0x15, 0x03, 0x1f] = .error (.unknownWireType 7) ∧
        ∃! kind : Failure, kind.covers (.unknownWireType 7) = true) ∧
      decode ⟨2, 2⟩ [0x15, 0x03, 0x1f] = .error (.oversizeMessage 3 2) ∧
      ((Parser.new Decoder.handler.watched (.empty, []) ⟨2, 2⟩).parse [0x15, 0x03, 0x1f]).2.state = (.empty, []) := by
  have hunknown : decode ⟨3, 2⟩ [0x15, 0x03, 0x1f] = .error (.unknownWireType 7) := by cbv
  obtain ⟨hkinds, -⟩ := failures_of_decode ⟨3, 2⟩ [0x15, 0x03, 0x1f]
  obtain ⟨-, -, hlong, -⟩ := failures_of_decode ⟨2, 2⟩ [0x15, 0x03, 0x1f]
  obtain ⟨hoversize, hsilent⟩ := hlong (by decide)
  exact ⟨⟨hunknown, (hkinds _ hunknown).1⟩, hoversize, hsilent _ _ Decoder.handler .empty⟩

end Message
end FieldWire
