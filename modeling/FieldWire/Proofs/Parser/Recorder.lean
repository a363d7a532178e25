import FieldWire.Proofs.Parser.Grammar
import FieldWire.Samples

/-! # What the recorder records

The recorder refuses nothing, so a parse that reports to it accepts all that the format allows: the wire forms of the
forests that are no deeper than the limit, with ids that repeat or not. An input is the wire form of one forest at most
(`Forest.wireForm_inj`), and what is recorded of it is the events of that forest
(`Parser.record_eq_ok_iff_exists_forest`). -/

namespace FieldWire

theorem Event.run_recorder (events seen : List Event) : recorder.run events seen = (.ok (), seen ++ events) := by
  induction events generalizing seen with
  | nil => rw [Handler.run, List.append_nil]
  | cons event rest ih =>
    have hrest := ih (seen ++ [event])
    rw [List.append_assoc, List.singleton_append] at hrest
    exact hrest

/-! ### Wire forms by fields -/

/-- The bytes of the field with the id and the contents. -/
def Tree.wireField (id : UInt64) : Tree → Bytes
  | .uint64 n => Samples.rawField id .uint64 (Varint.encode n)
  | .binary bytes => Samples.rawField id .binary (Varint.encode (UInt64.ofNat bytes.length) ++ bytes)
  | .nested fs => Samples.wrapNested id (Forest.wireForm fs)

theorem Tree.encodeField_payload (id : UInt64) (t : Tree) : t.payload.encodeField id = t.wireField id := by
  cases t with
  | uint64 n => rfl
  | binary bytes => rfl
  | nested fs => rw [payload, wireField, Samples.wrapNested, Samples.rawField, Payload.encodeField, Payload.wireType,
      Payload.encode]

theorem Tree.payload_inj {s t : Tree} (h : s.payload = t.payload)
    (hbody : ∀ fs gs : Forest, s = .nested fs → t = .nested gs → fs.wireForm = gs.wireForm → fs = gs) : s = t := by
  cases s <;> cases t <;> simp only [payload, Payload.uint64.injEq, Payload.binary.injEq, Payload.nested.injEq,
    reduceCtorEq] at h
  · rw [h]
  · rw [h]
  · rw [hbody _ _ rfl rfl h]

namespace Forest

theorem wireForm_eq_flatMap (fs : Forest) : fs.wireForm = fs.flatMap fun f => f.2.wireField f.1 := by
  induction fs with
  | nil => rfl
  | cons f rest ih =>
    obtain ⟨id, t⟩ := f
    rw [wireForm, List.flatMap_cons, ← ih, t.encodeField_payload]

theorem wireForm_append (fs gs : Forest) : (fs ++ gs).wireForm = fs.wireForm ++ gs.wireForm := by
  rw [wireForm_eq_flatMap, wireForm_eq_flatMap, wireForm_eq_flatMap, List.flatMap_append]

theorem eq_of_wireForm_eq (input : Bytes) : ∀ fs gs : Forest, fs.All Fits → gs.All Fits → input.length < 2 ^ 64 →
    fs.wireForm = input → gs.wireForm = input → fs = gs := by
  -- Both forests have the field that stands at the front of the input, with one payload and one rest.
  induction input using ParseStep.input_ind with
  | step input ih =>
    rintro (_ | ⟨⟨i, s⟩, fs⟩) (_ | ⟨⟨j, t⟩, gs⟩) hfs hgs hlen hf hg
    · rfl
    · exact absurd (hg.trans hf.symm) (ParseStep.encodeField_append_ne_nil j t.payload _)
    · exact absurd (hf.trans hg.symm) (ParseStep.encodeField_append_ne_nil i s.payload _)
    · obtain ⟨⟨hi, hs⟩, hfs'⟩ := all_fits_cons_iff.mp hfs
      obtain ⟨⟨hj, ht⟩, hgs'⟩ := all_fits_cons_iff.mp hgs
      have hheadf := ParseStep.head_wireForm_cons hi (hf ▸ hlen)
      have hheadg := ParseStep.head_wireForm_cons hj (hg ▸ hlen)
      rw [hf] at hheadf
      rw [hg, hheadf] at hheadg
      obtain ⟨rfl, hpayload, hrest⟩ := ParseStep.Head.field.inj hheadg
      obtain ⟨hcontents, hothers⟩ := ih i s.payload (wireForm fs) hheadf
      have hshort := ParseStep.length_lt_of_head_eq_field hheadf
      have hst : s = t := by
        refine Tree.payload_inj hpayload ?_
        rintro fs' gs' rfl rfl h
        exact hcontents fs' gs' hs ht (by omega) rfl h.symm
      rw [hst, hothers fs gs hfs' hgs' (by omega) rfl hrest.symm]

theorem wireForm_inj {fs gs : Forest} (hfs : fs.All Fits) (hgs : gs.All Fits) (hlen : fs.wireForm.length < 2 ^ 64)
    (h : fs.wireForm = gs.wireForm) : fs = gs :=
  eq_of_wireForm_eq fs.wireForm fs gs hfs hgs hlen rfl h.symm

end Forest

/-! ### Recorded parses -/

namespace Parser
open ParseStep
variable {σ ρ : Type}

theorem parse_eq_level {parser : Parser σ ρ} (h : parser.failed = false) (message : Bytes) :
    (parser.parse message).1 = (level parser.handler parser.limits message parser.progress).1 ∧
      (parser.parse message).2.progress = (level parser.handler parser.limits message parser.progress).2 := by
  rw [parse, h]
  rcases level parser.handler parser.limits message parser.progress with ⟨_ | _, q⟩
  · exact ⟨rfl, rfl⟩
  · exact ⟨rfl, rfl⟩

theorem parse_new (handler : Handler σ ρ) (s : σ) (limits : Limits) (bytes : Bytes) :
    ((new handler s limits).parse bytes).1 = (level handler limits bytes ⟨s, 0, []⟩).1 ∧
      ((new handler s limits).parse bytes).2.progress = (level handler limits bytes ⟨s, 0, []⟩).2 :=
  parse_eq_level rfl bytes

/-- A message that is too long is refused with nothing handed to the handler. -/
theorem parse_of_length_lt (handler : Handler σ ρ) (s : σ) {limits : Limits} {bytes : Bytes}
    (hlen : limits.maxLength.toNat < bytes.length) : ((new handler s limits).parse bytes).2.state = s := by
  obtain ⟨-, hprogress⟩ := parse_new handler s limits bytes
  rw [state, hprogress, level_of_length_lt hlen]

/-- The parse of one message that is reported to the recorder: the answer, and a parser whose state is the events. -/
def record (limits : Limits) (bytes : Bytes) : Except Error Unit × Parser (List Event) (List Event) :=
  (new Event.recorder [] limits).parse bytes

theorem record_eq_level (limits : Limits) (bytes : Bytes) :
    (record limits bytes).1 = (level Event.recorder limits bytes ⟨[], 0, []⟩).1 ∧
      (record limits bytes).2.progress = (level Event.recorder limits bytes ⟨[], 0, []⟩).2 :=
  parse_new Event.recorder [] limits bytes

theorem level_recorder_of_wireForm {limits : Limits} {fs : Forest} (hfits : fs.All Forest.Fits)
    (hlen : fs.wireForm.length ≤ limits.maxLength.toNat) (hdepth : fs.depth ≤ limits.maxDepth.toNat) :
    ∃ log, level Event.recorder limits fs.wireForm ⟨[], 0, []⟩ = (.ok (), ⟨fs.events, 0, log⟩) := by
  have hreads : Reads Event.recorder limits fs.events fs.depth (level Event.recorder limits fs.wireForm) :=
    reads_level hfits hlen
  exact hreads.within (p := ⟨[], 0, []⟩) (Event.run_recorder fs.events []) (by simpa using hdepth)

theorem record_of_wireForm {limits : Limits} {fs : Forest} (hfits : fs.All Forest.Fits)
    (hlen : fs.wireForm.length ≤ limits.maxLength.toNat) (hdepth : fs.depth ≤ limits.maxDepth.toNat) :
    (record limits fs.wireForm).1 = .ok () ∧ (record limits fs.wireForm).2.state = fs.events := by
  obtain ⟨hanswer, hprogress⟩ := record_eq_level limits fs.wireForm
  obtain ⟨log, hlevel⟩ := level_recorder_of_wireForm hfits hlen hdepth
  rw [hanswer, state, hprogress, hlevel]
  exact ⟨rfl, rfl⟩

/-- What is accepted is the wire form of a forest, and what is recorded are its events. -/
theorem exists_forest_of_record_eq_ok {limits : Limits} {bytes : Bytes} (h : (record limits bytes).1 = .ok ()) :
    ∃ fs : Forest, fs.All Forest.Fits ∧ fs.wireForm = bytes ∧ (record limits bytes).2.state = fs.events := by
  obtain ⟨hanswer, hprogress⟩ := record_eq_level limits bytes
  rcases hlevel : level Event.recorder limits bytes ⟨[], 0, []⟩ with ⟨answer, q⟩
  rw [hlevel] at hanswer hprogress
  cases hanswer.symm.trans h
  obtain ⟨-, fs, hform, hfits, -, -, hrun⟩ := level_eq_ok (exists_of_fields_eq_ok bytes) hlevel
  rw [Event.run_recorder fs.events []] at hrun
  refine ⟨fs, hfits, hform.symm, ?_⟩
  rw [state, hprogress]
  exact (congrArg Prod.snd hrun).symm

/-- Exactly the wire forms of forests are accepted, within the limit on the depth: their ids fit into headers and may
    repeat. The wire form of a forest is that of its fields, one after another; no two forests have the same, so the
    events that are recorded are those of one forest. -/
theorem record_eq_ok_iff_exists_forest {limits : Limits} {bytes : Bytes}
    (hlen : bytes.length ≤ limits.maxLength.toNat) :
    ((record limits bytes).1 = .ok () ↔
        ∃ fs : Forest, fs.All Forest.Fits ∧ fs.wireForm = bytes ∧ fs.depth ≤ limits.maxDepth.toNat) ∧
      (∀ fs : Forest, fs.wireForm = fs.flatMap fun f => f.2.wireField f.1) ∧
      ∀ fs : Forest, fs.All Forest.Fits → fs.wireForm = bytes →
        (∀ gs : Forest, gs.All Forest.Fits → gs.wireForm = bytes → gs = fs) ∧
          (fs.depth ≤ limits.maxDepth.toNat → (record limits bytes).2.state = fs.events) := by
  obtain ⟨hanswer, hprogress⟩ := record_eq_level limits bytes
  refine ⟨⟨fun h => ?_, ?_⟩, Forest.wireForm_eq_flatMap, ?_⟩
  · obtain ⟨q, hq⟩ : ∃ q, level Event.recorder limits bytes ⟨[], 0, []⟩ = (.ok (), q) :=
      ⟨_, Prod.ext (hanswer.symm.trans h) rfl⟩
    obtain ⟨-, fs, hform, hfits, -, hdepth, -⟩ := level_eq_ok (exists_of_fields_eq_ok bytes) hq
    exact ⟨fs, hfits, hform.symm, by simpa using hdepth⟩
  · rintro ⟨fs, hfits, rfl, hdepth⟩
    obtain ⟨log, hq⟩ := level_recorder_of_wireForm hfits hlen hdepth
    rw [hanswer, hq]
  · rintro fs hfits rfl
    have hlen' : fs.wireForm.length < 2 ^ 64 := Nat.lt_of_le_of_lt hlen limits.maxLength.toNat_lt
    refine ⟨fun gs hgs h => (Forest.wireForm_inj hfits hgs hlen' h.symm).symm, fun hdepth => ?_⟩
    obtain ⟨log, hq⟩ := level_recorder_of_wireForm hfits hlen hdepth
    rw [state, hprogress, hq]

/-- The id 1 stands twice at both levels; a limit of one level does not admit the inner one. -/
theorem record_repeated_ids :
    (record ⟨9, 2⟩ [0x11, 0x0b, 0x15, 0x0b, 0x11, 0x0f, 0x17, 0x03, 0xaa]).1 = .ok () ∧
      (record ⟨9, 2⟩ [0x11, 0x0b, 0x15, 0x0b, 0x11, 0x0f, 0x17, 0x03, 0xaa]).2.state =
        [.uint64 1 5, .beginNested, .uint64 1 7, .binary 1 [0xaa], .endNested 1] ∧
      (record ⟨9, 1⟩ [0x11, 0x0b, 0x15, 0x0b, 0x11, 0x0f, 0x17, 0x03, 0xaa]).1 ≠ .ok () := by
  have hfits : Forest.All Forest.Fits [(1, .uint64 5), (1, .nested [(1, .uint64 7), (1, .binary [0xaa])])] := by decide
  have hform : Forest.wireForm [(1, .uint64 5), (1, .nested [(1, .uint64 7), (1, .binary [0xaa])])] =
      [0x11, 0x0b, 0x15, 0x0b, 0x11, 0x0f, 0x17, 0x03, 0xaa] := by decide
  obtain ⟨hiff, -, hforest⟩ := @record_eq_ok_iff_exists_forest ⟨9, 2⟩
    [0x11, 0x0b, 0x15, 0x0b, 0x11, 0x0f, 0x17, 0x03, 0xaa] (by decide)
  obtain ⟨hiff', -, hforest'⟩ := @record_eq_ok_iff_exists_forest ⟨9, 1⟩
    [0x11, 0x0b, 0x15, 0x0b, 0x11, 0x0f, 0x17, 0x03, 0xaa] (by decide)
  refine ⟨hiff.mpr ⟨_, hfits, hform, by decide⟩, (hforest _ hfits hform).2 (by decide), fun h => ?_⟩
  obtain ⟨gs, hgs, hform', hdepth⟩ := hiff'.mp h
  rw [(hforest' _ hfits hform).1 gs hgs hform'] at hdepth
  exact absurd hdepth (by decide)

end Parser
end FieldWire
