import FieldWire.Proofs.Parser.Depth
import FieldWire.Proofs.Parser.Replay

/-! # Greater limits

A limit is looked at in two places only: the length of the whole input, and the depth at which a nested message is about
to be entered. So with greater limits a parse does the same, or it was cut off by a limit and goes on from there
(`ParseStep.UpToDepth`). Whatever does not come of a limit, a message that is accepted or any other error, is found alike
under all greater limits (`Parser.record_of_limits_le`). -/

namespace FieldWire

/-- The errors of inputs that a limit cuts off. -/
inductive Error.OfLimit : Error → Prop where
  | oversizeMessage (length : Nat) (max : UInt64) : OfLimit (.oversizeMessage length max)
  | depthExceeded (max : UInt64) : OfLimit (.depthExceeded max)

namespace ParseStep
variable {narrow wide : Limits} {max : UInt64} {x y x' y' : ParseStep (List Event)}

/-! ### Steps under two limits -/

/-- The first step does what the second does, or it does so up to where a level is too deep. -/
structure UpToDepth (max : UInt64) (x y : ParseStep (List Event)) : Prop where
  keeps : ∀ p, p.state <+: (y p).2.state
  eq_or_cut : ∀ p, x p = y p ∨ (x p).1 = .error (.depthExceeded max) ∧ (x p).2.state <+: (y p).2.state

namespace UpToDepth

theorem refl (h : Follows Event.recorder x x) : UpToDepth max x x where
  keeps := h.keeps_state
  eq_or_cut _ := Or.inl rfl

theorem andThen (h : UpToDepth max x y) (h' : UpToDepth max x' y') : UpToDepth max (x.andThen x') (y.andThen y') := by
  have hkeeps : ∀ p, (y p).2.state <+: (y.andThen y' p).2.state := by
    intro p
    rcases hy : y p with ⟨e | _, q⟩
    · rw [andThen_of_error hy]
    · rw [andThen_of_ok hy]
      exact h'.keeps q
  refine ⟨fun p => (h.keeps p).trans (hkeeps p), fun p => ?_⟩
  rcases h.eq_or_cut p with hsame | ⟨hcut, hfront⟩
  · rcases hy : y p with ⟨e | _, q⟩
    · left
      rw [andThen_of_error (hsame.trans hy), andThen_of_error hy]
    · rw [andThen_of_ok (hsame.trans hy), andThen_of_ok hy]
      exact h'.eq_or_cut q
  · right
    have hfirst : x.andThen x' p = (.error (.depthExceeded max), (x p).2) := andThen_of_error (Prod.ext hcut rfl)
    rw [hfirst]
    exact ⟨rfl, hfront.trans (hkeeps p)⟩

theorem enter {length : Nat} (hdepth : narrow.maxDepth ≤ wide.maxDepth) (hnarrow : length ≤ narrow.maxLength.toNat)
    (hwide : length ≤ wide.maxLength.toNat) :
    UpToDepth narrow.maxDepth (enter narrow length) (enter wide length) where
  keeps := (Follows.enter length).keeps_state
  eq_or_cut p := by
    have hle := UInt64.le_iff_toNat_le.mp hdepth
    rw [ParseStep.enter, if_neg (Nat.not_lt.mpr hnarrow)]
    by_cases hdeep : narrow.maxDepth.toNat ≤ p.depth
    · right
      rw [if_pos hdeep]
      exact ⟨rfl, (Follows.enter length).keeps_state p⟩
    · left
      rw [if_neg hdeep, ParseStep.enter, if_neg (Nat.not_lt.mpr hwide), if_neg (by omega)]

theorem level {message : Bytes} (hdepth : narrow.maxDepth ≤ wide.maxDepth)
    (hnarrow : message.length ≤ narrow.maxLength.toNat) (hwide : message.length ≤ wide.maxLength.toNat)
    (hfields : UpToDepth narrow.maxDepth (fields Event.recorder narrow message) (fields Event.recorder wide message)) :
    UpToDepth narrow.maxDepth (level Event.recorder narrow message) (level Event.recorder wide message) :=
  ((enter hdepth hnarrow hwide).andThen hfields).andThen (refl .leave)

theorem report (id : UInt64) {payload : Payload} (hdepth : narrow.maxDepth ≤ wide.maxDepth)
    (hnarrow : payload.contents.length ≤ narrow.maxLength.toNat)
    (hwide : payload.contents.length ≤ wide.maxLength.toNat)
    (hfields : UpToDepth narrow.maxDepth (fields Event.recorder narrow payload.contents)
      (fields Event.recorder wide payload.contents)) :
    UpToDepth narrow.maxDepth (report Event.recorder narrow id payload) (report Event.recorder wide id payload) := by
  cases payload with
  | uint64 n => exact refl (.emit _)
  | binary bytes => exact refl (.emit _)
  | nested body => exact ((refl (.emit _)).andThen (level hdepth hnarrow hwide hfields)).andThen (refl (.emit _))

end UpToDepth

theorem upToDepth_fields (hdepth : narrow.maxDepth ≤ wide.maxDepth) (input : Bytes) :
    input.length ≤ narrow.maxLength.toNat → input.length ≤ wide.maxLength.toNat →
      UpToDepth narrow.maxDepth (fields Event.recorder narrow input) (fields Event.recorder wide input) := by
  induction input using input_ind with
  | step input ih =>
    intro hnarrow hwide
    rw [fields_eq Event.recorder narrow, fields_eq Event.recorder wide]
    cases hhead : head input with
    | nothing => exact .refl .done
    | noHeader e => exact .refl (.fail e)
    | noPayload header e => exact .refl (Follows.andThen (.announce header) (.reject e))
    | field id payload rest =>
      obtain ⟨hcontents, hrest⟩ := ih id payload rest hhead
      have hlt := length_lt_of_head_eq_field hhead
      have hreport := UpToDepth.report id hdepth (by omega) (by omega) (hcontents (by omega) (by omega))
      exact ((UpToDepth.refl (.announce ⟨id, payload.wireType⟩)).andThen hreport).andThen
        (hrest (by omega) (by omega))

theorem upToDepth_level (hdepth : narrow.maxDepth ≤ wide.maxDepth) {message : Bytes}
    (hnarrow : message.length ≤ narrow.maxLength.toNat) (hwide : message.length ≤ wide.maxLength.toNat) :
    UpToDepth narrow.maxDepth (level Event.recorder narrow message) (level Event.recorder wide message) :=
  .level hdepth hnarrow hwide (upToDepth_fields hdepth message hnarrow hwide)

end ParseStep

/-! ### Parses under two limits -/

namespace Parser
open ParseStep
variable {narrow wide : Limits} {bytes : Bytes}

theorem record_state_of_oversize {limits : Limits} {length : Nat} {max : UInt64}
    (h : (record limits bytes).1 = .error (.oversizeMessage length max)) : (record limits bytes).2.state = [] := by
  have hfails := fails_of_parse_eq_error (Event.tracks_recorder limits fun _ => False) (Event.recorded_nil limits)
    (accepts_nil _) h
  exact parse_of_length_lt Event.recorder [] (hfails.length_lt id)

/-- How a recorded parse compares with one under greater limits: it is the same, or it is cut off by the limit on the
    depth, or it is not even begun. -/
theorem record_cases (hlength : narrow.maxLength ≤ wide.maxLength) (hdepth : narrow.maxDepth ≤ wide.maxDepth)
    (bytes : Bytes) :
    ((record wide bytes).1 = (record narrow bytes).1 ∧
        (record wide bytes).2.progress = (record narrow bytes).2.progress) ∨
      ((record narrow bytes).1 = .error (.depthExceeded narrow.maxDepth) ∧
        (record narrow bytes).2.state <+: (record wide bytes).2.state) ∨
      ((record narrow bytes).1 = .error (.oversizeMessage bytes.length narrow.maxLength) ∧
        (record narrow bytes).2.state = []) := by
  obtain ⟨hanswer, hprogress⟩ := record_eq_level narrow bytes
  obtain ⟨hanswer', hprogress'⟩ := record_eq_level wide bytes
  rw [state, state, hanswer, hprogress, hanswer', hprogress']
  by_cases hlong : narrow.maxLength.toNat < bytes.length
  · rw [level_of_length_lt hlong]
    exact Or.inr (Or.inr ⟨rfl, rfl⟩)
  · have hnarrow := Nat.le_of_not_lt hlong
    have hwide := Nat.le_trans hnarrow (UInt64.le_iff_toNat_le.mp hlength)
    rcases (upToDepth_level hdepth hnarrow hwide).eq_or_cut ⟨[], 0, []⟩ with hsame | hcut
    · rw [hsame]
      exact Or.inl ⟨rfl, rfl⟩
    · exact Or.inr (Or.inl hcut)

theorem decode_of_record_eq (hanswer : (record wide bytes).1 = (record narrow bytes).1)
    (hstate : (record wide bytes).2.state = (record narrow bytes).2.state) :
    Message.decode wide bytes = Message.decode narrow bytes := by
  rw [decode_eq_run, decode_eq_run, hanswer, hstate]

/-- Of a parse that a limit cuts off, the decoder sees the front; what it refuses there it refuses anyway. -/
theorem decode_of_front_refused (hfront : (record narrow bytes).2.state <+: (record wide bytes).2.state)
    (hcut : ∀ d, Decoder.handler.run (record narrow bytes).2.state .empty ≠ (.ok (), d)) :
    Message.decode wide bytes = Message.decode narrow bytes := by
  obtain ⟨more, hmore⟩ := hfront
  rw [decode_eq_run wide, decode_eq_run narrow, ← hmore, Handler.run_append]
  rcases hrun : Decoder.handler.run (record narrow bytes).2.state .empty with ⟨e | _, d⟩
  · rfl
  · exact absurd hrun (hcut d)

theorem decode_of_limits_le (hlength : narrow.maxLength ≤ wide.maxLength) (hdepth : narrow.maxDepth ≤ wide.maxDepth)
    (h : ∀ e, Message.decode narrow bytes = .error e → ¬e.OfLimit) :
    Message.decode wide bytes = Message.decode narrow bytes := by
  rcases record_cases hlength hdepth bytes with ⟨hanswer, hprogress⟩ | ⟨hanswer, hfront⟩ | ⟨hanswer, hstate⟩
  · exact decode_of_record_eq hanswer (congrArg Progress.state hprogress)
  · refine decode_of_front_refused hfront fun d hrun => h _ ?_ (.depthExceeded narrow.maxDepth)
    rw [decode_eq_run, hrun, hanswer]
  · refine absurd (.oversizeMessage bytes.length narrow.maxLength) (h _ ?_)
    rw [decode_eq_run, hstate, hanswer]
    rfl

/-- Limits only cut off. What is not an error of a limit is the same under all greater limits: the answer, the events
    and the depth, and the message or the error that is decoded. Where the limit on the depth cuts off, the events are
    the first ones of those under greater limits, and where that on the length does, there are none. -/
theorem record_of_limits_le (hlength : narrow.maxLength ≤ wide.maxLength) (hdepth : narrow.maxDepth ≤ wide.maxDepth)
    (bytes : Bytes) :
    let less := record narrow bytes
    let more := record wide bytes
    ((∀ e, less.1 = .error e → ¬e.OfLimit) →
        more.1 = less.1 ∧ more.2.state = less.2.state ∧ more.2.depth = less.2.depth ∧
          Message.decode wide bytes = Message.decode narrow bytes) ∧
      (∀ max, less.1 = .error (.depthExceeded max) → less.2.state <+: more.2.state) ∧
      (∀ length max, less.1 = .error (.oversizeMessage length max) → less.2.state = []) ∧
      ((∀ e, Message.decode narrow bytes = .error e → ¬e.OfLimit) →
        Message.decode wide bytes = Message.decode narrow bytes) := by
  intro less more
  refine ⟨fun h => ?_, fun max h => ?_, fun length max h => record_state_of_oversize h,
    decode_of_limits_le hlength hdepth⟩
  · rcases record_cases hlength hdepth bytes with ⟨hanswer, hprogress⟩ | ⟨hanswer, -⟩ | ⟨hanswer, -⟩
    · have hstate := congrArg Progress.state hprogress
      exact ⟨hanswer, hstate, congrArg Progress.depth hprogress, decode_of_record_eq hanswer hstate⟩
    · exact absurd (.depthExceeded _) (h _ hanswer)
    · exact absurd (.oversizeMessage _ _) (h _ hanswer)
  · rcases record_cases hlength hdepth bytes with ⟨-, hprogress⟩ | ⟨-, hfront⟩ | ⟨hanswer, -⟩
    · have hstate : less.2.state = more.2.state := (congrArg Progress.state hprogress).symm
      exact hstate ▸ List.prefix_rfl
    · exact hfront
    · cases hanswer.symm.trans h

/-- A third level is too deep, and behind it stands a field of no known type: the second fault is found where the first
    is none. In front of a level that is too deep, an id that repeats is refused either way. -/
theorem record_of_limits_le_two_faults :
    (record ⟨7, 2⟩ [0x11, 0x55, 0x25, 0x05, 0x15, 0x01, 0x1f]).2.state <+:
        (record ⟨8, 3⟩ [0x11, 0x55, 0x25, 0x05, 0x15, 0x01, 0x1f]).2.state ∧
      (record ⟨9, 4⟩ [0x11, 0x55, 0x25, 0x05, 0x15, 0x01, 0x1f]).1 = .error (.unknownWireType 7) ∧
      (record ⟨6, 2⟩ [0x11, 0x55, 0x25, 0x05, 0x15, 0x01, 0x1f]).2.state = [] ∧
      Message.decode ⟨8, 3⟩ [0x11, 0x55, 0x11, 0x01, 0x25, 0x05, 0x15, 0x01] = .error (.duplicateField 1) := by
  obtain ⟨-, hdeep, -⟩ := @record_of_limits_le ⟨7, 2⟩ ⟨8, 3⟩ (by decide) (by decide)
    [0x11, 0x55, 0x25, 0x05, 0x15, 0x01, 0x1f]
  obtain ⟨hunknown, -⟩ := @record_of_limits_le ⟨8, 3⟩ ⟨9, 4⟩ (by decide) (by decide)
    [0x11, 0x55, 0x25, 0x05, 0x15, 0x01, 0x1f]
  obtain ⟨-, -, hlong, -⟩ := @record_of_limits_le ⟨6, 2⟩ ⟨7, 2⟩ (by decide) (by decide)
    [0x11, 0x55, 0x25, 0x05, 0x15, 0x01, 0x1f]
  obtain ⟨-, -, -, hdecode⟩ := @record_of_limits_le ⟨8, 1⟩ ⟨8, 3⟩ (by decide) (by decide)
    [0x11, 0x55, 0x11, 0x01, 0x25, 0x05, 0x15, 0x01]
  have hanswer : (record ⟨8, 3⟩ [0x11, 0x55, 0x25, 0x05, 0x15, 0x01, 0x1f]).1 = .error (.unknownWireType 7) := by cbv
  have hduplicate : Message.decode ⟨8, 1⟩ [0x11, 0x55, 0x11, 0x01, 0x25, 0x05, 0x15, 0x01] =
      .error (.duplicateField 1) := by cbv
  have hsame := hunknown fun e he hlimit => by
    cases hanswer.symm.trans he
    cases hlimit
  have hsame' := hdecode fun e he hlimit => by
    cases hduplicate.symm.trans he
    cases hlimit
  exact ⟨hdeep 2 (by cbv), hsame.1.trans hanswer, hlong 7 6 (by cbv), hsame'.trans hduplicate⟩

end Parser
end FieldWire
