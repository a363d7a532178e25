import FieldWire.Proofs.Parser.Recorder
import FieldWire.Proofs.RoundTrip

/-! # Any handler, by way of the recorder

A parse looks at its handler only to learn whether an event is refused. So a parse with any handler is known from the
recorded parse of the same input: the recorded events are handed to the handler one after another, the first refusal
ends the parse, and without one the parse ends as the recorded one does (`ParseStep.follows_level`). In particular a
message is decoded by running the decoder over the recorded events. -/

namespace FieldWire

/-! ### Handing events over -/

namespace Handler
variable {σ ρ : Type} {handler : Handler σ ρ}

theorem run_eq_error_iff {events : List Event} {s u : σ} {e : Error} :
    handler.run events s = (.error e, u) ↔
      ∃ before event after t, events = before ++ event :: after ∧ handler.run before s = (.ok (), t) ∧
        handler.receive event t = (.error e, u) := by
  constructor
  · intro h
    induction events generalizing s with
    | nil => cases h
    | cons event rest ih =>
      rw [run] at h
      split at h
      · next t ht =>
        obtain ⟨before, refused, after, w, rfl, hrun, hrefused⟩ := ih h
        exact ⟨event :: before, refused, after, w, rfl, run_cons_eq_ok_iff.mpr ⟨t, ht, hrun⟩, hrefused⟩
      · next e' t ht =>
        cases h
        exact ⟨[], event, rest, s, rfl, rfl, ht⟩
  · rintro ⟨before, event, after, t, rfl, hrun, hrefused⟩
    rw [run_append, hrun]
    simp only [run, hrefused]

/-- The handler with a list, beside its state, of the events that it is handed, those that it refuses too. -/
def watched (handler : Handler σ ρ) : Handler (σ × List Event) ρ where
  receive event s :=
    let (answer, next) := handler.receive event s.1
    (answer, (next, s.2 ++ [event]))
  finish s := handler.finish s.1

theorem run_watched_of_ok {events : List Event} {s t : σ} (seen : List Event)
    (h : handler.run events s = (.ok (), t)) : handler.watched.run events (s, seen) = (.ok (), (t, seen ++ events)) := by
  induction events generalizing s seen with
  | nil =>
    cases h
    rw [run, List.append_nil]
  | cons event rest ih =>
    obtain ⟨u, hu, hrest⟩ := run_cons_eq_ok_iff.mp h
    have hreceive : handler.watched.receive event (s, seen) = (.ok (), (u, seen ++ [event])) := by
      simp only [watched, hu]
    have hall := ih (seen ++ [event]) hrest
    rw [List.append_assoc, List.singleton_append] at hall
    exact run_cons_eq_ok_iff.mpr ⟨_, hreceive, hall⟩

theorem run_watched_of_error {before : List Event} {event : Event} {s t u : σ} {e : Error} (after seen : List Event)
    (hrun : handler.run before s = (.ok (), t)) (hrefused : handler.receive event t = (.error e, u)) :
    handler.watched.run (before ++ event :: after) (s, seen) = (.error e, (u, seen ++ (before ++ [event]))) := by
  refine run_eq_error_iff.mpr ⟨before, event, after, _, rfl, run_watched_of_ok seen hrun, ?_⟩
  simp only [watched, hrefused, List.append_assoc]

end Handler

/-! ### Steps with the recorder and with a handler -/

namespace ParseStep
variable {σ ρ : Type} {handler : Handler σ ρ} {limits : Limits}

/-- How a step from the state `s` ends if it ended as recorded with the recorder, which took in the events: with the
    first refusal, or else as recorded. -/
def Replayed (handler : Handler σ ρ) (events : List Event) (s : σ)
    (recorded : Except Error Unit × Progress (List Event)) (outcome : Except Error Unit × Progress σ) : Prop :=
  match handler.run events s with
  | (.ok (), t) => outcome = (recorded.1, ⟨t, recorded.2.depth, recorded.2.log⟩)
  | (.error e, t) => ∃ q, outcome = (.error e, q) ∧ q.state = t

section
variable {es fs : List Event} {s t : σ} {e : Error} {recorded : Except Error Unit × Progress (List Event)}
  {outcome : Except Error Unit × Progress σ}

theorem replayed_iff_of_ok (h : handler.run es s = (.ok (), t)) :
    Replayed handler es s recorded outcome ↔ outcome = (recorded.1, ⟨t, recorded.2.depth, recorded.2.log⟩) := by
  simp only [Replayed, h]

theorem replayed_iff_of_error (h : handler.run es s = (.error e, t)) :
    Replayed handler es s recorded outcome ↔ ∃ q, outcome = (.error e, q) ∧ q.state = t := by
  simp only [Replayed, h]

theorem replayed_append_iff (h : handler.run es s = (.ok (), t)) :
    Replayed handler (es ++ fs) s recorded outcome ↔ Replayed handler fs t recorded outcome := by
  simp only [Replayed, Handler.run_append, h]

end

/-- A step with the handler does what a step with the recorder tells. -/
def Follows (handler : Handler σ ρ) (recording : ParseStep (List Event)) (step : ParseStep σ) : Prop :=
  ∀ p s, ∃ events, (recording p).2.state = p.state ++ events ∧
    Replayed handler events s (recording p) (step ⟨s, p.depth, p.log⟩)

namespace Follows
variable {x y : ParseStep (List Event)} {x' y' : ParseStep σ}

/-- What is recorded is never taken back. -/
theorem keeps_state {y : ParseStep (List Event)} (h : Follows Event.recorder x y) (p : Progress (List Event)) :
    p.state <+: (x p).2.state := by
  obtain ⟨events, hevents, -⟩ := h p []
  exact ⟨events, hevents.symm⟩

theorem silent (hx : ∀ p, (x p).2.state = p.state)
    (h : ∀ p s, x' ⟨s, p.depth, p.log⟩ = ((x p).1, ⟨s, (x p).2.depth, (x p).2.log⟩)) : Follows handler x x' :=
  fun p s => ⟨[], by rw [hx, List.append_nil], h p s⟩

theorem done : Follows handler done done := silent (fun _ => rfl) fun _ _ => rfl

theorem fail (e : Error) : Follows handler (fail e) (fail e) := silent (fun _ => rfl) fun _ _ => rfl

theorem announce (header : FieldHeader) : Follows handler (announce header) (announce header) :=
  silent (fun _ => rfl) fun _ _ => rfl

theorem leave : Follows handler leave leave := silent (fun _ => rfl) fun _ _ => rfl

theorem reject (e : PayloadError) : Follows handler (reject e) (reject e) := by
  cases e <;> exact silent (fun _ => rfl) fun _ _ => rfl

theorem enter (length : Nat) : Follows handler (enter limits length) (enter limits length) := by
  refine silent (enter_state limits length) fun p s => ?_
  simp only [ParseStep.enter]
  split
  · rfl
  · split <;> rfl

theorem emit (event : Event) : Follows handler (emit Event.recorder event) (emit handler event) := by
  intro p s
  refine ⟨[event], rfl, ?_⟩
  rcases h : handler.receive event s with ⟨_ | _, t⟩ <;> simp [Replayed, Handler.run, ParseStep.emit, h, Event.recorder]

theorem andThen (hx : Follows handler x x') (hy : Follows handler y y') :
    Follows handler (x.andThen y) (x'.andThen y') := by
  intro p s
  obtain ⟨es, hes, hfirst⟩ := hx p s
  rcases hrun : handler.run es s with ⟨e | _, t⟩
  · -- Refused in the first step, whatever the recorder is given after that.
    obtain ⟨q, hq, ht⟩ := (replayed_iff_of_error hrun).mp hfirst
    obtain ⟨more, hmore⟩ : ∃ more, (x.andThen y p).2.state = p.state ++ (es ++ more) := by
      rcases hxp : x p with ⟨_ | _, q⟩ <;> rw [hxp] at hes
      · exact ⟨[], by rw [andThen_of_error hxp, hes, List.append_nil]⟩
      · obtain ⟨fs, hfs, -⟩ := hy q s
        exact ⟨fs, by rw [andThen_of_ok hxp, hfs, hes, List.append_assoc]⟩
    have hall : handler.run (es ++ more) s = (.error e, t) := by rw [Handler.run_append, hrun]
    exact ⟨es ++ more, hmore, (replayed_iff_of_error hall).mpr ⟨q, andThen_of_error hq, ht⟩⟩
  · have hstep := (replayed_iff_of_ok hrun).mp hfirst
    rcases hxp : x p with ⟨e | _, q⟩ <;> rw [hxp] at hes hstep
    · refine ⟨es, ?_, (replayed_iff_of_ok hrun).mpr ?_⟩
      · rw [andThen_of_error hxp, hes]
      · rw [andThen_of_error hxp, andThen_of_error hstep]
    · obtain ⟨fs, hfs, hsecond⟩ := hy q t
      refine ⟨es ++ fs, ?_, (replayed_append_iff hrun).mpr ?_⟩
      · rw [andThen_of_ok hxp, hfs, hes, List.append_assoc]
      · rw [andThen_of_ok hxp, andThen_of_ok hstep]
        exact hsecond

theorem level {body : Bytes} (h : Follows handler (fields Event.recorder limits body) (fields handler limits body)) :
    Follows handler (level Event.recorder limits body) (level handler limits body) :=
  ((enter body.length).andThen h).andThen leave

theorem report (id : UInt64) {payload : Payload} (h : Follows handler (fields Event.recorder limits payload.contents)
    (fields handler limits payload.contents)) :
    Follows handler (report Event.recorder limits id payload) (report handler limits id payload) := by
  cases payload with
  | uint64 n => exact emit (.uint64 id n)
  | binary bytes => exact emit (.binary id bytes)
  | nested body => exact ((emit .beginNested).andThen (level h)).andThen (emit (.endNested id))

end Follows

theorem follows_fields (handler : Handler σ ρ) (limits : Limits) (input : Bytes) :
    Follows handler (fields Event.recorder limits input) (fields handler limits input) := by
  induction input using input_ind with
  | step input ih =>
    rw [fields_eq handler, fields_eq Event.recorder]
    cases hhead : head input with
    | nothing => exact .done
    | noHeader e => exact .fail e
    | noPayload header e => exact (Follows.announce header).andThen (.reject e)
    | field id payload rest =>
      obtain ⟨hcontents, hrest⟩ := ih id payload rest hhead
      exact ((Follows.announce ⟨id, payload.wireType⟩).andThen (.report id hcontents)).andThen hrest

theorem follows_level (handler : Handler σ ρ) (limits : Limits) (message : Bytes) :
    Follows handler (level Event.recorder limits message) (level handler limits message) :=
  (follows_fields handler limits message).level

end ParseStep

/-! ### Parses with the recorder and with a handler -/

namespace Parser
open ParseStep
variable {σ ρ : Type} {handler : Handler σ ρ} {s t : σ} {limits : Limits} {bytes : Bytes}

theorem level_replayed (handler : Handler σ ρ) (s : σ) (limits : Limits) (bytes : Bytes) :
    Replayed handler (record limits bytes).2.state s (level Event.recorder limits bytes ⟨[], 0, []⟩)
      (level handler limits bytes ⟨s, 0, []⟩) := by
  obtain ⟨events, hevents, hreplayed⟩ := follows_level handler limits bytes ⟨[], 0, []⟩ s
  rw [state, (record_eq_level limits bytes).2, hevents]
  exact hreplayed

theorem parse_of_run_eq_ok (h : handler.run (record limits bytes).2.state s = (.ok (), t)) :
    ((new handler s limits).parse bytes).1 = (record limits bytes).1 ∧
      ((new handler s limits).parse bytes).2.state = t ∧
      ((new handler s limits).parse bytes).2.depth = (record limits bytes).2.depth := by
  obtain ⟨hrecord, hrecord'⟩ := record_eq_level limits bytes
  obtain ⟨hparse, hparse'⟩ := parse_new handler s limits bytes
  have hlevel := (replayed_iff_of_ok h).mp (level_replayed handler s limits bytes)
  rw [state, depth, depth, hrecord, hrecord', hparse, hparse', hlevel]
  exact ⟨rfl, rfl, rfl⟩

theorem parse_of_run_eq_error {e : Error} (h : handler.run (record limits bytes).2.state s = (.error e, t)) :
    ((new handler s limits).parse bytes).1 = .error e ∧ ((new handler s limits).parse bytes).2.state = t := by
  obtain ⟨hparse, hparse'⟩ := parse_new handler s limits bytes
  obtain ⟨q, hq, hstate⟩ := (replayed_iff_of_error h).mp (level_replayed handler s limits bytes)
  rw [state, hparse, hparse', hq]
  exact ⟨rfl, hstate⟩

theorem decode_eq_run (limits : Limits) (bytes : Bytes) :
    Message.decode limits bytes =
      match Decoder.handler.run (record limits bytes).2.state .empty with
      | (.error e, _) => .error e
      | (.ok (), d) =>
        match (record limits bytes).1 with
        | .error e => .error e
        | .ok () => d.finish := by
  have hlevel := level_replayed Decoder.handler .empty limits bytes
  rw [Message.decode_eq, (record_eq_level limits bytes).1]
  rcases hrun : Decoder.handler.run (record limits bytes).2.state .empty with ⟨e | _, d⟩
  · obtain ⟨q, hq, -⟩ := (replayed_iff_of_error hrun).mp hlevel
    rw [hq]
  · rw [(replayed_iff_of_ok hrun).mp hlevel]
    rcases hrecord : level Event.recorder limits bytes ⟨[], 0, []⟩ with ⟨_ | _, q⟩
    · rfl
    · -- A recorded parse that succeeds has left every level, so the decoder is asked for its message.
      obtain ⟨-, -, -, -, hdepth, -⟩ := level_eq_ok (exists_of_fields_eq_ok bytes) hrecord
      exact if_neg (not_not.mpr hdepth)

/-- A parse hands over the events that are recorded for the same input under the same limits, in their order. Either
    the handler takes in all of them, and the parse ends as the recorded one does. Or it refuses one, and then it is
    handed nothing more and the parse ends with its refusal. So a message is decoded by running the decoder over the
    recorded events, with its first refusal as the error, or else that of the recorded parse. -/
theorem parse_eq_run_recorded (handler : Handler σ ρ) (s : σ) (limits : Limits) (bytes : Bytes) :
    let events := (record limits bytes).2.state
    let parsed := (new handler s limits).parse bytes
    let watched := (new handler.watched (s, []) limits).parse bytes
    (watched.1 = parsed.1 ∧ watched.2.state.1 = parsed.2.state) ∧
      ((handler.run events s = (.ok (), parsed.2.state) ∧ watched.2.state.2 = events ∧
          parsed.1 = (record limits bytes).1 ∧ parsed.2.depth = (record limits bytes).2.depth) ∨
        ∃ before event after t e, events = before ++ event :: after ∧ handler.run before s = (.ok (), t) ∧
          handler.receive event t = (.error e, parsed.2.state) ∧ watched.2.state.2 = before ++ [event] ∧
          parsed.1 = .error e) ∧
      Message.decode limits bytes =
        match Decoder.handler.run events .empty with
        | (.error e, _) => .error e
        | (.ok (), d) =>
          match (record limits bytes).1 with
          | .error e => .error e
          | .ok () => d.finish := by
  intro events parsed watched
  rcases hrun : handler.run events s with ⟨e | _, t⟩
  · obtain ⟨hanswer, hstate⟩ := parse_of_run_eq_error hrun
    obtain ⟨before, event, after, u, hevents, hbefore, hrefused⟩ := Handler.run_eq_error_iff.mp hrun
    -- The watched handler refuses the same event, and has then seen that event and those before it.
    have hwatched := Handler.run_watched_of_error after [] hbefore hrefused
    rw [← hevents] at hwatched
    obtain ⟨hanswer', hstate'⟩ := parse_of_run_eq_error hwatched
    refine ⟨⟨hanswer'.trans hanswer.symm, ?_⟩, Or.inr ?_, decode_eq_run limits bytes⟩
    · rw [hstate', hstate]
    · exact ⟨before, event, after, u, e, hevents, hbefore, hstate ▸ hrefused, congrArg Prod.snd hstate', hanswer⟩
  · obtain ⟨hanswer, hstate, hdepth⟩ := parse_of_run_eq_ok hrun
    obtain ⟨hanswer', hstate', -⟩ := parse_of_run_eq_ok (Handler.run_watched_of_ok [] hrun)
    refine ⟨⟨hanswer'.trans hanswer.symm, ?_⟩, Or.inl ?_, decode_eq_run limits bytes⟩
    · rw [hstate', hstate]
    · exact ⟨by rw [hstate], congrArg Prod.snd hstate', hanswer, hdepth⟩

/-- A decoder that refuses the second of three fields, for its id, in front of a header of an unknown type. It is never
    handed the third field, and the decoder's refusal is the error, not the header. -/
theorem parse_eq_run_recorded_duplicate :
    (record ⟨7, 1⟩ [0x11, 0x55, 0x11, 0x57, 0x21, 0x03, 0x13]).2.state = [.uint64 1 42, .uint64 1 43, .uint64 2 1] ∧
      (record ⟨7, 1⟩ [0x11, 0x55, 0x11, 0x57, 0x21, 0x03, 0x13]).1 = .error (.unknownWireType 1) ∧
      ((new Decoder.handler.watched (.empty, []) ⟨7, 1⟩).parse [0x11, 0x55, 0x11, 0x57, 0x21, 0x03, 0x13]).2.state.2 =
        [.uint64 1 42, .uint64 1 43] ∧
      ((new Decoder.handler .empty ⟨7, 1⟩).parse [0x11, 0x55, 0x11, 0x57, 0x21, 0x03, 0x13]).1 =
        .error (.duplicateField 1) ∧
      Message.decode ⟨7, 1⟩ [0x11, 0x55, 0x11, 0x57, 0x21, 0x03, 0x13] = .error (.duplicateField 1) := by
  have hevents : (record ⟨7, 1⟩ [0x11, 0x55, 0x11, 0x57, 0x21, 0x03, 0x13]).2.state =
      [.uint64 1 42, .uint64 1 43, .uint64 2 1] := by cbv
  have hrecord : (record ⟨7, 1⟩ [0x11, 0x55, 0x11, 0x57, 0x21, 0x03, 0x13]).1 = .error (.unknownWireType 1) := by cbv
  have hfirst : Decoder.handler.run [.uint64 1 42] .empty = (.ok (), ⟨[Forest.message [(1, .uint64 42)]]⟩) := by cbv
  have hsecond : Decoder.handler.receive (.uint64 1 43) ⟨[Forest.message [(1, .uint64 42)]]⟩ =
      (.error (.duplicateField 1), ⟨[Forest.message [(1, .uint64 42)]]⟩) := by cbv
  have hrun : Decoder.handler.run [.uint64 1 42, .uint64 1 43, .uint64 2 1] .empty =
      (.error (.duplicateField 1), ⟨[Forest.message [(1, .uint64 42)]]⟩) :=
    Handler.run_eq_error_iff.mpr ⟨[.uint64 1 42], _, _, _, rfl, hfirst, hsecond⟩
  obtain ⟨-, houtcome, hdecode⟩ :=
    parse_eq_run_recorded Decoder.handler .empty ⟨7, 1⟩ [0x11, 0x55, 0x11, 0x57, 0x21, 0x03, 0x13]
  rw [hevents] at houtcome hdecode
  rw [hrun] at houtcome hdecode
  rcases houtcome with ⟨htaken, -⟩ | ⟨before, event, after, t, e, hsplit, hbefore, hrefused, hseen, hparsed⟩
  · cases htaken
  · -- The watched decoder has one run over these events, so the event refused here is the second.
    have hseen' := Handler.run_watched_of_error after [] hbefore hrefused
    rw [← hsplit] at hseen'
    obtain ⟨herror, hstate⟩ := Prod.mk.inj
      ((Handler.run_watched_of_error [.uint64 2 1] [] hfirst hsecond).symm.trans hseen')
    cases herror
    exact ⟨hevents, hrecord, hseen.trans (Prod.mk.inj hstate).2.symm, hparsed, hdecode⟩

end Parser
end FieldWire
