import FieldWire.Proofs.Parser.Invariant
import Mathlib.Data.List.Infix

/-! # Three counts of the depth

The levels that a parser has open, the messages that are begun and not ended among its events (`Event.opened`), and the
messages that the decoder has under construction are in step as long as a parse goes well, and at the end of each that
succeeds. Where a parse fails, the error tells by how much they differ (`Parser.depth_of_feed`): a level that is refused
is begun and not open, and a message that is refused at its end is neither. -/

namespace FieldWire

/-! ### Messages begun and not ended -/

namespace Event

/-- What an event adds to the number of nested messages that are begun and not ended. -/
def change : Event → Int
  | beginNested => 1
  | endNested _ => -1
  | _ => 0

def opened : List Event → Int
  | [] => 0
  | event :: rest => event.change + opened rest

theorem opened_concat (events : List Event) (event : Event) :
    opened (events ++ [event]) = opened events + event.change := by
  induction events with
  | nil => exact Int.add_comm event.change 0
  | cons first rest ih => rw [List.cons_append, opened, opened, ih, Int.add_assoc]

/-- No message is ended that was not begun, and all events but ends stand below the depth. -/
structure Within (depth : Nat) (events : List Event) : Prop where
  opened_nonneg : ∀ before, before <+: events → 0 ≤ opened before
  opened_lt : ∀ before event, before ++ [event] <+: events → (∀ id, event ≠ .endNested id) → opened before < depth

theorem within_nil (depth : Nat) : Within depth [] where
  opened_nonneg before h := by
    rw [List.prefix_nil.mp h]
    rfl
  opened_lt before event h := by
    cases List.append_ne_nil_of_right_ne_nil before (List.cons_ne_nil event []) (List.prefix_nil.mp h)

theorem Within.concat {depth : Nat} {events : List Event} {event : Event} (h : Within depth events)
    (hnonneg : 0 ≤ opened events + event.change) (hlt : (∀ id, event ≠ .endNested id) → opened events < depth) :
    Within depth (events ++ [event]) where
  opened_nonneg before hbefore := by
    rcases List.prefix_concat_iff.mp hbefore with rfl | hbefore
    · rw [opened_concat]
      exact hnonneg
    · exact h.opened_nonneg before hbefore
  opened_lt before other hbefore hother := by
    rcases List.prefix_concat_iff.mp hbefore with heq | hbefore
    · obtain ⟨hsame, hevent⟩ := List.append_inj' heq rfl
      obtain rfl := List.singleton_inj.mp hevent
      rw [hsame]
      exact hlt hother
    · exact h.opened_lt before other hbefore hother

/-! ### The recorder -/

variable {limits : Limits} {d : Nat} {events : List Event}

/-- The recorded events have begun, beside the root, as many messages as are under construction. -/
def Recorded (limits : Limits) (d : Nat) (events : List Event) : Prop :=
  opened events + 1 = d ∧ Within limits.maxDepth.toNat events

theorem recorded_nil (limits : Limits) : Recorded limits 1 [] := ⟨rfl, within_nil _⟩

theorem Recorded.opened_eq (h : Recorded limits (d + 1) events) : opened events = d := by
  have hopened := h.1
  omega

theorem Recorded.leaves {n : Nat} {event : Event} (h : Recorded limits d events) (R : Error → Prop)
    (hn : (n : Int) = d + event.change) (hpos : 0 < n)
    (hle : (∀ id, event ≠ .endNested id) → d ≤ limits.maxDepth.toNat) :
    Leaves (Recorded limits n) R (recorder.receive event events) := by
  obtain ⟨hopened, hwithin⟩ := h
  have hnext : opened (recorder.receive event events).2 = opened events + event.change := opened_concat events event
  refine ⟨⟨by omega, hwithin.concat (by omega) fun hevent => ?_⟩, nofun⟩
  have := hle hevent
  omega

theorem tracks_recorder (limits : Limits) (R : Error → Prop) : Tracks recorder limits (Recorded limits) R where
  uint64 n hd hle _ h := h.leaves R (by simp [change]) hd fun _ => hle
  binary bytes hd hle _ h := h.leaves R (by simp [change]) hd fun _ => hle
  beginNested {d s} hd hle h := h.leaves _ (by simp [change]) d.succ_pos fun _ => hle
  endNested {d s id} hd hle _ h := h.leaves R (by simp [change]) hd fun hne => absurd rfl (hne id)

end Event

/-! ### The decoder -/

namespace Decoder

/-- With a message under construction and an id that fits, an insertion fails for an id that is there already and for
    nothing else. -/
theorem leaves_insert {n : Nat} {id : UInt64} {v : Value} {d : Decoder} (hn : 0 < n) (hid : id ≤ FieldHeader.maxId)
    (h : d.depth = n) : Leaves (·.depth = n) (fun e => ∃ id, e = .duplicateField id) (d.insert id v) := by
  rcases d with ⟨_ | ⟨top, outer⟩⟩
  · exact absurd h (Nat.ne_of_lt hn)
  · rcases top.insert_of_le hid v with ⟨-, herror⟩ | ⟨-, m, hm⟩
    · rw [insert_of_eq_error herror]
      exact ⟨h, fun e he => ⟨id, (Except.error.inj he).symm⟩⟩
    · rw [insert_eq_ok_iff.mpr ⟨m, hm, rfl⟩]
      refine ⟨h, fun e he => ?_⟩
      cases he

theorem tracks_decoder (limits : Limits) :
    Tracks handler limits (fun n d => d.depth = n) (fun e => ∃ id, e = .duplicateField id) where
  uint64 n hd _ hid h := leaves_insert hd hid h
  binary bytes hd _ hid h := leaves_insert hd hid h
  beginNested _ _ h := ⟨congrArg (· + 1) h, nofun⟩
  endNested {n d id} hn _ hid h := by
    rcases d with ⟨_ | ⟨nested, _ | ⟨parent, outer⟩⟩⟩
    · cases h
    · cases h
      cases hn
    · exact leaves_insert hn hid (Nat.succ.inj h)

end Decoder

/-! ### Main statement -/

namespace Parser

/-- Whatever a parser is fed, what it reports but ends stands at fewer open messages than the limit on the depth, and no
    message is ended that was not begun. A parse that succeeds leaves no level and no nested message open. The first one
    that fails leaves none open either if its message is too long, as many as the limit if a level is too deep, and
    otherwise one more level than nested messages. The decoder has the root under construction beside the levels that
    are open, but for the failures of the last kind, where the innermost level has no message of its own. -/
theorem depth_of_feed (limits : Limits) (buffers : List Bytes) (last : Bytes) :
    let recording := new Event.recorder [] limits
    let recorded := (recording.feed buffers).2.parse last
    let decoding := new Decoder.handler .empty limits
    let decoded := (decoding.feed buffers).2.parse last
    ((∀ before, before <+: (recording.feed buffers).2.state → 0 ≤ Event.opened before) ∧
        ∀ before event, before ++ [event] <+: (recording.feed buffers).2.state → (∀ id, event ≠ .endNested id) →
          Event.opened before < limits.maxDepth.toNat) ∧
      (recorded.1 = .ok () → recorded.2.depth = 0 ∧ Event.opened recorded.2.state = 0) ∧
      (recording.Accepts buffers → ∀ e, recorded.1 = .error e →
        match e with
        | .oversizeMessage .. => recorded.2.depth = 0 ∧ Event.opened recorded.2.state = 0
        | .depthExceeded _ =>
          recorded.2.depth = limits.maxDepth.toNat ∧ Event.opened recorded.2.state = limits.maxDepth.toNat
        | _ => recorded.2.depth = Event.opened recorded.2.state + 1 ∧ recorded.2.depth ≤ limits.maxDepth.toNat) ∧
      (decoded.1 = .ok () → decoded.2.state.depth = decoded.2.depth + 1) ∧
      (decoding.Accepts buffers → ∀ e, decoded.1 = .error e →
        match e with
        | .oversizeMessage .. | .depthExceeded _ => decoded.2.state.depth = decoded.2.depth + 1
        | _ => decoded.2.state.depth = decoded.2.depth) := by
  intro recording recorded decoding decoded
  have hrecorder := Event.tracks_recorder limits fun _ => False
  have hstart := Event.recorded_nil limits
  have hdecoder := Decoder.tracks_decoder limits
  refine ⟨?_, fun hok => ?_, fun haccepts e he => ?_, fun hok => ?_, fun haccepts e he => ?_⟩
  · obtain ⟨⟨d, -, hwithin⟩, -⟩ := feed_tracks hrecorder hstart buffers
    exact ⟨hwithin.opened_nonneg, hwithin.opened_lt⟩
  · have hready := ready_of_parse_eq_ok hrecorder hstart hok
    exact ⟨hready.depth_eq, hready.state.opened_eq⟩
  · have hfails := fails_of_parse_eq_error hrecorder hstart haccepts he
    -- Each way of failing settles the error, and with it the match in the statement.
    change Fails _ _ _ _ _ recorded.2.depth recorded.2.state at hfails
    generalize recorded.2.depth = depth, recorded.2.state = events at hfails
    cases hfails with
    | tooLong _ hevents => exact ⟨rfl, hevents.opened_eq⟩
    | tooDeep _ hevents => exact ⟨rfl, hevents.opened_eq⟩
    | unreadable _ hunreadable hle hevents => cases hunreadable <;> exact ⟨hevents.1.symm, hle⟩
    | refused _ hrefused => exact hrefused.elim
  · have hready := ready_of_parse_eq_ok hdecoder rfl hok
    exact hready.state.trans (congrArg (· + 1) hready.depth_eq.symm)
  · have hfails := fails_of_parse_eq_error hdecoder rfl haccepts he
    change Fails _ _ _ _ _ decoded.2.depth decoded.2.state at hfails
    generalize decoded.2.depth = depth, decoded.2.state = d at hfails
    cases hfails with
    | tooLong _ hd => exact hd
    | tooDeep _ hd => exact hd
    | unreadable _ hunreadable _ hd => cases hunreadable <;> exact hd
    | refused _ hrefused _ hd =>
      obtain ⟨id, rfl⟩ := hrefused
      exact hd

/-- The same id stands at all levels. A third level is too deep for both handlers. A second one is too much only for the
    decoder, which refuses it at its end. -/
theorem depth_of_feed_two_levels :
    let recording := new Event.recorder [] ⟨4, 2⟩
    let decoding := new Decoder.handler .empty ⟨4, 2⟩
    let tooDeep := (recording.feed [[0x11, 0x55]]).2.parse [0x15, 0x05, 0x15, 0x01]
    let tooDeep' := (decoding.feed [[0x11, 0x55]]).2.parse [0x15, 0x05, 0x15, 0x01]
    let recorded := (recording.feed [[0x11, 0x55]]).2.parse [0x15, 0x05, 0x11, 0x01]
    let refused := (decoding.feed [[0x11, 0x55]]).2.parse [0x15, 0x05, 0x11, 0x01]
    (tooDeep.2.depth = 2 ∧ Event.opened tooDeep.2.state = 2) ∧ tooDeep'.2.state.depth = tooDeep'.2.depth + 1 ∧
      (recorded.2.depth = 0 ∧ Event.opened recorded.2.state = 0) ∧ refused.2.state.depth = refused.2.depth := by
  have hrecording : (new Event.recorder [] ⟨4, 2⟩).Accepts [[0x11, 0x55]] :=
    accepts_cons_iff.mpr ⟨by cbv, accepts_nil _⟩
  have hdecoding : (new Decoder.handler .empty ⟨4, 2⟩).Accepts [[0x11, 0x55]] :=
    accepts_cons_iff.mpr ⟨by cbv, accepts_nil _⟩
  obtain ⟨-, -, htooDeep, -, htooDeep'⟩ := depth_of_feed ⟨4, 2⟩ [[0x11, 0x55]] [0x15, 0x05, 0x15, 0x01]
  obtain ⟨-, hrecorded, -, -, hrefused⟩ := depth_of_feed ⟨4, 2⟩ [[0x11, 0x55]] [0x15, 0x05, 0x11, 0x01]
  exact ⟨htooDeep hrecording (.depthExceeded 2) (by cbv), htooDeep' hdecoding (.depthExceeded 2) (by cbv),
    hrecorded (by cbv), hrefused hdecoding (.duplicateField 1) (by cbv)⟩

end Parser
end FieldWire
