import FieldWire.Proofs.Parser.Repeats

/-! # Work bounded by the input

What a parse hands to its handler is paid for by the bytes that it reads. A field has two varints at the least, so two
bytes pay for the event that reports it and, if it is nested, for the one that ends it; the bytes of a byte string are paid for
by themselves. A nested message is a part of the input of its own, so nothing is paid for twice. As the handler plays no
part in this, the bound holds for every handler, under all limits and wherever the parse stops (`Parser.work_of_parse`). -/

namespace FieldWire

/-! ### Work -/

namespace Event
variable {events : List Event}

def isEnd : Event → Bool
  | endNested _ => true
  | _ => false

/-- The bytes that are handed over with the event. -/
def carried : Event → Bytes
  | binary _ bytes => bytes
  | _ => []

/-- Two for each event but ends, and one for each byte that is handed over. -/
def work (events : List Event) : Nat :=
  2 * events.countP (!·.isEnd) + (events.flatMap carried).length

theorem work_append (events more : List Event) : work (events ++ more) = work events + work more := by
  simp only [work, List.countP_append, List.flatMap_append, List.length_append]
  omega

/-- An event is paid for by the work that is counted for it, but for ends, which their beginnings pay for. -/
theorem length_add_opened_le (events : List Event) : events.length + opened events ≤ work events := by
  induction events with
  | nil => decide
  | cons event rest ih =>
    have hwork : work (event :: rest) = work [event] + work rest := work_append [event] rest
    have hevent : 1 + event.change ≤ work [event] := by
      cases event with
      | binary id bytes =>
        simp [change, work, isEnd, carried]
        omega
      | _ => simp [work, change, isEnd, carried]
    rw [hwork, opened, List.length_cons]
    omega

/-- What ends nested messages that were begun is no more than the work. -/
theorem Enclosed.length_le (h : Enclosed events) : events.length ≤ work events := by
  have hnonneg := h.opened_nonneg
  have hle := length_add_opened_le events
  omega

end Event

/-! ### What a step costs -/

namespace ParseStep
open Event
variable {σ ρ : Type} {handler : Handler σ ρ} {limits : Limits} {a b k m n : Nat} {x y : ParseStep (σ × List Event)}

/-- Of a handler that is watched, the step adds no more than the cost to the work, and ends nothing that was not begun. If
    it succeeds where `m` nested messages are open, it leaves `n` of them open. -/
def Costs (cost m n : Nat) (x : ParseStep (σ × List Event)) : Prop :=
  ∀ p, Enclosed p.state.2 → opened p.state.2 = m →
    work (x p).2.state.2 ≤ work p.state.2 + cost ∧ Enclosed (x p).2.state.2 ∧
      ((x p).1 = .ok () → opened (x p).2.state.2 = n)

namespace Costs

/-- A step that hands over nothing costs nothing. -/
theorem silent (hx : ∀ p, (x p).2.state = p.state) : Costs 0 n n x := by
  intro p henclosed hopened
  rw [hx p]
  exact ⟨Nat.le_refl _, henclosed, fun _ => hopened⟩

/-- An event costs the same whether it is taken in or refused. -/
theorem emit {event : Event} (h : (n : Int) = m + event.change) :
    Costs (work [event]) m n (emit handler.watched event) := by
  intro p henclosed hopened
  have hevents : (ParseStep.emit handler.watched event p).2.state.2 = p.state.2 ++ [event] := rfl
  rw [hevents, work_append, opened_concat, enclosed_concat_iff]
  exact ⟨Nat.le_refl _, ⟨henclosed, by omega⟩, fun _ => by omega⟩

theorem andThen (hx : Costs a k m x) (hy : Costs b m n y) : Costs (a + b) k n (x.andThen y) := by
  intro p henclosed hopened
  obtain ⟨hwork, hfirst, hnext⟩ := hx p henclosed hopened
  rcases hxp : x p with ⟨e | _, q⟩ <;> rw [hxp] at hwork hfirst hnext
  · rw [andThen_of_error hxp]
    exact ⟨Nat.le_trans hwork (by omega), hfirst, nofun⟩
  · rw [andThen_of_ok hxp]
    obtain ⟨hwork', hsecond, hlast⟩ := hy q hfirst (hnext rfl)
    refine ⟨Nat.le_trans hwork' ?_, hsecond, hlast⟩
    rw [← Nat.add_assoc]
    exact Nat.add_le_add_right hwork b

theorem mono (hx : Costs a m n x) (hle : a ≤ b) : Costs b m n x := by
  intro p henclosed hopened
  obtain ⟨hwork, hrest⟩ := hx p henclosed hopened
  exact ⟨by omega, hrest⟩

/-- A level costs what its fields do. -/
theorem level {body : Bytes} (h : Costs a n n (fields handler.watched limits body)) :
    Costs a n n (level handler.watched limits body) := by
  have hleave : Costs 0 n n (leave : ParseStep (σ × List Event)) := silent fun _ => rfl
  exact (((silent (enter_state limits body.length)).andThen h).andThen hleave).mono (by omega)

/-- What reports a field is paid for by two bytes and by what the payload hands on. -/
theorem report {payload : Payload} (h : ∀ n, Costs payload.contents.length n n
    (fields handler.watched limits payload.contents)) (id : UInt64) (n : Nat) :
    Costs (2 + payload.contents.length) n n (report handler.watched limits id payload) := by
  cases payload with
  | uint64 i =>
    have hcosts : Costs 2 n n (ParseStep.emit handler.watched (.uint64 id i)) := emit (by simp [change])
    exact hcosts
  | binary bytes =>
    have hcosts : Costs (work [.binary id bytes]) n n (ParseStep.emit handler.watched (.binary id bytes)) :=
      emit (by simp [change])
    exact hcosts.mono (by simp [work, isEnd, carried, Payload.contents])
  | nested body =>
    have hbegin : Costs 2 n (n + 1) (ParseStep.emit handler.watched .beginNested) := emit (by simp [change])
    have hend : Costs 0 (n + 1) n (ParseStep.emit handler.watched (.endNested id)) := emit (by simp [change])
    exact (hbegin.andThen (level (h (n + 1)))).andThen hend

end Costs

/-- All that is handed over while an input is read is paid for by its bytes. -/
theorem costs_fields (handler : Handler σ ρ) (limits : Limits) (input : Bytes) :
    ∀ n, Costs input.length n n (fields handler.watched limits input) := by
  induction input using input_ind with
  | step input ih =>
    intro n
    rw [fields_eq]
    cases hhead : head input with
    | nothing => exact (Costs.silent fun _ => rfl).mono (Nat.zero_le _)
    | noHeader e => exact (Costs.silent fun _ => rfl).mono (Nat.zero_le _)
    | noPayload header e =>
      have hannounce : Costs 0 n n (announce header : ParseStep (σ × List Event)) := .silent fun _ => rfl
      exact (hannounce.andThen (.silent (reject_state e))).mono (Nat.zero_le _)
    | field id payload rest =>
      obtain ⟨hcontents, hrest⟩ := ih id payload rest hhead
      have hle := length_le_of_head_eq_field hhead
      have hannounce : Costs 0 n n (announce ⟨id, payload.wireType⟩ : ParseStep (σ × List Event)) :=
        .silent fun _ => rfl
      exact ((hannounce.andThen (.report hcontents id n)).andThen (hrest n)).mono (by omega)

theorem costs_level (handler : Handler σ ρ) (limits : Limits) (message : Bytes) (n : Nat) :
    Costs message.length n n (level handler.watched limits message) :=
  (costs_fields handler limits message n).level

/-- A handler that is watched answers as it does alone, from any state. -/
theorem level_watched (handler : Handler σ ρ) (limits : Limits) (message : Bytes) (p : Progress σ) (seen : List Event) :
    let plain := level handler limits message p
    let watched := level handler.watched limits message ⟨(p.state, seen), p.depth, p.log⟩
    watched.1 = plain.1 ∧ watched.2.state.1 = plain.2.state := by
  obtain ⟨state, depth, log⟩ := p
  obtain ⟨events, hevents, hplain⟩ := follows_level handler limits message ⟨[], depth, log⟩ state
  obtain ⟨events', hevents', hwatched⟩ := follows_level handler.watched limits message ⟨[], depth, log⟩ (state, seen)
  obtain rfl : events' = events := List.append_cancel_left (hevents'.symm.trans hevents)
  rcases hrun : handler.run events' state with ⟨e | _, t⟩
  · obtain ⟨before, event, after, u, rfl, hbefore, hrefused⟩ := Handler.run_eq_error_iff.mp hrun
    obtain ⟨q, hq, hstate⟩ := (replayed_iff_of_error hrun).mp hplain
    obtain ⟨q', hq', hstate'⟩ :=
      (replayed_iff_of_error (Handler.run_watched_of_error after seen hbefore hrefused)).mp hwatched
    dsimp only
    rw [hq, hq', hstate, hstate']
    exact ⟨rfl, rfl⟩
  · dsimp only
    rw [(replayed_iff_of_ok hrun).mp hplain, (replayed_iff_of_ok (Handler.run_watched_of_ok seen hrun)).mp hwatched]
    exact ⟨rfl, rfl⟩

end ParseStep

/-! ### Main statement -/

namespace Parser
open ParseStep
variable {σ ρ : Type}

/-- The parser, with a list of the events that are handed over from now on. -/
def watched (parser : Parser σ ρ) : Parser (σ × List Event) ρ :=
  ⟨parser.handler.watched, parser.limits, ⟨(parser.state, []), parser.depth, parser.log⟩, parser.failed⟩

theorem watched_parse (parser : Parser σ ρ) (message : Bytes) :
    (parser.watched.parse message).1 = (parser.parse message).1 ∧
      (parser.watched.parse message).2.state.1 = (parser.parse message).2.state := by
  rcases hfailed : parser.failed with _ | _
  · obtain ⟨hanswer, hprogress⟩ := parse_eq_level hfailed message
    have hfailed' : parser.watched.failed = false := hfailed
    obtain ⟨hanswer', hprogress'⟩ := parse_eq_level hfailed' message
    rw [state, state, hanswer, hprogress, hanswer', hprogress']
    exact level_watched parser.handler parser.limits message parser.progress []
  · have hfailed' : parser.watched.failed = true := hfailed
    rw [parse_of_failed hfailed, parse_of_failed hfailed']
    exact ⟨rfl, rfl⟩

theorem work_le_of_parse (parser : Parser σ ρ) (message : Bytes) :
    Event.work (parser.watched.parse message).2.state.2 ≤ message.length ∧
      Event.Enclosed (parser.watched.parse message).2.state.2 := by
  rcases hfailed : parser.watched.failed with _ | _
  · obtain ⟨-, hprogress⟩ := parse_eq_level hfailed message
    have hcosts := costs_level parser.handler parser.limits message 0
    obtain ⟨hwork, henclosed, -⟩ := hcosts parser.watched.progress Event.enclosed_nil rfl
    rw [state, hprogress]
    exact ⟨Nat.le_trans hwork (Nat.zero_add _).le, henclosed⟩
  · rw [parse_of_failed hfailed]
    exact ⟨Nat.zero_le _, Event.enclosed_nil⟩

/-- Whatever a parser is given, and whatever comes of it: two bytes for each event but ends, and the bytes of the byte
    strings that are handed over, are no more than the bytes of the message, and at no time has more been ended than was
    begun. So there are no more events than bytes. Reading takes as many rounds as there are fields; each takes
    bytes off the front, and what is nested in a field is shorter than what the field stands in. -/
theorem work_of_parse (parser : Parser σ ρ) (message : Bytes) :
    let events := (parser.watched.parse message).2.state.2
    ((parser.watched.parse message).1 = (parser.parse message).1 ∧
        (parser.watched.parse message).2.state.1 = (parser.parse message).2.state) ∧
      2 * events.countP (!·.isEnd) + (events.flatMap Event.carried).length ≤ message.length ∧
      (∀ before, before <+: events → 0 ≤ Event.opened before) ∧
      events.length ≤ message.length ∧
      ∀ input id payload rest, head input = .field id payload rest →
        fields parser.handler parser.limits input =
            ((announce ⟨id, payload.wireType⟩
              |>.andThen (report parser.handler parser.limits id payload))
              |>.andThen (fields parser.handler parser.limits rest)) ∧
          rest.length < input.length ∧ payload.contents.length < input.length := by
  intro events
  obtain ⟨hwork, henclosed⟩ := parser.work_le_of_parse message
  refine ⟨parser.watched_parse message, hwork, henclosed, henclosed.length_le.trans hwork, ?_⟩
  intro input id payload rest hhead
  have hlt := length_lt_of_head_eq_field hhead
  rw [fields_eq, hhead]
  exact ⟨rfl, by omega, by omega⟩

/-- Nested messages that are empty leave no byte over. The second one is refused at its end, with one message left open. -/
theorem work_of_parse_empty_messages :
    let parser := new Decoder.handler .empty ⟨6, 3⟩
    let message : Bytes := [0x15, 0x09, 0x15, 0x01, 0x15, 0x01]
    let events := (parser.watched.parse message).2.state.2
    (parser.watched.parse message).1 = .error (.duplicateField 1) ∧
      events = [.beginNested, .beginNested, .endNested 1, .beginNested, .endNested 1] ∧
      2 * events.countP (!·.isEnd) + (events.flatMap Event.carried).length = message.length ∧
      0 ≤ Event.opened [.beginNested, .beginNested, .endNested 1] ∧
      ([0x15, 0x01, 0x15, 0x01] : Bytes).length < message.length := by
  intro parser message events
  obtain ⟨⟨hanswer, -⟩, -, hprefix, -, hround⟩ := work_of_parse parser message
  have hevents : (parser.watched.parse message).2.state.2 =
      [.beginNested, .beginNested, .endNested 1, .beginNested, .endNested 1] := by cbv
  have hrefused : (parser.parse message).1 = .error (.duplicateField 1) := by cbv
  have hnonneg := hprefix [.beginNested, .beginNested, .endNested 1] ⟨[.beginNested, .endNested 1], hevents.symm⟩
  obtain ⟨-, -, hshort⟩ := hround message 1 (.nested [0x15, 0x01, 0x15, 0x01]) [] (by cbv)
  refine ⟨hanswer.trans hrefused, hevents, ?_, hnonneg, hshort⟩
  rw [show events = _ from hevents]
  rfl

end Parser
end FieldWire
