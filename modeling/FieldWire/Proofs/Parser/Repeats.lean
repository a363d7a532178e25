import FieldWire.Proofs.Parser.Depth
import FieldWire.Proofs.Parser.Replay

/-! # Ids that repeat

A field is complete when its event comes, a nested message when its end does. An event repeats an id if an earlier
event has completed a field with that id in the same message (`Event.Repeats`), that is with all messages ended in
between that were begun in between, and no other one. The decoder has in each open message the ids that are completed
there (`Decoder.Mirrors`). So it takes in an event exactly if it repeats no id (`Decoder.Mirrors.receive`), and the
first one that does is what an accepted input is not decoded for (`Parser.decode_first_repeat`). -/

namespace FieldWire

namespace Event
variable {events before inner : List Event} {event : Event} {id : UInt64} {level : Nat}

/-! ### Completed ids -/

/-- The id of the field that the event completes. -/
def completes? : Event → Option UInt64
  | uint64 id _ => some id
  | binary id _ => some id
  | beginNested => none
  | endNested id => some id

/-- Whatever the events end, they have begun. -/
def Enclosed (events : List Event) : Prop := ∀ before, before <+: events → 0 ≤ opened before

/-- A field with the id is completed in the message that is `level` levels further out than the innermost one that is
    open after the events. -/
def Completed (level : Nat) (events : List Event) (id : UInt64) : Prop :=
  ∃ before event after, events = before ++ event :: after ∧ event.completes? = some id ∧ Enclosed after ∧
    opened after = level

/-- After the events before it, the event completes a field with an id that a field of the same message has. -/
def Repeats (before : List Event) (event : Event) (id : UInt64) : Prop :=
  event.completes? = some id ∧ ∃ front first between, before = front ++ first :: between ∧
    first.completes? = some id ∧ Enclosed (between ++ [event]) ∧ opened (between ++ [event]) = 0

/-- No event repeats an id. -/
def RepeatFree (events : List Event) : Prop :=
  ∀ before event after id, events = before ++ event :: after → ¬Repeats before event id

theorem enclosed_nil : Enclosed [] := fun before h => by
  rw [List.prefix_nil.mp h]
  rfl

theorem Enclosed.opened_nonneg (h : Enclosed events) : 0 ≤ opened events := h events List.prefix_rfl

theorem Enclosed.of_isPrefix (h : Enclosed events) (hbefore : before <+: events) : Enclosed before :=
  fun front hfront => h front (hfront.trans hbefore)

theorem enclosed_concat_iff : Enclosed (events ++ [event]) ↔ Enclosed events ∧ 0 ≤ opened events + event.change := by
  rw [← opened_concat]
  constructor
  · exact fun h => ⟨h.of_isPrefix (List.prefix_append _ _), h.opened_nonneg⟩
  · rintro ⟨h, hlast⟩ before hbefore
    rcases List.prefix_concat_iff.mp hbefore with rfl | hbefore
    · exact hlast
    · exact h before hbefore

/-- The messages that are open after one more event are those that were open before it, by its change more or less. -/
theorem enclosed_concat_opened_iff (level : Nat) :
    Enclosed (events ++ [event]) ∧ opened (events ++ [event]) = level ↔
      ∃ inner : Nat, inner + event.change = level ∧ Enclosed events ∧ opened events = inner := by
  rw [enclosed_concat_iff, opened_concat]
  constructor
  · rintro ⟨⟨hevents, -⟩, hopened⟩
    obtain ⟨inner, hinner⟩ := Int.eq_ofNat_of_zero_le hevents.opened_nonneg
    exact ⟨inner, hinner ▸ hopened, hevents, hinner⟩
  · rintro ⟨inner, hlevel, hevents, hopened⟩
    exact ⟨⟨hevents, by omega⟩, by omega⟩

theorem concat_eq_iff {first : Event} {after : List Event} : events ++ [event] = before ++ first :: after ↔
    (after = [] ∧ before = events ∧ first = event) ∨
      ∃ more, after = more ++ [event] ∧ events = before ++ first :: more := by
  constructor
  · intro h
    rcases List.eq_nil_or_concat after with rfl | ⟨more, last, rfl⟩
    · obtain ⟨hbefore, hlast⟩ := List.append_inj' h rfl
      exact Or.inl ⟨rfl, hbefore.symm, (List.singleton_inj.mp hlast).symm⟩
    · rw [List.concat_eq_append, ← List.cons_append, ← List.append_assoc] at h
      obtain ⟨hevents, hlast⟩ := List.append_inj' h rfl
      exact Or.inr ⟨more, by rw [List.concat_eq_append, hlast], hevents⟩
  · rintro (⟨rfl, rfl, rfl⟩ | ⟨more, rfl, rfl⟩)
    · rfl
    · rw [List.append_assoc, List.cons_append]

/-- What is completed after one more event: the field that it completes, and all that was completed in the messages that
    are still open. -/
theorem completed_concat_iff : Completed level (events ++ [event]) id ↔
    (level = 0 ∧ event.completes? = some id) ∨
      ∃ inner : Nat, inner + event.change = level ∧ Completed inner events id := by
  constructor
  · rintro ⟨before, first, after, hsplit, hid, hafter⟩
    rcases concat_eq_iff.mp hsplit with ⟨rfl, rfl, rfl⟩ | ⟨more, rfl, rfl⟩
    · exact Or.inl ⟨Int.ofNat_eq_zero.mp hafter.2.symm, hid⟩
    · obtain ⟨inner, hlevel, hmore⟩ := (enclosed_concat_opened_iff level).mp hafter
      exact Or.inr ⟨inner, hlevel, before, first, more, rfl, hid, hmore⟩
  · rintro (⟨rfl, hid⟩ | ⟨inner, hlevel, before, first, after, rfl, hid, hafter⟩)
    · exact ⟨events, event, [], rfl, hid, enclosed_nil, rfl⟩
    · exact ⟨before, first, after ++ [event], by simp, hid,
        (enclosed_concat_opened_iff level).mpr ⟨inner, hlevel, hafter⟩⟩

theorem not_completed_nil : ¬Completed level [] id := by
  rintro ⟨before, event, after, hsplit, -⟩
  simp at hsplit

theorem repeats_iff : Repeats events event id ↔
    event.completes? = some id ∧ ∃ level : Nat, level + event.change = 0 ∧ Completed level events id := by
  refine and_congr Iff.rfl ⟨?_, ?_⟩
  · rintro ⟨front, first, between, rfl, hid, hbetween⟩
    obtain ⟨level, hlevel, hbetween⟩ := (enclosed_concat_opened_iff 0).mp hbetween
    exact ⟨level, hlevel, front, first, between, rfl, hid, hbetween⟩
  · rintro ⟨level, hlevel, front, first, between, rfl, hid, hbetween⟩
    exact ⟨front, first, between, rfl, hid, (enclosed_concat_opened_iff 0).mpr ⟨level, hlevel, hbetween⟩⟩

/-- Of an event that ends as many messages as it is told, those that are open after it have what they had before, and
    what it completes itself. -/
theorem completed_concat_of_change {k : Nat} (h : event.change = -k) : Completed level (events ++ [event]) id ↔
    (level = 0 ∧ event.completes? = some id) ∨ Completed (k + level) events id := by
  rw [completed_concat_iff, h]
  refine or_congr Iff.rfl ⟨?_, fun hcompleted => ⟨k + level, by omega, hcompleted⟩⟩
  rintro ⟨inner, hinner, hcompleted⟩
  obtain rfl : inner = k + level := by omega
  exact hcompleted

theorem repeats_of_change {k : Nat} (h : event.change = -k) :
    Repeats events event id ↔ event.completes? = some id ∧ Completed k events id := by
  rw [repeats_iff, h]
  refine and_congr Iff.rfl ⟨?_, fun hcompleted => ⟨k, by omega, hcompleted⟩⟩
  rintro ⟨level, hlevel, hcompleted⟩
  obtain rfl : level = k := by omega
  exact hcompleted

theorem repeatFree_nil : RepeatFree [] := fun before event after id h => by simp at h

theorem repeatFree_concat_iff :
    RepeatFree (events ++ [event]) ↔ RepeatFree events ∧ ∀ id, ¬Repeats events event id := by
  constructor
  · intro h
    refine ⟨fun before first after id hsplit => h before first (after ++ [event]) id ?_,
      fun id => h events event [] id rfl⟩
    exact concat_eq_iff.mpr (Or.inr ⟨after, rfl, hsplit⟩)
  · rintro ⟨h, hlast⟩ before first after id hsplit
    rcases concat_eq_iff.mp hsplit with ⟨rfl, rfl, rfl⟩ | ⟨more, rfl, hevents⟩
    · exact hlast id
    · exact h before first more id hevents

/-- Either no event repeats an id, or there is a first one that does. -/
theorem repeatFree_or_exists (events : List Event) : RepeatFree events ∨
    ∃ before event after id, events = before ++ event :: after ∧ RepeatFree before ∧ Repeats before event id := by
  induction events using List.reverseRecOn with
  | nil => exact Or.inl repeatFree_nil
  | append_singleton events event ih =>
    rcases ih with hfree | ⟨before, first, after, id, rfl, hbefore, hrepeats⟩
    · by_cases hlast : ∃ id, Repeats events event id
      · obtain ⟨id, hrepeats⟩ := hlast
        exact Or.inr ⟨events, event, [], id, rfl, hfree, hrepeats⟩
      · exact Or.inl (repeatFree_concat_iff.mpr ⟨hfree, fun id hrepeats => hlast ⟨id, hrepeats⟩⟩)
    · exact Or.inr ⟨before, first, after ++ [event], id, by simp, hbefore, hrepeats⟩

/-! ### Inside a nested message -/

/-- After some events of a nested message the ids are completed that these complete, and, further out, those that were
    when the message began. -/
theorem completed_nested_iff (h : Enclosed inner) : Completed level (before ++ .beginNested :: inner) id ↔
    Completed level inner id ∨ ∃ outer : Nat, outer + 1 + opened inner = level ∧ Completed outer before id := by
  induction inner using List.reverseRecOn generalizing level with
  | nil =>
    rw [completed_concat_iff]
    simp [completes?, change, opened, not_completed_nil]
  | append_singleton inner event ih =>
    obtain ⟨hinner, hnonneg⟩ := enclosed_concat_iff.mp h
    rw [← List.cons_append, ← List.append_assoc, completed_concat_iff, completed_concat_iff, opened_concat, or_assoc]
    refine or_congr Iff.rfl ⟨?_, ?_⟩
    · rintro ⟨k, hk, hcompleted⟩
      rcases (ih hinner).mp hcompleted with hcompleted | ⟨outer, houter, hcompleted⟩
      · exact Or.inl ⟨k, hk, hcompleted⟩
      · exact Or.inr ⟨outer, by omega, hcompleted⟩
    · rintro (⟨k, hk, hcompleted⟩ | ⟨outer, houter, hcompleted⟩)
      · exact ⟨k, hk, (ih hinner).mpr (Or.inl hcompleted)⟩
      · obtain ⟨k, hk⟩ := Int.eq_ofNat_of_zero_le hinner.opened_nonneg
        exact ⟨outer + 1 + k, by omega, (ih hinner).mpr (Or.inr ⟨outer, by omega, hcompleted⟩)⟩

/-- An event of a nested message repeats an id if it would with the events of that message alone. -/
theorem repeats_nested_iff (h : Enclosed (inner ++ [event])) :
    Repeats (before ++ .beginNested :: inner) event id ↔ Repeats inner event id := by
  obtain ⟨hinner, hnonneg⟩ := enclosed_concat_iff.mp h
  rw [repeats_iff, repeats_iff]
  refine and_congr Iff.rfl ⟨?_, ?_⟩
  · rintro ⟨level, hlevel, hcompleted⟩
    rcases (completed_nested_iff hinner).mp hcompleted with hcompleted | ⟨outer, houter, -⟩
    · exact ⟨level, hlevel, hcompleted⟩
    · omega
  · rintro ⟨level, hlevel, hcompleted⟩
    exact ⟨level, hlevel, (completed_nested_iff hinner).mpr (Or.inl hcompleted)⟩

/-- The end of a nested message repeats an id that was completed when it began. -/
theorem repeats_end_of_completed (h : Enclosed inner) (hinner : opened inner = 0) (hid : Completed 0 before id) :
    Repeats (before ++ .beginNested :: inner) (.endNested id) id :=
  repeats_iff.mpr ⟨rfl, 1, rfl, (completed_nested_iff h).mpr (Or.inr ⟨0, by omega, hid⟩)⟩

theorem repeatFree_nested (h : Enclosed inner) (hbefore : RepeatFree before) (hfree : RepeatFree inner) :
    RepeatFree (before ++ .beginNested :: inner) := by
  induction inner using List.reverseRecOn with
  | nil => exact repeatFree_concat_iff.mpr ⟨hbefore, fun id hrepeats => by cases hrepeats.1⟩
  | append_singleton inner event ih =>
    obtain ⟨hinner, -⟩ := enclosed_concat_iff.mp h
    obtain ⟨hfree, hlast⟩ := repeatFree_concat_iff.mp hfree
    rw [← List.cons_append, ← List.append_assoc]
    exact repeatFree_concat_iff.mpr ⟨ih hinner hfree, fun id hrepeats => hlast id ((repeats_nested_iff h).mp hrepeats)⟩

/-! ### Ids that fit -/

/-- The id that the event completes fits into a header. -/
def Fits (event : Event) : Prop := ∀ id, event.completes? = some id → id ≤ FieldHeader.maxId

theorem fits_of_completes (h : event.completes? = some id) (hid : id ≤ FieldHeader.maxId) : event.Fits := fun i hi => by
  cases h.symm.trans hi
  exact hid

theorem leaves_recorder_of_fits (R : Error → Prop) (hevents : ∀ event ∈ events, event.Fits) (hevent : event.Fits) :
    Leaves (fun events => ∀ event ∈ events, event.Fits) R (recorder.receive event events) :=
  ⟨List.forall_mem_append.mpr ⟨hevents, List.forall_mem_singleton.mpr hevent⟩, nofun⟩

theorem tracks_recorder_fits (limits : Limits) (R : Error → Prop) :
    Tracks recorder limits (fun _ events => ∀ event ∈ events, event.Fits) R where
  uint64 _ _ _ hid h := leaves_recorder_of_fits R h (fits_of_completes rfl hid)
  binary _ _ _ hid h := leaves_recorder_of_fits R h (fits_of_completes rfl hid)
  beginNested _ _ h := leaves_recorder_of_fits _ h fun _ hid => by cases hid
  endNested _ _ hid h := leaves_recorder_of_fits R h (fits_of_completes rfl hid)

end Event

/-! ### The decoder -/

namespace Decoder
open Event
variable {events : List Event} {event : Event} {id : UInt64} {d : Decoder}

/-- The decoder has the messages under construction that the events leave open, and each has the ids that they complete
    in it. -/
structure Mirrors (events : List Event) (d : Decoder) : Prop where
  depth_eq : (d.depth : Int) = opened events + 1
  contains_iff : ∀ {level m}, d.stack[level]? = some m → ∀ id, m.contains id = true ↔ Completed level events id

theorem mirrors_empty : Mirrors [] empty where
  depth_eq := rfl
  contains_iff {level m} hm id := by
    cases level with
    | zero =>
      cases hm
      exact iff_of_false Bool.false_ne_true not_completed_nil
    | succ level => cases hm

theorem Mirrors.beginNested (h : Mirrors events d) : Mirrors (events ++ [.beginNested]) ⟨.empty :: d.stack⟩ where
  depth_eq := by
    rw [opened_concat, change, ← h.depth_eq]
    rfl
  contains_iff {level m} hm id := by
    rw [completed_concat_iff, change]
    cases level with
    | zero =>
      cases hm
      refine iff_of_false Bool.false_ne_true ?_
      rintro (⟨-, hid⟩ | ⟨inner, hinner, -⟩)
      · cases hid
      · omega
    | succ level =>
      rw [h.contains_iff hm id]
      constructor
      · exact fun hcompleted => Or.inr ⟨level, rfl, hcompleted⟩
      · rintro (⟨hlevel, -⟩ | ⟨inner, hinner, hcompleted⟩)
        · cases hlevel
        · obtain rfl : inner = level := by omega
          exact hcompleted

section
variable {k : Nat} {top m : Message} {outer : List Message} {v : Value}

/-- An event that completes a field inserts it in the message that is innermost then. -/
theorem receive_of_completes (hid : event.completes? = some id) (hopen : 0 < d.depth + event.change) :
    ∃ (k : Nat) (top : Message) (outer : List Message) (v : Value), event.change = -k ∧
      d.stack.drop k = top :: outer ∧ handler.receive event d = insert ⟨top :: outer⟩ id v := by
  rcases d with ⟨stack⟩
  cases event with
  | uint64 i n =>
    cases hid
    rcases stack with _ | ⟨top, outer⟩
    · cases hopen
    · exact ⟨0, top, outer, .uint64 n, rfl, rfl, rfl⟩
  | binary i bytes =>
    cases hid
    rcases stack with _ | ⟨top, outer⟩
    · cases hopen
    · exact ⟨0, top, outer, .binary bytes, rfl, rfl, rfl⟩
  | beginNested => cases hid
  | endNested i =>
    cases hid
    rcases stack with _ | ⟨nested, _ | ⟨parent, outer⟩⟩
    · cases hopen
    · cases hopen
    · exact ⟨1, parent, outer, .message nested, rfl, rfl, rfl⟩

theorem getElem?_of_drop (h : d.stack.drop k = top :: outer) (level : Nat) :
    d.stack[k + level]? = (top :: outer)[level]? := by
  rw [← h, List.getElem?_drop]

theorem Mirrors.insert (h : Mirrors events d) (hid : event.completes? = some id) (hchange : event.change = -k)
    (hstack : d.stack.drop k = top :: outer) (hm : top.insert id v = .ok m) :
    Mirrors (events ++ [event]) ⟨m :: outer⟩ where
  depth_eq := by
    have hlength := congrArg List.length hstack
    have hdepth := h.depth_eq
    rw [List.length_drop, List.length_cons] at hlength
    rw [opened_concat, hchange]
    simp only [depth, List.length_cons] at hdepth ⊢
    omega
  contains_iff {level n} hn i := by
    -- Only the innermost message has a new id; those around it are as far out as before, less the ended ones.
    rw [completed_concat_of_change hchange, hid]
    cases level with
    | zero =>
      cases hn
      rw [Message.contains_of_insert_eq_ok hm, h.contains_iff (getElem?_of_drop hstack 0), eq_comm]
      simp
    | succ level =>
      rw [h.contains_iff ((getElem?_of_drop hstack (level + 1)).trans hn)]
      simp

theorem Mirrors.repeats_iff (h : Mirrors events d) (hid : event.completes? = some id) (hchange : event.change = -k)
    (hstack : d.stack.drop k = top :: outer) : Repeats events event id ↔ top.contains id = true := by
  rw [repeats_of_change hchange, and_iff_right hid, h.contains_iff (getElem?_of_drop hstack 0), Nat.add_zero]

end

/-- The decoder refuses an event exactly if it repeats an id, if it ends nothing that was not begun. -/
theorem Mirrors.receive (h : Mirrors events d) (hnonneg : 0 ≤ opened events + event.change) (hfits : event.Fits) :
    ((∀ id, ¬Repeats events event id) ∧
        ∃ u, handler.receive event d = (.ok (), u) ∧ Mirrors (events ++ [event]) u) ∨
      ∃ id u, Repeats events event id ∧ handler.receive event d = (.error (.duplicateField id), u) := by
  cases hid : event.completes? with
  | none =>
    obtain rfl : event = .beginNested := by
      cases event with
      | beginNested => rfl
      | _ => cases hid
    exact Or.inl ⟨fun id hrepeats => (by cases hrepeats.1), _, rfl, h.beginNested⟩
  | some id =>
    have hdepth := h.depth_eq
    obtain ⟨k, top, outer, v, hchange, hstack, hreceive⟩ := receive_of_completes (d := d) hid (by omega)
    have hiff := h.repeats_iff hid hchange hstack
    rw [hreceive]
    rcases top.insert_of_le (hfits id hid) v with ⟨hthere, herror⟩ | ⟨hnew, m, hm⟩
    · exact Or.inr ⟨id, _, hiff.mpr hthere, insert_of_eq_error herror⟩
    · refine Or.inl ⟨fun i hrepeats => ?_, _, insert_eq_ok_iff.mpr ⟨m, hm, rfl⟩, h.insert hid hchange hstack hm⟩
      cases hid.symm.trans hrepeats.1
      cases hnew.symm.trans (hiff.mp hrepeats)

/-- The decoder takes in all events if none of them repeats an id. -/
theorem run_of_repeatFree (hevents : Enclosed events) (hfits : ∀ event ∈ events, event.Fits)
    (hfree : RepeatFree events) : ∃ d, handler.run events empty = (.ok (), d) ∧ Mirrors events d := by
  induction events using List.reverseRecOn with
  | nil => exact ⟨empty, rfl, mirrors_empty⟩
  | append_singleton events event ih =>
    -- The last event meets a decoder that mirrors all events before it.
    obtain ⟨hevents, hnonneg⟩ := enclosed_concat_iff.mp hevents
    obtain ⟨hfits, hlast⟩ := List.forall_mem_append.mp hfits
    obtain ⟨hfree, hnew⟩ := repeatFree_concat_iff.mp hfree
    obtain ⟨d, hrun, hmirrors⟩ := ih hevents hfits hfree
    rcases hmirrors.receive hnonneg (List.forall_mem_singleton.mp hlast) with ⟨-, u, hu, hnext⟩ | ⟨id, u, hrepeats, -⟩
    · exact ⟨u, Handler.run_append_eq_ok_iff.mpr ⟨d, hrun, Handler.run_singleton_eq_ok_iff.mpr hu⟩, hnext⟩
    · exact absurd hrepeats (hnew id)

/-- The decoder refuses the first event that repeats an id. -/
theorem run_of_repeats {before after : List Event} (hsplit : events = before ++ event :: after)
    (hevents : Enclosed events) (hfits : ∀ event ∈ events, event.Fits) (hfree : RepeatFree before)
    (hrepeats : Repeats before event id) :
    ∃ d, handler.run events empty = (.error (.duplicateField id), d) := by
  have hfront : before ++ [event] <+: events := ⟨after, by rw [hsplit, List.append_assoc, List.singleton_append]⟩
  obtain ⟨hbefore, hnonneg⟩ := enclosed_concat_iff.mp (hevents.of_isPrefix hfront)
  obtain ⟨hfits, hlast⟩ := List.forall_mem_append.mp fun e he => hfits e (hfront.subset he)
  obtain ⟨d, hrun, hmirrors⟩ := run_of_repeatFree hbefore hfits hfree
  rcases hmirrors.receive hnonneg (List.forall_mem_singleton.mp hlast) with ⟨hnone, -⟩ | ⟨i, u, hrepeats', hu⟩
  · exact absurd hrepeats (hnone id)
  · cases hrepeats.1.symm.trans hrepeats'.1
    exact ⟨u, Handler.run_eq_error_iff.mpr ⟨before, event, after, d, hsplit, hrun, hu⟩⟩

end Decoder

/-! ### Main statement -/

namespace Parser
variable {limits : Limits} {bytes : Bytes}

/-- What is recorded of an accepted input ends all that it begins, and nothing else, and its ids fit into headers. -/
theorem events_of_record_eq_ok (h : (record limits bytes).1 = .ok ()) :
    Event.Enclosed (record limits bytes).2.state ∧ ∀ event ∈ (record limits bytes).2.state, event.Fits := by
  -- Recording one input is feeding it to a parser that was fed nothing before.
  have hfed : (((new Event.recorder [] limits).feed []).2.parse bytes).1 = .ok () := h
  have hopened := ready_of_parse_eq_ok (Event.tracks_recorder limits fun _ => False) (Event.recorded_nil limits) hfed
  have hids := ready_of_parse_eq_ok (Event.tracks_recorder_fits limits fun _ => False) (List.forall_mem_nil _) hfed
  exact ⟨hopened.state.2.opened_nonneg, hids.state⟩

theorem decode_of_record_eq_ok {fs : Forest} (h : (record limits bytes).1 = .ok ())
    (hevents : (record limits bytes).2.state = fs.events) :
    (∀ m, Message.decode limits bytes = .ok m ↔ fs.Valid ∧ m = fs.message) ∧
      ∀ e, Message.decode limits bytes = .error e ↔ ∃ d, Decoder.handler.run fs.events .empty = (.error e, d) := by
  rw [decode_eq_run, h, hevents]
  rcases hrun : Decoder.handler.run fs.events .empty with ⟨e | _, d⟩
  · have hinvalid : ¬fs.Valid := fun hvalid => by
      cases hrun.symm.trans (Decoder.run_forest_eq_ok_iff.mpr ⟨hvalid, rfl⟩)
    simp [hinvalid]
  · obtain ⟨hvalid, rfl⟩ := Decoder.run_forest_eq_ok_iff.mp hrun
    have hfinish : Decoder.finish ⟨[fs.message]⟩ = .ok fs.message := rfl
    simp [hfinish, hvalid, eq_comm]

theorem decode_eq_error_iff_repeats (h : (record limits bytes).1 = .ok ()) {e : Error} :
    Message.decode limits bytes = .error e ↔ ∃ before event after id,
      (record limits bytes).2.state = before ++ event :: after ∧ Event.RepeatFree before ∧
        Event.Repeats before event id ∧ e = .duplicateField id := by
  obtain ⟨fs, -, -, hevents⟩ := exists_forest_of_record_eq_ok h
  obtain ⟨henclosed, hfits⟩ := events_of_record_eq_ok h
  rw [(decode_of_record_eq_ok h hevents).2 e, ← hevents]
  constructor
  · rintro ⟨d, hrun⟩
    have hfirst := Event.repeatFree_or_exists (record limits bytes).2.state
    rcases hfirst with hfree | ⟨before, event, after, id, hsplit, hfree, hrepeats⟩
    · obtain ⟨d', hrun', -⟩ := Decoder.run_of_repeatFree henclosed hfits hfree
      cases hrun.symm.trans hrun'
    · obtain ⟨d', hrun'⟩ := Decoder.run_of_repeats hsplit henclosed hfits hfree hrepeats
      cases hrun.symm.trans hrun'
      exact ⟨before, event, after, id, hsplit, hfree, hrepeats, rfl⟩
  · rintro ⟨before, event, after, id, hsplit, hfree, hrepeats, rfl⟩
    exact Decoder.run_of_repeats hsplit henclosed hfits hfree hrepeats

/-- What the recorder accepts as the wire form of a forest is decoded exactly if the ids of the forest are distinct at
    every level, and then to its message. Otherwise the error is the duplicate id of the first event that repeats one.
    So a nested message is refused for its own id at its end: if there is an event in it that repeats an id, the first
    one of those is the error, and the id of the nested message is not looked at. -/
theorem decode_first_repeat (h : (record limits bytes).1 = .ok ()) :
    let events := (record limits bytes).2.state
    (∃ fs : Forest, fs.All Forest.Fits ∧ fs.wireForm = bytes ∧ events = fs.events ∧
      ∀ m, Message.decode limits bytes = .ok m ↔ fs.All Forest.Distinct ∧ m = fs.message) ∧
    (∀ e, Message.decode limits bytes = .error e ↔ ∃ before event after id, events = before ++ event :: after ∧
      Event.RepeatFree before ∧ Event.Repeats before event id ∧ e = .duplicateField id) ∧
    ∀ before body id after, events = before ++ .beginNested :: (body ++ .endNested id :: after) →
      Event.Enclosed body → Event.opened body = 0 → Event.RepeatFree before →
        (∀ inner event rest i, body = inner ++ event :: rest → Event.RepeatFree inner → Event.Repeats inner event i →
          Message.decode limits bytes = .error (.duplicateField i)) ∧
        (Event.RepeatFree body → Event.Completed 0 before id →
          Message.decode limits bytes = .error (.duplicateField id)) := by
  intro events
  have herror := @decode_eq_error_iff_repeats limits bytes h
  refine ⟨?_, fun e => herror, ?_⟩
  · obtain ⟨fs, hfits, hform, hevents⟩ := exists_forest_of_record_eq_ok h
    refine ⟨fs, hfits, hform, hevents, fun m => ?_⟩
    rw [(decode_of_record_eq_ok h hevents).1 m, Forest.valid_iff_distinct hfits]
  · intro before body id after hsplit hbody hopened hbefore
    constructor
    · rintro inner event rest i rfl hfree hrepeats
      have hlast : Event.Enclosed (inner ++ [event]) := hbody.of_isPrefix ⟨rest, by simp⟩
      obtain ⟨hinner, -⟩ := Event.enclosed_concat_iff.mp hlast
      exact herror.mpr ⟨before ++ .beginNested :: inner, event, rest ++ .endNested id :: after, i,
        hsplit.trans (by simp), Event.repeatFree_nested hinner hbefore hfree,
        (Event.repeats_nested_iff hlast).mpr hrepeats, rfl⟩
    · intro hfree hid
      exact herror.mpr ⟨before ++ .beginNested :: body, .endNested id, after, id, hsplit.trans (by simp),
        Event.repeatFree_nested hbody hbefore hfree, Event.repeats_end_of_completed hbody hopened hid, rfl⟩

/-- In the first message the nested one has the id of the field before it, and repeats another one inside. In the second
    message it has that id and repeats none. -/
theorem decode_first_repeat_in_order :
    Message.decode ⟨8, 2⟩ [0x11, 0x0b, 0x15, 0x09, 0x21, 0x01, 0x21, 0x01] = .error (.duplicateField 2) ∧
      Message.decode ⟨8, 2⟩ [0x11, 0x0b, 0x15, 0x05, 0x11, 0x01] = .error (.duplicateField 1) := by
  have hfree : ∀ id n, Event.RepeatFree [.uint64 id n] := fun id n =>
    Event.repeatFree_concat_iff.mpr ⟨Event.repeatFree_nil, fun i hrepeats => by
      obtain ⟨-, front, first, between, hsplit, -⟩ := hrepeats
      simp at hsplit⟩
  have hone : Event.Enclosed [.uint64 1 0] := Event.enclosed_concat_iff.mpr ⟨Event.enclosed_nil, by decide⟩
  have htwo : Event.Enclosed [.uint64 2 0] := Event.enclosed_concat_iff.mpr ⟨Event.enclosed_nil, by decide⟩
  obtain ⟨-, -, hinside⟩ := @decode_first_repeat ⟨8, 2⟩ [0x11, 0x0b, 0x15, 0x09, 0x21, 0x01, 0x21, 0x01] (by cbv)
  obtain ⟨-, -, hend⟩ := @decode_first_repeat ⟨8, 2⟩ [0x11, 0x0b, 0x15, 0x05, 0x11, 0x01] (by cbv)
  constructor
  · obtain ⟨hfirst, -⟩ := hinside [.uint64 1 5] [.uint64 2 0, .uint64 2 0] 1 [] (by cbv)
      (Event.enclosed_concat_iff.mpr ⟨htwo, by decide⟩) rfl (hfree 1 5)
    exact hfirst [.uint64 2 0] (.uint64 2 0) [] 2 rfl (hfree 2 0) ⟨rfl, [], .uint64 2 0, [], rfl, rfl, htwo, rfl⟩
  · obtain ⟨-, hlast⟩ := hend [.uint64 1 5] [.uint64 1 0] 1 [] (by cbv) hone rfl (hfree 1 5)
    exact hlast (hfree 1 0) ⟨[], .uint64 1 5, [], rfl, rfl, Event.enclosed_nil, rfl⟩

end Parser
end FieldWire
