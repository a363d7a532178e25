import FieldWire.Proofs.Decoder

/-! # The decoder under any calls

A decoder can be called in any order, whether or not what is ended was begun, and can be called on after it has refused
something. The accepted calls tell which levels are open and which fields stand there (`Decoder.openLevels`), and the
decoder has one message for each of them, with these fields (`Decoder.Holds`). So it never runs out of messages, and the
one operation that changes something and fails is the end of a nested message (`Decoder.runEach_outcome`). -/

namespace FieldWire

/-- Hands over events one after another, whatever is answered, and gives the answers and the state that follows. -/
def Handler.runEach {σ ρ : Type} (handler : Handler σ ρ) : List Event → σ → List (Except Error Unit) × σ
  | [], state => ([], state)
  | event :: rest, state =>
    let (answer, next) := handler.receive event state
    let (answers, last) := handler.runEach rest next
    (answer :: answers, last)

/-- The fields, and one more if it was accepted. -/
def Forest.offer (fs : Forest) (field : UInt64 × Tree) (answer : Except Error Unit) : Forest :=
  if answer = .ok () then fs ++ [field] else fs

namespace Decoder
variable {levels : List Forest} {d : Decoder}

/-! ### Open levels -/

/-- The fields of the open levels, innermost first, after a call with the answer. The fields of a nested message that ends
    are a field of the level around it, if that is accepted, and are given up otherwise. -/
def nextLevels (levels : List Forest) (call : Event × Except Error Unit) : List Forest :=
  match call.1, levels with
  | .uint64 id n, fs :: outer => fs.offer (id, .uint64 n) call.2 :: outer
  | .binary id bytes, fs :: outer => fs.offer (id, .binary bytes) call.2 :: outer
  | .beginNested, outer => [] :: outer
  | .endNested id, nested :: fs :: outer => fs.offer (id, .nested nested) call.2 :: outer
  | _, unchanged => unchanged

/-- The fields that were accepted in each level that is open after the calls, in the order of the calls. -/
def openLevels (events : List Event) : List Forest :=
  (events.zip (handler.runEach events empty).1).foldl nextLevels [[]]

/-- The decoder has the messages of the levels. -/
structure Holds (levels : List Forest) (d : Decoder) : Prop where
  stack_eq : d.stack = levels.map Forest.message
  valid : ∀ fs ∈ levels, fs.Valid
  ne_nil : levels ≠ []

theorem holds_empty : Holds [[]] empty where
  stack_eq := rfl
  valid := List.forall_mem_singleton.mpr Forest.valid_nil
  ne_nil := List.cons_ne_nil _ _

/-- What comes of a field for the innermost message: it is refused for an id that is too great or that is there, and then
    nothing changes, or it is the last field of the message. -/
def Settles (top : Message) (outer : List Message) (id : UInt64) (v : Value) (outcome : Except Error Unit × Decoder) :
    Prop :=
  if FieldHeader.maxId < id then
    outcome = (.error (.fieldIdRange id), ⟨top :: outer⟩)
  else if id ∈ top.fields.map (·.1) then
    outcome = (.error (.duplicateField id), ⟨top :: outer⟩)
  else
    ∃ m : Message, m.fields = top.fields ++ [(id, v)] ∧ outcome = (.ok (), ⟨m :: outer⟩)

theorem settles_insert {top : Message} (h : top.Indexed) (outer : List Message) (id : UInt64) (v : Value) :
    Settles top outer id v (insert ⟨top :: outer⟩ id v) := by
  rw [Settles, insert_cons, h.insert_eq]
  split
  · rfl
  · split
    · rfl
    · exact ⟨_, rfl, rfl⟩

/-- A field that is offered to the innermost message is one more field of its level, if it is accepted. -/
theorem insert_message {fs : Forest} (h : fs.Valid) (outer : List Message) (id : UInt64) {t : Tree} (ht : t.Valid) :
    let outcome := insert ⟨fs.message :: outer⟩ id t.value
    outcome.1 ≠ .error .stackEmpty ∧ outcome.2 = ⟨Forest.message (fs.offer (id, t) outcome.1) :: outer⟩ ∧
      (fs.offer (id, t) outcome.1).Valid := by
  dsimp only
  rw [insert_cons]
  cases hinsert : fs.message.insert id t.value with
  | ok m =>
    obtain ⟨hid, rfl⟩ := (Forest.insert_message_eq_ok_iff h.distinct).mp hinsert
    dsimp only
    rw [Forest.offer, if_pos rfl]
    exact ⟨nofun, rfl, Forest.valid_concat.mpr ⟨h, hid, ht⟩⟩
  | error e =>
    have herror : (Except.error e : Except Error Unit) ≠ .ok () := by simp
    dsimp only
    rw [Forest.offer, if_neg herror]
    refine ⟨fun he => ?_, rfl, h⟩
    cases he
    rcases Message.eq_of_insert_eq_error hinsert with heq | heq <;> cases heq

theorem Holds.insert {fs : Forest} {outer : List Forest} {stack : List Message}
    (hstack : stack = (fs :: outer).map Forest.message) (hvalid : ∀ gs ∈ fs :: outer, gs.Valid) (id : UInt64) {t : Tree}
    (ht : t.Valid) :
    let outcome := Decoder.insert ⟨stack⟩ id t.value
    outcome.1 ≠ .error .stackEmpty ∧ Holds (fs.offer (id, t) outcome.1 :: outer) outcome.2 := by
  obtain ⟨hfs, houter⟩ := List.forall_mem_cons.mp hvalid
  obtain ⟨hanswer, hnext, hvalid⟩ := insert_message hfs (outer.map Forest.message) id ht
  rw [hstack]
  exact ⟨hanswer, congrArg Decoder.stack hnext, List.forall_mem_cons.mpr ⟨hvalid, houter⟩, List.cons_ne_nil _ _⟩

/-- A call never finds the decoder without a message. -/
theorem Holds.receive (h : Holds levels d) (event : Event) :
    (receive event d).1 ≠ .error .stackEmpty ∧ Holds (nextLevels levels (event, (receive event d).1)) (receive event d).2 := by
  obtain ⟨hstack, hvalid, hne⟩ := h
  obtain ⟨fs, outer, rfl⟩ := List.exists_cons_of_ne_nil hne
  obtain ⟨stack⟩ := d
  cases event with
  | uint64 id n => exact Holds.insert hstack hvalid id (t := .uint64 n) trivial
  | binary id bytes => exact Holds.insert hstack hvalid id (t := .binary bytes) trivial
  | beginNested =>
    have hanswer : (Except.ok () : Except Error Unit) ≠ .error .stackEmpty := by simp
    exact ⟨hanswer, congrArg (_ :: ·) hstack, List.forall_mem_cons.mpr ⟨Forest.valid_nil, hvalid⟩, List.cons_ne_nil _ _⟩
  | endNested id =>
    cases outer with
    | nil =>
      obtain rfl : stack = [fs.message] := hstack
      have hanswer : (Except.error .notNested : Except Error Unit) ≠ .error .stackEmpty := by
        simp [Error.notNested, Error.stackEmpty]
      exact ⟨hanswer, rfl, hvalid, hne⟩
    | cons gs outer =>
      obtain rfl : stack = fs.message :: gs.message :: outer.map Forest.message := hstack
      obtain ⟨hfs, hvalid⟩ := List.forall_mem_cons.mp hvalid
      exact Holds.insert rfl hvalid id (t := .nested fs) hfs

theorem Holds.runEach (h : Holds levels d) (events : List Event) :
    (∀ answer ∈ (handler.runEach events d).1, answer ≠ .error .stackEmpty) ∧
      Holds ((events.zip (handler.runEach events d).1).foldl nextLevels levels) (handler.runEach events d).2 := by
  induction events generalizing levels d with
  | nil => exact ⟨List.forall_mem_nil _, h⟩
  | cons event rest ih =>
    obtain ⟨hanswer, hnext⟩ := h.receive event
    obtain ⟨hanswers, hlast⟩ := ih hnext
    exact ⟨List.forall_mem_cons.mpr ⟨hanswer, hanswers⟩, hlast⟩

/-! ### Main statement -/

/-- Whatever a decoder is called for, in whatever order, it has a message, and so a field is refused for its id alone
    and then changes nothing. The end of a nested message is refused with nothing changed where none is open. Otherwise
    it takes the message off, and settles it as a field of the one around it, which stays as it is if it refuses that. The
    messages have the fields that were accepted on their levels, in order; the decoder finishes exactly where the root is
    the only one, and with that. -/
theorem runEach_outcome (events : List Event) :
    let answers := (handler.runEach events empty).1
    let d := (handler.runEach events empty).2
    (∀ answer ∈ answers, answer ≠ .error .stackEmpty) ∧
      (∃ top outer, d.stack = top :: outer ∧
        (∀ id n, Settles top outer id (.uint64 n) (handler.receive (.uint64 id n) d)) ∧
        ∀ id bytes, Settles top outer id (.binary bytes) (handler.receive (.binary id bytes) d)) ∧
      (d.depth = 1 → ∀ id, handler.receive (.endNested id) d = (.error .notNested, d)) ∧
      (2 ≤ d.depth → ∃ nested parent outer, d.stack = nested :: parent :: outer ∧
        ∀ id, Settles parent outer id (.message nested) (handler.receive (.endNested id) d)) ∧
      d.stack.map (·.fields) = (openLevels events).map Forest.values ∧
      ((∃ root, d.finish = .ok root) ↔ d.depth = 1) ∧
      ∀ root, d.finish = .ok root → ∃ fs, openLevels events = [fs] ∧ root.fields = fs.values := by
  dsimp only
  obtain ⟨hanswers, hholds⟩ := holds_empty.runEach events
  obtain ⟨hstack, hvalid, hne⟩ : Holds (openLevels events) (handler.runEach events empty).2 := hholds
  generalize (handler.runEach events empty).2 = d at hstack
  have hindexed : ∀ fs ∈ openLevels events, fs.message.Indexed := fun fs hfs =>
    Forest.indexed_message (hvalid fs hfs).distinct
  have hfields : d.stack.map (·.fields) = (openLevels events).map Forest.values := by
    rw [hstack, List.map_map]
    rfl
  obtain ⟨fs, outer, hlevels⟩ := List.exists_cons_of_ne_nil hne
  rw [hlevels] at hstack hindexed hfields ⊢
  obtain ⟨hfs, houter⟩ := List.forall_mem_cons.mp hindexed
  obtain ⟨stack⟩ := d
  obtain rfl : stack = fs.message :: outer.map Forest.message := hstack
  refine ⟨hanswers, ⟨fs.message, outer.map Forest.message, rfl, fun id n => settles_insert hfs _ _ _,
    fun id bytes => settles_insert hfs _ _ _⟩, ?_, ?_, hfields, ?_, ?_⟩
  · cases outer with
    | nil => exact fun _ id => rfl
    | cons gs outer => exact fun hdepth => absurd hdepth (by simp [depth])
  · cases outer with
    | nil => exact fun hdepth => absurd hdepth (by simp [depth])
    | cons gs outer =>
      exact fun _ => ⟨_, _, _, rfl, fun id => settles_insert (List.forall_mem_cons.mp houter).1 _ _ _⟩
  · cases outer with
    | nil => exact ⟨fun _ => rfl, fun _ => ⟨_, rfl⟩⟩
    | cons gs outer => simp [finish, depth]
  · cases outer with
    | nil =>
      intro root hroot
      cases hroot
      exact ⟨fs, rfl, rfl⟩
    | cons gs outer => simp [finish]

/-- A message with the id of a field that is there is dropped at its end, and the next one is not. The call after that
    ends nothing, and the last field repeats an id of the root. -/
theorem runEach_outcome_unbalanced :
    let events : List Event := [.beginNested, .uint64 1 7, .beginNested, .binary 4 [0xaa], .endNested 1, .endNested 2,
      .endNested 3, .uint64 1 5, .uint64 2 6]
    let d := (handler.runEach events empty).2
    (handler.runEach events empty).1 = [.ok (), .ok (), .ok (), .ok (), .error (.duplicateField 1), .ok (),
        .error .notNested, .ok (), .error (.duplicateField 2)] ∧
      (∀ id, handler.receive (.endNested id) d = (.error .notNested, d)) ∧
      ∃ root, d.finish = .ok root ∧
        root.fields = Forest.values [(2, .nested [(1, .uint64 7)]), (1, .uint64 5)] := by
  intro events d
  obtain ⟨-, -, hend, -, -, hfinish, hroot⟩ := runEach_outcome events
  have hdepth : d.depth = 1 := by cbv
  obtain ⟨root, hm⟩ := hfinish.mpr hdepth
  obtain ⟨fs, hlevels, hfields⟩ := hroot root hm
  have heq : openLevels events = [[(2, .nested [(1, .uint64 7)]), (1, .uint64 5)]] := by cbv
  obtain rfl := List.singleton_inj.mp (hlevels.symm.trans heq)
  exact ⟨by cbv, hend hdepth, root, hm, hfields⟩

end Decoder
end FieldWire
