import FieldWire.Decoder
import FieldWire.Forest.Events
import FieldWire.Proofs.Built
import FieldWire.Proofs.Parser.Step

/-! # The decoder on the events of a forest

The decoder takes in the events of a tree exactly if the tree is valid and the innermost open message accepts its value,
and then it has inserted it there (`inserts`): the messages further out do not change. So an empty decoder
builds from the events of a forest the message of that forest (`run_forest_eq_ok_iff`). -/

namespace FieldWire.Decoder

/-- The innermost message stays as it was if it refuses the field. -/
theorem insert_cons (m : Message) (outer : List Message) (id : UInt64) (v : Value) :
    insert ⟨m :: outer⟩ id v =
      match m.insert id v with
      | .ok n => (.ok (), ⟨n :: outer⟩)
      | .error e => (.error e, ⟨m :: outer⟩) := by
  simp only [insert, Message.place_eq]
  cases m.insert id v <;> rfl

theorem insert_eq_ok_iff {m : Message} {outer : List Message} {d : Decoder} {id : UInt64} {v : Value} :
    insert ⟨m :: outer⟩ id v = (.ok (), d) ↔ ∃ n, m.insert id v = .ok n ∧ d = ⟨n :: outer⟩ := by
  rw [insert_cons]
  cases m.insert id v <;> simp [eq_comm]

theorem insert_of_eq_error {m : Message} {outer : List Message} {id : UInt64} {v : Value} {e : Error}
    (h : m.insert id v = .error e) : insert ⟨m :: outer⟩ id v = (.error e, ⟨m :: outer⟩) := by
  rw [insert_cons, h]

/-- The events of the field are taken in exactly if its tree is valid and the innermost message accepts its value. -/
def Inserts (id : UInt64) (t : Tree) : Prop :=
  ∀ (m : Message) (outer : List Message) (d : Decoder),
    handler.run (t.events id) ⟨m :: outer⟩ = (.ok (), d) ↔
      t.Valid ∧ ∃ n, m.insert id t.value = .ok n ∧ d = ⟨n :: outer⟩

/-- Fields are taken in one after another. -/
theorem run_events_of_trees {fs : Forest} (htrees : ∀ f ∈ fs, Inserts f.1 f.2) (m : Message) (outer : List Message)
    (d : Decoder) :
    handler.run fs.events ⟨m :: outer⟩ = (.ok (), d) ↔
      (∀ f ∈ fs, f.2.Valid) ∧ ∃ n, m.insertAll fs.values = .ok n ∧ d = ⟨n :: outer⟩ := by
  induction fs generalizing m with
  | nil =>
    constructor
    · intro h
      cases h
      exact ⟨List.forall_mem_nil _, m, rfl, rfl⟩
    · rintro ⟨-, n, hn, rfl⟩
      cases hn
      rfl
  | cons f rest ih =>
    obtain ⟨id, t⟩ := f
    have ih := ih fun g hg => htrees g (List.mem_cons_of_mem _ hg)
    rw [Forest.events, Handler.run_append_eq_ok_iff, List.forall_mem_cons]
    simp only [Forest.values, Message.insertAll_cons_eq_ok_iff]
    constructor
    · rintro ⟨u, hu, hrest⟩
      obtain ⟨ht, o, ho, rfl⟩ := (htrees (id, t) List.mem_cons_self m outer u).mp hu
      obtain ⟨hvalid, n, hn, rfl⟩ := (ih o).mp hrest
      exact ⟨⟨ht, hvalid⟩, n, ⟨o, ho, hn⟩, rfl⟩
    · rintro ⟨⟨ht, hvalid⟩, n, ⟨o, ho, hn⟩, rfl⟩
      exact ⟨⟨o :: outer⟩, (htrees (id, t) List.mem_cons_self m outer _).mpr ⟨ht, o, ho, rfl⟩,
        (ih o).mpr ⟨hvalid, n, hn, rfl⟩⟩

theorem run_events_empty_of_trees {fs : Forest} (htrees : ∀ f ∈ fs, Inserts f.1 f.2) (outer : List Message)
    (d : Decoder) :
    handler.run fs.events ⟨.empty :: outer⟩ = (.ok (), d) ↔ fs.Valid ∧ d = ⟨fs.message :: outer⟩ := by
  rw [run_events_of_trees htrees, Forest.valid_iff, ← Forest.message_nil]
  simp only [Forest.insertAll_message_eq_ok_iff Forest.distinct_nil, List.nil_append]
  constructor
  · rintro ⟨hvalid, n, ⟨⟨hfits, hdistinct⟩, rfl⟩, rfl⟩
    exact ⟨⟨hfits, hdistinct, hvalid⟩, rfl⟩
  · rintro ⟨⟨hfits, hdistinct, hvalid⟩, rfl⟩
    exact ⟨hvalid, fs.message, ⟨⟨hfits, hdistinct⟩, rfl⟩, rfl⟩

/-- A nested message is built on its own, and then inserted like any other value. -/
theorem inserts (t : Tree) : ∀ id, Inserts id t := by
  induction t using Tree.ind with
  | uint64 i =>
    intro id m outer d
    have htaken : handler.receive (.uint64 id i) ⟨m :: outer⟩ = insert ⟨m :: outer⟩ id (.uint64 i) := rfl
    rw [Tree.events, Handler.run_singleton_eq_ok_iff, htaken, insert_eq_ok_iff]
    exact (and_iff_right trivial).symm
  | binary bytes =>
    intro id m outer d
    have htaken : handler.receive (.binary id bytes) ⟨m :: outer⟩ = insert ⟨m :: outer⟩ id (.binary bytes) := rfl
    rw [Tree.events, Handler.run_singleton_eq_ok_iff, htaken, insert_eq_ok_iff]
    exact (and_iff_right trivial).symm
  | nested fs ih =>
    intro id m outer d
    have hbody := run_events_empty_of_trees fun f hf => ih f hf f.1
    rw [Tree.events, Handler.run_cons_eq_ok_iff]
    constructor
    · rintro ⟨u, hu, h⟩
      cases hu
      obtain ⟨w, hw, hend⟩ := Handler.run_append_eq_ok_iff.mp h
      obtain ⟨hvalid, rfl⟩ := (hbody _ _).mp hw
      exact ⟨hvalid, insert_eq_ok_iff.mp (Handler.run_singleton_eq_ok_iff.mp hend)⟩
    · rintro ⟨hvalid, hinsert⟩
      refine ⟨⟨.empty :: m :: outer⟩, rfl, Handler.run_append_eq_ok_iff.mpr
        ⟨⟨fs.message :: m :: outer⟩, (hbody _ _).mpr ⟨hvalid, rfl⟩, ?_⟩⟩
      exact Handler.run_singleton_eq_ok_iff.mpr (insert_eq_ok_iff.mpr hinsert)

/-- The decoder takes in the events of a forest exactly if it is valid, and then has built its message. -/
theorem run_forest_eq_ok_iff {fs : Forest} {d : Decoder} :
    handler.run fs.events empty = (.ok (), d) ↔ fs.Valid ∧ d = ⟨[fs.message]⟩ :=
  run_events_empty_of_trees (fun f _ => inserts f.2 f.1) [] d

/-- If the innermost message refuses the value of a valid tree, that is what its events are refused for, and the message
    stays as it is. A nested message is refused at its end. -/
theorem run_events_of_insert_eq_error {t : Tree} (ht : t.Valid) {m : Message} {outer : List Message} {id : UInt64}
    {e : Error} (h : m.insert id t.value = .error e) :
    handler.run (t.events id) ⟨m :: outer⟩ = (.error e, ⟨m :: outer⟩) := by
  cases t with
  | uint64 n =>
    have hrefused : handler.receive (.uint64 id n) ⟨m :: outer⟩ = (.error e, ⟨m :: outer⟩) := insert_of_eq_error h
    simp only [Tree.events, Handler.run, hrefused]
  | binary bytes =>
    have hrefused : handler.receive (.binary id bytes) ⟨m :: outer⟩ = (.error e, ⟨m :: outer⟩) := insert_of_eq_error h
    simp only [Tree.events, Handler.run, hrefused]
  | nested fs =>
    have hbegin : handler.receive .beginNested ⟨m :: outer⟩ = (.ok (), ⟨.empty :: m :: outer⟩) := rfl
    have hbody := (run_events_empty_of_trees (fun f _ => inserts f.2 f.1) (m :: outer) _).mpr ⟨ht, rfl⟩
    have hrefused : handler.receive (.endNested id) ⟨Forest.message fs :: m :: outer⟩ = (.error e, ⟨m :: outer⟩) :=
      insert_of_eq_error h
    simp only [Tree.events, Handler.run, Handler.run_append, hbegin, hbody, hrefused]

end FieldWire.Decoder
