import FieldWire.Message.Basic
import FieldWire.Proofs.Index

/-! # Fields one after another

A message has its fields twice: in a list, in the order in which they came, and in an index by id. Inserting keeps the
two in step (`Message.Indexed`), so that everything that is asked of a message is answered as the list says
(`Message.Coherent`). Fields can be placed one after another, whatever comes of them (`Message.placeEach`); the message
then has the first field of each id that fits into a header (`Message.placeEach_outcome`). -/

namespace FieldWire.Message
variable {m n : Message} {id : UInt64} {v : Value}

/-! ### Placing fields -/

/-- Places fields one after another, whatever is answered, and gives the answers and the message as it is then. -/
def placeEach (m : Message) : List (UInt64 × Value) → List (Except Error Unit) × Message
  | [] => ([], m)
  | (id, v) :: rest =>
    let (answer, next) := m.place id v
    let (answers, last) := next.placeEach rest
    (answer :: answers, last)

/-- Placing is inserting, and nothing is done before a failure. -/
theorem place_eq (m : Message) (id : UInt64) (v : Value) :
    m.place id v =
      match m.insert id v with
      | .ok n => (.ok (), n)
      | .error e => (.error e, m) := by
  rw [place, insert]
  split
  · rfl
  · split <;> rfl

theorem placeEach_cons (m : Message) (f : UInt64 × Value) (rest : List (UInt64 × Value)) :
    m.placeEach (f :: rest) =
      ((m.place f.1 f.2).1 :: ((m.place f.1 f.2).2.placeEach rest).1, ((m.place f.1 f.2).2.placeEach rest).2) := rfl

theorem contains_of_insert_eq_ok (h : m.insert id v = .ok n) (i : UInt64) :
    n.contains i = true ↔ i = id ∨ m.contains i = true := by
  rw [insert] at h
  split at h
  · cases h
  · split at h <;> cases h
    rw [contains, contains, Index.contains_iff, Index.contains_iff, Index.mem_ids_set]

theorem eq_of_insert_eq_error {e : Error} (h : m.insert id v = .error e) :
    e = .fieldIdRange id ∨ e = .duplicateField id := by
  rw [insert] at h
  split at h
  · exact Or.inl (Except.error.inj h).symm
  · split at h
    · exact Or.inr (Except.error.inj h).symm
    · cases h

/-- An id that fits is refused exactly if it is there. -/
theorem insert_of_le (hid : id ≤ FieldHeader.maxId) (m : Message) (v : Value) :
    (m.contains id = true ∧ m.insert id v = .error (.duplicateField id)) ∨
      (m.contains id = false ∧ ∃ n, m.insert id v = .ok n) := by
  rw [insert, if_neg (UInt64.not_lt.mpr hid)]
  cases m.contains id with
  | true => exact Or.inl ⟨rfl, rfl⟩
  | false => exact Or.inr ⟨rfl, _, rfl⟩

/-! ### List and index -/

/-- The ids of the fields are distinct, and the index has the place of each of them. -/
structure Indexed (m : Message) : Prop where
  nodup : (m.fields.map (·.1)).Nodup
  index_eq : m.index = .of m.fields

theorem indexed_empty : empty.Indexed := ⟨List.nodup_nil, rfl⟩

namespace Indexed

theorem find?_eq_some_iff (h : m.Indexed) {position : Nat} :
    m.index.find? id = some position ↔ ∃ v, m.fields[position]? = some (id, v) := by
  rw [h.index_eq, Index.find?_eq_some_iff, Index.mem_of h.nodup]
  constructor
  · rintro ⟨⟨i, v⟩, hitem, rfl⟩
    exact ⟨v, hitem⟩
  · rintro ⟨v, hitem⟩
    exact ⟨(id, v), hitem, rfl⟩

theorem contains_iff (h : m.Indexed) : m.contains id = true ↔ id ∈ m.fields.map (·.1) := by
  rw [contains, h.index_eq, Index.contains_iff, Index.mem_ids_of h.nodup]

theorem get?_eq_some_iff (h : m.Indexed) : m.get? id = some v ↔ (id, v) ∈ m.fields := by
  rw [get?, h.index_eq, Index.at?_of_eq_some_iff h.nodup]

theorem get?_eq_none_iff (h : m.Indexed) : m.get? id = none ↔ id ∉ m.fields.map (·.1) := by
  rw [Option.eq_none_iff_forall_ne_some, List.mem_map]
  constructor
  · rintro hnone ⟨⟨i, v⟩, hf, rfl⟩
    exact hnone v (h.get?_eq_some_iff.mpr hf)
  · exact fun hnew v hv => hnew ⟨(id, v), h.get?_eq_some_iff.mp hv, rfl⟩

/-- A field is refused for an id that does not fit or that is there, and is otherwise the last one. -/
theorem insert_eq (h : m.Indexed) :
    m.insert id v =
      if FieldHeader.maxId < id then .error (.fieldIdRange id)
      else if id ∈ m.fields.map (·.1) then .error (.duplicateField id)
      else .ok ⟨m.fields ++ [(id, v)], .of (m.fields ++ [(id, v)])⟩ := by
  simp only [insert, h.contains_iff, h.index_eq, Index.of_concat]

theorem insert_eq_ok_iff (h : m.Indexed) : m.insert id v = .ok n ↔
    id ≤ FieldHeader.maxId ∧ id ∉ m.fields.map (·.1) ∧ n = ⟨m.fields ++ [(id, v)], .of (m.fields ++ [(id, v)])⟩ := by
  rw [h.insert_eq, ← UInt64.not_lt]
  split
  · next hlt => simp [hlt]
  · split
    · next hin => simp [hin]
    · next hnew => simp [*, eq_comm]

theorem insert (h : m.Indexed) (hn : m.insert id v = .ok n) : n.Indexed := by
  obtain ⟨-, hnew, rfl⟩ := h.insert_eq_ok_iff.mp hn
  refine ⟨?_, rfl⟩
  rw [List.map_append, List.map_singleton, ← List.concat_eq_append]
  exact h.nodup.concat hnew

theorem place (h : m.Indexed) : (m.place id v).2.Indexed := by
  rw [place_eq]
  cases hinsert : m.insert id v with
  | error e => exact h
  | ok n => exact h.insert hinsert

theorem placeEach (h : m.Indexed) (attempts : List (UInt64 × Value)) : (m.placeEach attempts).2.Indexed := by
  induction attempts generalizing m with
  | nil => exact h
  | cons f rest ih => exact ih h.place

end Indexed

/-- What is asked of the message is answered as its list of fields says, and never by looking beyond the end of it. -/
structure Coherent (m : Message) : Prop where
  find?_iff : ∀ id position, m.index.find? id = some position ↔ ∃ v, m.fields[position]? = some (id, v)
  checkedAt?_eq : ∀ id, m.index.checkedAt? m.fields id = some (m.get? id)
  checkedWalk?_eq : m.index.checkedWalk? m.fields = some m.sorted
  get?_iff : ∀ id v, m.get? id = some v ↔ (id, v) ∈ m.fields
  contains_iff : ∀ id, m.contains id = true ↔ id ∈ m.fields.map (·.1)
  size_eq : m.size = m.fields.length
  isEmpty_iff : m.isEmpty = true ↔ m.fields = []
  sorted_ascending : m.sorted.Pairwise fun f g => f.1 < g.1
  sorted_perm : m.sorted.Perm m.fields
  ids_eq : m.ids = m.sorted.map (·.1)

theorem Indexed.coherent (h : m.Indexed) : m.Coherent where
  find?_iff _ _ := h.find?_eq_some_iff
  checkedAt?_eq id := by
    rw [get?, h.index_eq]
    exact Index.checkedAt?_of h.nodup id
  checkedWalk?_eq := by
    rw [sorted, h.index_eq]
    exact Index.checkedWalk?_of h.nodup
  get?_iff _ _ := h.get?_eq_some_iff
  contains_iff _ := h.contains_iff
  size_eq := rfl
  isEmpty_iff := List.isEmpty_iff
  sorted_ascending := Index.pairwise_walk _ _
  sorted_perm := by
    rw [sorted, h.index_eq]
    exact Index.perm_walk_of h.nodup
  ids_eq := by
    rw [ids, sorted, h.index_eq]
    exact (Index.map_fst_walk_of h.nodup).symm

/-! ### What is accepted -/

theorem Indexed.get?_of_fields_eq_concat (h : m.Indexed) (hn : n.Indexed) (heq : n.fields = m.fields ++ [(id, v)])
    (i : UInt64) : n.get? i = (m.get? i).or (if id = i then some v else none) := by
  cases hget : m.get? i with
  | some w => exact hn.get?_eq_some_iff.mpr (heq ▸ List.mem_append_left _ (h.get?_eq_some_iff.mp hget))
  | none =>
    have hnew := h.get?_eq_none_iff.mp hget
    rw [Option.none_or]
    split
    · next hid =>
      rw [hn.get?_eq_some_iff, heq, ← hid]
      exact List.mem_append_right _ (List.mem_singleton.mpr rfl)
    · next hid =>
      rw [hn.get?_eq_none_iff, heq, List.map_append, List.map_singleton, List.mem_append, List.mem_singleton]
      exact fun hi => hi.elim hnew fun hlast => hid hlast.symm

/-- What is placed is found, if its id fits and has no field before. -/
theorem Indexed.get?_place (h : m.Indexed) (i : UInt64) :
    (m.place id v).2.get? i = (m.get? i).or (if id ≤ FieldHeader.maxId ∧ id = i then some v else none) := by
  rw [place_eq]
  cases hinsert : m.insert id v with
  | ok n =>
    have hn := h.insert hinsert
    obtain ⟨hfits, -, heq⟩ := h.insert_eq_ok_iff.mp hinsert
    simp only [hfits, true_and]
    exact h.get?_of_fields_eq_concat hn (heq ▸ rfl) i
  | error e =>
    cases hget : m.get? i with
    | some w => rfl
    | none =>
      have hnew := h.get?_eq_none_iff.mp hget
      rw [Option.none_or, if_neg]
      rintro ⟨hfits, rfl⟩
      cases hinsert.symm.trans (h.insert_eq_ok_iff.mpr ⟨hfits, hnew, rfl⟩)

/-- The first field of an id that fits is found, unless the id has a field before. -/
theorem Indexed.get?_placeEach (h : m.Indexed) (attempts : List (UInt64 × Value)) (i : UInt64) :
    (m.placeEach attempts).2.get? i =
      (m.get? i).or (if i ≤ FieldHeader.maxId then (attempts.find? (·.1 == i)).map (·.2) else none) := by
  induction attempts generalizing m with
  | nil => simp [Message.placeEach]
  | cons f rest ih =>
    obtain ⟨id, v⟩ := f
    rw [placeEach_cons, ih h.place, h.get?_place, Option.or_assoc]
    congr 1
    by_cases hid : id = i
    · subst hid
      by_cases hfits : id ≤ FieldHeader.maxId <;> simp [hfits]
    · rw [if_neg fun hboth => hid hboth.2, Option.none_or, List.find?_cons_of_neg (by simpa using hid)]

/-- An id that fits is there exactly if a field with it was attempted. -/
theorem mem_ids_placeEach_empty (attempts : List (UInt64 × Value)) (hid : id ≤ FieldHeader.maxId) :
    id ∈ (empty.placeEach attempts).2.fields.map (·.1) ↔ id ∈ attempts.map (·.1) := by
  have hget := indexed_empty.get?_placeEach attempts id
  rw [if_pos hid, show empty.get? id = none from rfl, Option.none_or] at hget
  rw [← not_iff_not, ← (indexed_empty.placeEach attempts).get?_eq_none_iff, hget, Option.map_eq_none_iff,
    List.find?_eq_none, List.mem_map]
  simp only [beq_iff_eq, not_exists, not_and]

theorem fields_place (m : Message) (id : UInt64) (v : Value) :
    (m.place id v).2.fields = m.fields ++ if (m.place id v).1 = .ok () then [(id, v)] else [] := by
  rw [place]
  split
  · simp
  · split <;> simp

/-- The fields are those that were accepted, in the order in which they were attempted. -/
theorem fields_placeEach (m : Message) (attempts : List (UInt64 × Value)) :
    (m.placeEach attempts).2.fields =
      m.fields ++ ((attempts.zip (m.placeEach attempts).1).filter (·.2 = .ok ())).map (·.1) := by
  induction attempts generalizing m with
  | nil => simp [placeEach]
  | cons f rest ih =>
    rw [placeEach_cons]
    dsimp only
    rw [ih, fields_place, List.zip_cons_cons, List.filter_cons]
    by_cases haccepted : (m.place f.1 f.2).1 = .ok () <;> simp [haccepted]

/-! ### All or none -/

theorem insertAll_cons (m : Message) (f : UInt64 × Value) (rest : List (UInt64 × Value)) :
    m.insertAll (f :: rest) =
      match m.insert f.1 f.2 with
      | .ok n => n.insertAll rest
      | .error e => .error e := by
  rw [insertAll, List.foldlM_cons]
  cases m.insert f.1 f.2 <;> rfl

theorem insertAll_eq_ok_iff {fields : List (UInt64 × Value)} : m.insertAll fields = .ok n ↔
    (∀ answer ∈ (m.placeEach fields).1, answer = .ok ()) ∧ n = (m.placeEach fields).2 := by
  induction fields generalizing m with
  | nil =>
    have hnone : m.insertAll [] = .ok m := rfl
    simp [hnone, placeEach, eq_comm]
  | cons f rest ih =>
    rw [insertAll_cons, placeEach_cons, place_eq, List.forall_mem_cons]
    cases m.insert f.1 f.2 with
    | ok next => simp [ih]
    | error e => simp

/-- Fields are inserted up to the first one that is refused. -/
theorem insertAll_eq_error_iff {fields : List (UInt64 × Value)} {e : Error} : m.insertAll fields = .error e ↔
    ∃ before after, (m.placeEach fields).1 = before ++ .error e :: after ∧ ∀ answer ∈ before, answer = .ok () := by
  induction fields generalizing m with
  | nil =>
    have hnone : m.insertAll [] = .ok m := rfl
    simp [hnone, placeEach]
  | cons f rest ih =>
    rw [insertAll_cons, placeEach_cons, place_eq]
    cases m.insert f.1 f.2 with
    | ok next =>
      dsimp only
      rw [ih]
      constructor
      · rintro ⟨before, after, hanswers, hbefore⟩
        exact ⟨.ok () :: before, after, congrArg _ hanswers, List.forall_mem_cons.mpr ⟨rfl, hbefore⟩⟩
      · rintro ⟨_ | ⟨first, before⟩, after, hanswers, hbefore⟩
        · cases (List.cons.inj hanswers).1
        · exact ⟨before, after, (List.cons.inj hanswers).2, (List.forall_mem_cons.mp hbefore).2⟩
    | error e' =>
      dsimp only
      constructor
      · rintro ⟨⟩
        exact ⟨[], _, rfl, List.forall_mem_nil _⟩
      · rintro ⟨_ | ⟨first, before⟩, after, hanswers, hbefore⟩
        · rw [(Except.error.inj (List.cons.inj hanswers).1)]
        · cases (List.cons.inj hanswers).1.trans (hbefore first List.mem_cons_self)

/-! ### Main statement -/

/-- Whatever fields are placed in an empty message, in whatever order, the next one is refused if its id does not fit
    into a header, or else if a field before it had the id; then the message does not change. Otherwise it is the last
    field. So the fields are those that were accepted, in order, and each id has the first field that was attempted
    with it. They are what the message answers with. All fields can be inserted exactly if none of them is refused,
    and else the first refusal is the error. -/
theorem placeEach_outcome (attempts : List (UInt64 × Value)) :
    let answers := (empty.placeEach attempts).1
    let m := (empty.placeEach attempts).2
    (∀ id v,
      if FieldHeader.maxId < id then m.place id v = (.error (.fieldIdRange id), m)
      else if id ∈ attempts.map (·.1) then m.place id v = (.error (.duplicateField id), m)
      else ∃ n, m.place id v = (.ok (), n) ∧ n.fields = m.fields ++ [(id, v)]) ∧
    m.fields = ((attempts.zip answers).filter (·.2 = .ok ())).map (·.1) ∧
    (∀ id, m.get? id = if id ≤ FieldHeader.maxId then (attempts.find? (·.1 == id)).map (·.2) else none) ∧
    m.Coherent ∧
    (∀ n, ofFields attempts = .ok n ↔ (∀ answer ∈ answers, answer = .ok ()) ∧ n = m) ∧
    ∀ e, ofFields attempts = .error e ↔
      ∃ before after, answers = before ++ .error e :: after ∧ ∀ answer ∈ before, answer = .ok () := by
  intro answers m
  have hm : m.Indexed := indexed_empty.placeEach attempts
  refine ⟨fun id v => ?_, fields_placeEach empty attempts, fun id => ?_, hm.coherent, fun n => insertAll_eq_ok_iff,
    fun e => insertAll_eq_error_iff⟩
  · split
    · next hlong => rw [place_eq, hm.insert_eq, if_pos hlong]
    · next hfits =>
      have hids := mem_ids_placeEach_empty attempts (UInt64.not_lt.mp hfits)
      split
      · next hin => rw [place_eq, hm.insert_eq, if_neg hfits, if_pos (hids.mpr hin)]
      · next hnew =>
        rw [place_eq, hm.insert_eq, if_neg hfits, if_neg (mt hids.mp hnew)]
        exact ⟨_, rfl, rfl⟩
  · rw [indexed_empty.get?_placeEach attempts id]
    rfl

end FieldWire.Message
