import FieldWire.Proofs.Parser.Repeats
import FieldWire.Proofs.Varint.Length

/-! # Writing sessions

An encoder takes one call after another. A call appends a whole field or, if its id does not fit into a header, nothing
(`Encoder.perform_eq`), so after a session the buffer holds the fields of the successful calls (`Encoder.performEach_eq`).
The encoder does not look for ids that repeat and the decoder does: it reads back what was written up to the first of
them (`Encoder.performEach_outcome`). -/

namespace FieldWire

namespace Encoder

/-! ### Calls -/

/-- A request to write one field. -/
inductive Call where
  | uint64 (id n : UInt64)
  | binary (id : UInt64) (bytes : Bytes)
  | message (id : UInt64) (m : Message)
  /-- The value may be of any kind. -/
  | value (id : UInt64) (v : Value)

def Call.field : Call → UInt64 × Value
  | uint64 id n => (id, .uint64 n)
  | binary id bytes => (id, .binary bytes)
  | message id m => (id, .message m)
  | value id v => (id, v)

def perform (encoder : Encoder) : Call → Except Error Unit × Encoder
  | .uint64 id n => encoder.writeUInt64 id n
  | .binary id bytes => encoder.writeBinary id bytes
  | .message id m => encoder.writeMessage id m
  | .value id v => encoder.write id v

/-- Takes calls one after another, whatever is answered, and gives the answers and the encoder as it is then. -/
def performEach (encoder : Encoder) : List Call → List (Except Error Unit) × Encoder
  | [] => ([], encoder)
  | call :: rest =>
    let (answer, next) := encoder.perform call
    let (answers, last) := next.performEach rest
    (answer :: answers, last)

/-- The field that a call appends to whatever is in the buffer. -/
def written (call : Call) : Bytes := (empty.perform call).2.buffer

variable {calls : List Call} {call : Call}

/-! ### One call -/

theorem writeField_eq {writePayload : Encoder → Encoder} {payload : Bytes}
    (h : ∀ encoder, writePayload encoder = ⟨encoder.buffer ++ payload⟩) (encoder : Encoder) (id : UInt64) (t : WireType) :
    encoder.writeField id t writePayload =
      match FieldHeader.make id t with
      | .ok header => (.ok (), ⟨encoder.buffer ++ (header.encode ++ payload)⟩)
      | .error e => (.error e, encoder) := by
  rw [writeField]
  cases FieldHeader.make id t with
  | ok header =>
    dsimp only
    rw [h, FieldHeader.appendTo, Varint.appendTo_eq, List.append_assoc]
    rfl
  | error e => rfl

theorem writeVarint_eq (n : UInt64) (encoder : Encoder) :
    writeVarint n encoder = ⟨encoder.buffer ++ Varint.encode n⟩ := by
  rw [writeVarint, Varint.appendTo_eq]

theorem writePrefixed_eq (bytes : Bytes) (encoder : Encoder) :
    writePrefixed bytes encoder = ⟨encoder.buffer ++ Prefixed.encode bytes⟩ := by
  rw [writePrefixed, writeVarint_eq, Prefixed.encode, List.append_assoc]

/-- Writing in place appends the wire form of the field, and nothing if there is none. -/
theorem write_eq (encoder : Encoder) (id : UInt64) (v : Value) :
    encoder.write id v =
      match v.encodeField id with
      | .ok field => (.ok (), ⟨encoder.buffer ++ field⟩)
      | .error e => (.error e, encoder) := by
  cases v with
  | uint64 n =>
    rw [write, writeUInt64, writeField_eq (writeVarint_eq n), Value.encodeField]
    cases FieldHeader.make id .uint64 <;> rfl
  | binary bytes =>
    rw [write, writeBinary, writeField_eq (writePrefixed_eq bytes), Value.encodeField]
    cases FieldHeader.make id .binary <;> rfl
  | message m =>
    rw [write, writeMessage, Value.encodeField]
    cases m.encode with
    | ok body =>
      dsimp only
      rw [writeField_eq (writePrefixed_eq body)]
      cases FieldHeader.make id .message <;> rfl
    | error e => rfl

theorem perform_eq_write (encoder : Encoder) (call : Call) :
    encoder.perform call = encoder.write call.field.1 call.field.2 := by
  cases call <;> rfl

/-- The value of a valid tree is refused for its id alone. -/
theorem write_value {t : Tree} (ht : t.Valid) (encoder : Encoder) (id : UInt64) :
    encoder.write id t.value =
      if FieldHeader.maxId < id then (.error (.fieldIdRange id), encoder)
      else (.ok (), ⟨encoder.buffer ++ t.wireField id⟩) := by
  rw [write_eq]
  by_cases hid : FieldHeader.maxId < id
  · rw [if_pos hid, Tree.encodeField_value_of_lt hid ht.fits]
  · rw [if_neg hid, t.encodeField_value id (UInt64.not_lt.mp hid) ht.fits, t.encodeField_payload]

theorem written_eq {id : UInt64} {t : Tree} (ht : t.Valid) (hid : id ≤ FieldHeader.maxId)
    (hfield : call.field = (id, t.value)) : written call = t.wireField id := by
  rw [written, perform_eq_write, hfield, write_value ht, if_neg (UInt64.not_lt.mpr hid)]
  rfl

/-- A call fails if its id does not fit into a header, and leaves the buffer as it was; otherwise it appends what it
    would write into an empty buffer. -/
theorem perform_eq (h : call.field.2.Built) (encoder : Encoder) :
    encoder.perform call =
      if FieldHeader.maxId < call.field.1 then (.error (.fieldIdRange call.field.1), encoder)
      else (.ok (), ⟨encoder.buffer ++ written call⟩) := by
  obtain ⟨t, ht, heq⟩ := h.exists_tree
  rw [perform_eq_write, ← heq, write_value ht]
  split
  · rfl
  · next hid => rw [written_eq ht (UInt64.not_lt.mp hid) (Prod.ext rfl heq.symm)]

/-- What a call writes is the wire form of its field. -/
theorem encodeFields_singleton (h : call.field.2.Built) (hid : call.field.1 ≤ FieldHeader.maxId) :
    Message.encodeFields [call.field] = .ok (written call) := by
  obtain ⟨t, ht, heq⟩ := h.exists_tree
  have hfield : call.field = (call.field.1, t.value) := Prod.ext rfl heq.symm
  have hsingle : Message.encodeFields (Forest.values [(call.field.1, t)]) = .ok (Forest.wireForm [(call.field.1, t)]) :=
    Forest.encodeFields_of_trees (List.forall_mem_singleton.mpr (t.encodeField_value _ hid ht.fits))
  rw [Forest.wireForm, Forest.wireForm, List.append_nil, t.encodeField_payload] at hsingle
  rw [written_eq ht hid hfield, hfield]
  exact hsingle

/-! ### Sessions -/

/-- The calls that succeed in a session. -/
def successful (calls : List Call) : List Call :=
  ((calls.zip (empty.performEach calls).1).filter (·.2 = .ok ())).map (·.1)

theorem performEach_cons (encoder : Encoder) (call : Call) (rest : List Call) :
    encoder.performEach (call :: rest) =
      ((encoder.perform call).1 :: ((encoder.perform call).2.performEach rest).1,
        ((encoder.perform call).2.performEach rest).2) := rfl

/-- Each call is answered as if it were the only one, and the buffer has what the successful ones write, in order. -/
theorem performEach_eq (h : ∀ call ∈ calls, call.field.2.Built) (encoder : Encoder) :
    encoder.performEach calls =
      (calls.map fun call => (empty.perform call).1,
        ⟨encoder.buffer ++ (calls.filter (·.field.1 ≤ FieldHeader.maxId)).flatMap written⟩) := by
  induction calls generalizing encoder with
  | nil => simp [performEach]
  | cons call rest ih =>
    obtain ⟨hcall, hrest⟩ := List.forall_mem_cons.mp h
    rw [performEach_cons, ih hrest, List.map_cons, perform_eq hcall, perform_eq hcall]
    by_cases hid : FieldHeader.maxId < call.field.1
    · simp [hid, UInt64.not_le.mpr hid]
    · simp [hid, UInt64.not_lt.mp hid]

theorem perform_eq_ok_iff (h : call.field.2.Built) :
    (empty.perform call).1 = .ok () ↔ call.field.1 ≤ FieldHeader.maxId := by
  rw [perform_eq h, ← UInt64.not_lt]
  split <;> simp [*]

theorem successful_eq (h : ∀ call ∈ calls, call.field.2.Built) :
    successful calls = calls.filter (·.field.1 ≤ FieldHeader.maxId) := by
  have hzip : calls.zip (calls.map fun call => (empty.perform call).1) =
      calls.map fun call => (call, (empty.perform call).1) := by
    simpa using @List.zip_map' _ _ _ id (fun call => (empty.perform call).1) calls
  rw [successful, performEach_eq h, hzip, List.filter_map, List.map_map]
  refine (List.map_id' _).trans (List.filter_congr fun call hcall => ?_)
  simp [perform_eq_ok_iff (h call hcall)]

/-- What calls write for the fields of a forest is its wire form. -/
theorem flatMap_written {fs : Forest} (hfits : fs.Fits) (htrees : ∀ f ∈ fs, f.2.Valid)
    (hfields : calls.map (·.field) = fs.values) : calls.flatMap written = fs.wireForm := by
  induction calls generalizing fs with
  | nil =>
    cases fs with
    | nil => rfl
    | cons f rest => cases hfields
  | cons call calls ih =>
    cases fs with
    | nil => cases hfields
    | cons f rest =>
      obtain ⟨id, t⟩ := f
      obtain ⟨hid, hfits⟩ := List.forall_mem_cons.mp hfits
      obtain ⟨ht, htrees⟩ := List.forall_mem_cons.mp htrees
      obtain ⟨hfield, hfields⟩ := List.cons.inj hfields
      rw [List.flatMap_cons, ih hfits htrees hfields, written_eq ht hid hfield, Forest.wireForm, t.encodeField_payload]

/-- The fields of calls that succeed are those of a forest, and what the calls write is its wire form. -/
theorem exists_forest (h : ∀ call ∈ calls, call.field.2.Built) (hids : ∀ call ∈ calls, call.field.1 ≤ FieldHeader.maxId) :
    ∃ fs : Forest, fs.Fits ∧ (∀ f ∈ fs, f.2.Valid) ∧ calls.map (·.field) = fs.values ∧
      calls.flatMap written = fs.wireForm := by
  obtain ⟨fs, htrees, hfields⟩ := Forest.exists_values_of_built (List.forall_mem_map.mpr h)
  have hfits : fs.Fits := by
    have hall : ∀ id ∈ (calls.map (·.field)).map (·.1), id ≤ FieldHeader.maxId :=
      List.forall_mem_map.mpr (List.forall_mem_map.mpr hids)
    rw [← hfields, Forest.map_fst_values] at hall
    exact List.forall_mem_map.mp hall
  exact ⟨fs, hfits, htrees, hfields.symm, flatMap_written hfits htrees hfields.symm⟩

/-- A built message is written by calls for its fields, one after another. -/
theorem encode_eq_performEach {m : Message} (h : m.Built) :
    m.encode = .ok (empty.performEach (m.fields.map fun f => .value f.1 f.2)).2.buffer := by
  obtain ⟨fs, hvalid, rfl⟩ := h.exists_forest
  obtain ⟨hfits, -, htrees⟩ := Forest.valid_iff.mp hvalid
  change _ = Except.ok (empty.performEach (fs.values.map fun f => .value f.1 f.2)).2.buffer
  have hbuilt : ∀ call ∈ fs.values.map fun f => Call.value f.1 f.2, call.field.2.Built :=
    List.forall_mem_map.mpr fun f hf => h.of_mem hf
  have hids : ∀ call ∈ fs.values.map fun f => Call.value f.1 f.2, call.field.1 ≤ FieldHeader.maxId := by
    rw [Forest.values_eq_map, List.map_map]
    exact List.forall_mem_map.mpr hfits
  have hfields : (fs.values.map fun f => Call.value f.1 f.2).map (·.field) = fs.values := by
    rw [List.map_map]
    exact List.map_id' _
  rw [performEach_eq hbuilt, List.filter_eq_self.mpr (by simpa using hids), flatMap_written hfits htrees hfields]
  exact Forest.encode_message hvalid.fits

end Encoder

namespace Message
variable {limits : Limits} {fs before after : Forest} {id : UInt64} {t : Tree}

/-- The wire form of fields with ids that repeat is refused for the first of those. -/
theorem decode_wireForm_of_repeat (hfits : fs.Fits) (htrees : ∀ f ∈ fs, f.2.Valid)
    (hlen : fs.wireForm.length ≤ limits.maxLength.toNat) (hdepth : fs.depth ≤ limits.maxDepth.toNat)
    (hsplit : fs = before ++ (id, t) :: after) (hbefore : before.Distinct) (hold : id ∈ before.map (·.1)) :
    decode limits fs.wireForm = .error (.duplicateField id) := by
  have hall : fs.All Forest.Fits := Forest.all_iff.mpr ⟨hfits, fun f hf => (htrees f hf).fits⟩
  obtain ⟨hanswer, hevents⟩ := Parser.record_of_wireForm hall hlen hdepth
  refine ((Parser.decode_of_record_eq_ok hanswer hevents).2 _).mpr ⟨⟨[before.message]⟩, ?_⟩
  rw [hsplit] at hfits htrees
  obtain ⟨hfits, hlast⟩ := List.forall_mem_append.mp hfits
  obtain ⟨htrees, hlast'⟩ := List.forall_mem_append.mp htrees
  have hid : id ≤ FieldHeader.maxId := hlast _ List.mem_cons_self
  have hvalid : before.Valid := Forest.valid_iff.mpr ⟨hfits, hbefore, htrees⟩
  have hrun : Decoder.handler.run before.events .empty = (.ok (), ⟨[before.message]⟩) :=
    Decoder.run_forest_eq_ok_iff.mpr ⟨hvalid, rfl⟩
  have hrefused : before.message.insert id t.value = .error (.duplicateField id) := by
    rw [insert, if_neg (UInt64.not_lt.mpr hid), if_pos ((Forest.contains_message hbefore).mpr hold)]
  have hlast : Decoder.handler.run (t.events id) ⟨[before.message]⟩ = (.error (.duplicateField id), ⟨[before.message]⟩) :=
    Decoder.run_events_of_insert_eq_error (hlast' _ List.mem_cons_self) hrefused
  rw [hsplit, Forest.events_append, Handler.run_append, hrun, Forest.events]
  dsimp only
  rw [Handler.run_append, hlast]

/-- The wire form of fields is read back as their message, or refused for the first id that repeats. -/
theorem decode_wireForm_of_trees (hfits : fs.Fits) (htrees : ∀ f ∈ fs, f.2.Valid)
    (hlen : fs.wireForm.length ≤ limits.maxLength.toNat) (hdepth : 1 + depthOfFields fs.values ≤ limits.maxDepth.toNat) :
    if (fs.values.map (·.1)).Nodup then
      ∃ m, decode limits fs.wireForm = .ok m ∧ m.fields = fs.values ∧ ofFields fs.values = .ok m
    else
      ∃ before id v after, fs.values = before ++ (id, v) :: after ∧ (before.map (·.1)).Nodup ∧
        id ∈ before.map (·.1) ∧ decode limits fs.wireForm = .error (.duplicateField id) := by
  rw [Forest.depthOfFields_of_trees fun f _ => f.2.depth_value, ← Forest.depth] at hdepth
  rw [Forest.map_fst_values]
  split
  · next hdistinct =>
    have hvalid : fs.Valid := Forest.valid_iff.mpr ⟨hfits, hdistinct, htrees⟩
    have hread := decode_wireForm hvalid limits
    rw [if_neg (Nat.not_lt.mpr hlen), if_neg (Nat.not_lt.mpr hdepth)] at hread
    exact ⟨fs.message, hread, rfl, ofFields_values hvalid⟩
  · next hrepeat =>
    obtain ⟨before, id, t, after, hsplit, hbefore, hold⟩ := Forest.exists_repeat_of_not_distinct hrepeat
    refine ⟨before.values, id, t.value, after.values, ?_, ?_, ?_,
      decode_wireForm_of_repeat hfits htrees hlen hdepth hsplit hbefore hold⟩
    · simp [hsplit, Forest.values_eq_map]
    · rwa [Forest.map_fst_values]
    · rwa [Forest.map_fst_values]

end Message

namespace Encoder
variable {calls : List Call}

/-! ### Main statement -/

/-- Whatever calls an encoder takes, with values that are built by inserting: a call fails exactly if its id does not fit
    into a header, and then the buffer is as it was. Otherwise its field is appended. So the buffer has the fields of
    the successful calls, in order; writing a built message is such a session, and none of its calls fails. Within
    limits that admit the length and the depth, what was written is read back as the message of these fields, unless ids
    repeat: then the first field with the id of a field before it is refused. -/
theorem performEach_outcome (calls : List Call) (h : ∀ call ∈ calls, call.field.2.Built) :
    let fields := (successful calls).map (·.field)
    let buffer := (empty.performEach calls).2.buffer
    (∀ call ∈ calls, ∀ encoder : Encoder,
      if FieldHeader.maxId < call.field.1 then
        encoder.perform call = (.error (.fieldIdRange call.field.1), encoder)
      else
        encoder.perform call = (.ok (), ⟨encoder.buffer ++ written call⟩) ∧
          Message.encodeFields [call.field] = .ok (written call)) ∧
      (empty.performEach calls).1 = calls.map (fun call => (empty.perform call).1) ∧
      buffer = (successful calls).flatMap written ∧
      (∀ m : Message, m.Built →
        m.encode = .ok (empty.performEach (m.fields.map fun f => .value f.1 f.2)).2.buffer) ∧
      ∀ limits : Limits, buffer.length ≤ limits.maxLength.toNat →
        1 + Message.depthOfFields fields ≤ limits.maxDepth.toNat →
        if (fields.map (·.1)).Nodup then
          ∃ m, Message.decode limits buffer = .ok m ∧ m.fields = fields ∧ Message.ofFields fields = .ok m
        else
          ∃ before id v after, fields = before ++ (id, v) :: after ∧ (before.map (·.1)).Nodup ∧
            id ∈ before.map (·.1) ∧ Message.decode limits buffer = .error (.duplicateField id) := by
  dsimp only
  have hsuccessful := successful_eq h
  have hbuffer : (empty.performEach calls).2.buffer = (successful calls).flatMap written := by
    rw [hsuccessful, performEach_eq h]
    rfl
  refine ⟨fun call hcall encoder => ?_, ?_, hbuffer, fun m hm => encode_eq_performEach hm, fun limits hlen hdepth => ?_⟩
  · rw [perform_eq (h call hcall)]
    split
    · rfl
    · next hid => exact ⟨rfl, encodeFields_singleton (h call hcall) (UInt64.not_lt.mp hid)⟩
  · rw [performEach_eq h]
  · have hcalls : ∀ call ∈ successful calls, call ∈ calls ∧ call.field.1 ≤ FieldHeader.maxId := by
      simp [hsuccessful]
    obtain ⟨fs, hfits, htrees, hfields, hform⟩ :=
      exists_forest (fun call hcall => h call (hcalls call hcall).1) fun call hcall => (hcalls call hcall).2
    rw [hbuffer, hform] at hlen ⊢
    rw [hfields] at hdepth ⊢
    exact Message.decode_wireForm_of_trees hfits htrees hlen hdepth

/-- A nested message whose own id is too great is refused when its body is written. Without it the fields are read back;
    with one more field of the id 1 they are not. -/
theorem performEach_outcome_refused_message :
    let calls : List Call := [.uint64 1 42, .message 0x2000000000000000 (Forest.message [(1, .uint64 0)]),
      .value 2 (.message (Forest.message [(3, .binary [0xaa])]))]
    let repeated := calls ++ [.binary 1 []]
    (empty.performEach calls).1 = [.ok (), .error (.fieldIdRange 0x2000000000000000), .ok ()] ∧
      (∃ m, Message.decode ⟨7, 2⟩ (empty.performEach calls).2.buffer = .ok m) ∧
      Message.decode ⟨9, 2⟩ (empty.performEach repeated).2.buffer = .error (.duplicateField 1) := by
  intro calls repeated
  have hinner : (Forest.message [(1, .uint64 0)]).Built := Message.built_iff.mpr ⟨_, by decide, rfl⟩
  have hinner' : (Forest.message [(3, .binary [0xaa])]).Built := Message.built_iff.mpr ⟨_, by decide, rfl⟩
  have hcalls : ∀ call ∈ calls, call.field.2.Built :=
    List.forall_mem_cons.mpr ⟨.uint64 42, List.forall_mem_cons.mpr
      ⟨.message hinner, List.forall_mem_singleton.mpr (.message hinner')⟩⟩
  have hrepeated : ∀ call ∈ repeated, call.field.2.Built :=
    List.forall_mem_append.mpr ⟨hcalls, List.forall_mem_singleton.mpr (.binary [])⟩
  obtain ⟨-, hanswers, -, -, hread⟩ := performEach_outcome calls hcalls
  obtain ⟨-, -, -, -, hread'⟩ := performEach_outcome repeated hrepeated
  have hids : ((successful calls).map (·.field)).map (·.1) = [1, 2] := by cbv
  have hids' : ((successful repeated).map (·.field)).map (·.1) = [1, 2, 1] := by cbv
  have hdistinct := hread ⟨7, 2⟩ (by cbv) (by cbv)
  have hrepeat := hread' ⟨9, 2⟩ (by cbv) (by cbv)
  rw [if_pos (by rw [hids]; decide)] at hdistinct
  rw [if_neg (by rw [hids']; decide)] at hrepeat
  obtain ⟨m, hm, -⟩ := hdistinct
  obtain ⟨before, id, v, after, hsplit, -, hold, herror⟩ := hrepeat
  rw [hsplit, List.map_append, List.map_cons] at hids'
  have hone : ∀ ids more, ids ++ id :: more = [1, 2, 1] → id ∈ ids → id = 1 := by
    rintro (_ | ⟨i, _ | ⟨j, ids⟩⟩) more heq hmem <;> simp_all [List.append_eq_cons_iff]
  exact ⟨hanswers.trans (by cbv), ⟨m, hm⟩, hone _ _ hids' hold ▸ herror⟩

end Encoder
end FieldWire
