import FieldWire.Parser
import FieldWire.Proofs.Field

/-! # Steps of a parse

What reading does to an input is decided by what stands at its front (`head`), whatever the handler is (`fields_eq`):
nothing is left, a header or a payload cannot be read, or a field stands there, which is the case exactly where its
wire form does (`head_eq_field_iff`). Inputs are taken apart by the same cases (`input_ind`). -/

namespace FieldWire

/-! ### Handlers -/

namespace Handler
variable {σ ρ : Type} {handler : Handler σ ρ}

theorem run_cons_eq_ok_iff {event : Event} {events : List Event} {s t : σ} :
    handler.run (event :: events) s = (.ok (), t) ↔
      ∃ u, handler.receive event s = (.ok (), u) ∧ handler.run events u = (.ok (), t) := by
  rw [run]
  constructor
  · intro h
    split at h
    · next u hu => exact ⟨u, hu, h⟩
    · cases h
  · rintro ⟨u, hu, h⟩
    rw [hu]
    exact h

theorem run_singleton_eq_ok_iff {event : Event} {s t : σ} :
    handler.run [event] s = (.ok (), t) ↔ handler.receive event s = (.ok (), t) := by
  rw [run_cons_eq_ok_iff]
  constructor
  · rintro ⟨u, hu, h⟩
    cases h
    exact hu
  · exact fun h => ⟨t, h, rfl⟩

/-- Events in a row are handed over one part after the other, the second part only if the first is taken in. -/
theorem run_append (es fs : List Event) (s : σ) :
    handler.run (es ++ fs) s =
      match handler.run es s with
      | (.ok (), t) => handler.run fs t
      | (.error e, t) => (.error e, t) := by
  induction es generalizing s with
  | nil => rfl
  | cons event es ih =>
    rw [List.cons_append, run, run]
    rcases handler.receive event s with ⟨_ | _, t⟩
    · rfl
    · exact ih t

theorem run_append_eq_ok_iff {es fs : List Event} {s t : σ} :
    handler.run (es ++ fs) s = (.ok (), t) ↔
      ∃ u, handler.run es s = (.ok (), u) ∧ handler.run fs u = (.ok (), t) := by
  rw [run_append]
  rcases handler.run es s with ⟨_ | _, u⟩ <;> simp

end Handler

namespace ParseStep
variable {σ ρ : Type} {handler : Handler σ ρ} {limits : Limits}

/-! ### Steps -/

def done : ParseStep σ := fun p => (.ok (), p)

theorem andThen_eq_ok_iff {x y : ParseStep σ} {p q : Progress σ} :
    andThen x y p = (.ok (), q) ↔ ∃ r, x p = (.ok (), r) ∧ y r = (.ok (), q) := by
  unfold andThen
  constructor
  · intro h
    split at h
    · next r hr => exact ⟨r, hr, h⟩
    · cases h
  · rintro ⟨r, hr, h⟩
    rw [hr]
    exact h

theorem andThen_of_ok {x y : ParseStep σ} {p q : Progress σ} (h : x p = (.ok (), q)) : andThen x y p = y q := by
  rw [andThen, h]

theorem andThen_of_error {x y : ParseStep σ} {p q : Progress σ} {e : Error} (h : x p = (.error e, q)) :
    andThen x y p = (.error e, q) := by
  rw [andThen, h]

theorem andThen_assoc (x y z : ParseStep σ) : andThen (andThen x y) z = andThen x (andThen y z) := by
  funext p
  simp only [andThen]
  rcases x p with ⟨_ | _, q⟩ <;> rfl

theorem emit_eq_ok_iff {event : Event} {p q : Progress σ} :
    emit handler event p = (.ok (), q) ↔
      handler.receive event p.state = (.ok (), q.state) ∧ q.depth = p.depth ∧ q.log = p.log := by
  obtain ⟨state, depth, log⟩ := q
  cases h : handler.receive event p.state
  simp [emit, h, eq_comm, and_assoc]

theorem announce_eq_ok {header : FieldHeader} {p q : Progress σ} (h : announce header p = (.ok (), q)) :
    q.state = p.state ∧ q.depth = p.depth := by
  cases h
  exact ⟨rfl, rfl⟩

theorem enter_state (limits : Limits) (length : Nat) (p : Progress σ) : (enter limits length p).2.state = p.state := by
  unfold enter
  split
  · rfl
  · split <;> rfl

theorem reject_state (e : PayloadError) (p : Progress σ) : (reject e p).2.state = p.state := by
  cases e <;> rfl

theorem enter_eq_ok_iff {length : Nat} {p q : Progress σ} :
    enter limits length p = (.ok (), q) ↔
      length ≤ limits.maxLength.toNat ∧ p.depth < limits.maxDepth.toNat ∧ q = { p with depth := p.depth + 1 } := by
  unfold enter
  split
  · next h => simp [andThen, note, fail, Nat.not_le.mpr h]
  · next h =>
    split
    · next h' => simp [andThen, note, fail, Nat.not_lt.mpr h']
    · next h' => simp [Nat.not_lt.mp h, Nat.not_le.mp h', eq_comm]

theorem enter_of_depth {length : Nat} {p : Progress σ} (hlen : length ≤ limits.maxLength.toNat)
    (hdepth : limits.maxDepth.toNat ≤ p.depth) :
    ∃ q, enter limits length p = (.error (.depthExceeded limits.maxDepth), q) := by
  refine ⟨{ p with log := p.log ++ [.depthRefused limits.maxDepth] }, ?_⟩
  simp only [enter, Nat.not_lt.mpr hlen, hdepth, ↓reduceIte, andThen, note, fail]

/-- A message that is too long is refused before anything is looked at. -/
theorem level_of_length_lt {message : Bytes} (hlen : limits.maxLength.toNat < message.length) (p : Progress σ) :
    level handler limits message p = (.error (.oversizeMessage message.length limits.maxLength),
      { p with log := p.log ++ [.oversizedRefused message.length limits.maxLength] }) := by
  simp only [level, enter, andThen, note, fail, hlen, ↓reduceIte]

/-! ### The front of an input -/

/-- What stands at the front of an input. -/
inductive Head where
  | nothing
  | noHeader (cause : Error)
  | noPayload (header : FieldHeader) (cause : PayloadError)
  | field (id : UInt64) (payload : Payload) (rest : Bytes)

def head (input : Bytes) : Head :=
  if input = [] then
    .nothing
  else
    match FieldHeader.read input with
    | (.error e, _) => .noHeader e
    | (.ok header, afterHeader) =>
      match Payload.read header.wireType afterHeader with
      | (.error e, _) => .noPayload header e
      | (.ok payload, rest) => .field header.id payload rest

/-- Reports a field to the handler. The body of a nested message is read in between. -/
def report (handler : Handler σ ρ) (limits : Limits) (id : UInt64) : Payload → ParseStep σ
  | .uint64 n => emit handler (.uint64 id n)
  | .binary bytes => emit handler (.binary id bytes)
  | .nested body =>
    emit handler .beginNested
      |>.andThen (level handler limits body)
      |>.andThen (emit handler (.endNested id))

theorem head_eq_nothing_iff {input : Bytes} : head input = .nothing ↔ input = [] := by
  unfold head
  constructor
  · intro h
    split at h
    · assumption
    · split at h
      · cases h
      · split at h <;> cases h
  · intro h
    rw [if_pos h]

theorem encodeField_append_ne_nil (id : UInt64) (payload : Payload) (rest : Bytes) :
    payload.encodeField id ++ rest ≠ [] := by
  simp [Payload.encodeField, FieldHeader.encode_ne_nil]

theorem head_eq_field_iff {input rest : Bytes} {id : UInt64} {payload : Payload} :
    head input = .field id payload rest ↔
      id ≤ FieldHeader.maxId ∧ payload.contents.length < 2 ^ 64 ∧ input = payload.encodeField id ++ rest := by
  constructor
  · intro h
    unfold head at h
    split at h
    · cases h
    · split at h
      · cases h
      · next header afterHeader hheader =>
        split at h
        · cases h
        · next hpayload =>
          cases h
          obtain ⟨hid, rfl⟩ := FieldHeader.read_eq_ok_iff.mp hheader
          obtain ⟨htype, hlen, rfl⟩ := Payload.read_eq_ok_iff.mp hpayload
          refine ⟨hid, hlen, ?_⟩
          rw [Payload.encodeField, htype, List.append_assoc]
  · rintro ⟨hid, hlen, rfl⟩
    have hheader : FieldHeader.read (payload.encodeField id ++ rest) =
        (.ok ⟨id, payload.wireType⟩, payload.encode ++ rest) :=
      FieldHeader.read_eq_ok_iff.mpr ⟨hid, by rw [Payload.encodeField, List.append_assoc]⟩
    have hpayload : Payload.read payload.wireType (payload.encode ++ rest) = (.ok payload, rest) :=
      Payload.read_eq_ok_iff.mpr ⟨rfl, hlen, rfl⟩
    rw [head, if_neg (encodeField_append_ne_nil id payload rest), hheader]
    dsimp only
    rw [hpayload]

theorem exists_read_of_head_eq_noHeader {input : Bytes} {e : Error} (h : head input = .noHeader e) :
    ∃ rest, FieldHeader.read input = (.error e, rest) := by
  unfold head at h
  split at h
  · cases h
  · split at h
    · next hread =>
      cases h
      exact ⟨_, hread⟩
    · split at h <;> cases h

theorem exists_read_of_head_eq_noPayload {input : Bytes} {header : FieldHeader} {e : PayloadError}
    (h : head input = .noPayload header e) :
    ∃ afterHeader rest, Payload.read header.wireType afterHeader = (.error e, rest) := by
  unfold head at h
  split at h
  · cases h
  · split at h
    · cases h
    · split at h
      · next hread =>
        cases h
        exact ⟨_, _, hread⟩
      · cases h

/-- A field takes a header and a varint at the least, beside what it hands on. -/
theorem length_le_of_head_eq_field {input rest : Bytes} {id : UInt64} {payload : Payload}
    (h : head input = .field id payload rest) : 2 + payload.contents.length + rest.length ≤ input.length := by
  obtain ⟨-, -, rfl⟩ := head_eq_field_iff.mp h
  have hheader := List.length_pos_iff.mpr (FieldHeader.encode_ne_nil ⟨id, payload.wireType⟩)
  have hpayload := payload.length_lt_encode
  simp only [Payload.encodeField, List.length_append]
  omega

theorem length_lt_of_head_eq_field {input rest : Bytes} {id : UInt64} {payload : Payload}
    (h : head input = .field id payload rest) : payload.contents.length + rest.length < input.length := by
  have hle := length_le_of_head_eq_field h
  omega

/-- A property of inputs holds if it holds of each whose first field has it, in its contents and in what follows. -/
theorem input_ind {motive : Bytes → Prop}
    (step : ∀ input, (∀ id payload rest, head input = .field id payload rest →
      motive payload.contents ∧ motive rest) → motive input) (input : Bytes) : motive input := by
  induction hn : input.length using Nat.strongRecOn generalizing input with
  | ind n ih =>
    refine step input fun id payload rest h => ?_
    have hlt := length_lt_of_head_eq_field h
    exact ⟨ih _ (by omega) _ rfl, ih _ (by omega) _ rfl⟩

/-- Fields are read one by one; what the first one does is decided by the front of the input. -/
theorem fields_eq (handler : Handler σ ρ) (limits : Limits) (input : Bytes) :
    fields handler limits input =
      match head input with
      | .nothing => done
      | .noHeader e => fail e
      | .noPayload header e => andThen (announce header) (reject e)
      | .field id payload rest =>
        announce ⟨id, payload.wireType⟩
          |>.andThen (report handler limits id payload)
          |>.andThen (fields handler limits rest) := by
  funext p
  rw [fields, head]
  split
  · rfl
  · split
    · next hheader => rw [hheader]
    · next header afterHeader hheader =>
      rw [hheader]
      dsimp only
      split
      · next hpayload => rw [hpayload]
      · next n rest hpayload =>
        obtain ⟨htype, -⟩ := Payload.read_eq_ok_iff.mp hpayload
        rw [hpayload]
        dsimp only
        rw [htype]
        rfl
      · next bytes rest hpayload =>
        obtain ⟨htype, -⟩ := Payload.read_eq_ok_iff.mp hpayload
        rw [hpayload]
        dsimp only
        rw [htype]
        rfl
      · next body rest hpayload =>
        obtain ⟨htype, -⟩ := Payload.read_eq_ok_iff.mp hpayload
        rw [hpayload]
        dsimp only
        rw [htype]
        simp only [report, level, andThen_assoc]

end ParseStep
end FieldWire
