import FieldWire.FieldHeader

/-! # Payloads

The payload of a field is a varint, or bytes with their length in front. The bytes of a nested message are split
off here and read later. -/

namespace FieldWire

inductive PayloadError where
  | varint (cause : Error)
  | overrun (announced available : Nat)
  deriving DecidableEq, Repr

def PayloadError.toError : PayloadError → Error
  | varint cause => cause
  | overrun _ _ => .payloadCut

/-! ### Bytes with their length in front -/

namespace Prefixed

def encode (bytes : Bytes) : Bytes :=
  Varint.encode (UInt64.ofNat bytes.length) ++ bytes

/-- The bytes whose length is at the front of the input, and the input that is left: all of it after an
    error. -/
def read (input : Bytes) : Except PayloadError Bytes × Bytes :=
  match Varint.decode input with
  | .error e => (.error (.varint e), input)
  | .ok (length, rest) =>
    match splitExactly? length.toNat rest with
    | some (bytes, after) => (.ok bytes, after)
    | none => (.error (.overrun length.toNat rest.length), input)

theorem length_lt_of_read {input bytes rest : Bytes} (h : read input = (.ok bytes, rest)) :
    bytes.length + rest.length < input.length := by
  unfold read at h
  split at h
  · cases h
  · next hd =>
    have hlt := Varint.length_lt_of_decode hd
    split at h
    · next hs =>
      cases h
      obtain ⟨happ, -⟩ := splitExactly?_eq_some_iff.mp hs
      rw [happ, List.length_append] at hlt
      exact hlt
    · cases h

end Prefixed

/-! ### Payloads by wire type -/

inductive Payload where
  | uint64 (n : UInt64)
  | binary (bytes : Bytes)
  /-- The wire form of a nested message. -/
  | nested (body : Bytes)
  deriving DecidableEq, Repr

namespace Payload

/-- The bytes that a payload hands on. -/
def contents : Payload → Bytes
  | uint64 _ => []
  | binary bytes => bytes
  | nested body => body

/-- The wire type of the fields that hold the payload. -/
def wireType : Payload → WireType
  | uint64 _ => .uint64
  | binary _ => .binary
  | nested _ => .message

def encode : Payload → Bytes
  | uint64 n => Varint.encode n
  | binary bytes => Prefixed.encode bytes
  | nested body => Prefixed.encode body

/-- The wire form of a field: its header and its payload. -/
def encodeField (id : UInt64) (payload : Payload) : Bytes :=
  FieldHeader.encode ⟨id, payload.wireType⟩ ++ payload.encode

/-- The payload of the given wire type at the front of the input, and the input that is left: all of it after
    an error. -/
def read (wireType : WireType) (input : Bytes) : Except PayloadError Payload × Bytes :=
  match wireType with
  | .uint64 =>
    match Varint.read input with
    | (.ok n, rest) => (.ok (uint64 n), rest)
    | (.error e, rest) => (.error (.varint e), rest)
  | .binary =>
    match Prefixed.read input with
    | (.ok bytes, rest) => (.ok (binary bytes), rest)
    | (.error e, rest) => (.error e, rest)
  | .message =>
    match Prefixed.read input with
    | (.ok body, rest) => (.ok (nested body), rest)
    | (.error e, rest) => (.error e, rest)

theorem length_lt_of_read {wireType : WireType} {input rest : Bytes} {payload : Payload}
    (h : read wireType input = (.ok payload, rest)) :
    payload.contents.length + rest.length < input.length := by
  unfold read at h
  split at h
  · split at h
    · next hv =>
      cases h
      simpa [contents] using Varint.length_lt_of_read hv
    · cases h
  · split at h
    · next hp =>
      cases h
      exact Prefixed.length_lt_of_read hp
    · cases h
  · split at h
    · next hp =>
      cases h
      exact Prefixed.length_lt_of_read hp
    · cases h

end Payload
end FieldWire
