import FieldWire.Decoder
import FieldWire.Message.Digest
import FieldWire.Message.Encoding

/-! # The codec

A codec is a pair of limits and a hash algorithm, under which messages are parsed, written, hashed and checked
against a digest that is expected of them. What it does is logged. -/

namespace FieldWire

/-- Why a codec refuses its input. -/
inductive CodecError where
  | core (cause : Error)
  | digestMismatch (expected actual : Digest)
  deriving DecidableEq, Repr

def CodecError.message : CodecError → String
  | core cause => cause.message
  | digestMismatch expected actual =>
    let (wanted, found) := (expected.hex, actual.hex)
    s!"digest mismatch: expected {wanted}, got {found}"

/-- The result of a call with the log of the call, which is kept on failure too. -/
abbrev Logged (α : Type) := Except CodecError α × List LogEvent

/-- The settings under which messages are parsed and hashed. It holds no state between calls. -/
structure Codec where
  limits : Limits
  algorithm : HashAlgorithm
  deriving DecidableEq, Repr

namespace Codec

def default : Codec := ⟨.default, .sha256⟩

instance : Inhabited Codec := ⟨default⟩

def parse (codec : Codec) (bytes : Bytes) : Logged Message :=
  match Message.decodeLogged codec.limits bytes with
  | (.ok m, log) => (.ok m, log ++ [.parsed bytes.length m.size])
  | (.error e, log) => (.error (.core e), log)

/-- Writes a message. One that is too long to be parsed again is refused. -/
def encode (codec : Codec) (m : Message) : Logged Bytes :=
  match m.encode with
  | .error e => (.error (.core e), [])
  | .ok bytes =>
    let max := codec.limits.maxLength
    if max.toNat < bytes.length then
      (.error (.core (.oversizeMessage bytes.length max)), [.outputRefused bytes.length max])
    else
      (.ok bytes, [])

def digest (codec : Codec) (v : Value) : Digest := v.digest codec.algorithm

def digestMessage (codec : Codec) (m : Message) : Digest := m.digest codec.algorithm

def commit (codec : Codec) (bytes : Bytes) : Logged (Message × Digest) :=
  match codec.parse bytes with
  | (.ok m, log) =>
    let d := codec.digestMessage m
    (.ok (m, d), log ++ [.committed codec.algorithm d])
  | (.error e, log) => (.error e, log)

/-- Parses a message and gives it out only if it has the expected digest. -/
def verify (codec : Codec) (bytes : Bytes) (expected : Digest) : Logged Message :=
  match codec.commit bytes with
  | (.ok (m, actual), log) =>
    if actual = expected then
      (.ok m, log)
    else
      (.error (.digestMismatch expected actual), log ++ [.mismatch expected actual codec.algorithm])
  | (.error e, log) => (.error e, log)

end Codec
end FieldWire
