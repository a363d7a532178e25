import FieldWire.Config
import FieldWire.Samples
import FieldWire.Vectors
import FieldWire.Proofs.Digest
import FieldWire.Proofs.RoundTrip
import FieldWire.Proofs.Field.Reading
import FieldWire.Proofs.Parser.Recorder
import FieldWire.Proofs.Parser.Replay
import FieldWire.Proofs.Parser.Session
import FieldWire.Proofs.Parser.Limits
import FieldWire.Proofs.Varint.Stream
import FieldWire.Proofs.Codec
import FieldWire.Proofs.Failure
import FieldWire.Proofs.Truncation
import FieldWire.Proofs.Insertion
import FieldWire.Proofs.FieldOrder
import FieldWire.Proofs.Parser.Repeats
import FieldWire.Proofs.Samples
import FieldWire.Proofs.Writing
import FieldWire.Proofs.Decoder.Calls
import FieldWire.Proofs.Parser.Work
import FieldWire.Proofs.Samples.Nesting
import FieldWire.Proofs.Log
