import FieldWire.Message.Basic
import FieldWire.Parser

/-! # The decoder

The handler that builds a message from events. It holds a stack of the messages under construction: the one whose fields
are being read, and the messages around it. -/

namespace FieldWire

structure Decoder where
  /-- The open messages, innermost first. The last one is the root. -/
  stack : List Message

namespace Decoder

def empty : Decoder := ⟨[.empty]⟩

instance : Inhabited Decoder := ⟨empty⟩

def depth (d : Decoder) : Nat := d.stack.length

/-- Adds a field to the innermost message, in place. -/
def insert (d : Decoder) (id : UInt64) (v : Value) : Except Error Unit × Decoder :=
  match d.stack with
  | [] => (.error .stackEmpty, d)
  | top :: outer =>
    let (answer, m) := top.place id v
    (answer, ⟨m :: outer⟩)

/-- Takes in one event. A nested message that ends goes into the message around it; it is dropped if that message
    refuses it. -/
def receive (event : Event) (d : Decoder) : Except Error Unit × Decoder :=
  match event with
  | .uint64 id n => d.insert id (.uint64 n)
  | .binary id bytes => d.insert id (.binary bytes)
  | .beginNested => (.ok (), ⟨.empty :: d.stack⟩)
  | .endNested id =>
    match d.stack with
    | nested :: parent :: outer => insert ⟨parent :: outer⟩ id (.message nested)
    | _ => (.error .notNested, d)

/-- The root, if no nested message is open. -/
def finish (d : Decoder) : Except Error Message :=
  match d.stack with
  | [] => .error .stackEmpty
  | [root] => .ok root
  | _ => .error .nestedUnfinished

def handler : Handler Decoder Message := ⟨receive, finish⟩

end Decoder

namespace Message

/-- Parses a message, with the log of the parse. -/
def decodeLogged (limits : Limits) (bytes : Bytes) : Except Error Message × List LogEvent :=
  match (Parser.new Decoder.handler .empty limits).parse bytes with
  | (.ok (), parser) => (parser.finish, parser.log)
  | (.error e, parser) => (.error e, parser.log)

def decode (limits : Limits) (bytes : Bytes) : Except Error Message := (decodeLogged limits bytes).1

end Message
end FieldWire
