import FieldWire.Error
import FieldWire.Bytes

/-! # Events and handlers

A parser reports what it finds as events, one after another, to a handler. A handler has a state of its own, may
refuse an event, which ends the parse, and may keep a changed state even then. -/

namespace FieldWire

inductive Event where
  | uint64 (id n : UInt64)
  | binary (id : UInt64) (bytes : Bytes)
  /-- A nested message is about to be read. -/
  | beginNested
  /-- The nested message begun last is complete, and is the value of the field with the id. -/
  | endNested (id : UInt64)
  deriving DecidableEq, Repr

/-- A consumer of events with states in `σ` and results in `ρ`. -/
structure Handler (σ ρ : Type) where
  /-- Takes in an event or refuses it, and gives the state that follows. -/
  receive : Event → σ → Except Error Unit × σ
  finish : σ → Except Error ρ

/-- Hands over events one after another, up to and including the first one that is refused. -/
def Handler.run {σ ρ : Type} (handler : Handler σ ρ) : List Event → σ → Except Error Unit × σ
  | [], state => (.ok (), state)
  | event :: rest, state =>
    match handler.receive event state with
    | (.ok (), next) => handler.run rest next
    | (.error e, next) => (.error e, next)

/-- The handler that keeps every event, in order. -/
def Event.recorder : Handler (List Event) (List Event) where
  receive event events := (.ok (), events ++ [event])
  finish events := .ok events

end FieldWire
