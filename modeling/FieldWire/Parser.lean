import FieldWire.Event
import FieldWire.Limits
import FieldWire.LogEvent
import FieldWire.Payload

/-! # The parser

A parser walks over the wire form of a message and reports what it finds to a handler. It builds no tree itself.

Each message level is admitted by the limits before a byte of it is read. The bytes of a nested message are split
off whole before the handler hears of it, and are then read like a message of their own. An error ends the parse
where it arises: the handler keeps its state, and the levels that are open then stay open. -/

namespace FieldWire

structure Progress (σ : Type) where
  state : σ
  /-- The number of message levels that are open. -/
  depth : Nat
  log : List LogEvent

/-- A step of a parse: whether it succeeds, and how far the parse has come then. -/
abbrev ParseStep (σ : Type) := Progress σ → Except Error Unit × Progress σ

namespace ParseStep
variable {σ ρ : Type}

/-! ### Steps -/

def andThen (first second : ParseStep σ) : ParseStep σ := fun p =>
  match first p with
  | (.ok (), next) => second next
  | (.error e, next) => (.error e, next)

def fail (e : Error) : ParseStep σ := fun p => (.error e, p)

def note (event : LogEvent) : ParseStep σ := fun p => (.ok (), { p with log := p.log ++ [event] })

/-- Reports an event to the handler, whose refusal ends the parse. -/
def emit (handler : Handler σ ρ) (event : Event) : ParseStep σ := fun p =>
  let (answer, state) := handler.receive event p.state
  (answer, { p with state := state })

/-- Logs the header of a field with the number of open levels. -/
def announce (header : FieldHeader) : ParseStep σ := fun p =>
  note (.field p.depth header.id header.wireType) p

/-- Opens a message level of the given length, if the limits allow it. The length is checked first. -/
def enter (limits : Limits) (length : Nat) : ParseStep σ := fun p =>
  if limits.maxLength.toNat < length then
    andThen (note (.oversizedRefused length limits.maxLength)) (fail (.oversizeMessage length limits.maxLength)) p
  else if limits.maxDepth.toNat ≤ p.depth then
    andThen (note (.depthRefused limits.maxDepth)) (fail (.depthExceeded limits.maxDepth)) p
  else
    (.ok (), { p with depth := p.depth + 1 })

def leave : ParseStep σ := fun p => (.ok (), { p with depth := p.depth - 1 })

/-- Ends the parse for a payload that cannot be read. A length that is too great is logged. -/
def reject : PayloadError → ParseStep σ
  | .varint cause => fail cause
  | .overrun announced available => andThen (note (.overrun announced available)) (fail .payloadCut)

/-! ### Levels -/

/-- Reads fields to the end of the input. -/
def fields (handler : Handler σ ρ) (limits : Limits) (input : Bytes) (p : Progress σ) :
    Except Error Unit × Progress σ :=
  if input = [] then
    (.ok (), p)
  else
    match _hheader : FieldHeader.read input with
    | (.error e, _) => fail e p
    | (.ok header, afterHeader) =>
      match _hpayload : Payload.read header.wireType afterHeader with
      | (.error e, _) => andThen (announce header) (reject e) p
      | (.ok (.uint64 n), rest) =>
        (announce header
          |>.andThen (emit handler (.uint64 header.id n))
          |>.andThen (fields handler limits rest)) p
      | (.ok (.binary bytes), rest) =>
        (announce header
          |>.andThen (emit handler (.binary header.id bytes))
          |>.andThen (fields handler limits rest)) p
      | (.ok (.nested body), rest) =>
        (announce header
          |>.andThen (emit handler .beginNested)
          |>.andThen (enter limits body.length)
          |>.andThen (fields handler limits body)
          |>.andThen leave
          |>.andThen (emit handler (.endNested header.id))
          |>.andThen (fields handler limits rest)) p
termination_by input.length
decreasing_by
  all_goals
    have := FieldHeader.length_lt_of_read _hheader
    have := Payload.length_lt_of_read _hpayload
    simp only [Payload.contents] at this
    omega

def level (handler : Handler σ ρ) (limits : Limits) (message : Bytes) : ParseStep σ :=
  enter limits message.length
    |>.andThen (fields handler limits message)
    |>.andThen leave

end ParseStep

/-! ### Parsers -/

/-- A parse in progress. Messages are fed to it one after another, and all report to the same handler. -/
structure Parser (σ ρ : Type) where
  handler : Handler σ ρ
  limits : Limits
  progress : Progress σ
  failed : Bool

namespace Parser
variable {σ ρ : Type}

def new (handler : Handler σ ρ) (state : σ) (limits : Limits) : Parser σ ρ :=
  ⟨handler, limits, ⟨state, 0, []⟩, false⟩

def state (parser : Parser σ ρ) : σ := parser.progress.state

/-- The number of message levels that are open: none between successful parses. -/
def depth (parser : Parser σ ρ) : Nat := parser.progress.depth

def log (parser : Parser σ ρ) : List LogEvent := parser.progress.log

/-- Parses one message. After a failure no further message is looked at. -/
def parse (parser : Parser σ ρ) (message : Bytes) : Except Error Unit × Parser σ ρ :=
  if parser.failed then
    (.error .parserFailed, parser)
  else
    match ParseStep.level parser.handler parser.limits message parser.progress with
    | (.ok (), progress) => (.ok (), { parser with progress := progress })
    | (.error e, progress) => (.error e, { parser with progress := progress, failed := true })

/-- The result of the handler, unless a parse has failed. -/
def finish (parser : Parser σ ρ) : Except Error ρ :=
  if parser.failed ∨ parser.depth ≠ 0 then
    .error .parserUnfinished
  else
    parser.handler.finish parser.state

end Parser
end FieldWire
