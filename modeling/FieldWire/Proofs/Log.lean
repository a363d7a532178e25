import FieldWire.Message.Log
import FieldWire.Proofs.Codec
import FieldWire.Proofs.Parser.Ensures

/-! # The log of a parse

A parse logs a field when it has read the header, before it knows whether the payload is there. If it succeeds, with
whatever handler, the log holds the fields of the forest that the input is the wire form of, in order and with their
levels (`logs_level`). Where it fails, the log is cut off behind some field, and what stands after that is the event of
the refusal, if the error is one that is logged (`keeps_log`). The log of a codec is put together from that
(`Codec.log_of_parse`). -/

namespace FieldWire

/-! ### Events of fields and of refusals -/

def LogEvent.OfField (x : LogEvent) : Prop := x.level = .trace ∧ x.message = "field"

/-- The errors of a parse that are logged, each with the event that stands for it. -/
inductive Error.Logged : Error → LogEvent → Prop where
  | oversized (length : Nat) (max : UInt64) : Logged (.oversizeMessage length max) (.oversizedRefused length max)
  | tooDeep (max : UInt64) : Logged (.depthExceeded max) (.depthRefused max)
  | overrun {announced available : Nat} (h : available < announced) :
    Logged (.truncated "not enough bytes remaining in input") (.overrun announced available)

theorem Error.Logged.level_eq {e : Error} {x : LogEvent} (h : e.Logged x) : x.level = .debug := by
  cases h <;> rfl

theorem Error.Logged.message_ne {e : Error} {x : LogEvent} (h : e.Logged x) : x.message ≠ "parsed message" := by
  cases h <;> simp [LogEvent.message]

theorem Error.Logged.eq_of_truncated {what : String} {x : LogEvent} (h : Logged (.truncated what) x) :
    what = "not enough bytes remaining in input" := by
  cases h
  rfl

/-- A varint that is cut off has texts of its own. -/
theorem Varint.not_logged_of_decode {input : Bytes} {e : Error} (h : decode input = .error e) (x : LogEvent) :
    ¬e.Logged x := by
  intro hlogged
  rcases decode_eq_error_cases h with rfl | rfl | ⟨length, rfl⟩
  · exact absurd hlogged.eq_of_truncated (by decide)
  · exact absurd hlogged.eq_of_truncated (by decide)
  · cases hlogged

/-- What the handler refuses is not logged. -/
def Handler.Unlogged {σ ρ : Type} (handler : Handler σ ρ) : Prop :=
  ∀ event s e t, handler.receive event s = (.error e, t) → ∀ x, ¬e.Logged x

theorem Tree.wireType_value (t : Tree) : t.value.wireType = t.payload.wireType := by
  cases t <;> rfl

namespace Decoder

theorem not_logged_of_insert {d u : Decoder} {id : UInt64} {v : Value} {e : Error} (h : d.insert id v = (.error e, u))
    (x : LogEvent) : ¬e.Logged x := by
  rcases d with ⟨_ | ⟨top, outer⟩⟩
  · cases h
    exact nofun
  · rw [insert_cons] at h
    rcases hinsert : top.insert id v with e' | n <;> rw [hinsert] at h <;> cases h
    rcases Message.eq_of_insert_eq_error hinsert with rfl | rfl <;> exact nofun

/-- What the decoder refuses, it refuses for an id or for its own state. -/
theorem unlogged_handler : handler.Unlogged := by
  intro event d e u h
  cases event with
  | uint64 id n => exact not_logged_of_insert h
  | binary id bytes => exact not_logged_of_insert h
  | beginNested => cases h
  | endNested id =>
    rcases d with ⟨_ | ⟨nested, _ | ⟨parent, outer⟩⟩⟩
    · cases h
      exact nofun
    · cases h
      exact nofun
    · exact not_logged_of_insert (d := ⟨parent :: outer⟩) h

end Decoder

namespace ParseStep
variable {σ ρ : Type} {handler : Handler σ ρ} {limits : Limits}

/-! ### Parses that succeed -/

/-- If the step succeeds, it leaves as many levels open as before and has logged the events for that level. -/
def Logs (events : Nat → List LogEvent) (x : ParseStep σ) : Prop :=
  ∀ p q, x p = (.ok (), q) → q.depth = p.depth ∧ q.log = p.log ++ events p.depth

namespace Logs
variable {es fs : Nat → List LogEvent} {x y : ParseStep σ}

theorem done : Logs (fun _ => []) (done : ParseStep σ) := by
  intro p q h
  cases h
  exact ⟨rfl, (List.append_nil _).symm⟩

theorem announce (header : FieldHeader) :
    Logs (fun depth => [.field depth header.id header.wireType]) (announce header : ParseStep σ) := by
  intro p q h
  cases h
  exact ⟨rfl, rfl⟩

theorem emit (handler : Handler σ ρ) (event : Event) : Logs (fun _ => []) (emit handler event) := by
  intro p q h
  obtain ⟨-, hdepth, hlog⟩ := emit_eq_ok_iff.mp h
  exact ⟨hdepth, hlog.trans (List.append_nil _).symm⟩

theorem andThen (hx : Logs es x) (hy : Logs fs y) : Logs (fun depth => es depth ++ fs depth) (x.andThen y) := by
  intro p q h
  obtain ⟨r, hr, hq⟩ := andThen_eq_ok_iff.mp h
  obtain ⟨hdepth, hlog⟩ := hx p r hr
  obtain ⟨hdepth', hlog'⟩ := hy r q hq
  refine ⟨hdepth'.trans hdepth, ?_⟩
  rw [hlog', hlog, hdepth, List.append_assoc]

theorem level {body : Bytes} (h : Logs es (fields handler limits body)) :
    Logs (fun depth => es (depth + 1)) (level handler limits body) := by
  intro p q hlevel
  obtain ⟨r, hr, hleave⟩ := andThen_eq_ok_iff.mp hlevel
  obtain ⟨o, henter, hfields⟩ := andThen_eq_ok_iff.mp hr
  obtain ⟨-, -, rfl⟩ := enter_eq_ok_iff.mp henter
  obtain ⟨hdepth, hlog⟩ := h _ r hfields
  cases hleave
  exact ⟨congrArg (· - 1) hdepth, hlog⟩

end Logs

theorem composes_logs :
    Composes handler limits (fun fs => Logs fun depth => Message.announcementsOfFields depth fs.values)
      fun _ t => Logs fun depth => t.value.announcements depth where
  nil := .done
  cons {id t rest x y} hfirst hothers := by
    have hall := ((Logs.announce ⟨id, t.payload.wireType⟩).andThen hfirst).andThen hothers
    simp only [← t.wireType_value, List.cons_append, List.nil_append] at hall
    rw [← t.wireType_value]
    exact hall
  uint64 id n := .emit handler (.uint64 id n)
  binary id bytes := .emit handler (.binary id bytes)
  nested {id fs} hlen hfields := by
    have hall := ((Logs.emit handler .beginNested).andThen hfields.level).andThen (.emit handler (.endNested id))
    simp only [List.nil_append, List.append_nil] at hall
    exact hall

/-- A level that is read logs the fields of its message, whatever the handler is. -/
theorem logs_level {fs : Forest} (hfits : fs.All Forest.Fits) (hlen : fs.wireForm.length ≤ limits.maxLength.toNat) :
    Logs (fun depth => fs.message.announcements (depth + 1)) (level handler limits fs.wireForm) :=
  (composes_logs.fields hfits hlen).level

/-! ### Parses that fail -/

/-- The log holds field events, and behind them the event of the error if it has one. -/
def EndsLogged (e : Error) (log : List LogEvent) : Prop :=
  ∃ fields ended, log = fields ++ ended ∧ (∀ x ∈ fields, x.OfField) ∧
    ((∃ x, ended = [x] ∧ e.Logged x) ∨ ended = [] ∧ ∀ x, ¬e.Logged x)

theorem endsLogged_of_not {e : Error} {log : List LogEvent} (hlog : ∀ x ∈ log, x.OfField) (he : ∀ x, ¬e.Logged x) :
    EndsLogged e log := ⟨log, [], (List.append_nil log).symm, hlog, Or.inr ⟨rfl, he⟩⟩

theorem endsLogged_concat {e : Error} {log : List LogEvent} {x : LogEvent} (hlog : ∀ x ∈ log, x.OfField)
    (hx : e.Logged x) : EndsLogged e (log ++ [x]) := ⟨log, [x], rfl, hlog, Or.inl ⟨x, rfl, hx⟩⟩

theorem ensures_emit_log (h : handler.Unlogged)
    (event : Event) : Ensures (fun p => ∀ x ∈ p.log, x.OfField) (fun p => ∀ x ∈ p.log, x.OfField)
      (fun e p => EndsLogged e p.log) (emit handler event) :=
  ensures_emit (fun _ _ hp _ => hp) fun _ _ _ hp hreceive => endsLogged_of_not hp (h _ _ _ _ hreceive)

/-- Until it fails a parse logs field events and nothing else. -/
theorem keeps_log (h : handler.Unlogged) :
    Keeps handler limits (fun _ p => ∀ x ∈ p.log, x.OfField) (fun _ p => ∀ x ∈ p.log, x.OfField)
      (fun e p => EndsLogged e p.log) where
  announce _ header _ hp := List.forall_mem_append.mpr ⟨hp, List.forall_mem_singleton.mpr ⟨rfl, rfl⟩⟩
  noHeader {d input e} hhead p hp := by
    obtain ⟨rest, hread⟩ := exists_read_of_head_eq_noHeader hhead
    refine endsLogged_of_not hp fun x hlogged => ?_
    rcases FieldHeader.read_eq_error_cases hread with hdecode | ⟨tag, rfl⟩
    · exact Varint.not_logged_of_decode hdecode x hlogged
    · cases hlogged
  noPayload {d input header e} hhead p hp := by
    obtain ⟨afterHeader, rest, hread⟩ := exists_read_of_head_eq_noPayload hhead
    rcases Payload.read_eq_error_cases hread with ⟨cause, hdecode, rfl⟩ | ⟨announced, available, hshort, rfl⟩
    · exact endsLogged_of_not hp (Varint.not_logged_of_decode hdecode)
    · exact endsLogged_concat hp (.overrun hshort)
  uint64 _ _ _ := ensures_emit_log h _
  binary _ _ _ := ensures_emit_log h _
  beginNested _ := ensures_emit_log h _
  enter {d length} hlen p hp := by
    rw [enter, if_neg (Nat.not_lt.mpr hlen)]
    by_cases hmax : limits.maxDepth.toNat ≤ p.depth
    · rw [if_pos hmax]
      exact endsLogged_concat hp (.tooDeep _)
    · rw [if_neg hmax]
      exact hp
  leave _ _ hp := hp
  endNested _ _ := ensures_emit_log h _

/-- What a parse of one message leaves in an empty log. -/
theorem level_log (h : handler.Unlogged) (limits : Limits) (message : Bytes) {p : Progress σ} (hp : p.log = []) :
    match level handler limits message p with
    | (.ok (), q) => ∀ x ∈ q.log, x.OfField
    | (.error e, q) => EndsLogged e q.log := by
  have hnone : ∀ x ∈ p.log, x.OfField := by
    rw [hp]
    exact List.forall_mem_nil _
  by_cases hlen : limits.maxLength.toNat < message.length
  · rw [level_of_length_lt hlen]
    exact endsLogged_concat hnone (.oversized _ _)
  · exact (keeps_log h).level (d := 0) (Nat.le_of_not_lt hlen) p hnone

end ParseStep

/-! ### Logs of a codec -/

namespace Message
open ParseStep

theorem decodeLogged_snd (limits : Limits) (bytes : Bytes) :
    (decodeLogged limits bytes).2 = (level Decoder.handler limits bytes ⟨.empty, 0, []⟩).2.log := by
  simp only [decodeLogged, Parser.parse, Parser.new, Bool.false_eq_true, ↓reduceIte]
  rcases level Decoder.handler limits bytes ⟨.empty, 0, []⟩ with ⟨_ | _, q⟩ <;> rfl

/-- A message that is parsed leaves the log of its fields. -/
theorem decodeLogged_snd_of_ok {limits : Limits} {bytes : Bytes} {m : Message} (h : decode limits bytes = .ok m) :
    (decodeLogged limits bytes).2 = m.announcements 1 := by
  obtain ⟨q, hq⟩ := exists_level_of_decode_eq_ok h
  obtain ⟨fs, hvalid, rfl, rfl, hlen, -⟩ := exists_of_decode_eq_ok h
  obtain ⟨-, hlog⟩ := logs_level hvalid.fits hlen _ q hq
  rw [decodeLogged_snd, hq]
  exact hlog

theorem ofField_of_mem_announcements {limits : Limits} {bytes : Bytes} {m : Message} (h : decode limits bytes = .ok m) :
    ∀ x ∈ m.announcements 1, x.OfField := by
  obtain ⟨q, hq⟩ := exists_level_of_decode_eq_ok h
  have hlog := level_log Decoder.unlogged_handler limits bytes (p := ⟨.empty, 0, []⟩) rfl
  rw [hq] at hlog
  rw [← decodeLogged_snd_of_ok h, decodeLogged_snd, hq]
  exact hlog

theorem endsLogged_of_error {limits : Limits} {bytes : Bytes} {e : Error} (h : decode limits bytes = .error e) :
    EndsLogged e (decodeLogged limits bytes).2 := by
  obtain ⟨q, hq⟩ := decode_eq_error_iff.mp h
  have hlog := level_log Decoder.unlogged_handler limits bytes (p := ⟨.empty, 0, []⟩) rfl
  rw [hq] at hlog
  rw [decodeLogged_snd, hq]
  exact hlog

end Message

namespace Codec
open ParseStep
variable {codec : Codec} {bytes : Bytes} {m : Message}

theorem parse_snd (codec : Codec) (bytes : Bytes) :
    (codec.parse bytes).2 = (Message.decodeLogged codec.limits bytes).2 ++
      match Message.decode codec.limits bytes with
      | .ok m => [.parsed bytes.length m.size]
      | .error _ => [] := by
  rw [parse, Message.decode]
  rcases Message.decodeLogged codec.limits bytes with ⟨_ | _, log⟩
  · exact (List.append_nil log).symm
  · rfl

theorem parse_snd_of_ok (h : (codec.parse bytes).1 = .ok m) :
    (codec.parse bytes).2 = m.announcements 1 ++ [.parsed bytes.length m.size] := by
  have hdecode := parse_eq_ok_iff.mp h
  rw [parse_snd, hdecode, Message.decodeLogged_snd_of_ok hdecode]

theorem endsLogged_of_parse_eq_error {e : CodecError} (h : (codec.parse bytes).1 = .error e) :
    ∃ cause, e = .core cause ∧ EndsLogged cause (codec.parse bytes).2 := by
  rw [parse_fst] at h
  rcases hdecode : Message.decode codec.limits bytes with cause | _ <;> rw [hdecode] at h <;> cases h
  refine ⟨cause, rfl, ?_⟩
  rw [parse_snd, hdecode, List.append_nil]
  exact Message.endsLogged_of_error hdecode

/-- A codec that checks a digest logs what it logs for a parse, and then the digest, and whether it is another. -/
theorem verify_snd (codec : Codec) (bytes : Bytes) (expected : Digest) :
    (codec.verify bytes expected).2 = (codec.parse bytes).2 ++
      match (codec.parse bytes).1 with
      | .ok m =>
        .committed codec.algorithm (m.digest codec.algorithm) ::
          if m.digest codec.algorithm = expected then []
          else [.mismatch expected (m.digest codec.algorithm) codec.algorithm]
      | .error _ => [] := by
  rw [verify, commit]
  rcases codec.parse bytes with ⟨_ | m, log⟩
  · exact (List.append_nil log).symm
  · by_cases hdigest : m.digest codec.algorithm = expected <;> simp [digestMessage, hdigest]

/-- A parse that fails leaves no event with the text that stands for success. -/
theorem message_ne_of_endsLogged {e : Error} {log : List LogEvent} (h : EndsLogged e log) :
    ∀ x ∈ log, x.message ≠ "parsed message" := by
  obtain ⟨fields, ended, rfl, hfields, hended⟩ := h
  intro x hmem
  rcases List.mem_append.mp hmem with hmem | hmem
  · obtain ⟨-, hmessage⟩ := hfields _ hmem
    rw [hmessage]
    decide
  · rcases hended with ⟨y, rfl, hy⟩ | ⟨rfl, -⟩
    · obtain rfl := List.mem_singleton.mp hmem
      exact hy.message_ne
    · cases hmem

/-- A parse that succeeds logs each field of the message with its level, its id and its type, at whatever level it stands
    and with the fields in it right behind it, and then the length of the message and the number of its root fields. One
    that fails logs field events, and behind them one event for the refusal of a message that is too long, of a level
    that is too deep or of a length that announces too much; any other error stands in no log. A check of a digest adds
    a warning exactly if the digest is another one. -/
theorem log_of_parse (codec : Codec) (bytes : Bytes) :
    let parsed := codec.parse bytes
    (∀ m, parsed.1 = .ok m →
        (∃ last, parsed.2 = m.announcements 1 ++ [last] ∧ last = .parsed bytes.length m.size ∧ last.level = .debug ∧
          last.message = "parsed message") ∧
          ∀ x ∈ m.announcements 1, x.level = .trace ∧ x.message = "field") ∧
      (∀ e, parsed.1 = .error e →
        (∀ x ∈ parsed.2, x.message ≠ "parsed message") ∧
          ∃ cause fields ended, e = .core cause ∧ parsed.2 = fields ++ ended ∧
            (∀ x ∈ fields, x.level = .trace ∧ x.message = "field") ∧
            ((∃ x, ended = [x] ∧ x.level = .debug ∧ cause.Logged x) ∨ ended = [] ∧ ∀ x, ¬cause.Logged x)) ∧
      ∀ expected, ∃ added, (codec.verify bytes expected).2 = parsed.2 ++ added ∧
        added.filter (·.level = .warn) =
          match (codec.verify bytes expected).1 with
          | .error (.digestMismatch wanted actual) => [.mismatch wanted actual codec.algorithm]
          | _ => [] := by
  intro parsed
  refine ⟨fun m h => ⟨⟨_, parse_snd_of_ok h, rfl, rfl, rfl⟩, ?_⟩, fun e h => ?_, fun expected =>
    ⟨_, verify_snd codec bytes expected, ?_⟩⟩
  · exact Message.ofField_of_mem_announcements (parse_eq_ok_iff.mp h)
  · obtain ⟨cause, rfl, hlog⟩ := endsLogged_of_parse_eq_error h
    refine ⟨message_ne_of_endsLogged hlog, ?_⟩
    obtain ⟨fields, ended, hparsed, hfields, hended⟩ := hlog
    refine ⟨cause, fields, ended, rfl, hparsed, hfields, hended.imp ?_ id⟩
    rintro ⟨x, hx, hlogged⟩
    exact ⟨x, hx, hlogged.level_eq, hlogged⟩
  · rw [verify_fst, checkWith]
    rcases hparse : (codec.parse bytes).1 with e | m
    · obtain ⟨cause, rfl, -⟩ := endsLogged_of_parse_eq_error hparse
      rfl
    · by_cases hdigest : m.digestWith codec.algorithm.hash = expected <;>
        simp [Except.bind, Message.digest, hdigest, LogEvent.level]

/-- A message of two levels, with a check against its own digest and one against zeros, and a field after which a length
    announces two bytes where there is one. -/
theorem log_of_parse_two_levels :
    ((⟨⟨6, 2⟩, .sha256⟩ : Codec).parse [0x11, 0x55, 0x25, 0x05, 0x37, 0x01]).2 =
        [.field 1 1 .uint64, .field 1 2 .message, .field 2 3 .binary, .parsed 6 2] ∧
      (∃ added, ((⟨⟨6, 2⟩, .sha256⟩ : Codec).verify [0x11, 0x55, 0x25, 0x05, 0x37, 0x01]
            ((Forest.message [(1, .uint64 42), (2, .nested [(3, .binary [])])]).digest .sha256)).2 =
          ((⟨⟨6, 2⟩, .sha256⟩ : Codec).parse [0x11, 0x55, 0x25, 0x05, 0x37, 0x01]).2 ++ added ∧
        added.filter (·.level = .warn) = []) ∧
      (∃ added, ((⟨⟨6, 2⟩, .sha256⟩ : Codec).verify [0x11, 0x55, 0x25, 0x05, 0x37, 0x01] ⟨.replicate 32 0⟩).2 =
          ((⟨⟨6, 2⟩, .sha256⟩ : Codec).parse [0x11, 0x55, 0x25, 0x05, 0x37, 0x01]).2 ++ added ∧
        added.filter (·.level = .warn) =
          [.mismatch ⟨.replicate 32 0⟩
            ((Forest.message [(1, .uint64 42), (2, .nested [(3, .binary [])])]).digest .sha256) .sha256]) ∧
      ∃ fields x, ((⟨⟨6, 2⟩, .sha256⟩ : Codec).parse [0x11, 0x55, 0x37, 0x05, 0xaa]).2 = fields ++ [x] ∧
        x.level = .debug ∧ Error.payloadCut.Logged x := by
  have hparse : ((⟨⟨6, 2⟩, .sha256⟩ : Codec).parse [0x11, 0x55, 0x25, 0x05, 0x37, 0x01]).1 =
      .ok (Forest.message [(1, .uint64 42), (2, .nested [(3, .binary [])])]) := by cbv
  have hcut : ((⟨⟨6, 2⟩, .sha256⟩ : Codec).parse [0x11, 0x55, 0x37, 0x05, 0xaa]).1 = .error (.core .payloadCut) := by
    cbv
  have hzeros : (Forest.message [(1, .uint64 42), (2, .nested [(3, .binary [])])]).digest .sha256 ≠
      ⟨.replicate 32 0⟩ := by decide +kernel
  obtain ⟨hlog, -, hverify⟩ := log_of_parse ⟨⟨6, 2⟩, .sha256⟩ [0x11, 0x55, 0x25, 0x05, 0x37, 0x01]
  obtain ⟨-, hfailed, -⟩ := log_of_parse ⟨⟨6, 2⟩, .sha256⟩ [0x11, 0x55, 0x37, 0x05, 0xaa]
  obtain ⟨⟨last, hparsed, rfl, -, -⟩, -⟩ := hlog _ hparse
  obtain ⟨added, hadded, hwarn⟩ := hverify _
  rw [verify_eq_ok_iff.mpr ⟨hparse, rfl⟩] at hwarn
  obtain ⟨added', hadded', hwarn'⟩ := hverify ⟨.replicate 32 0⟩
  rw [verify_eq_digestMismatch hparse hzeros] at hwarn'
  obtain ⟨-, cause, fields, ended, hcause, hends, -, hended⟩ := hfailed _ hcut
  cases hcause
  refine ⟨hparsed, ⟨added, hadded, hwarn⟩, ⟨added', hadded', hwarn'⟩, ?_⟩
  rcases hended with ⟨x, rfl, hlevel, hlogged⟩ | ⟨-, hnone⟩
  · exact ⟨fields, x, hends, hlevel, hlogged⟩
  · exact absurd (.overrun Nat.one_lt_two) (hnone (.overrun 2 1))

end Codec
end FieldWire
