import FieldWire.Proofs.Parser.Ensures
import FieldWire.Proofs.Parser.Feed

/-! # What every parse keeps

A handler keeps track of the depth if each event it is handed leaves its states where the number of open messages says
(`Tracks`), and then all steps of a parse keep to that (`ParseStep.keeps_of_tracks`). So with any handler that keeps
track of the depth, a parser that has accepted all its messages has one message open, the root (`Parser.feed_tracks`),
and the first failure leaves it in one of four ways (`Parser.fails_of_parse_eq_error`). -/

namespace FieldWire

/-! ### Errors of the readers -/

/-- The errors that bytes can be unreadable for. -/
inductive Error.Unreadable : Error → Prop where
  | truncated (what : String) : Unreadable (.truncated what)
  | unknownWireType (tag : UInt8) : Unreadable (.unknownWireType tag)
  | malformedVarint (length : Nat) : Unreadable (.malformedVarint length)

theorem Varint.unreadable_of_decode {input : Bytes} {e : Error} (h : decode input = .error e) : e.Unreadable := by
  rcases decode_eq_error_cases h with rfl | rfl | ⟨length, rfl⟩
  · exact .truncated _
  · exact .truncated _
  · exact .malformedVarint length

theorem FieldHeader.unreadable_of_read {input rest : Bytes} {e : Error} (h : read input = (.error e, rest)) :
    e.Unreadable := by
  rcases read_eq_error_cases h with hdecode | ⟨tag, rfl⟩
  · exact Varint.unreadable_of_decode hdecode
  · exact .unknownWireType tag

theorem Payload.unreadable_of_read {t : WireType} {input rest : Bytes} {e : PayloadError}
    (h : read t input = (.error e, rest)) : e.toError.Unreadable := by
  rcases read_eq_error_cases h with ⟨cause, hdecode, rfl⟩ | ⟨announced, available, -, rfl⟩
  · exact Varint.unreadable_of_decode hdecode
  · exact .truncated _

/-! ### Handlers that keep track of the depth -/

section
variable {σ ρ : Type}

/-- The handler is left in a state with `P`, and if it refused the event, the error has `R`. -/
def Leaves (P : σ → Prop) (R : Error → Prop) (outcome : Except Error Unit × σ) : Prop :=
  P outcome.2 ∧ ∀ e, outcome.1 = .error e → R e

/-- `P d` holds of the states of the handler while `d` messages are under construction. The handler refuses no nested
    message before its end, and what it refuses has `R`. -/
structure Tracks (handler : Handler σ ρ) (limits : Limits) (P : Nat → σ → Prop) (R : Error → Prop) : Prop where
  uint64 : ∀ {d s id} n, 0 < d → d ≤ limits.maxDepth.toNat → id ≤ FieldHeader.maxId → P d s →
    Leaves (P d) R (handler.receive (.uint64 id n) s)
  binary : ∀ {d s id} bytes, 0 < d → d ≤ limits.maxDepth.toNat → id ≤ FieldHeader.maxId → P d s →
    Leaves (P d) R (handler.receive (.binary id bytes) s)
  beginNested : ∀ {d s}, 0 < d → d ≤ limits.maxDepth.toNat → P d s →
    Leaves (P (d + 1)) (fun _ => False) (handler.receive .beginNested s)
  endNested : ∀ {d s id}, 0 < d → d ≤ limits.maxDepth.toNat → id ≤ FieldHeader.maxId → P (d + 1) s →
    Leaves (P d) R (handler.receive (.endNested id) s)

end

namespace ParseStep
variable {σ ρ : Type} {handler : Handler σ ρ} {limits : Limits} {P : Nat → σ → Prop} {R : Error → Prop} {d : Nat}

/-- Fields of the level `d` are being read. -/
structure Inside (limits : Limits) (P : Nat → σ → Prop) (d : Nat) (p : Progress σ) : Prop where
  depth_eq : p.depth = d
  depth_le : d ≤ limits.maxDepth.toNat
  state : P d p.state

/-- One more message than the levels that are open is under construction: it is announced, or all of it is read. -/
structure Outside (limits : Limits) (P : Nat → σ → Prop) (d : Nat) (p : Progress σ) : Prop where
  depth_eq : p.depth = d
  depth_le : d ≤ limits.maxDepth.toNat
  state : P (d + 1) p.state

/-- How a parse can stop: in front of a level that is too deep, or inside one. -/
def Stopped (limits : Limits) (P : Nat → σ → Prop) (R : Error → Prop) (e : Error) (p : Progress σ) : Prop :=
  (e = .depthExceeded limits.maxDepth ∧ Outside limits P limits.maxDepth.toNat p) ∨
    ((e.Unreadable ∨ R e) ∧ ∃ d, Inside limits P d p)

/-- An event that leaves the parse inside a level, be it taken in or refused. -/
theorem ensures_emit_of_leaves {A : Progress σ → Prop} {event : Event}
    (h : ∀ p, A p → p.depth = d ∧ d ≤ limits.maxDepth.toNat ∧ Leaves (P d) R (handler.receive event p.state)) :
    Ensures A (Inside limits P d) (Stopped limits P R) (emit handler event) := by
  refine ensures_emit (fun p s hp hreceive => ?_) (fun p s e hp hreceive => ?_)
  · obtain ⟨hdepth, hle, hstate, -⟩ := h p hp
    rw [hreceive] at hstate
    exact ⟨hdepth, hle, hstate⟩
  · obtain ⟨hdepth, hle, hstate, hrefused⟩ := h p hp
    rw [hreceive] at hstate hrefused
    exact Or.inr ⟨Or.inr (hrefused e rfl), d, hdepth, hle, hstate⟩

/-- An event that is never refused. -/
theorem ensures_beginNested (h : Tracks handler limits P R) (hd : 0 < d) :
    Ensures (Inside limits P d) (Outside limits P d) (Stopped limits P R) (emit handler .beginNested) := by
  refine ensures_emit (fun p s hp hreceive => ?_) (fun p s e hp hreceive => ?_)
  · obtain ⟨hstate, -⟩ := h.beginNested hd hp.depth_le hp.state
    rw [hreceive] at hstate
    exact ⟨hp.depth_eq, hp.depth_le, hstate⟩
  · obtain ⟨-, hrefused⟩ := h.beginNested hd hp.depth_le hp.state
    exact (hrefused e (congrArg Prod.fst hreceive)).elim

theorem ensures_reject {Q : Progress σ → Prop} {e : PayloadError} (he : e.toError.Unreadable) :
    Ensures (Inside limits P d) Q (Stopped limits P R) (reject e) := by
  cases e with
  | varint cause => exact fun p hp => Or.inr ⟨Or.inl he, d, hp⟩
  | overrun announced available => exact fun p hp => Or.inr ⟨Or.inl he, d, hp.depth_eq, hp.depth_le, hp.state⟩

theorem ensures_enter {length : Nat} (hlen : length ≤ limits.maxLength.toNat) :
    Ensures (Outside limits P d) (Inside limits P (d + 1)) (Stopped limits P R) (enter limits length) := by
  intro p hp
  rw [enter, if_neg (Nat.not_lt.mpr hlen)]
  by_cases hmax : limits.maxDepth.toNat ≤ p.depth
  · rw [if_pos hmax]
    have hd : d = limits.maxDepth.toNat := Nat.le_antisymm hp.depth_le (hp.depth_eq ▸ hmax)
    exact Or.inl ⟨rfl, hp.depth_eq.trans hd, Nat.le_refl _, hd ▸ hp.state⟩
  · rw [if_neg hmax]
    exact ⟨congrArg (· + 1) hp.depth_eq, hp.depth_eq ▸ Nat.lt_of_not_le hmax, hp.state⟩

theorem ensures_leave {E : Error → Progress σ → Prop} :
    Ensures (Inside limits P (d + 1)) (Outside limits P d) E leave := by
  intro p hp
  refine ⟨?_, Nat.le_of_succ_le hp.depth_le, hp.state⟩
  show p.depth - 1 = d
  rw [hp.depth_eq, Nat.add_sub_cancel]

theorem keeps_of_tracks (h : Tracks handler limits P R) :
    Keeps handler limits (Inside limits P) (Outside limits P) (Stopped limits P R) where
  announce _ _ _ hp := ⟨hp.depth_eq, hp.depth_le, hp.state⟩
  noHeader hhead _ hp := by
    obtain ⟨rest, hread⟩ := exists_read_of_head_eq_noHeader hhead
    exact Or.inr ⟨Or.inl (FieldHeader.unreadable_of_read hread), _, hp⟩
  noPayload hhead := by
    obtain ⟨afterHeader, rest, hread⟩ := exists_read_of_head_eq_noPayload hhead
    exact ensures_reject (Payload.unreadable_of_read hread)
  uint64 n hd hid := ensures_emit_of_leaves fun _ hp =>
    ⟨hp.depth_eq, hp.depth_le, h.uint64 n hd hp.depth_le hid hp.state⟩
  binary bytes hd hid := ensures_emit_of_leaves fun _ hp =>
    ⟨hp.depth_eq, hp.depth_le, h.binary bytes hd hp.depth_le hid hp.state⟩
  beginNested hd := ensures_beginNested h hd
  enter hlen := ensures_enter hlen
  leave _ := ensures_leave
  endNested hd hid := ensures_emit_of_leaves fun _ hp =>
    ⟨hp.depth_eq, hp.depth_le, h.endNested hd hp.depth_le hid hp.state⟩

end ParseStep

/-! ### Messages in a row -/

namespace Parser
open ParseStep
variable {σ ρ : Type} {handler : Handler σ ρ} {limits : Limits} {s : σ} {P : Nat → σ → Prop} {R : Error → Prop}
  {parser : Parser σ ρ} {buffers : List Bytes} {last : Bytes} {e : Error}

/-- No parse has failed, no level is open, and the root is under construction. -/
structure Ready (handler : Handler σ ρ) (limits : Limits) (P : Nat → σ → Prop) (parser : Parser σ ρ) : Prop where
  handler_eq : parser.handler = handler
  limits_eq : parser.limits = limits
  failed_eq : parser.failed = false
  depth_eq : parser.depth = 0
  state : P 1 parser.state

/-- How a message of the given length can fail: the error, the depth at which it leaves the parser, and the state. -/
inductive Fails (limits : Limits) (P : Nat → σ → Prop) (R : Error → Prop) (length : Nat) : Error → Nat → σ → Prop where
  | tooLong {s : σ} : limits.maxLength.toNat < length → P 1 s →
    Fails limits P R length (.oversizeMessage length limits.maxLength) 0 s
  | tooDeep {s : σ} : length ≤ limits.maxLength.toNat → P (limits.maxDepth.toNat + 1) s →
    Fails limits P R length (.depthExceeded limits.maxDepth) limits.maxDepth.toNat s
  | unreadable {e : Error} {d : Nat} {s : σ} : length ≤ limits.maxLength.toNat → e.Unreadable →
    d ≤ limits.maxDepth.toNat → P d s → Fails limits P R length e d s
  | refused {e : Error} {d : Nat} {s : σ} : length ≤ limits.maxLength.toNat → R e → d ≤ limits.maxDepth.toNat → P d s →
    Fails limits P R length e d s

theorem Fails.exists_depth {length d : Nat} (h : Fails limits P R length e d s) : ∃ n, P n s := by
  cases h with
  | tooLong _ hs => exact ⟨_, hs⟩
  | tooDeep _ hs => exact ⟨_, hs⟩
  | unreadable _ _ _ hs => exact ⟨_, hs⟩
  | refused _ _ _ hs => exact ⟨_, hs⟩

/-- Only a message that is too long itself fails for its length, if the handler makes up no such error. -/
theorem Fails.length_lt {length n d : Nat} {max : UInt64} (h : Fails limits P R n (.oversizeMessage length max) d s)
    (hR : ¬R (.oversizeMessage length max)) : limits.maxLength.toNat < n := by
  cases h with
  | tooLong hlen _ => exact hlen
  | unreadable _ hunreadable _ _ => cases hunreadable
  | refused _ hrefused _ _ => exact absurd hrefused hR

theorem fails_of_stopped {length : Nat} {p : Progress σ} (hlen : length ≤ limits.maxLength.toNat)
    (h : Stopped limits P R e p) : Fails limits P R length e p.depth p.state := by
  rcases h with ⟨rfl, hdepth, -, hstate⟩ | ⟨hunreadable | hrefused, d, rfl, hle, hstate⟩
  · rw [hdepth]
    exact .tooDeep hlen hstate
  · exact .unreadable hlen hunreadable hle hstate
  · exact .refused hlen hrefused hle hstate

/-- How a parse ends. -/
theorem parse_cases (h : Tracks handler limits P R) (hready : Ready handler limits P parser) (message : Bytes) :
    ((parser.parse message).1 = .ok () ∧ Ready handler limits P (parser.parse message).2) ∨
      ∃ e, (parser.parse message).1 = .error e ∧
        Fails limits P R message.length e (parser.parse message).2.depth (parser.parse message).2.state := by
  obtain ⟨hhandler, hlimits, hfailed, hdepth, hstate⟩ := hready
  obtain ⟨hanswer, hprogress⟩ := parse_eq_level hfailed message
  rw [hhandler, hlimits] at hanswer hprogress
  rw [state, depth, hprogress, hanswer]
  by_cases hlen : limits.maxLength.toNat < message.length
  · refine Or.inr ⟨.oversizeMessage message.length limits.maxLength, by rw [level_of_length_lt hlen], ?_⟩
    rw [level_of_length_lt hlen]
    dsimp only
    rw [show parser.progress.depth = 0 from hdepth]
    exact .tooLong hlen hstate
  · have hle := Nat.le_of_not_lt hlen
    have hlevel := (keeps_of_tracks h).level hle parser.progress ⟨hdepth, Nat.zero_le _, hstate⟩
    rcases hend : level handler limits message parser.progress with ⟨e | _, q⟩ <;> rw [hend] at hlevel
    · exact Or.inr ⟨e, rfl, fails_of_stopped hle hlevel⟩
    · rw [hend] at hanswer hprogress
      refine Or.inl ⟨rfl, (parse_handler _ _).trans hhandler, (parse_limits _ _).trans hlimits,
        parse_failed_iff.mpr hanswer, (congrArg Progress.depth hprogress).trans hlevel.depth_eq, ?_⟩
      rw [state, hprogress]
      exact hlevel.state

/-- Whatever a parser is fed, its handler keeps track of some depth; a parser that has not failed is ready for more. -/
theorem feed_tracks (h : Tracks handler limits P R) (hs : P 1 s) (buffers : List Bytes) :
    (∃ d, P d ((new handler s limits).feed buffers).2.state) ∧
      (((new handler s limits).feed buffers).2.failed = false →
        Ready handler limits P ((new handler s limits).feed buffers).2) := by
  induction buffers using List.reverseRecOn with
  | nil => exact ⟨⟨1, hs⟩, fun hfailed => ⟨rfl, rfl, hfailed, rfl, hs⟩⟩
  | append_singleton before message ih =>
    obtain ⟨hstate, hready⟩ := ih
    rw [feed_concat]
    rcases hfailed : ((new handler s limits).feed before).2.failed with _ | _
    · rcases parse_cases h (hready hfailed) message with ⟨-, hnext⟩ | ⟨e, herror, hfails⟩
      · exact ⟨⟨1, hnext.state⟩, fun _ => hnext⟩
      · refine ⟨hfails.exists_depth, fun hok => ?_⟩
        cases herror.symm.trans (parse_failed_iff.mp hok)
    · rw [parse_of_failed hfailed]
      exact ⟨hstate, hready⟩

theorem ready_of_parse_eq_ok (h : Tracks handler limits P R) (hs : P 1 s)
    (hok : (((new handler s limits).feed buffers).2.parse last).1 = .ok ()) :
    Ready handler limits P (((new handler s limits).feed buffers).2.parse last).2 := by
  obtain ⟨-, hready⟩ := feed_tracks h hs (buffers ++ [last])
  rw [feed_concat] at hready
  exact hready (parse_failed_iff.mpr hok)

theorem fails_of_parse_eq_error (h : Tracks handler limits P R) (hs : P 1 s)
    (haccepts : (new handler s limits).Accepts buffers)
    (he : (((new handler s limits).feed buffers).2.parse last).1 = .error e) :
    Fails limits P R last.length e (((new handler s limits).feed buffers).2.parse last).2.depth
      (((new handler s limits).feed buffers).2.parse last).2.state := by
  obtain ⟨-, hready⟩ := feed_tracks h hs buffers
  rcases parse_cases h (hready (feed_failed_iff.mpr ⟨rfl, haccepts⟩)) last with ⟨hok, -⟩ | ⟨e', he', hfails⟩
  · cases hok.symm.trans he
  · cases he'.symm.trans he
    exact hfails

end Parser
end FieldWire
