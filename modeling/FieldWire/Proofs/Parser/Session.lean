import FieldWire.Proofs.Parser.Feed

/-! # Parsers that have failed

A parser is fed messages, whatever it answers. As long as it accepts them, it is left at depth 0 and has the result of
its handler. The first message that it refuses, for whatever reason and however deep inside, is the last one that has an
effect: all others are refused for that alone, the parser stays as it is, and its handler is not asked for a result
(`Parser.feed_outcome`). -/

namespace FieldWire

/-- The handler with a result that tells that it was asked for one: the state that it was asked in, and its answer. -/
def Handler.asked {σ ρ : Type} (handler : Handler σ ρ) : Handler σ (σ × Except Error ρ) where
  receive := handler.receive
  finish s := .ok (s, handler.finish s)

namespace Parser
variable {σ ρ : Type} {parser : Parser σ ρ} {messages : List Bytes}

/-- The same parser with a result that tells that the handler was asked for one. -/
def asked (parser : Parser σ ρ) : Parser σ (σ × Except Error ρ) :=
  ⟨parser.handler.asked, parser.limits, parser.progress, parser.failed⟩

/-! ### Results -/

theorem finish_of_failed (h : parser.failed = true) : parser.finish = .error .parserUnfinished := if_pos (Or.inl h)

theorem finish_of_depth_eq_zero (hfailed : parser.failed = false) (hdepth : parser.depth = 0) :
    parser.finish = parser.handler.finish parser.state := by
  rw [finish, if_neg]
  simp [hfailed, hdepth]

/-! ### Sessions -/

theorem feed_of_failed (h : parser.failed = true) (messages : List Bytes) :
    parser.feed messages = (List.replicate messages.length (.error .parserFailed), parser) := by
  induction messages with
  | nil => rfl
  | cons message rest ih =>
    rw [feed, parse_of_failed h]
    dsimp only
    rw [ih]
    rfl

theorem length_feed (parser : Parser σ ρ) (messages : List Bytes) :
    (parser.feed messages).1.length = messages.length := by
  induction messages generalizing parser with
  | nil => rfl
  | cons message rest ih => exact congrArg (· + 1) (ih _)

theorem Accepts.feed_fst (h : parser.Accepts messages) :
    (parser.feed messages).1 = List.replicate messages.length (.ok ()) :=
  List.eq_replicate_iff.mpr ⟨length_feed parser messages, h⟩

/-- Messages that are not all accepted have a first one that is refused. Those in front of it are accepted. -/
theorem accepts_or_exists_refused (parser : Parser σ ρ) (messages : List Bytes) : parser.Accepts messages ∨
    ∃ before failing later e, messages = before ++ failing :: later ∧ parser.Accepts before ∧
      ((parser.feed before).2.parse failing).1 = .error e := by
  induction messages generalizing parser with
  | nil => exact Or.inl (accepts_nil parser)
  | cons message rest ih =>
    rcases hanswer : (parser.parse message).1 with e | _
    · exact Or.inr ⟨[], message, rest, e, rfl, accepts_nil parser, hanswer⟩
    · rcases ih (parser.parse message).2 with haccepts | ⟨before, failing, later, e, rfl, hbefore, hfailing⟩
      · exact Or.inl (accepts_cons_iff.mpr ⟨hanswer, haccepts⟩)
      · exact Or.inr ⟨message :: before, failing, later, e, rfl, accepts_cons_iff.mpr ⟨hanswer, hbefore⟩, hfailing⟩

/-- After the first refusal a parser refuses everything and stays as it is. -/
theorem feed_of_parse_eq_error {before : List Bytes} {failing : Bytes} {e : Error} (h : parser.Accepts before)
    (he : ((parser.feed before).2.parse failing).1 = .error e) (later : List Bytes) :
    ((parser.feed before).2.parse failing).2.failed = true ∧
      parser.feed (before ++ failing :: later) =
        (List.replicate before.length (.ok ()) ++ .error e :: List.replicate later.length (.error .parserFailed),
          ((parser.feed before).2.parse failing).2) := by
  have hfailed : ((parser.feed before).2.parse failing).2.failed = true := by
    by_contra hnot
    have hok := parse_failed_iff.mp (Bool.eq_false_of_not_eq_true hnot)
    rw [he] at hok
    cases hok
  refine ⟨hfailed, ?_⟩
  rw [feed_append, h.feed_fst]
  have hrest := feed_of_failed hfailed later
  rw [feed]
  dsimp only
  rw [hrest, he]

/-- Whatever a new parser is fed, one of two things happens. It accepts all of it, is at depth 0 then, and has the result
    of its handler. Or there is a first message that it refuses: every later one is refused for that, the parser stays
    as the first refusal left it, and it has no result, nor is the handler asked for one. -/
theorem feed_outcome (handler : Handler σ ρ) (s : σ) (limits : Limits) (buffers : List Bytes) :
    let parser := new handler s limits
    let answers := (parser.feed buffers).1
    let last := (parser.feed buffers).2
    (answers = List.replicate buffers.length (.ok ()) ∧ last.depth = 0 ∧
        last.finish = handler.finish last.state ∧ last.asked.finish = .ok (last.state, handler.finish last.state)) ∨
      ∃ before failing later e, buffers = before ++ failing :: later ∧
        answers = List.replicate before.length (.ok ()) ++
          .error e :: List.replicate later.length (.error (.invalidState "parser failed earlier")) ∧
        last = ((parser.feed before).2.parse failing).2 ∧
        last.finish = .error (.invalidState "not finished parsing") ∧
        last.asked.finish = .error (.invalidState "not finished parsing") := by
  intro parser answers last
  rcases accepts_or_exists_refused parser buffers with haccepts | ⟨before, failing, later, e, rfl, hbefore, he⟩
  · have hfailed : last.failed = false := feed_failed_iff.mpr ⟨rfl, haccepts⟩
    have hdepth : last.depth = 0 := feed_depth haccepts
    have hhandler : last.handler = handler := feed_handler parser buffers
    refine Or.inl ⟨haccepts.feed_fst, hdepth, ?_, ?_⟩
    · rw [finish_of_depth_eq_zero hfailed hdepth, hhandler]
    · rw [← hhandler]
      exact finish_of_depth_eq_zero hfailed hdepth
  · obtain ⟨hfailed, hfeed⟩ := feed_of_parse_eq_error hbefore he later
    have hlast : last = ((parser.feed before).2.parse failing).2 := congrArg Prod.snd hfeed
    rw [← hlast] at hfailed
    exact Or.inr ⟨before, failing, later, e, rfl, congrArg Prod.fst hfeed, hlast, finish_of_failed hfailed,
      finish_of_failed hfailed⟩

/-- A message that is too long leaves no level open; there is no result nevertheless. -/
example :
    let last := ((new Event.recorder [] ⟨2, 8⟩).feed [[0x11, 0x55], [0x11, 0x55, 0x00], []]).2
    last.depth = 0 ∧ last.finish = .error (.invalidState "not finished parsing") := by
  cbv

end Parser
end FieldWire
