import FieldWire.Proofs.Parser.Append
import FieldWire.Proofs.Parser.Recorder
import FieldWire.Proofs.RoundTrip
import Mathlib.Data.List.Induction
import Mathlib.Tactic.Tauto

/-! # Messages in a row

A parser is fed messages one after another (`Parser.feed`). As long as it accepts them it is back at depth 0 after each,
so the next one is parsed where one message with all their bytes would have been read on
(`Parser.parse_feed_eq_parse_flatten`). With the decoder this means that all the fields go into one message: an id that
an earlier message has set is refused in a later one. -/

namespace FieldWire
namespace Parser
open ParseStep
variable {σ ρ : Type} {parser : Parser σ ρ} {message : Bytes} {messages : List Bytes}

/-! ### One message -/

@[simp] theorem parse_handler (parser : Parser σ ρ) (message : Bytes) :
    (parser.parse message).2.handler = parser.handler := by
  unfold parse
  split
  · rfl
  · split <;> rfl

@[simp] theorem parse_limits (parser : Parser σ ρ) (message : Bytes) :
    (parser.parse message).2.limits = parser.limits := by
  unfold parse
  split
  · rfl
  · split <;> rfl

/-- A parser that has failed looks at nothing more. -/
theorem parse_of_failed (h : parser.failed = true) (message : Bytes) :
    parser.parse message = (.error .parserFailed, parser) := by
  rw [parse, if_pos h]

theorem parse_failed_iff : (parser.parse message).2.failed = false ↔ (parser.parse message).1 = .ok () := by
  rcases hfailed : parser.failed with _ | _
  · rw [parse, hfailed]
    rcases level parser.handler parser.limits message parser.progress with ⟨_ | _, q⟩ <;> simp
  · simp [parse, hfailed]

theorem parse_eq_ok_iff : (parser.parse message).1 = .ok () ↔ parser.failed = false ∧
    level parser.handler parser.limits message parser.progress = (.ok (), (parser.parse message).2.progress) := by
  rcases hfailed : parser.failed with _ | _
  · obtain ⟨hanswer, hprogress⟩ := parse_eq_level hfailed message
    rw [hprogress, hanswer, and_iff_right rfl]
    exact ⟨fun h => Prod.ext h rfl, congrArg Prod.fst⟩
  · simp [parse, hfailed]

/-! ### One message after another -/

/-- Feeds messages to a parser, whatever it answers, and gives the answers and the parser as it is then. -/
def feed (parser : Parser σ ρ) : List Bytes → List (Except Error Unit) × Parser σ ρ
  | [] => ([], parser)
  | message :: rest =>
    let (answer, next) := parser.parse message
    let (answers, last) := next.feed rest
    (answer :: answers, last)

def Accepts (parser : Parser σ ρ) (messages : List Bytes) : Prop :=
  ∀ answer ∈ (parser.feed messages).1, answer = .ok ()

theorem accepts_nil (parser : Parser σ ρ) : parser.Accepts [] := List.forall_mem_nil _

theorem feed_cons (parser : Parser σ ρ) (message : Bytes) (rest : List Bytes) :
    (parser.feed (message :: rest)).2 = ((parser.parse message).2.feed rest).2 := rfl

theorem accepts_cons_iff {rest : List Bytes} :
    parser.Accepts (message :: rest) ↔ (parser.parse message).1 = .ok () ∧ (parser.parse message).2.Accepts rest := by
  rw [Accepts, feed, List.forall_mem_cons]
  rfl

theorem feed_append (parser : Parser σ ρ) (before after : List Bytes) :
    parser.feed (before ++ after) =
      ((parser.feed before).1 ++ ((parser.feed before).2.feed after).1, ((parser.feed before).2.feed after).2) := by
  induction before generalizing parser with
  | nil => rfl
  | cons first rest ih =>
    exact congrArg (fun x => ((parser.parse first).1 :: x.1, x.2)) (ih (parser.parse first).2)

theorem feed_concat (parser : Parser σ ρ) (before : List Bytes) (message : Bytes) :
    (parser.feed (before ++ [message])).2 = ((parser.feed before).2.parse message).2 := by
  rw [feed_append]
  rfl

theorem accepts_append_iff {before after : List Bytes} :
    parser.Accepts (before ++ after) ↔ parser.Accepts before ∧ (parser.feed before).2.Accepts after := by
  rw [Accepts, feed_append, List.forall_mem_append]
  rfl

theorem accepts_concat_iff {before : List Bytes} : parser.Accepts (before ++ [message]) ↔
    parser.Accepts before ∧ ((parser.feed before).2.parse message).1 = .ok () := by
  rw [accepts_append_iff, accepts_cons_iff, and_iff_left (accepts_nil _)]

@[simp] theorem feed_handler (parser : Parser σ ρ) (messages : List Bytes) :
    (parser.feed messages).2.handler = parser.handler := by
  induction messages generalizing parser with
  | nil => rfl
  | cons message rest ih => rw [feed_cons, ih, parse_handler]

@[simp] theorem feed_limits (parser : Parser σ ρ) (messages : List Bytes) :
    (parser.feed messages).2.limits = parser.limits := by
  induction messages generalizing parser with
  | nil => rfl
  | cons message rest ih => rw [feed_cons, ih, parse_limits]

theorem feed_failed_iff :
    (parser.feed messages).2.failed = false ↔ parser.failed = false ∧ parser.Accepts messages := by
  induction messages generalizing parser with
  | nil => simp [Accepts, feed]
  | cons message rest ih =>
    rw [feed_cons, ih, accepts_cons_iff, parse_failed_iff, parse_eq_ok_iff, and_assoc]
    tauto

/-- Between messages that are accepted no level is open. -/
theorem feed_depth (h : parser.Accepts messages) : (parser.feed messages).2.depth = parser.depth := by
  induction messages generalizing parser with
  | nil => rfl
  | cons message rest ih =>
    obtain ⟨hmessage, hrest⟩ := accepts_cons_iff.mp h
    obtain ⟨-, hlevel⟩ := parse_eq_ok_iff.mp hmessage
    obtain ⟨-, -, hdepth, -⟩ := level_eq_ok_iff.mp hlevel
    rw [feed_cons, ih hrest]
    exact hdepth

/-- Accepted messages leave a parser where one message with all their bytes does. -/
theorem level_flatten_append {wide : Limits} {last : Bytes} (h : parser.Accepts messages)
    (hdepth : wide.maxDepth = parser.limits.maxDepth)
    (hlen : (messages.flatten ++ last).length ≤ wide.maxLength.toNat) :
    level parser.handler wide (messages.flatten ++ last) parser.progress =
      level parser.handler wide last (parser.feed messages).2.progress := by
  induction messages generalizing parser with
  | nil => rfl
  | cons message rest ih =>
    obtain ⟨hmessage, hrest⟩ := accepts_cons_iff.mp h
    obtain ⟨-, hlevel⟩ := parse_eq_ok_iff.mp hmessage
    rw [List.flatten_cons, List.append_assoc] at hlen ⊢
    have hlen' : (rest.flatten ++ last).length ≤ wide.maxLength.toNat := by
      rw [List.length_append] at hlen
      omega
    have hothers := ih hrest (by rw [parse_limits, hdepth]) hlen'
    rw [parse_handler] at hothers
    rw [level_append hlevel hdepth hlen, hothers, feed_cons]

theorem parse_feed_new {handler : Handler σ ρ} {s : σ} {limits : Limits}
    (h : (new handler s limits).Accepts messages) (last : Bytes) :
    (((new handler s limits).feed messages).2.parse last).1 =
        (level handler limits last ((new handler s limits).feed messages).2.progress).1 ∧
      (((new handler s limits).feed messages).2.parse last).2.progress =
        (level handler limits last ((new handler s limits).feed messages).2.progress).2 := by
  have hlevel := parse_eq_level (feed_failed_iff.mpr ⟨rfl, h⟩) last
  rw [feed_handler, feed_limits] at hlevel
  exact hlevel

end Parser

/-! ### Fields that the decoder refuses -/

namespace Decoder
open ParseStep
variable {limits : Limits} {id : UInt64} {t : Tree} {m : Message} {outer : List Message} {e : Error}
  {p : Progress Decoder}

/-- A field that the innermost message refuses is refused when all of it is read. -/
theorem report_of_insert_eq_error (ht : t.Valid) (hlen : t.payload.contents.length ≤ limits.maxLength.toNat)
    (hdepth : p.depth + t.depth ≤ limits.maxDepth.toNat) (hstate : p.state = ⟨m :: outer⟩)
    (h : m.insert id t.value = .error e) : (report handler limits id t.payload p).1 = .error e := by
  have hinsert : insert ⟨m :: outer⟩ id t.value = (.error e, ⟨m :: outer⟩) := insert_of_eq_error h
  obtain ⟨state, depth, log⟩ := p
  subst hstate
  cases t with
  | uint64 n => exact congrArg Prod.fst hinsert
  | binary bytes => exact congrArg Prod.fst hinsert
  | nested fs =>
    -- The body goes into a message of its own, which is then refused.
    have hreads : Reads handler limits (Forest.events fs) (Forest.depth fs)
        (level handler limits (Forest.wireForm fs)) := reads_level (Forest.Valid.fits ht) hlen
    have hrun : handler.run (Forest.events fs) ⟨.empty :: m :: outer⟩ =
        (.ok (), ⟨Forest.message fs :: m :: outer⟩) :=
      (run_events_empty_of_trees (fun f _ => inserts f.2 f.1) (m :: outer) _).mpr ⟨ht, rfl⟩
    obtain ⟨log', hlevel⟩ := hreads.within (p := ⟨⟨.empty :: m :: outer⟩, depth, log⟩) hrun hdepth
    have hbegin : emit handler .beginNested ⟨⟨m :: outer⟩, depth, log⟩ =
        (.ok (), ⟨⟨.empty :: m :: outer⟩, depth, log⟩) := rfl
    rw [Tree.payload, report, andThen_of_ok ((andThen_of_ok hbegin).trans hlevel)]
    exact congrArg Prod.fst hinsert

theorem level_of_insert_eq_error {rest : Bytes} (hvalid : Forest.Valid [(id, t)])
    (hdepth : p.depth + Forest.depth [(id, t)] ≤ limits.maxDepth.toNat)
    (hlen : (Forest.wireForm [(id, t)] ++ rest).length ≤ limits.maxLength.toNat) (hstate : p.state = ⟨m :: outer⟩)
    (h : m.insert id t.value = .error e) :
    (level handler limits (Forest.wireForm [(id, t)] ++ rest) p).1 = .error e := by
  obtain ⟨hfits, -, htrees⟩ := Forest.valid_iff.mp hvalid
  rw [Forest.wireForm, Forest.wireForm, List.append_nil] at hlen ⊢
  rw [Forest.depth, Forest.depthBelow, Forest.depthBelow, Nat.max_zero] at hdepth
  have hcontents : t.payload.contents.length ≤ limits.maxLength.toNat := by
    have hle := length_contents_le id t.payload
    rw [List.length_append] at hlen
    omega
  have hhead : head (t.payload.encodeField id ++ rest) = .field id t.payload rest :=
    head_eq_field_iff.mpr
      ⟨hfits _ List.mem_cons_self, Nat.lt_of_le_of_lt hcontents limits.maxLength.toNat_lt, rfl⟩
  have henter : enter limits (t.payload.encodeField id ++ rest).length p = (.ok (), { p with depth := p.depth + 1 }) :=
    enter_eq_ok_iff.mpr ⟨hlen, by omega, rfl⟩
  have hrefused : (report handler limits id t.payload
      ⟨p.state, p.depth + 1, p.log ++ [.field (p.depth + 1) id t.payload.wireType]⟩).1 = .error e :=
    report_of_insert_eq_error (htrees _ List.mem_cons_self) hcontents (by dsimp only; omega) hstate h
  obtain ⟨q, hq⟩ : ∃ q, fields handler limits (t.payload.encodeField id ++ rest) { p with depth := p.depth + 1 } =
      (.error e, q) := by
    rw [fields_eq, hhead]
    exact ⟨_, andThen_of_error (Prod.ext hrefused rfl)⟩
  rw [level, andThen_of_error ((andThen_of_ok henter).trans hq)]

end Decoder

/-! ### Main statement -/

namespace Parser
open ParseStep
variable {σ ρ : Type} {limits : Limits} {buffers : List Bytes}

/-- The root holds the fields of all the messages that were accepted. -/
theorem exists_root_of_accepts (h : (new Decoder.handler .empty limits).Accepts buffers) :
    ∃ gs : Forest, ((new Decoder.handler .empty limits).feed buffers).2.state = ⟨[gs.message]⟩ ∧ gs.Distinct ∧
      ∀ buffer ∈ buffers, ∃ fs : Forest,
        fs.All Forest.Fits ∧ buffer = fs.wireForm ∧ fs ⊆ gs ∧ buffer.length < 2 ^ 64 := by
  induction buffers using List.reverseRecOn with
  | nil => exact ⟨[], rfl, Forest.distinct_nil, List.forall_mem_nil _⟩
  | append_singleton before buffer ih =>
    obtain ⟨hbefore, hbuffer⟩ := accepts_concat_iff.mp h
    obtain ⟨gs, hstate, hdistinct, hall⟩ := ih hbefore
    obtain ⟨-, hlevel⟩ := parse_eq_ok_iff.mp hbuffer
    rw [feed_handler, feed_limits] at hlevel
    obtain ⟨hlen, fs, hform, hfits, -, -, hrun⟩ := level_eq_ok (exists_of_fields_eq_ok buffer) hlevel
    have hlen : buffer.length < 2 ^ 64 := Nat.lt_of_le_of_lt hlen limits.maxLength.toNat_lt
    change Decoder.handler.run fs.events ((new Decoder.handler .empty limits).feed before).2.state = _ at hrun
    rw [hstate, Decoder.run_events_of_trees fun f _ => Decoder.inserts f.2 f.1] at hrun
    obtain ⟨-, n, hn, hnext⟩ := hrun
    obtain ⟨⟨-, hdistinct'⟩, rfl⟩ := (Forest.insertAll_message_eq_ok_iff hdistinct).mp hn
    refine ⟨gs ++ fs, ?_, hdistinct', ?_⟩
    · rw [feed_concat]
      exact hnext
    · intro other hmem
      rcases List.mem_append.mp hmem with hmem | hmem
      · obtain ⟨fs', hfits', hform', hsub, hlen'⟩ := hall other hmem
        exact ⟨fs', hfits', hform', List.subset_append_of_subset_left _ hsub, hlen'⟩
      · obtain rfl := List.mem_singleton.mp hmem
        exact ⟨fs, hfits, hform, List.subset_append_right _ _, hlen⟩

/-- An id of a message that was accepted is refused by the root. -/
theorem exists_root_of_contains (h : (new Decoder.handler .empty limits).Accepts buffers) {buffer : Bytes}
    (hmem : buffer ∈ buffers) {m : Message} (hm : Message.decode limits buffer = .ok m) {id : UInt64}
    (hid : m.contains id = true) :
    ∃ root : Message, ((new Decoder.handler .empty limits).feed buffers).2.state = ⟨[root]⟩ ∧
      ∀ v, root.insert id v = .error (.duplicateField id) := by
  obtain ⟨gs, hstate, hdistinct, hall⟩ := exists_root_of_accepts h
  obtain ⟨fs, hfits, rfl, hsub, hlen⟩ := hall buffer hmem
  obtain ⟨fs', hvalid, rfl, hform, -, -⟩ := Message.exists_of_decode_eq_ok hm
  obtain rfl := Forest.wireForm_inj hfits hvalid.fits hlen hform
  obtain ⟨f, hf, rfl⟩ := List.mem_map.mp ((Forest.contains_message hvalid.distinct).mp hid)
  have hle : f.1 ≤ FieldHeader.maxId := (Forest.all_iff.mp hfits).1 f hf
  have hcontains : gs.message.contains f.1 = true :=
    (Forest.contains_message hdistinct).mpr (List.mem_map_of_mem (hsub hf))
  refine ⟨gs.message, hstate, fun v => ?_⟩
  rw [Message.insert, if_neg (UInt64.not_lt.mpr hle), if_pos hcontains]

/-- After accepted messages the next one is parsed as the end of one message with all their bytes. -/
theorem parse_feed_append {handler : Handler σ ρ} {s : σ} {wide : Limits} {last : Bytes}
    (h : (new handler s limits).Accepts buffers) (hlast : last.length ≤ limits.maxLength.toNat)
    (hdepth : wide.maxDepth = limits.maxDepth) (hlen : (buffers.flatten ++ last).length ≤ wide.maxLength.toNat) :
    (((new handler s limits).feed buffers).2.parse last).1 =
        ((new handler s wide).parse (buffers.flatten ++ last)).1 ∧
      (((new handler s limits).feed buffers).2.parse last).2.progress =
        ((new handler s wide).parse (buffers.flatten ++ last)).2.progress := by
  obtain ⟨hanswer, hprogress⟩ := parse_feed_new h last
  obtain ⟨hanswer', hprogress'⟩ := parse_new handler s wide (buffers.flatten ++ last)
  have hlast' : last.length ≤ wide.maxLength.toNat := by
    rw [List.length_append] at hlen
    omega
  have hsame : level handler wide (buffers.flatten ++ last) ⟨s, 0, []⟩ =
      level handler limits last ((new handler s limits).feed buffers).2.progress := by
    rw [← level_congr handler hdepth hlast hlast']
    exact level_flatten_append h hdepth hlen
  rw [← hsame] at hanswer hprogress
  exact ⟨hanswer.trans hanswer'.symm, hprogress.trans hprogress'.symm⟩

/-- A message with a field that the root refuses, behind fields that it takes in, fails with that refusal. -/
theorem parse_feed_of_insert_eq_error {front field rest : Bytes} {root m : Message} {id : UInt64} {v : Value}
    {e : Error} (h : (new Decoder.handler .empty limits).Accepts (buffers ++ [front]))
    (hroot : ((new Decoder.handler .empty limits).feed (buffers ++ [front])).2.state = ⟨[root]⟩)
    (hfield : Message.decode limits field = .ok m) (hfields : m.fields = [(id, v)])
    (hrefused : root.insert id v = .error e) (hlen : (front ++ (field ++ rest)).length ≤ limits.maxLength.toNat) :
    (((new Decoder.handler .empty limits).feed buffers).2.parse (front ++ (field ++ rest))).1 = .error e := by
  obtain ⟨hbefore, hfront⟩ := accepts_concat_iff.mp h
  have hdepth : ((new Decoder.handler .empty limits).feed (buffers ++ [front])).2.depth = 0 := feed_depth h
  rw [feed_concat] at hroot hdepth
  obtain ⟨-, hlevel⟩ := parse_eq_ok_iff.mp hfront
  rw [feed_handler, feed_limits] at hlevel
  obtain ⟨fs, hvalid, rfl, rfl, -, hle⟩ := Message.exists_of_decode_eq_ok hfield
  obtain ⟨⟨_, t⟩, rfl, heq⟩ : ∃ f : UInt64 × Tree, fs = [f] ∧ (f.1, f.2.value) = (id, v) := by
    rw [Forest.message, Forest.values_eq_map] at hfields
    exact List.map_eq_singleton_iff.mp hfields
  cases heq
  rw [(parse_feed_new hbefore _).1]
  refine (congrArg Prod.fst (level_append hlevel rfl hlen)).trans ?_
  refine Decoder.level_of_insert_eq_error hvalid ?_ ?_ hroot hrefused
  · change depth _ + _ ≤ _
    rw [hdepth, Nat.zero_add]
    exact hle
  · rw [List.length_append] at hlen
    change _ ≤ limits.maxLength.toNat
    omega

/-- A message that follows accepted ones is parsed as if all of them were one message, under a limit on the length that
    admits that message. The answer, the state of the handler and the depth are the same. With the decoder, a field
    whose id one of the accepted messages has set is a duplicate, whatever stands behind it. -/
theorem parse_feed_eq_parse_flatten (handler : Handler σ ρ) (s : σ) (limits : Limits) :
    (∀ (buffers : List Bytes) (last : Bytes) (wide : Limits), (new handler s limits).Accepts buffers →
      last.length ≤ limits.maxLength.toNat → wide.maxDepth = limits.maxDepth →
      (buffers.flatten ++ last).length ≤ wide.maxLength.toNat →
      let next := ((new handler s limits).feed buffers).2.parse last
      let whole := (new handler s wide).parse (buffers.flatten ++ last)
      next.1 = whole.1 ∧ next.2.state = whole.2.state ∧ next.2.depth = whole.2.depth) ∧
    ∀ (buffers : List Bytes) (front field rest : Bytes) (id : UInt64),
      (new Decoder.handler .empty limits).Accepts (buffers ++ [front]) →
      (∃ buffer ∈ buffers, ∃ m, Message.decode limits buffer = .ok m ∧ m.contains id = true) →
      (∃ m v, Message.decode limits field = .ok m ∧ m.fields = [(id, v)]) →
      (front ++ (field ++ rest)).length ≤ limits.maxLength.toNat →
      (((new Decoder.handler .empty limits).feed buffers).2.parse (front ++ (field ++ rest))).1 =
        .error (.duplicateField id) := by
  refine ⟨fun buffers last wide h hlast hdepth hlen => ?_, fun buffers front field rest id h hset hfield hlen => ?_⟩
  · obtain ⟨hanswer, hprogress⟩ := parse_feed_append h hlast hdepth hlen
    exact ⟨hanswer, congrArg Progress.state hprogress, congrArg Progress.depth hprogress⟩
  · obtain ⟨buffer, hmem, m, hm, hid⟩ := hset
    obtain ⟨n, v, hn, hfields⟩ := hfield
    obtain ⟨root, hroot, hrefused⟩ := exists_root_of_contains h (List.mem_append_left _ hmem) hm hid
    exact parse_feed_of_insert_eq_error h hroot hn hfields (hrefused v) hlen

/-- The id 1 is set by the first message, and by a nested one, and once more behind a new field of the third. The byte
    at the end is not even a field. -/
theorem parse_feed_duplicate :
    let next := ((new Decoder.handler .empty ⟨5, 2⟩).feed [[0x11, 0x55], [0x25, 0x05, 0x11, 0x0b]]).2.parse
      [0x37, 0x01, 0x15, 0x01, 0x00]
    let whole := (new Decoder.handler .empty ⟨11, 2⟩).parse
      [0x11, 0x55, 0x25, 0x05, 0x11, 0x0b, 0x37, 0x01, 0x15, 0x01, 0x00]
    next.1 = .error (.duplicateField 1) ∧ whole.1 = .error (.duplicateField 1) ∧
      next.2.state = whole.2.state ∧ next.2.depth = whole.2.depth := by
  have hbuffers : (new Decoder.handler .empty ⟨5, 2⟩).Accepts [[0x11, 0x55], [0x25, 0x05, 0x11, 0x0b]] :=
    accepts_cons_iff.mpr ⟨by cbv, accepts_cons_iff.mpr ⟨by cbv, accepts_nil _⟩⟩
  have hfront : (new Decoder.handler .empty ⟨5, 2⟩).Accepts
      ([[0x11, 0x55], [0x25, 0x05, 0x11, 0x0b]] ++ [[0x37, 0x01]]) :=
    accepts_concat_iff.mpr ⟨hbuffers, by cbv⟩
  have hset : Message.decode ⟨5, 2⟩ [0x11, 0x55] = .ok (Forest.message [(1, .uint64 42)]) := by cbv
  have hfield : Message.decode ⟨5, 2⟩ [0x15, 0x01] = .ok (Forest.message [(1, .nested [])]) := by cbv
  obtain ⟨hsame, hduplicate⟩ := parse_feed_eq_parse_flatten Decoder.handler .empty ⟨5, 2⟩
  have hnext := hduplicate [[0x11, 0x55], [0x25, 0x05, 0x11, 0x0b]] [0x37, 0x01] [0x15, 0x01] [0x00] 1 hfront
    ⟨_, List.mem_cons_self, _, hset, by decide⟩ ⟨_, _, hfield, rfl⟩ (by decide)
  obtain ⟨hanswer, hstate, hdepth⟩ := hsame [[0x11, 0x55], [0x25, 0x05, 0x11, 0x0b]] [0x37, 0x01, 0x15, 0x01, 0x00]
    ⟨11, 2⟩ hbuffers (by decide) rfl (by decide)
  exact ⟨hnext, hanswer.symm.trans hnext, hstate, hdepth⟩

end Parser
end FieldWire
