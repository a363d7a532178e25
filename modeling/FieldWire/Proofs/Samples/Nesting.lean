import FieldWire.Proofs.Parser.Recorder
import FieldWire.Proofs.Writing
import Mathlib.Logic.Function.Iterate

/-! # Messages nested in each other

A chain is wrapped from the inside out and read from the outside in. Wrapping writes what the encoder writes for a
nested message (`Encoder.writeMessage_eq`), so a chain is the wire form of messages nested in each other
(`nestChain_eq`). A parse enters one level for each link that it reads, until the limit on the depth stops it between
the announcement of a level and the level itself (`record_chain_of_lt`). -/

namespace FieldWire

theorem Encoder.writeMessage_eq {id : UInt64} (hid : id ≤ FieldHeader.maxId) {m : Message} {body : Bytes}
    (h : m.encode = .ok body) (encoder : Encoder) :
    encoder.writeMessage id m = (.ok (), ⟨encoder.buffer ++ Samples.wrapNested id body⟩) := by
  rw [writeMessage, h]
  dsimp only
  rw [writeField_eq (writePrefixed_eq body), FieldHeader.make_of_le hid]
  rfl

namespace Samples
open ParseStep

/-! ### Chains -/

/-- The fields of the outermost message, with `below` messages nested in it and zero in the innermost. -/
def chain : Nat → Forest
  | 0 => [(1, .uint64 0)]
  | below + 1 => [(1, .nested (chain below))]

theorem wireForm_chain_zero : (chain 0).wireForm = rawField 1 .uint64 (Varint.encode 0) := by
  rw [Forest.wireForm_eq_flatMap]
  exact List.append_nil _

theorem wireForm_chain_succ (below : Nat) : (chain (below + 1)).wireForm = wrapNested 1 (chain below).wireForm := by
  rw [Forest.wireForm_eq_flatMap]
  exact List.append_nil _

/-- Wrapping once more is done outside of what is wrapped already. -/
theorem wireForm_chain (below : Nat) :
    (chain below).wireForm = (wrapNested 1)^[below] (rawField 1 .uint64 (Varint.encode 0)) := by
  induction below with
  | zero => exact wireForm_chain_zero
  | succ below ih => rw [wireForm_chain_succ, ih, Function.iterate_succ_apply']

theorem length_wireForm_chain_lt (below : Nat) :
    (chain below).wireForm.length < (chain (below + 1)).wireForm.length := by
  have hlt := Prefixed.length_lt_encode (chain below).wireForm
  rw [wireForm_chain_succ, wrapNested, rawField, List.length_append]
  omega

theorem nestChain_eq (levels : Nat) : nestChain levels = (chain (levels - 1)).wireForm := by
  induction levels using nestChain.induct with
  | case1 => exact wireForm_chain_zero.symm
  | case2 => exact wireForm_chain_zero.symm
  | case3 levels ih =>
    rw [nestChain, ih]
    exact (wireForm_chain_succ levels).symm

theorem depth_chain (below : Nat) : (chain below).depth = below + 1 := by
  induction below with
  | zero => rfl
  | succ below ih =>
    rw [chain, Forest.depth, Forest.depthBelow, Tree.depth, ← Forest.depth, ih]
    exact Nat.add_comm _ _

theorem valid_chain (below : Nat) : (chain below).Valid := by
  induction below with
  | zero => decide
  | succ below ih =>
    have hid : (1 : UInt64) ≤ FieldHeader.maxId := by decide
    exact Forest.valid_iff.mpr
      ⟨List.forall_mem_singleton.mpr hid, List.nodup_singleton _, List.forall_mem_singleton.mpr ih⟩

theorem events_chain (below : Nat) :
    (chain below).events =
      List.replicate below .beginNested ++ .uint64 1 0 :: List.replicate below (.endNested 1) := by
  induction below with
  | zero => rfl
  | succ below ih =>
    rw [chain, Forest.events, Forest.events, Tree.events, ih, List.append_nil, List.replicate_succ,
      List.replicate_succ' (n := below) (a := Event.endNested 1)]
    simp only [List.cons_append, List.append_assoc]

/-! ### Chains that are too deep -/

variable {limits : Limits} {below : Nat} {p : Progress (List Event)}

/-- A link is a header that announces a nested message, and then the chain of one link less. -/
theorem level_chain_succ_of_error {e : Error} {q : Progress (List Event)}
    (hlen : (chain (below + 1)).wireForm.length ≤ limits.maxLength.toNat) (hdepth : p.depth < limits.maxDepth.toNat)
    (h : level Event.recorder limits (chain below).wireForm
      ⟨p.state ++ [.beginNested], p.depth + 1, p.log ++ [.field (p.depth + 1) 1 .message]⟩ = (.error e, q)) :
    level Event.recorder limits (chain (below + 1)).wireForm p = (.error e, q) := by
  have henter := enter_eq_ok_iff.mpr ⟨hlen, hdepth, rfl⟩
  have hhead : head (chain (below + 1)).wireForm = .field 1 (.nested (chain below).wireForm) [] :=
    head_wireForm_cons (by decide) (Nat.lt_of_le_of_lt hlen limits.maxLength.toNat_lt)
  refine andThen_of_error ((andThen_of_ok henter).trans ?_)
  rw [fields_eq, hhead]
  exact andThen_of_error ((andThen_of_ok rfl).trans (andThen_of_error ((andThen_of_ok rfl).trans h)))

theorem level_of_depth {message : Bytes} (hlen : message.length ≤ limits.maxLength.toNat)
    (hdepth : p.depth = limits.maxDepth.toNat) :
    ∃ q, level Event.recorder limits message p = (.error (.depthExceeded limits.maxDepth), q) ∧
      q.state = p.state ++ List.replicate (limits.maxDepth.toNat - p.depth) .beginNested := by
  obtain ⟨q, hq⟩ := enter_of_depth hlen hdepth.ge
  have hstate := enter_state limits message.length p
  rw [hq] at hstate
  refine ⟨q, andThen_of_error (andThen_of_error hq), hstate.trans ?_⟩
  rw [hdepth, Nat.sub_self, List.replicate_zero, List.append_nil]

/-- Every level that is entered announces one more, and the one that is announced last is not entered. -/
theorem level_chain_of_lt (below : Nat) : ∀ p : Progress (List Event),
    (chain below).wireForm.length ≤ limits.maxLength.toNat → p.depth ≤ limits.maxDepth.toNat →
    limits.maxDepth.toNat < p.depth + (chain below).depth →
    ∃ q, level Event.recorder limits (chain below).wireForm p = (.error (.depthExceeded limits.maxDepth), q) ∧
      q.state = p.state ++ List.replicate (limits.maxDepth.toNat - p.depth) .beginNested := by
  simp only [depth_chain]
  induction below with
  | zero => exact fun p hlen hle hlt => level_of_depth hlen (by omega)
  | succ below ih =>
    intro p hlen hle hlt
    by_cases hdepth : p.depth < limits.maxDepth.toNat
    · have hshort := length_wireForm_chain_lt below
      obtain ⟨q, hq, hstate⟩ := ih ⟨p.state ++ [.beginNested], p.depth + 1,
        p.log ++ [.field (p.depth + 1) 1 .message]⟩ (by omega) hdepth (by dsimp only; omega)
      have hcount : limits.maxDepth.toNat - p.depth = limits.maxDepth.toNat - (p.depth + 1) + 1 := by omega
      refine ⟨q, level_chain_succ_of_error hlen hdepth hq, ?_⟩
      rw [hstate, hcount, List.append_assoc, List.singleton_append, List.replicate_succ]
    · exact level_of_depth hlen (by omega)

theorem record_chain_of_lt (hlen : (chain below).wireForm.length ≤ limits.maxLength.toNat)
    (hdepth : limits.maxDepth.toNat < (chain below).depth) :
    (Parser.record limits (chain below).wireForm).1 = .error (.depthExceeded limits.maxDepth) ∧
      (Parser.record limits (chain below).wireForm).2.state = List.replicate limits.maxDepth.toNat .beginNested := by
  obtain ⟨hanswer, hprogress⟩ := Parser.record_eq_level limits (chain below).wireForm
  obtain ⟨q, hq, hstate⟩ := level_chain_of_lt below ⟨[], 0, []⟩ hlen (Nat.zero_le _) (by rwa [Nat.zero_add])
  rw [hanswer, Parser.state, hprogress, hq]
  exact ⟨rfl, hstate⟩

/-! ### Main statement -/

/-- Wrapping the wire form of a message is what the encoder appends for it. A chain of any number of levels, but one at
    the least, is the wire form of as many messages nested in each other, wrapped from the innermost to the outermost.
    If the limit on the depth admits all of them, what is recorded are the beginnings of all but the outermost, the zero
    in the innermost, and their ends. Otherwise the parse fails for its depth, with as many beginnings recorded as the
    limit admits levels, and nothing else. -/
theorem nestChain_outcome :
    (∀ m : Message, m.Built → ∀ id, id ≤ FieldHeader.maxId →
        ∃ body, m.encode = .ok body ∧
          ∀ encoder : Encoder, encoder.writeMessage id m = (.ok (), ⟨encoder.buffer ++ wrapNested id body⟩)) ∧
      ∀ levels, let d := max levels 1
        (nestChain levels = (wrapNested 1)^[d - 1] (rawField 1 .uint64 (Varint.encode 0)) ∧
          (chain (d - 1)).message.encode = .ok (nestChain levels) ∧ (chain (d - 1)).message.depth = d ∧
            (chain (d - 1)).message.Built) ∧
          ∀ limits : Limits, (nestChain levels).length ≤ limits.maxLength.toNat →
            let recorded := Parser.record limits (nestChain levels)
            (d ≤ limits.maxDepth.toNat → recorded.1 = .ok () ∧ recorded.2.state =
              List.replicate (d - 1) .beginNested ++ .uint64 1 0 :: List.replicate (d - 1) (.endNested 1)) ∧
            (limits.maxDepth.toNat < d → recorded.1 = .error (.depthExceeded limits.maxDepth) ∧
              recorded.2.state = List.replicate limits.maxDepth.toNat .beginNested) := by
  refine ⟨fun m hm id hid => ?_, ?_⟩
  · obtain ⟨fs, hfs, rfl⟩ := hm.exists_forest
    have hbody := Forest.encode_message hfs.fits
    exact ⟨fs.wireForm, hbody, Encoder.writeMessage_eq hid hbody⟩
  · intro levels d
    have hd : d = max levels 1 := rfl
    have hlevels : d - 1 = levels - 1 := by omega
    have hdepth : (chain (d - 1)).depth = d := by rw [depth_chain]; omega
    have hvalid := valid_chain (d - 1)
    rw [nestChain_eq, ← hlevels]
    refine ⟨⟨wireForm_chain _, Forest.encode_message hvalid.fits, (Forest.depth_message _).trans hdepth,
      Message.built_iff.mpr ⟨_, hvalid, rfl⟩⟩, fun limits hlen => ⟨fun hle => ?_, fun hlt => ?_⟩⟩
    · rw [← events_chain]
      exact Parser.record_of_wireForm hvalid.fits hlen (hdepth.trans_le hle)
    · exact record_chain_of_lt hlen (hlt.trans_eq hdepth.symm)

/-- Four levels under a limit that admits them, and under one that admits two. Without any level, the chain is that of
    one. -/
theorem nestChain_outcome_four :
    (∃ body, (chain 1).message.encode = .ok body ∧
        Encoder.empty.writeMessage 9 (chain 1).message = (.ok (), ⟨wrapNested 9 body⟩)) ∧
      ((Parser.record ⟨8, 4⟩ (nestChain 4)).1 = .ok () ∧ (Parser.record ⟨8, 4⟩ (nestChain 4)).2.state =
        [.beginNested, .beginNested, .beginNested, .uint64 1 0, .endNested 1, .endNested 1, .endNested 1]) ∧
      ((Parser.record ⟨8, 2⟩ (nestChain 4)).1 = .error (.depthExceeded 2) ∧
        (Parser.record ⟨8, 2⟩ (nestChain 4)).2.state = [.beginNested, .beginNested]) ∧
      (Parser.record ⟨2, 0⟩ (nestChain 0)).2.state = [] := by
  obtain ⟨hwrap, hchain⟩ := nestChain_outcome
  obtain ⟨body, hbody, hwrite⟩ := hwrap (chain 1).message (Message.built_iff.mpr ⟨_, by decide, rfl⟩) 9 (by decide)
  obtain ⟨-, hfour⟩ := hchain 4
  obtain ⟨-, hnone⟩ := hchain 0
  exact ⟨⟨body, hbody, hwrite .empty⟩, (hfour ⟨8, 4⟩ (by decide)).1 (by decide),
    (hfour ⟨8, 2⟩ (by decide)).2 (by decide), ((hnone ⟨2, 0⟩ (by decide)).2 (by decide)).2⟩

end Samples
end FieldWire
