import FieldWire.Proofs.Varint.Reading

/-! # Streams of varints

Varints are written one behind another, with nothing between them. The form of a value is never the start of the form of
another (`encode_append_inj`), so a stream tells by itself where each of its varints ends. Every input is a stream
with something behind it that cannot be read (`exists_encodeAll_append`), in one way only (`encodeAll_append_inj`), and
reading value after value finds that stream and stops behind it (`readAll_outcome`). -/

namespace FieldWire.Varint
variable {values : List UInt64} {input rest : Bytes}

/-- The forms of the values, one behind another. -/
def encodeAll (values : List UInt64) : Bytes := values.flatMap encode

/-- No value can be read: there is nothing left, or it does not start with a varint. -/
def Exhausted (input : Bytes) : Prop := input = [] ∨ ∃ e, decode input = .error e

/-- The input that is left after `n` calls of `read`, of which each one goes on where the one before stopped. -/
def left : (n : Nat) → (input : Bytes) → Bytes
  | 0, input => input
  | n + 1, input => left n (read input).2

theorem encodeAll_cons_append (v : UInt64) (values : List UInt64) (rest : Bytes) :
    encodeAll (v :: values) ++ rest = encode v ++ (encodeAll values ++ rest) := List.append_assoc _ _ _

theorem encode_append_ne_nil (v : UInt64) (rest : Bytes) : encode v ++ rest ≠ [] :=
  List.append_ne_nil_of_left_ne_nil (encode_ne_nil v) rest

/-! ### One way to split -/

theorem exists_encodeAll_append (input : Bytes) : ∃ values rest, input = encodeAll values ++ rest ∧ Exhausted rest := by
  induction input using readAll.induct with
  | case1 => exact ⟨[], [], rfl, Or.inl rfl⟩
  | case2 input _ v rest hread _ _ _ _ ih =>
    obtain ⟨values, back, rfl, hback⟩ := ih
    exact ⟨v :: values, back, (read_eq_ok_iff.mp hread).trans (encodeAll_cons_append v values back).symm, hback⟩
  | case3 input _ e rest hread => exact ⟨[], input, rfl, Or.inr ⟨e, (read_eq_error_iff.mp hread).1⟩⟩

theorem encode_append_inj {v w : UInt64} {rest rest' : Bytes} (h : encode v ++ rest = encode w ++ rest') :
    v = w ∧ rest = rest' := by
  have hw : decode (encode v ++ rest) = .ok (w, rest') := decode_eq_ok_iff.mpr h
  cases (decode_encode_append v rest).symm.trans hw
  exact ⟨rfl, rfl⟩

theorem not_exhausted_encode_append (v : UInt64) (rest : Bytes) : ¬Exhausted (encode v ++ rest) := by
  rintro (hnil | ⟨e, herror⟩)
  · exact encode_append_ne_nil v rest hnil
  · cases (decode_encode_append v rest).symm.trans herror

theorem encodeAll_append_inj {values values' : List UInt64} {rest rest' : Bytes} (hrest : Exhausted rest)
    (hrest' : Exhausted rest') (h : encodeAll values ++ rest = encodeAll values' ++ rest') :
    values = values' ∧ rest = rest' := by
  induction values generalizing values' with
  | nil =>
    cases values' with
    | nil => exact ⟨rfl, h⟩
    | cons v' values' =>
      obtain rfl : rest = _ := h.trans (encodeAll_cons_append v' values' rest')
      exact absurd hrest (not_exhausted_encode_append v' _)
  | cons v values ih =>
    cases values' with
    | nil =>
      obtain rfl : rest' = _ := h.symm.trans (encodeAll_cons_append v values rest)
      exact absurd hrest' (not_exhausted_encode_append v _)
    | cons v' values' =>
      rw [encodeAll_cons_append, encodeAll_cons_append] at h
      obtain ⟨rfl, hvalues⟩ := encode_append_inj h
      obtain ⟨rfl, rfl⟩ := ih hvalues
      exact ⟨rfl, rfl⟩

theorem encodeAll_injective : Function.Injective encodeAll := fun _ _ h =>
  (encodeAll_append_inj (Or.inl rfl) (Or.inl rfl) (congrArg (· ++ []) h)).1

/-! ### One call after another -/

theorem left_encodeAll_append (values : List UInt64) (rest : Bytes) {i : Nat} (hi : i ≤ values.length) :
    left i (encodeAll values ++ rest) = encodeAll (values.drop i) ++ rest := by
  induction values generalizing i with
  | nil =>
    obtain rfl : i = 0 := Nat.le_zero.mp hi
    rfl
  | cons v values ih =>
    cases i with
    | zero => rfl
    | succ i =>
      rw [encodeAll_cons_append, left, read_encode_append, List.drop_succ_cons]
      exact ih (Nat.le_of_succ_le_succ hi)

/-- Each call gives the next value and stops behind its form. -/
theorem read_left_encodeAll_append {i : Nat} {v : UInt64} (h : values[i]? = some v) (rest : Bytes) :
    left i (encodeAll values ++ rest) ≠ [] ∧
      read (left i (encodeAll values ++ rest)) = (.ok v, left (i + 1) (encodeAll values ++ rest)) := by
  obtain ⟨hi, rfl⟩ := List.getElem?_eq_some_iff.mp h
  rw [left_encodeAll_append values rest (Nat.le_of_lt hi), left_encodeAll_append values rest hi,
    List.drop_eq_getElem_cons hi, encodeAll_cons_append]
  exact ⟨encode_append_ne_nil _ _, read_encode_append _ _⟩

theorem readAll_of_ne_nil (h : input ≠ []) : readAll input =
    match read input with
    | (.ok v, rest) => ((v, rest) :: (readAll rest).1, (readAll rest).2)
    | (.error e, rest) => ([], some (e, rest)) := by
  rw [readAll, if_neg h]
  split
  · next hread => simp only [hread]
  · next hread => simp only [hread]

theorem readAll_encode_append (v : UInt64) (rest : Bytes) :
    readAll (encode v ++ rest) = ((v, rest) :: (readAll rest).1, (readAll rest).2) := by
  rw [readAll_of_ne_nil (encode_append_ne_nil v rest), read_encode_append]

theorem readAll_encodeAll_append (values : List UInt64) (rest : Bytes) :
    readAll (encodeAll values ++ rest) =
      ((values.mapIdx fun i v => (v, left (i + 1) (encodeAll values ++ rest))) ++ (readAll rest).1, (readAll rest).2) := by
  induction values with
  | nil => rfl
  | cons v values ih =>
    rw [encodeAll_cons_append, readAll_encode_append, ih, List.mapIdx_cons]
    simp only [left, read_encode_append, List.cons_append]

/-- What cannot be read is left as it is, and no call is made where nothing is left. -/
theorem readAll_of_exhausted (h : Exhausted rest) : (readAll rest).1 = [] ∧
    (rest = [] ∧ (readAll rest).2 = none ∨
      rest ≠ [] ∧ ∃ e, read rest = (.error e, rest) ∧ (readAll rest).2 = some (e, rest)) := by
  by_cases hnil : rest = []
  · rw [readAll, if_pos hnil]
    exact ⟨rfl, Or.inl ⟨hnil, rfl⟩⟩
  · obtain ⟨e, herror⟩ := h.resolve_left hnil
    have hread : read rest = (.error e, rest) := read_eq_error_iff.mpr ⟨herror, rfl⟩
    rw [readAll_of_ne_nil hnil, hread]
    exact ⟨rfl, Or.inr ⟨hnil, e, rfl, rfl⟩⟩

/-! ### Main statement -/

/-- Reading one value after another ends on every input. Each call gives a value and goes on where the one before stopped,
    until nothing is left or a call fails, which leaves what it was given. The forms of the values and then the bytes
    that are left make up the input, and nothing else does so where the bytes behind the forms are none or do not start
    with a varint. So lists of values that differ are never the same bytes, one form behind another. -/
theorem readAll_outcome (input : Bytes) :
    (∃ values rest,
      (readAll input).1 = (values.mapIdx fun i v => (v, left (i + 1) input)) ∧
      (∀ i v, values[i]? = some v → left i input ≠ [] ∧ read (left i input) = (.ok v, left (i + 1) input)) ∧
      left values.length input = rest ∧
      (rest = [] ∧ (readAll input).2 = none ∨
        rest ≠ [] ∧ ∃ e, read rest = (.error e, rest) ∧ (readAll input).2 = some (e, rest)) ∧
      ∀ others back, input = encodeAll others ++ back ∧ (back = [] ∨ ∃ e, decode back = .error e) ↔
        others = values ∧ back = rest) ∧
      Function.Injective encodeAll := by
  refine ⟨?_, encodeAll_injective⟩
  obtain ⟨values, rest, rfl, hrest⟩ := exists_encodeAll_append input
  obtain ⟨hnone, hend⟩ := readAll_of_exhausted hrest
  have hlast := left_encodeAll_append values rest (Nat.le_refl _)
  rw [List.drop_length] at hlast
  have hread := readAll_encodeAll_append values rest
  rw [hnone, List.append_nil] at hread
  refine ⟨values, rest, congrArg Prod.fst hread, fun i v h => read_left_encodeAll_append h rest, hlast, ?_, ?_⟩
  · rw [hread]
    exact hend
  · intro others back
    constructor
    · rintro ⟨happend, hback⟩
      exact encodeAll_append_inj hback hrest happend.symm
    · rintro ⟨rfl, rfl⟩
      exact ⟨rfl, hrest⟩

/-- The last byte announces another one, so the third call fails. -/
theorem readAll_outcome_cut :
    let input : Bytes := [0x11, 0x55, 0xaa]
    read [0x55, 0xaa] = (.ok 42, [0xaa]) ∧ (readAll input).2 = some (.varintCut, [0xaa]) ∧
      ∀ others, input = encodeAll others ++ [0xaa] → others = [8, 42] := by
  intro input
  obtain ⟨⟨values, rest, hread, hcalls, hlast, hend, hsplit⟩, -⟩ := readAll_outcome input
  obtain ⟨rfl, rfl⟩ := (hsplit [8, 42] [0xaa]).mp ⟨by decide, Or.inr ⟨.varintCut, by decide⟩⟩
  refine ⟨(hcalls 1 42 rfl).2, ?_, fun others h => ((hsplit others [0xaa]).mp ⟨h, Or.inr ⟨.varintCut, by decide⟩⟩).1⟩
  rcases hend with ⟨hnil, -⟩ | ⟨-, e, herror, hfailure⟩
  · cases hnil
  · have hcut : read [0xaa] = (.error .varintCut, [0xaa]) := by decide
    cases hcut.symm.trans herror
    exact hfailure

end FieldWire.Varint
