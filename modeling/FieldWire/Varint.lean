import FieldWire.Bytes
import FieldWire.Error

/-! # Varints

A varint writes an integer of 64 bits in 1 to 9 bytes. The low bits of the first byte hold the length in unary:
a form of `n ≤ 8` bytes starts with `n - 1` zero bits and a one bit, and the `7 * n` bits after them are the
value. A first byte of zero announces eight more bytes that hold the value as it is. All of it is little endian.

Each value has one form only: reading refuses a form that is longer than its value needs. -/

namespace FieldWire.Varint

def maxLength : Nat := 9

/-- The least value that only the longest form holds. -/
def escapeThreshold : UInt64 := 1 <<< (56 : UInt64)

/-! ### Writing -/

/-- Appends the form of `v`, where forms of fewer than `8 - more` bytes do not hold it, and counts the bytes of it. What
    a form of `8 - more` bytes would be as an integer is `packed`, and `bound` is the least value that it does not
    hold. -/
def appendFrom (buffer : Bytes) (v : UInt64) : (more : Nat) → (packed bound : UInt64) → Bytes × Nat
  | 0, packed, bound =>
    if v < bound then (buffer ++ littleEndian 8 packed.toNat, 8) else (buffer ++ [0] ++ littleEndian 8 v.toNat, maxLength)
  | more + 1, packed, bound =>
    if v < bound then
      (buffer ++ littleEndian (7 - more) packed.toNat, 7 - more)
    else
      appendFrom buffer v more (2 * packed) (128 * bound)

/-- The buffer with the form of `v` at its end, and the number of bytes written: as many as `v` needs, tried out from
    one byte on. -/
def appendTo (buffer : Bytes) (v : UInt64) : Bytes × Nat := appendFrom buffer v 7 (2 * v + 1) 128

/-- The form of a value. -/
def encode (v : UInt64) : Bytes := (appendTo [] v).1

/-- The number of zero bits above the highest one bit. -/
def leadingZeros (v : UInt64) : Nat := v.toBitVec.clz.toNat

/-- The length of the form of `v`, from the number of its significant bits, of which a byte holds seven. -/
def encodedLength (v : UInt64) : Nat :=
  if escapeThreshold ≤ v then
    maxLength
  else
    let bits := 64 - leadingZeros v
    if bits = 0 then 1 else (bits + 6) / 7

/-! ### Reading -/

/-- The length of the form that starts with `first`: one more than the number of zero bits below the lowest
    one bit. -/
def decodedLength (first : UInt8) : Nat :=
  match (List.range 8).find? fun i => first.toNat.testBit i with
  | some i => i + 1
  | none => maxLength

/-- The value that a form carries, behind its `min n 8` bits of length. -/
def carried (form : Bytes) : Nat :=
  ofLittleEndian form >>> min form.length 8

/-- The value at the front of the input and the bytes after it. The number of bytes is checked before the
    form is. -/
def decode : Bytes → Except Error (UInt64 × Bytes)
  | [] => .error .varintMissing
  | first :: more =>
    match splitExactly? (decodedLength first) (first :: more) with
    | none => .error .varintCut
    | some (form, rest) =>
      let v := carried form
      if 1 < form.length ∧ v < 1 <<< (7 * (form.length - 1)) then
        .error (.malformedVarint form.length)
      else
        .ok (UInt64.ofNat v, rest)

/-- What `decode` finds, and the input that is left: the bytes after the varint, or all of it after an error. -/
def read (input : Bytes) : Except Error UInt64 × Bytes :=
  match decode input with
  | .ok (v, rest) => (.ok v, rest)
  | .error e => (.error e, input)

theorem decodedLength_pos (first : UInt8) : 0 < decodedLength first := by
  unfold decodedLength
  split <;> simp [maxLength]

theorem length_lt_of_decode {input rest : Bytes} {v : UInt64} (h : decode input = .ok (v, rest)) :
    rest.length < input.length := by
  unfold decode at h
  split at h
  · cases h
  · next first more =>
    split at h
    · cases h
    · next form rest' hsplit =>
      obtain ⟨happ, hlen⟩ := splitExactly?_eq_some_iff.mp hsplit
      have hpos := decodedLength_pos first
      have hrest : rest' = rest := by
        dsimp only at h
        split at h
        · cases h
        · cases h
          rfl
      subst hrest
      rw [happ, List.length_append]
      omega

theorem length_lt_of_read {input rest : Bytes} {v : UInt64} (h : read input = (.ok v, rest)) :
    rest.length < input.length := by
  unfold read at h
  split at h
  · next hd =>
    cases h
    exact length_lt_of_decode hd
  · cases h

/-! ### Streams -/

/-- The varints read one after another: each value with the bytes left after it, and the error of the reading
    that failed with the bytes it left, if the input did not end with a varint. -/
def readAll (input : Bytes) : List (UInt64 × Bytes) × Option (Error × Bytes) :=
  if input = [] then
    ([], none)
  else
    match h : read input with
    | (.ok v, rest) =>
      have := length_lt_of_read h
      let (values, failure) := readAll rest
      ((v, rest) :: values, failure)
    | (.error e, rest) => ([], some (e, rest))
termination_by input.length

end FieldWire.Varint
