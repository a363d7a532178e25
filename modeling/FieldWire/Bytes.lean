/-! # Byte strings

A byte string is a list of bytes. This file holds the two ways in which the format reads numbers and lengths
from byte strings: little-endian integers, and splitting off a stated number of bytes. The main statements are
that the little-endian form of a width is a bijection (`ofLittleEndian_littleEndian`,
`littleEndian_ofLittleEndian`) and that a split is exact (`splitExactly?_eq_some_iff`). -/

namespace FieldWire

abbrev Bytes := List UInt8

/-! ### Little-endian integers -/

/-- The `n` low bytes of `v`, least significant byte first. -/
def littleEndian : Nat → Nat → Bytes
  | 0, _ => []
  | n + 1, v => UInt8.ofNat v :: littleEndian n (v / 256)

/-- The integer whose bytes are given, least significant byte first. -/
def ofLittleEndian : Bytes → Nat
  | [] => 0
  | b :: bs => b.toNat + 256 * ofLittleEndian bs

@[simp] theorem length_littleEndian (n v : Nat) : (littleEndian n v).length = n := by
  induction n generalizing v with
  | zero => rfl
  | succ n ih => simp [littleEndian, ih]

theorem one_shiftLeft_byte (n : Nat) : 1 <<< (8 * (n + 1)) = 256 * 1 <<< (8 * n) := by
  rw [Nat.one_shiftLeft, Nat.one_shiftLeft, Nat.mul_succ, Nat.pow_add, Nat.mul_comm]

theorem ofLittleEndian_lt (bs : Bytes) : ofLittleEndian bs < 1 <<< (8 * bs.length) := by
  induction bs with
  | nil => simp [ofLittleEndian]
  | cons b bs ih =>
    have hb : b.toNat < 256 := b.toNat_lt
    rw [ofLittleEndian, List.length_cons, one_shiftLeft_byte]
    omega

theorem ofLittleEndian_littleEndian (n v : Nat) : ofLittleEndian (littleEndian n v) = v % 1 <<< (8 * n) := by
  induction n generalizing v with
  | zero => simp [littleEndian, ofLittleEndian, Nat.mod_one]
  | succ n ih =>
    have hb : (UInt8.ofNat v).toNat = v % 256 := UInt8.toNat_ofNat'
    rw [littleEndian, ofLittleEndian, ih, hb, one_shiftLeft_byte, Nat.mod_mul]

theorem littleEndian_ofLittleEndian (bs : Bytes) : littleEndian bs.length (ofLittleEndian bs) = bs := by
  induction bs with
  | nil => rfl
  | cons b bs ih =>
    have hb : b.toNat < 256 := b.toNat_lt
    have hdiv : (b.toNat + 256 * ofLittleEndian bs) / 256 = ofLittleEndian bs := by omega
    have hlow : UInt8.ofNat (b.toNat + 256 * ofLittleEndian bs) = b := by
      apply UInt8.toNat_inj.mp
      rw [UInt8.toNat_ofNat']
      omega
    rw [List.length_cons, ofLittleEndian, littleEndian, hdiv, hlow, ih]

/-! ### Exact splits -/

/-- The first `n` bytes and the bytes after them, or nothing where there are fewer than `n`. -/
def splitExactly? (n : Nat) (bs : Bytes) : Option (Bytes × Bytes) :=
  let front := bs.take n
  if front.length = n then some (front, bs.drop n) else none

theorem splitExactly?_eq_some_iff {n : Nat} {bs front back : Bytes} :
    splitExactly? n bs = some (front, back) ↔ bs = front ++ back ∧ front.length = n := by
  simp only [splitExactly?, List.length_take]
  constructor
  · intro h
    split at h
    · next hlen =>
      simp only [Option.some.injEq, Prod.mk.injEq] at h
      obtain ⟨rfl, rfl⟩ := h
      exact ⟨(List.take_append_drop n bs).symm, by rw [List.length_take]; exact hlen⟩
    · cases h
  · rintro ⟨rfl, rfl⟩
    simp

theorem splitExactly?_eq_none_iff {n : Nat} {bs : Bytes} : splitExactly? n bs = none ↔ bs.length < n := by
  simp only [splitExactly?, List.length_take]
  split <;> simp <;> omega

/-! ### Pieces -/

/-- The bytes cut into pieces of `n` bytes; the last piece may be shorter. -/
def chunks (n : Nat) (bs : Bytes) : List Bytes :=
  if n = 0 ∨ bs = [] then [] else bs.take n :: chunks n (bs.drop n)
termination_by bs.length
decreasing_by
  have := List.length_pos_iff.mpr (show bs ≠ [] by simp_all)
  rw [List.length_drop]
  omega

end FieldWire
