/-! # Wire types

A wire type says how the payload of a field is laid out. It is written as a tag of three bits. -/

namespace FieldWire

/-- How the payload of a field is laid out. -/
inductive WireType where
  | uint64
  | message
  | binary
  deriving DecidableEq, Repr, Inhabited

namespace WireType

/-- The tag that stands for the wire type on the wire. -/
def tag : WireType → UInt8
  | uint64 => 0
  | message => 2
  | binary => 3

/-- The wire type that a tag stands for; tags 0, 2 and 3 are in use. -/
def ofTag? : UInt8 → Option WireType
  | 0 => some uint64
  | 2 => some message
  | 3 => some binary
  | _ => none

def name : WireType → String
  | uint64 => "uint64"
  | message => "message"
  | binary => "binary"

@[simp] theorem ofTag?_tag (t : WireType) : ofTag? t.tag = some t := by cases t <;> rfl

theorem ofTag?_eq_some_iff {tag : UInt8} {t : WireType} : ofTag? tag = some t ↔ tag = t.tag := by
  constructor
  · intro h
    unfold ofTag? at h
    split at h <;> cases h <;> rfl
  · rintro rfl
    exact ofTag?_tag t

theorem ofTag?_eq_none_iff {tag : UInt8} : ofTag? tag = none ↔ tag ≠ 0 ∧ tag ≠ 2 ∧ tag ≠ 3 := by
  unfold ofTag?
  split <;> simp_all

end WireType
end FieldWire
