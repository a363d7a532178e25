import FieldWire.Message.Basic

/-! # Equality without order

Two messages agree if they hold the same fields, in whatever order they were inserted. Fields are looked up by
id, and the values of nested messages are compared in the same way, so the order is free at every level. -/

namespace FieldWire

mutual

/-- Two values are equal up to the order of fields. -/
def Value.agrees : Value → Value → Bool
  | .uint64 m, .uint64 n => m == n
  | .binary as, .binary bs => as == bs
  | .message a, .message b => a.agrees b
  | _, _ => false

/-- Two messages have as many fields, and each field of the one is found in the other. -/
def Message.agrees : Message → Message → Bool
  | ⟨fields, _⟩, m => fields.length == m.size && Message.fieldsAgree fields m

def Message.fieldsAgree : List (UInt64 × Value) → Message → Bool
  | [], _ => true
  | (id, v) :: rest, m =>
    (match m.get? id with
      | some w => v.agrees w
      | none => false) && Message.fieldsAgree rest m

end

end FieldWire
