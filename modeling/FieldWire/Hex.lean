import FieldWire.Bytes

/-! # Hexadecimal text

Bytes are written with two lowercase digits each. Reading takes digits of either case, and looks at the text as
bytes: a text with an odd number of them is refused first, then the first byte that is no digit. -/

namespace FieldWire.Hex

/-! ### Writing -/

def digit (n : Nat) : Char :=
  if n < 10 then Char.ofNat (48 + n) else Char.ofNat (87 + n)

/-- The digits of one byte, the high half first. -/
def digits (b : UInt8) : List Char :=
  [digit (b.toNat / 16), digit (b.toNat % 16)]

def encode (bytes : Bytes) : String :=
  String.ofList (bytes.flatMap digits)

/-! ### Reading -/

/-- Why a text is not the hexadecimal text of a byte string of the length asked for. -/
inductive Error where
  | oddLength
  | invalidCharacter (code : UInt8) (index : Nat)
  | invalidLength
  deriving DecidableEq, Repr

/-- The character whose code is the byte, in single quotes. The two quoting characters and the named control
    characters have a backslash in front, the other characters that show nothing are written by their code. -/
def quoted (code : UInt8) : String :=
  let body : List Char :=
    match Char.ofNat code.toNat with
    | '\x00' => ['\\', '0']
    | '\t' => ['\\', 't']
    | '\n' => ['\\', 'n']
    | '\r' => ['\\', 'r']
    | '\'' => ['\\', '\'']
    | '\\' => ['\\', '\\']
    | c =>
      if code < 0x20 ∨ (0x7f ≤ code ∧ code ≤ 0xa0) ∨ code = 0xad then
        ['\\', 'u', '\x7b'] ++ Nat.toDigits 16 code.toNat ++ ['\x7d']
      else
        [c]
  String.ofList (['\''] ++ body ++ ['\''])

def Error.message : Error → String
  | oddLength => "Odd number of digits"
  | invalidCharacter code index => s!"Invalid character {quoted code} at position {index}"
  | invalidLength => "Invalid string length"

/-- The number that a digit of either case stands for. -/
def value? (code : UInt8) : Option Nat :=
  if 48 ≤ code ∧ code ≤ 57 then some (code.toNat - 48)
  else if 97 ≤ code ∧ code ≤ 102 then some (code.toNat - 87)
  else if 65 ≤ code ∧ code ≤ 70 then some (code.toNat - 55)
  else none

/-- The bytes of pairs of digits; the first of the digits stands at the index. -/
def decodeFrom (index : Nat) : Bytes → Except Error Bytes
  | high :: low :: rest =>
    match value? high, value? low with
    | some h, some l => (decodeFrom (index + 2) rest).map (UInt8.ofNat (16 * h + l) :: ·)
    | none, _ => .error (.invalidCharacter high index)
    | _, none => .error (.invalidCharacter low (index + 1))
  | [_] => .error .oddLength
  | [] => .ok []

/-- The bytes that a text stands for, the text given in UTF-8. -/
def decode (text : Bytes) : Except Error Bytes :=
  if text.length % 2 = 1 then .error .oddLength else decodeFrom 0 text

end FieldWire.Hex
