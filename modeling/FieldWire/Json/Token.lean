import FieldWire.Hex

/-! # JSON tokens

A JSON text is first cut into tokens. A string may hold half of a surrogate pair; such a string stands for no text,
but it does no harm where nobody reads it. Of the numbers only the naturals are told apart: digits without a sign, a
fraction or an exponent. -/

namespace FieldWire.Json

inductive Token where
  | openArray
  | closeArray
  | openObject
  | closeObject
  | comma
  | colon
  | null
  | bool (b : Bool)
  /-- A number, with its value if it is written as a natural. -/
  | number (natural : Option Nat)
  /-- A string, with its text if it stands for one. -/
  | string (text : Option String)
  deriving DecidableEq, Repr

/-! ### Strings -/

/-- A code unit as it stands in a string: a character, or a surrogate that is written by its number. -/
inductive CodeUnit where
  | char (c : Char)
  | surrogate (code : Nat)

/-- The unit with a code of 16 bits. -/
def CodeUnit.ofCode (code : Nat) : CodeUnit :=
  if 0xd800 ≤ code ∧ code < 0xe000 then surrogate code else char (Char.ofNat code)

/-- The characters of units, if each high surrogate is followed by a low one and each low one follows a high
    one. -/
def CodeUnit.join : List CodeUnit → Option (List Char)
  | [] => some []
  | char c :: rest => (join rest).map (c :: ·)
  | surrogate high :: surrogate low :: rest =>
    if high < 0xdc00 ∧ 0xdc00 ≤ low then
      (join rest).map (Char.ofNat (0x10000 + (high - 0xd800) * 0x400 + (low - 0xdc00)) :: ·)
    else
      none
  | surrogate _ :: _ => none

/-- The character that is written by a backslash and one more character. -/
def escape? : Char → Option Char
  | '"' => some '"'
  | '\\' => some '\\'
  | '/' => some '/'
  | 'b' => some '\x08'
  | 'f' => some '\x0c'
  | 'n' => some '\n'
  | 'r' => some '\r'
  | 't' => some '\t'
  | _ => none

def code? (digits : List Char) : Option Nat :=
  digits.foldlM (fun n c => if c.toNat < 128 then (Hex.value? (UInt8.ofNat c.toNat)).map (16 * n + ·) else none) 0

/-- The units of a string up to its closing quote, and the text after that. -/
def string? : List Char → Option (List CodeUnit × List Char)
  | [] => none
  | '"' :: rest => some ([], rest)
  | '\\' :: 'u' :: a :: b :: c :: d :: rest => do
    let code ← code? [a, b, c, d]
    let (units, after) ← string? rest
    return (.ofCode code :: units, after)
  | '\\' :: c :: rest => do
    let meant ← escape? c
    let (units, after) ← string? rest
    return (.char meant :: units, after)
  | c :: rest =>
    if c.toNat < 0x20 ∨ c = '\\' then
      none
    else do
      let (units, after) ← string? rest
      return (.char c :: units, after)

/-! ### Numbers -/

/-- The digits at the front of a text, of which there must be one, and the text after them. -/
def digits? (text : List Char) : Option (List Char × List Char) :=
  let front := text.takeWhile Char.isDigit
  if front = [] then none else some (front, text.dropWhile Char.isDigit)

def valueOfDigits (digits : List Char) : Nat := digits.foldl (fun n c => 10 * n + (c.toNat - 48)) 0

/-- The digits of an integer without needless zeros, and the text after them. -/
def integer? : List Char → Option (List Char × List Char)
  | '0' :: rest => some (['0'], rest)
  | text => digits? text

/-- The text after a fraction, if there is one, and whether there is. -/
def fraction? : List Char → Option (Bool × List Char)
  | '.' :: rest => (digits? rest).map fun (_, after) => (true, after)
  | text => some (false, text)

/-- The text after an exponent, if there is one, and whether there is. -/
def exponent? : List Char → Option (Bool × List Char)
  | c :: rest =>
    if c = 'e' ∨ c = 'E' then
      let unsigned :=
        match rest with
        | '+' :: more => more
        | '-' :: more => more
        | more => more
      (digits? unsigned).map fun (_, after) => (true, after)
    else
      some (false, c :: rest)
  | [] => some (false, [])

def unsigned? (text : List Char) : Option (Option Nat × List Char) := do
  let (digits, rest) ← integer? text
  let (hasFraction, rest) ← fraction? rest
  let (hasExponent, rest) ← exponent? rest
  return (if hasFraction || hasExponent then none else some (valueOfDigits digits), rest)

/-! ### Tokens -/

def isBlank (c : Char) : Bool := c = ' ' || c = '\t' || c = '\n' || c = '\r'

def Token.next? : List Char → Option (Token × List Char)
  | '[' :: rest => some (openArray, rest)
  | ']' :: rest => some (closeArray, rest)
  | '\x7b' :: rest => some (openObject, rest)
  | '\x7d' :: rest => some (closeObject, rest)
  | ',' :: rest => some (comma, rest)
  | ':' :: rest => some (colon, rest)
  | 'n' :: 'u' :: 'l' :: 'l' :: rest => some (null, rest)
  | 't' :: 'r' :: 'u' :: 'e' :: rest => some (bool true, rest)
  | 'f' :: 'a' :: 'l' :: 's' :: 'e' :: rest => some (bool false, rest)
  | '"' :: rest => (string? rest).map fun (units, after) => (string ((CodeUnit.join units).map String.ofList), after)
  | '-' :: rest => (unsigned? rest).map fun (_, after) => (number none, after)
  | text => (unsigned? text).map fun (natural, after) => (number natural, after)

/-! ### Each token takes something from the text -/

theorem length_lt_of_string? {text after : List Char} {units : List CodeUnit}
    (h : string? text = some (units, after)) : after.length < text.length := by
  fun_induction string? text generalizing units with
  | case1 => cases h
  | case2 rest =>
    cases h
    simp
  | case3 a b c d rest ih =>
    simp only [Option.bind_eq_bind, Option.bind_eq_some_iff] at h
    obtain ⟨code, -, ⟨units', after'⟩, hrest, hpure⟩ := h
    cases hpure
    have : after'.length < rest.length := ih hrest
    simp only [List.length_cons]
    omega
  | case4 c rest _ ih =>
    simp only [Option.bind_eq_bind, Option.bind_eq_some_iff] at h
    obtain ⟨meant, -, ⟨units', after'⟩, hrest, hpure⟩ := h
    cases hpure
    have : after'.length < rest.length := ih hrest
    simp only [List.length_cons]
    omega
  | case5 => cases h
  | case6 c rest _ _ _ _ ih =>
    simp only [Option.bind_eq_bind, Option.bind_eq_some_iff] at h
    obtain ⟨⟨units', after'⟩, hrest, hpure⟩ := h
    cases hpure
    have : after'.length < rest.length := ih hrest
    simp only [List.length_cons]
    omega

theorem length_lt_of_digits? {text digits after : List Char} (h : digits? text = some (digits, after)) :
    after.length < text.length := by
  simp only [digits?] at h
  split at h
  · cases h
  · next hfront =>
    cases h
    have hsum := congrArg List.length (List.takeWhile_append_dropWhile (p := Char.isDigit) (l := text))
    have hpos := List.length_pos_iff.mpr hfront
    rw [List.length_append] at hsum
    omega

theorem length_lt_of_integer? {text digits after : List Char} (h : integer? text = some (digits, after)) :
    after.length < text.length := by
  unfold integer? at h
  split at h
  · cases h
    simp
  · exact length_lt_of_digits? h

theorem length_le_of_fraction? {text after : List Char} {b : Bool} (h : fraction? text = some (b, after)) :
    after.length ≤ text.length := by
  unfold fraction? at h
  split at h
  · obtain ⟨⟨digits, rest⟩, hd, hpair⟩ := Option.map_eq_some_iff.mp h
    cases hpair
    have := length_lt_of_digits? hd
    simp only [List.length_cons]
    omega
  · cases h
    exact Nat.le_refl _

theorem length_le_of_exponent? {text after : List Char} {b : Bool} (h : exponent? text = some (b, after)) :
    after.length ≤ text.length := by
  unfold exponent? at h
  split at h
  · next c rest =>
    split at h
    · obtain ⟨⟨digits, rest'⟩, hd, hpair⟩ := Option.map_eq_some_iff.mp h
      cases hpair
      have hlt := length_lt_of_digits? hd
      simp only [List.length_cons]
      split at hlt
      · simp only [List.length_cons]
        omega
      · simp only [List.length_cons]
        omega
      · omega
    · cases h
      exact Nat.le_refl _
  · cases h
    exact Nat.le_refl _

theorem length_lt_of_unsigned? {text after : List Char} {natural : Option Nat}
    (h : unsigned? text = some (natural, after)) : after.length < text.length := by
  simp only [unsigned?, Option.bind_eq_bind, Option.bind_eq_some_iff] at h
  obtain ⟨⟨digits, r₁⟩, hint, ⟨hasFraction, r₂⟩, hfrac, ⟨hasExponent, r₃⟩, hexp, hpure⟩ := h
  cases hpure
  have hint : r₁.length < text.length := length_lt_of_integer? hint
  have hfrac : r₂.length ≤ r₁.length := length_le_of_fraction? hfrac
  have hexp : r₃.length ≤ r₂.length := length_le_of_exponent? hexp
  exact Nat.lt_of_le_of_lt (Nat.le_trans hexp hfrac) hint

theorem Token.length_lt_of_next? {text after : List Char} {token : Token} (h : next? text = some (token, after)) :
    after.length < text.length := by
  unfold next? at h
  split at h
  case h_10 rest =>
    obtain ⟨⟨units, after'⟩, hs, hpair⟩ := Option.map_eq_some_iff.mp h
    cases hpair
    have := length_lt_of_string? hs
    simp only [List.length_cons]
    omega
  case h_11 rest =>
    obtain ⟨⟨natural, after'⟩, hu, hpair⟩ := Option.map_eq_some_iff.mp h
    cases hpair
    have := length_lt_of_unsigned? hu
    simp only [List.length_cons]
    omega
  case h_12 =>
    obtain ⟨⟨natural, after'⟩, hu, hpair⟩ := Option.map_eq_some_iff.mp h
    cases hpair
    exact length_lt_of_unsigned? hu
  all_goals
    cases h
    simp only [List.length_cons]
    omega

/-- The tokens of a text, with blanks before, between and after them. -/
def tokens? (text : List Char) : Option (List Token) :=
  match hblank : text.dropWhile isBlank with
  | [] => some []
  | c :: rest =>
    match hnext : Token.next? (c :: rest) with
    | none => none
    | some (token, after) =>
      have : after.length < text.length := by
        have hlt := Token.length_lt_of_next? hnext
        have hle := (List.dropWhile_suffix (p := isBlank) (l := text)).length_le
        rw [hblank] at hle
        omega
      (tokens? after).map (token :: ·)
termination_by text.length

end FieldWire.Json
