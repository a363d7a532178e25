import FieldWire.Json.Token

/-! # JSON values

The values that JSON texts stand for. Members of an object are kept as they are written, repeated names included. -/

namespace FieldWire

inductive Json where
  | null
  | bool (b : Bool)
  /-- A number, with its value if it is written as a natural. -/
  | number (natural : Option Nat)
  /-- A string, with its text if it stands for one. -/
  | string (text : Option String)
  | array (items : List Json)
  | object (members : List (Option String × Json))

namespace Json

/-- What is left of a list of tokens from which at least one is taken. -/
abbrev Rest (tokens : List Token) := { rest : List Token // rest.length < tokens.length }

mutual

/-- The value at the front of the tokens. -/
def value? (tokens : List Token) : Option (Json × Rest tokens) :=
  match tokens with
  | .null :: rest => some (null, ⟨rest, by simp⟩)
  | .bool b :: rest => some (bool b, ⟨rest, by simp⟩)
  | .number natural :: rest => some (number natural, ⟨rest, by simp⟩)
  | .string text :: rest => some (string text, ⟨rest, by simp⟩)
  | .openArray :: .closeArray :: rest => some (array [], ⟨rest, by simp only [List.length_cons]; omega⟩)
  | .openObject :: .closeObject :: rest => some (object [], ⟨rest, by simp only [List.length_cons]; omega⟩)
  | .openArray :: inside =>
    match items? inside with
    | some (items, ⟨rest, h⟩) => some (array items, ⟨rest, by simp only [List.length_cons]; omega⟩)
    | none => none
  | .openObject :: inside =>
    match members? inside with
    | some (members, ⟨rest, h⟩) => some (object members, ⟨rest, by simp only [List.length_cons]; omega⟩)
    | none => none
  | _ => none
termination_by (tokens.length, 0)

/-- The items of an array up to its closing bracket. There is at least one. -/
def items? (tokens : List Token) : Option (List Json × Rest tokens) :=
  match value? tokens with
  | some (item, ⟨.closeArray :: rest, h⟩) => some ([item], ⟨rest, by simp only [List.length_cons] at h; omega⟩)
  | some (item, ⟨.comma :: more, h⟩) =>
    have : more.length < tokens.length := by simp only [List.length_cons] at h; omega
    match items? more with
    | some (items, ⟨rest, _⟩) => some (item :: items, ⟨rest, by omega⟩)
    | none => none
  | _ => none
termination_by (tokens.length, 1)

/-- The members of an object up to its closing brace. There is at least one. -/
def members? (tokens : List Token) : Option (List (Option String × Json) × Rest tokens) :=
  match tokens with
  | .string name :: .colon :: front =>
    match value? front with
    | some (member, ⟨.closeObject :: rest, h⟩) =>
      some ([(name, member)], ⟨rest, by simp only [List.length_cons] at h ⊢; omega⟩)
    | some (member, ⟨.comma :: more, h⟩) =>
      have : more.length < front.length := by simp only [List.length_cons] at h; omega
      match members? more with
      | some (members, ⟨rest, _⟩) =>
        some ((name, member) :: members, ⟨rest, by simp only [List.length_cons]; omega⟩)
      | none => none
    | _ => none
  | _ => none
termination_by (tokens.length, 1)

end

/-- The value of a text, which holds nothing else but blanks. -/
def parse? (text : String) : Option Json := do
  let tokens ← tokens? text.toList
  let (json, rest) ← value? tokens
  if rest.val = [] then return json else none

/-! ### Records -/

/-- The known fields of a record by name. An object may hold further members, but no name twice that is known;
    an array holds the first fields in order. -/
def record? (names : List String) : Json → Option (List (String × Json))
  | array items => if items.length ≤ names.length then some (names.zip items) else none
  | object members => do
    let named ← members.mapM fun (name, json) => name.map (·, json)
    let known := named.filter fun (name, _) => names.contains name
    if (known.map (·.1)).Nodup then return known else none
  | _ => none

/-- The field of a record, or a default if there is no such field. -/
def field? {α : Type} (record : List (String × Json)) (name : String) (read? : Json → Option α) (default : α) :
    Option α :=
  match record.lookup name with
  | some json => read? json
  | none => some default

def below? (bound : Nat) : Json → Option Nat
  | number (some n) => if n < bound then some n else none
  | _ => none

/-- The name of a case without contents: a string, or an object whose only member has that name and is null. -/
def caseName? : Json → Option String
  | string text => text
  | object [(name, null)] => name
  | _ => none

/-! ### Compact texts -/

/-- The text of a string in which nothing needs an escape. -/
def quotedText (name : String) : String := "\"" ++ name ++ "\""

def arrayText (items : List String) : String := "[" ++ ",".intercalate items ++ "]"

def objectText (members : List (String × String)) : String :=
  "\x7b" ++ ",".intercalate (members.map fun (name, text) => quotedText name ++ ":" ++ text) ++ "\x7d"

end Json
end FieldWire
