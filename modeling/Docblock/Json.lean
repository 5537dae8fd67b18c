import Docblock.Text.Basic

/-!
# JSON values

Trees are shown to other programs as JSON.  The fields of an object are written in the order in
which they are given, one to a line, indented by two blanks for every level.
-/

namespace Docblock

/-- A JSON value without numbers. -/
inductive Json where
  | null
  | bool (value : Bool)
  | str (value : Text)
  | arr (items : List Json)
  | obj (fields : List (Text × Json))

namespace Json

/-! ## Building values -/

/-- An object with one field. -/
def only (key : String) (value : Json) : Json :=
  .obj [(key.toList, value)]

/-- An object with named fields. -/
def record (fields : List (String × Json)) : Json :=
  .obj (fields.map fun (key, value) => (key.toList, value))

/-- A text that may be missing. -/
def optStr : Option Text → Json
  | none => .null
  | some s => .str s

/-! ## Writing values -/

/-- One character of a JSON string. -/
def escapeChar (c : Char) : Text :=
  match c with
  | '"' => "\\\"".toList
  | '\\' => "\\\\".toList
  | '\n' => "\\n".toList
  | '\r' => "\\r".toList
  | '\t' => "\\t".toList
  | '\x08' => "\\b".toList
  | '\x0c' => "\\f".toList
  | c =>
    if c.toNat < 0x20 then
      let digits := Nat.toDigits 16 c.toNat
      "\\u".toList ++ List.replicate (4 - digits.length) '0' ++ digits
    else [c]

/-- A JSON string with its quotes. -/
def quote (s : Text) : Text :=
  '"' :: s.flatMap escapeChar ++ ['"']

/-- The line break before something that stands `depth` levels deep. -/
def newLine (depth : Nat) : Text :=
  '\n' :: List.replicate (2 * depth) ' '

mutual

/-- A value that stands `depth` levels deep. -/
def prettyAt (depth : Nat) : Json → Text
  | .null => "null".toList
  | .bool true => "true".toList
  | .bool false => "false".toList
  | .str value => quote value
  | .arr items =>
    match prettyItems (depth + 1) items with
    | [] => "[]".toList
    | lines => '[' :: List.intercalate [','] lines ++ newLine depth ++ [']']
  | .obj fields =>
    match prettyFields (depth + 1) fields with
    | [] => "\x7b\x7d".toList
    | lines => '\x7b' :: List.intercalate [','] lines ++ newLine depth ++ ['\x7d']

/-- The items of an array, each on a line of its own. -/
def prettyItems (depth : Nat) : List Json → List Text
  | [] => []
  | item :: rest => (newLine depth ++ prettyAt depth item) :: prettyItems depth rest

/-- The fields of an object, each on a line of its own. -/
def prettyFields (depth : Nat) : List (Text × Json) → List Text
  | [] => []
  | field :: rest => prettyField depth field :: prettyFields depth rest

/-- One field of an object. -/
def prettyField (depth : Nat) : Text × Json → Text
  | (key, value) => newLine depth ++ quote key ++ ": ".toList ++ prettyAt depth value

end

/-- The written form of a value. -/
def pretty (v : Json) : Text :=
  prettyAt 0 v

end Json

end Docblock
