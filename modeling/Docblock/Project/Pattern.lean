import Docblock.Text.Basic

/-!
# Patterns that leave paths out

A pattern is a text with stars in certain places, and there are three forms: everything inside a
directory, every path with a certain ending, and every path in which a text occurs.
-/

namespace Docblock

/-- What a pattern leaves out. -/
inductive Pattern where
  /-- Everything below a directory, wherever that directory stands. -/
  | inside (dir : Text)
  /-- Every path that ends in this way. -/
  | ending (text : Text)
  /-- Every path in which this occurs. -/
  | anywhere (text : Text)
  deriving DecidableEq, Repr

namespace Pattern

/-- `dir/*` is everything inside a directory, and anything else may occur anywhere. -/
def ofPlain (s : Text) : Pattern :=
  match "/*".toList.isSuffixOf? s with
  | some dir => .inside dir
  | none => .anywhere s

/-- The pattern that a text stands for. `**/` in front changes nothing, and a star in front of a
text without slashes makes it an ending. -/
def ofText (s : Text) : Pattern :=
  match "**/".toList.isPrefixOf? s with
  | some rest => ofPlain rest
  | none =>
    match s with
    | '*' :: rest => if '/' ∈ s then ofPlain s else .ending rest
    | _ => ofPlain s

/-- Does a pattern leave out this path? -/
def leavesOut (path : Text) : Pattern → Bool
  | .inside dir =>
    (dir ++ ['/']).isPrefixOf path || Text.contains ('/' :: dir ++ ['/']) path
  | .ending text => text.isSuffixOf path
  | .anywhere text => Text.contains text path

end Pattern

end Docblock
