import Docblock.Lexeme

/-!
# Faults: why a comment is refused

A reader of the grammar stops at the first lexeme that does not fit.  A `Fault` records the reason
and that lexeme; a fault at the end of a line has none, and is located at the token that ends the
line.  `SyntaxError` is what the user sees: a position and a message.
-/

namespace Docblock

/-- What the grammar admits at a place. -/
inductive Expected where
  /-- One particular kind of token. -/
  | token (kind : Kind)
  /-- The beginning of a type. -/
  | typeStart
  /-- A name, a shape or a callable. -/
  | basicType
  /-- The name of a class constant. -/
  | constantName
  /-- The key of a shape. -/
  | shapeKey
  /-- The default of a parameter. -/
  | defaultValue
  deriving DecidableEq, Repr

/-- How a message names what is admitted. -/
def Expected.render : Expected → Text
  | .token kind => kind.label
  | .typeStart => "( or basic type".toList
  | .basicType => "basic type".toList
  | .constantName => "Ident or *".toList
  | .shapeKey => "Ident, Int or String".toList
  | .defaultValue => "default value".toList

/-- The reasons for refusing a comment. -/
inductive Reason where
  /-- Something else has to stand here. -/
  | expecting (what : Expected)
  /-- Types stand too deep inside one another. -/
  | nestingTooDeep
  /-- A constant is taken of something that is not a name. -/
  | constantOfNonName
  /-- A constant stands after the mark of a nullable type. -/
  | nullableConstant
  /-- A blank divides the name of a constant from its `*`. -/
  | detachedAsterisk (name : Text)
  /-- A colon follows the parameters of a method. -/
  | methodColon
  deriving DecidableEq, Repr

/-- The message for a reason, given the token at which reading stopped. -/
def Reason.message (found : Token) : Reason → Text
  | .expecting what => "expecting ".toList ++ what.render ++ ", found ".toList ++ found.display
  | .nestingTooDeep => "type nesting too deep".toList
  | .constantOfNonName => "unexpected ::".toList
  | .nullableConstant => "constant fetch cannot be nullable".toList
  | .detachedAsterisk name =>
    "invalid position of *, did you mean to write ".toList ++ name ++ "*?".toList
  | .methodColon => "unexpected :, expecting description".toList

/-- A refusal: the reason, and the first lexeme that was not read, if the line has one left. -/
structure Fault where
  reason : Reason
  found : Option Lexeme
  deriving DecidableEq, Repr

/-- A refusal as the user sees it. -/
structure SyntaxError where
  pos : Position
  message : Text
  deriving DecidableEq, Repr

namespace SyntaxError

/-- The position and the message of an error. -/
def located (e : SyntaxError) : Text :=
  e.pos.render ++ ": ".toList ++ e.message

/-- An error in a comment or type that stands alone. -/
def render (e : SyntaxError) : Text :=
  "line:".toList ++ e.located

end SyntaxError

/-- The error that a fault amounts to in a line ended by the token `stop`. -/
def Fault.toError (stop : Token) (f : Fault) : SyntaxError :=
  let found := (f.found.map Lexeme.toToken).getD stop
  ⟨found.pos, f.reason.message found⟩

/-! ## Reading lexemes -/

/-- A reader takes something from the front of a list of lexemes and hands back the rest. -/
abbrev Reader (α : Type) := List Lexeme → Except Fault (α × List Lexeme)

/-- Refuse to read on: something else was expected at the front of `ts`. -/
def Fault.expecting {α : Type} (what : Expected) (ts : List Lexeme) : Except Fault α :=
  .error ⟨.expecting what, ts.head?⟩

namespace Reader

/-- Read one lexeme of the given kind. -/
def expect (kind : Kind) : Reader Lexeme
  | t :: rest =>
    if t.kind = kind then .ok (t, rest) else Fault.expecting (.token kind) (t :: rest)
  | [] => Fault.expecting (.token kind) []

/-- Step over one lexeme if it has the given kind, and tell whether it had. -/
def skip (kind : Kind) : List Lexeme → Bool × List Lexeme
  | t :: rest => if t.kind = kind then (true, rest) else (false, t :: rest)
  | [] => (false, [])

/-- Is the lexeme at the front of the given kind? -/
def at? (kind : Kind) (ts : List Lexeme) : Bool :=
  ts.head?.any (·.kind == kind)

/-- Read one or more items, divided by commas and ended by `close`, which may also follow a
trailing comma. The number bounds the items that are read. -/
def listUpTo {α : Type} (item : Reader α) (close : Kind) : Nat → Reader (List α)
  | 0, ts => Fault.expecting (.token close) ts
  | n + 1, ts => do
    let (first, rest) ← item ts
    match skip .comma rest with
    | (true, rest) =>
      if at? close rest then
        return ([first], rest.tail)
      else
        let (others, rest) ← listUpTo item close n rest
        return (first :: others, rest)
    | (false, rest) =>
      let (_, rest) ← expect close rest
      return ([first], rest)

/-- Read a list with at least one item; no list has more items than there are lexemes. -/
def list {α : Type} (item : Reader α) (close : Kind) : Reader (List α) :=
  fun ts => listUpTo item close (ts.length + 1) ts

end Reader

end Docblock
