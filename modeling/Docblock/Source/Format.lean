import Docblock.Comment.Parser
import Docblock.Comment.Printer
import Docblock.Source.Piece

/-!
# Formatting files

Formatting a file prints every doc comment in place and copies everything else.  A comment that is
refused is copied too, and its error is reported with its position in the file.
-/

namespace Docblock.Source

/-- The canonical text of a comment on a line indented by `indent`, without that indent and
without the line break at the end, so that it can take the place of the comment. -/
def formatComment (indent text : Text) : Except SyntaxError Text := do
  let comment ← Comment.parse text
  let printed := Comment.print { comment with indent := indent }
  return (printed.drop indent.length).dropLast

/-- The canonical text of a comment in a file, or the error with its position in the file. -/
def DocComment.format (c : DocComment) : Except SyntaxError Text :=
  match formatComment c.indent c.text with
  | .ok printed => .ok printed
  | .error e => .error ⟨c.start.within e.pos, e.message⟩

/-- The result of formatting: the new text, the errors in order, and the number of comments whose
text changed. -/
structure Formatted where
  output : Text
  errors : List SyntaxError
  changed : Nat
  deriving DecidableEq, Repr

namespace Formatted

/-- The result of formatting nothing. -/
def empty : Formatted := ⟨[], [], 0⟩

/-- The results of two neighbouring parts. -/
def append (a b : Formatted) : Formatted :=
  ⟨a.output ++ b.output, a.errors ++ b.errors, a.changed + b.changed⟩

/-- Text that is copied. -/
def copied (s : Text) : Formatted := ⟨s, [], 0⟩

end Formatted

/-- The result of formatting one piece. -/
def Piece.format : Piece → Formatted
  | .other text => .copied text
  | .comment c =>
    match c.format with
    | .ok printed => ⟨printed, [], if printed = c.text then 0 else 1⟩
    | .error e => ⟨c.text, [e], 0⟩

/-- The result of formatting a file whose comments are found by `find`. -/
def Locator.format (find : Locator) (s : Text) : Formatted :=
  ((find.pieces s).map Piece.format).foldr Formatted.append .empty

/-- The result of formatting a file. -/
def format (s : Text) : Formatted :=
  Locator.format segments s

end Docblock.Source
