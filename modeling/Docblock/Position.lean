import Docblock.Text.Basic

/-!
# Positions in a text

Lines and columns count from one, and a column counts characters, not bytes.

A position is obtained in two ways: `Position.advance` carries one along while a text is read, and
`Position.ofOffset` computes one from a byte offset by counting the line breaks before it.
`Position.within` moves a position found inside a part of a text to the whole text.
-/

namespace Docblock

/-- A line and a column, both counted from one.  An implementation keeps them in 32 bits; here they are
natural numbers, so texts of `2^32` lines or columns are outside the model. -/
structure Position where
  line : Nat
  column : Nat
  deriving DecidableEq, Repr

namespace Position

/-- The position of the first character of a text. -/
def start : Position := ⟨1, 1⟩

/-- The position after reading one character. -/
def step (p : Position) (c : Char) : Position :=
  if c = '\n' then ⟨p.line + 1, 1⟩ else ⟨p.line, p.column + 1⟩

/-- The position after reading a text. -/
def advance (p : Position) (s : Text) : Position :=
  s.foldl step p

/-- The position in the whole text of something found at `rel` in a part that starts at `base`.
On the first line of the part the columns add up; on any other line the column is its own. -/
def within (base rel : Position) : Position :=
  if rel.line ≤ 1 then ⟨base.line, base.column + rel.column - 1⟩
  else ⟨base.line + rel.line - 1, rel.column⟩

/-- The position of the character at a byte offset. An offset inside a character counts as the
start of that character, and one past the end counts as the end. -/
def ofOffset (s : Text) (offset : Nat) : Position :=
  let before := s.takeBytes offset
  ⟨before.count '\n' + 1, before.lastLine.length + 1⟩

/-- A position as it is shown to the user. -/
def render (p : Position) : Text :=
  Text.ofNat p.line ++ ':' :: Text.ofNat p.column

end Position

end Docblock
