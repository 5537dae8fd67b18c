import Docblock.Position
import Docblock.Source.Scanner

/-!
# Doc comments in place

The segments of a file become pieces: doc comments with the place where they stand, and the text
between them.  A `Place` is carried along the file, so every comment knows its byte offset, its
position and the blanks at the beginning of its line.

How a file is divided into segments is for the lexer of the language to say, so that is a parameter
here, a `Locator`; `segments` is the one that the program uses.
-/

namespace Docblock.Source

/-- A place in a file: the bytes before it, its position, and the line up to it, backwards. -/
structure Place where
  offset : Nat
  pos : Position
  line : Text
  deriving DecidableEq, Repr

namespace Place

/-- The beginning of a file. -/
def start : Place := ⟨0, .start, []⟩

/-- The place after one character. -/
def step (p : Place) (c : Char) : Place :=
  ⟨p.offset + c.utf8Size, p.pos.step c, if c = '\n' then [] else c :: p.line⟩

/-- The place after a text. -/
def advance (p : Place) (s : Text) : Place :=
  s.foldl step p

/-- The blanks at the beginning of the line, up to the place. -/
def indent (p : Place) : Text :=
  p.line.reverse.takeWhile Text.isBlank

end Place

/-- A doc comment of a file: its text with the delimiters, where it starts, and the blanks at the
beginning of its line. -/
structure DocComment where
  text : Text
  offset : Nat
  start : Position
  indent : Text
  deriving DecidableEq, Repr

/-- The byte offset at which a comment ends. -/
def DocComment.stop (c : DocComment) : Nat :=
  c.offset + Text.byteSize c.text

/-- A doc comment, or a text between doc comments. -/
inductive Piece where
  | other (text : Text)
  | comment (comment : DocComment)
  deriving DecidableEq, Repr

/-- The text of a piece. -/
def Piece.text : Piece → Text
  | .other text => text
  | .comment c => c.text

/-- The comment of a piece. -/
def Piece.comment? : Piece → Option DocComment
  | .comment c => some c
  | .other _ => none

/-- Segments as pieces, from a place on. -/
def locate (p : Place) : List Segment → List Piece
  | [] => []
  | s :: rest =>
    (if s.isDoc then .comment ⟨s.text, p.offset, p.pos, p.indent⟩ else .other s.text) ::
      locate (p.advance s.text) rest

/-- What finds the doc comments of a file: it divides the file into segments. -/
abbrev Locator := Text → List Segment

namespace Locator

/-- The pieces of a file. -/
def pieces (find : Locator) (s : Text) : List Piece :=
  locate .start (find s)

/-- The doc comments of a file, in order. -/
def docComments (find : Locator) (s : Text) : List DocComment :=
  (find.pieces s).filterMap Piece.comment?

end Locator

/-- The doc comments that the scanner finds in a file, in order. -/
def docComments (s : Text) : List DocComment :=
  Locator.docComments segments s

end Docblock.Source
