import Docblock.Align
import Docblock.Comment.Basic
import Docblock.TypeExpr.Printer

/-!
# Printing doc comments

Printing depends on the tree alone.  Every line becomes a row; the rows are aligned, blanks at the
end of a line are dropped, and the lines are set between the delimiters.  A comment that is meant
to stand on one line does so if it has no more than one.
-/

namespace Docblock

/-! ## Rows -/

/-- The parts that are not empty, divided by single blanks. -/
def Row.joinTail (parts : List Text) : Text :=
  List.intercalate [' '] (parts.filter (!·.isEmpty))

/-- The printed signature of a method. -/
def Method.print (m : Method) : Text :=
  (if m.isStatic then "static ".toList else []) ++
    (match m.result with
      | none => []
      | some ty => ty.print ++ [' ']) ++
    m.name ++ '(' :: List.intercalate ", ".toList (TypeExpr.printParams m.params) ++ [')']

/-- The row of a tag: the keyword, what is aligned after it, and the tail. -/
def Tag.row (t : Tag) : Row :=
  match t with
  | .param p desc => ⟨[t.name, p.ty.print], Row.joinTail [p.binder, desc]⟩
  | .typed _ ty desc => ⟨[t.name, ty.print], desc⟩
  | .property _ ty v desc => ⟨[t.name, ty.print], Row.joinTail ['$' :: v, desc]⟩
  | .method m desc => ⟨[t.name, m.print], desc⟩
  | .var ty v desc => ⟨[t.name, ty.print], Row.joinTail [(v.map ('$' :: ·)).getD [], desc]⟩
  | .template name none desc => ⟨[t.name, name], desc⟩
  | .template name (some bound) desc => ⟨[t.name, name ++ " of ".toList ++ bound.print], desc⟩
  | .alias name ty desc => ⟨[t.name, name, ty.print], desc⟩
  | .other _ desc => ⟨[t.name], desc⟩

/-- The row of a line; free text has no cells. -/
def Line.row : Line → Row
  | .text value => ⟨[], value⟩
  | .tag t => t.row

/-! ## Comments -/

namespace Comment

/-- The number of blanks between two columns. -/
def padding : Nat := 1

/-- The lines of a comment, aligned and without blanks at their ends. -/
def body (c : Comment) : List Text :=
  (Row.align padding (c.lines.map Line.row)).map Text.trimLine

/-- A line set off by a blank; an empty line is not set off. -/
def setOff (line : Text) : Text :=
  if line.isEmpty then [] else ' ' :: line

/-- The layout on one line. -/
def printOneLine (indent line : Text) : Text :=
  indent ++ "/**".toList ++ setOff line ++ " */\n".toList

/-- The layout with a line for every line of the comment. -/
def printLines (indent : Text) (lines : List Text) : Text :=
  indent ++ "/**\n".toList ++
    lines.flatMap (fun line => indent ++ " *".toList ++ setOff line ++ ['\n']) ++
    indent ++ " */\n".toList

/-- The canonical text of a comment. It ends in a line break. -/
def print (c : Comment) : Text :=
  match c.oneLine, c.body with
  | true, [] => printOneLine c.indent []
  | true, [line] => printOneLine c.indent line
  | _, lines => printLines c.indent lines

end Comment

end Docblock
