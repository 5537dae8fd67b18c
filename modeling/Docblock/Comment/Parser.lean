import Docblock.Comment.Basic
import Docblock.Text.Basic
import Docblock.TypeExpr.Parser

/-!
# Reading doc comments

A comment is cut into source lines before any of them is read: no construct of the grammar reaches
over a line break, so every line is read on its own.

## Organisation

1. `SourceLine`: the lexemes of one line and the token that ends it.
2. `Line.read`: one line, which is free text or a tag.
3. `Comment.parse`: the delimiters, and the lines between them.
-/

namespace Docblock

open Reader

/-! ## Section 1: Source lines -/

/-- A line of a comment as it is written: its lexemes, and the token that ends it, which is a line
break, the closing delimiter or the end of the text. -/
structure SourceLine where
  words : List Lexeme
  stop : Token
  deriving DecidableEq, Repr

namespace SourceLine

/-- Cut lexemes at their line breaks; `stop` ends the last line. There is always a first line. -/
def split (stop : Token) : List Lexeme → SourceLine × List SourceLine
  | [] => (⟨[], stop⟩, [])
  | t :: rest =>
    let (first, others) := split stop rest
    if t.kind = .newline then (⟨[], t.toToken⟩, first :: others)
    else (⟨t :: first.words, first.stop⟩, others)

/-- Leave out the last line if nothing stands on it. -/
def dropBlankEnd : List SourceLine → List SourceLine
  | [] => []
  | [line] => if line.words.isEmpty then [] else [line]
  | line :: rest => line :: dropBlankEnd rest

/-- The lines between the delimiters that count, and whether the comment begins on the line of its
opening delimiter. An empty first line before a line break does not count, nor does an empty last
line. -/
def content (stop : Token) (body : List Lexeme) : Bool × List SourceLine :=
  match split stop body with
  | (⟨[], _⟩, next :: rest) => (false, dropBlankEnd (next :: rest))
  | (first, rest) => (true, dropBlankEnd (first :: rest))

end SourceLine

/-! ## Section 2: Lines -/

/-- The free text of the lexemes that are left on a line. -/
def restOfLine (ts : List Lexeme) : Text :=
  Text.trim (Lexeme.source ts)

namespace Tag

/-- Does a character end the name of a tag? -/
def endsName (c : Char) : Bool :=
  Text.isBlank c || c == '\r'

/-- What is glued to the name of a tag: the part that continues the name, the part of the last
lexeme that does not, and the lexemes after it. -/
def gluedName : List Lexeme → Text × Text × List Lexeme
  | [] => ([], [], [])
  | t :: rest =>
    if t.isGlued then
      let name := t.text.takeWhile (!endsName ·)
      match t.text.dropWhile (!endsName ·) with
      | [] =>
        let (more, surplus, rest) := gluedName rest
        (name ++ more, surplus, rest)
      | surplus => (name, surplus, rest)
    else ([], [], t :: rest)

/-- What follows the name of a tag that has no structure. -/
def unstructured (name surplus : Text) (rest : List Lexeme) : Tag :=
  .other name (Text.trim (surplus ++ Lexeme.source rest))

/-- The mark, the result and the name of a method whose parameters or name follow the type `first`.
A single name before the parenthesis is that of the method, and the word `static` before it is then
its result; otherwise `static` marks the method. -/
def methodHead (isStatic : Bool) (first : TypeExpr) : Reader (Bool × Option TypeExpr × Text) :=
  fun ts =>
    if at? .lparen ts then
      match first with
      | .named n =>
        match n.single? with
        | some name => .ok ((false, if isStatic then some (.named .static) else none, name), ts)
        | none => Fault.expecting (.token .ident) ts
      | _ => Fault.expecting (.token .ident) ts
    else do
      let (name, rest) ← expect .ident ts
      return ((isStatic, some first, name.text), rest)

/-- A method. A colon may not follow its parameters. -/
def readMethod : Reader Method := fun ts => do
  let (isStatic, rest) := skip .static ts
  let (first, rest) ← TypeExpr.reader rest
  let ((isStatic, result, name), rest) ← methodHead isStatic first rest
  let (_, rest) ← expect .lparen rest
  let (params, rest) ← TypeExpr.signature TypeExpr.reader rest
  match skip .colon rest with
  | (true, rest) => .error ⟨.methodColon, rest.head?⟩
  | (false, rest) => .ok (⟨isStatic, result, name, params⟩, rest)

/-- Is a lexeme one of the words that introduce the bound of a template? -/
def isBoundWord (t : Lexeme) : Bool :=
  t.kind == .ident && (t.text == "of".toList || t.text == "as".toList)

/-- The variable after a type, if there is one. -/
def optionalVar : List Lexeme → Option Text × List Lexeme
  | t :: rest => if t.kind = .var then (some t.text.tail, rest) else (none, t :: rest)
  | [] => (none, [])

/-- A tag with a structure, after its keyword. What the structure leaves is the description. -/
def readStructured : Keyword → List Lexeme → Except Fault Tag
  | .param, ts => do
    let (p, rest) ← TypeExpr.tagParam TypeExpr.reader ts
    return .param p (restOfLine rest)
  | .typed keyword, ts => do
    let (ty, rest) ← TypeExpr.reader ts
    return .typed keyword ty (restOfLine rest)
  | .property access, ts => do
    let (ty, rest) ← TypeExpr.reader ts
    let (v, rest) ← expect .var rest
    return .property access ty v.text.tail (restOfLine rest)
  | .method, ts => do
    let (m, rest) ← readMethod ts
    return .method m (restOfLine rest)
  | .var, ts => do
    let (ty, rest) ← TypeExpr.reader ts
    let (v, rest) := optionalVar rest
    return .var ty v (restOfLine rest)
  | .template, ts => do
    let (name, rest) ← expect .ident ts
    if rest.head?.any isBoundWord then
      let (bound, rest) ← TypeExpr.reader rest.tail
      return .template name.text (some bound) (restOfLine rest)
    else
      return .template name.text none (restOfLine rest)
  | .alias, ts => do
    let (name, rest) ← expect .ident ts
    let (_, rest) := skip .equals rest
    let (ty, rest) ← TypeExpr.reader rest
    return .alias name.text ty (restOfLine rest)

/-- The tag that the lexeme `t` opens. Anything glued to its name makes the name an unknown one. -/
def read (t : Lexeme) (rest : List Lexeme) : Except Fault Tag :=
  let name := t.text.tail
  if rest.head?.any Lexeme.isGlued then
    let (more, surplus, rest) := gluedName rest
    .ok (unstructured (name ++ more) surplus rest)
  else
    match Keyword.ofText? name with
    | some keyword => readStructured keyword rest
    | none => .ok (unstructured name [] rest)

end Tag

namespace Line

/-- Step over the marker in front of a line. -/
def dropMarker : List Lexeme → List Lexeme
  | t :: rest => if t.kind = .asterisk then rest else t :: rest
  | [] => []

/-- One line of a comment. -/
def read (line : SourceLine) : Except SyntaxError Line :=
  match dropMarker line.words with
  | t :: rest =>
    if t.kind = .tag then
      match Tag.read t rest with
      | .ok read => .ok (.tag read)
      | .error fault => .error (fault.toError line.stop)
    else .ok (.text (restOfLine (t :: rest)))
  | [] => .ok (.text [])

/-- All lines of a comment, up to the first that is refused. -/
def readAll : List SourceLine → Except SyntaxError (List Line)
  | [] => .ok []
  | line :: rest => do
    let first ← read line
    let others ← readAll rest
    return first :: others

end Line

/-! ## Section 3: Comments -/

namespace Comment

/-- The last blanks among those in front of some lexemes. -/
def lastGap (ts : List Lexeme) : Text :=
  ((ts.map (·.gap)).filter (!·.isEmpty)).getLast?.getD []

/-- Refuse a text at the token `found`. -/
def refuse {α : Type} (kind : Kind) (found : Token) : Except SyntaxError α :=
  .error ⟨found.pos, (Reason.expecting (.token kind)).message found⟩

/-- Nothing but line breaks may follow a comment. -/
def expectEnd (ts : List Lexeme) : Except SyntaxError Unit :=
  match ts.dropWhile (·.kind = .newline) with
  | [] => .ok ()
  | t :: _ => refuse .stop t.toToken

/-- Read a text that is one doc comment, with its delimiters. -/
def parse (s : Text) : Except SyntaxError Comment := do
  let stop := Token.stopOf s
  let ts := Lexeme.ofText s
  let lead := ts.takeWhile (·.kind = .newline)
  match ts.dropWhile (·.kind = .newline) with
  | [] => refuse .openDoc stop
  | opening :: body =>
    if opening.kind = .openDoc then
      let inside := body.takeWhile (·.kind ≠ .closeDoc)
      let after := body.dropWhile (·.kind ≠ .closeDoc)
      let closing := (after.head?.map Lexeme.toToken).getD stop
      let (oneLine, sources) := SourceLine.content closing inside
      let lines ← Line.readAll sources
      if closing.kind = .closeDoc then
        expectEnd after.tail
        return ⟨lines, lastGap (lead ++ [opening]), oneLine⟩
      else refuse .closeDoc closing
    else refuse .openDoc opening.toToken

end Comment

end Docblock
