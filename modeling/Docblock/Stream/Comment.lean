import Docblock.Comment.Parser
import Docblock.Stream.TypeExpr

/-!
# Doc comments along a text

The grammar of `Docblock.Comment.Parser`, for a parser that runs along the text.  Types step over
blanks; descriptions and the names of tags take every token as it comes.
-/

namespace Docblock

namespace Parse

open Tag (endsName)

/-! ## Free text -/

/-- The rest of the line, after some text. -/
def descriptionAfter (text : Text) : Nat → Parse Text
  | 0 => return Text.trim text
  | n + 1 => do
    let t ← peek
    if t.kind.endsLine then return Text.trim text
    else
      move Stream.nextRaw
      descriptionAfter (text ++ t.text) n

/-- The rest of the line. -/
def description (text : Text) : Parse Text := do
  let room ← look Stream.room
  descriptionAfter text room

/-! ## Tags -/

/-- What is glued to the name of a tag: the part that continues the name, and the part of the last
token that does not. Without that part, nothing is glued to the name. -/
def gluedName : Nat → Parse (Text × Option Text)
  | 0 => return ([], none)
  | n + 1 => do
    let t ← peek
    if t.kind = .blank ∨ t.kind.endsLine then return ([], none)
    else
      move Stream.nextRaw
      let name := t.text.takeWhile (!endsName ·)
      match t.text.dropWhile (!endsName ·) with
      | [] => do
        let (more, surplus) ← gluedName n
        return (name ++ more, some (surplus.getD []))
      | surplus => return (name, some surplus)

/-- The mark, the result and the name of a method whose parameters or name follow the type
`first`. -/
def methodHead (isStatic : Bool) (first : TypeExpr) : Parse (Bool × Option TypeExpr × Text) := do
  let t ← peek
  if t.kind = .lparen then
    match first with
    | .named n =>
      match n.single? with
      | some name => return (false, if isStatic then some (.named .static) else none, name)
      | none => refuse (.expecting (.token .ident))
    | _ => refuse (.expecting (.token .ident))
  else
    let name ← expect .ident
    return (isStatic, some first, name.text)

/-- A method. A colon may not follow its parameters. -/
def method : Parse Method := do
  let isStatic ← got .static
  let first ← type
  let (isStatic, result, name) ← methodHead isStatic first
  let _ ← expect .lparen
  let params ← signature type
  if ← got .colon then refuse .methodColon
  else return ⟨isStatic, result, name, params⟩

/-- Is a token one of the words that introduce the bound of a template? -/
def opensBound (t : Token) : Bool :=
  t.kind == .ident && (t.text == "of".toList || t.text == "as".toList)

/-- The fields of a tag with a structure, after its keyword; the description is still to come. -/
def fields : Keyword → Parse (Text → Tag)
  | .param => do
    let p ← tagParam type
    return .param p
  | .typed keyword => do
    let ty ← type
    return .typed keyword ty
  | .property access => do
    let ty ← type
    let v ← expect .var
    return .property access ty v.text.tail
  | .method => do
    let m ← method
    return .method m
  | .var => do
    let ty ← type
    let t ← peek
    if t.kind = .var then
      move Stream.next
      return .var ty (some t.text.tail)
    else return .var ty none
  | .template => do
    let name ← expect .ident
    let t ← peek
    if opensBound t then
      move Stream.next
      let bound ← type
      return .template name.text (some bound)
    else return .template name.text none
  | .alias => do
    let name ← expect .ident
    let _ ← got .equals
    let ty ← type
    return .alias name.text ty

/-- The tag at which the parser stands. -/
def tag : Parse Tag := do
  let t ← peek
  move Stream.nextRaw
  let room ← look Stream.room
  let (more, glued) ← gluedName room
  match glued with
  | some surplus =>
    let desc ← description surplus
    return .other (t.text.tail ++ more) desc
  | none =>
    move Stream.skipBlank
    match Keyword.ofText? t.text.tail with
    | some keyword =>
      let mk ← fields keyword
      let desc ← description []
      return mk desc
    | none =>
      let desc ← description []
      return .other t.text.tail desc

/-! ## Lines -/

/-- Step over the marker in front of a line. -/
def marker : Parse Unit := do
  move Stream.skipBlank
  let t ← peek
  if t.kind = .asterisk then
    move Stream.nextRaw
    move Stream.skipBlank

/-- One line of a comment. -/
def line : Parse Line := do
  marker
  let t ← peek
  if t.kind = .tag then
    let read ← tag
    return .tag read
  else
    let text ← description []
    return .text text

/-- The lines of a comment, up to its end. -/
def lines : Nat → Parse (List Line)
  | 0 => return []
  | n + 1 => do
    let t ← peek
    if t.kind = .closeDoc then return []
    else
      let first ← line
      if ← got .newline then
        let others ← lines n
        return first :: others
      else return [first]

/-! ## Comments -/

/-- Line breaks and blanks in front of a comment; the last blanks among them are its indentation. -/
def indentation (indent : Text) : Nat → Parse Text
  | 0 => return indent
  | n + 1 => do
    let t ← peek
    if t.kind = .newline then
      move Stream.nextRaw
      indentation indent n
    else if t.kind = .blank then
      move Stream.nextRaw
      indentation t.text n
    else return indent

/-- What stands behind the opening delimiter of a comment, up to the end of the text. -/
def commentBody (indent : Text) : Parse Comment := do
  let broken ← got .newline
  let room ← look Stream.room
  let read ← lines room
  let _ ← expect .closeDoc
  let room ← look Stream.room
  expectEnd room
  return ⟨read, indent, !broken⟩

/-- Read a text that is one doc comment, with its delimiters. -/
def comment : Parse Comment := do
  let room ← look Stream.room
  let indent ← indentation [] room
  let _ ← expect .openDoc
  commentBody indent

end Parse

end Docblock
