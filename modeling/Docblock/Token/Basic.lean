import Docblock.Position
import Docblock.Text.Quoted

/-!
# Tokens of a doc comment

A comment is read as a sequence of tokens.  Every token has a kind, the text it covers, and the
position of its first character.  This module has the kinds with their spelling; which text makes
up a token is decided in `Docblock.Token.Scanner`.
-/

namespace Docblock

/-- The kinds of token. `stop` stands for the end of the text and covers nothing. -/
inductive Kind where
  | stop | newline | blank
  | openDoc | closeDoc | asterisk | backslash | question
  | lparen | rparen | lbrack | rbrack | lbrace | rbrace | lt | gt
  | comma | colon | doubleColon | ellipsis | bar | amp | equals
  | this | array | object | callable | static
  | ident | tag | var | int | str | other
  deriving DecidableEq, Repr

namespace Kind

/-- The one spelling of a symbol or reserved word; the other kinds have none. -/
def symbol? : Kind → Option Text
  | .openDoc => some "/**".toList
  | .closeDoc => some "*/".toList
  | .asterisk => some "*".toList
  | .backslash => some "\\".toList
  | .question => some "?".toList
  | .lparen => some "(".toList
  | .rparen => some ")".toList
  | .lbrack => some "[".toList
  | .rbrack => some "]".toList
  | .lbrace => some "\x7b".toList
  | .rbrace => some "\x7d".toList
  | .lt => some "<".toList
  | .gt => some ">".toList
  | .comma => some ",".toList
  | .colon => some ":".toList
  | .doubleColon => some "::".toList
  | .ellipsis => some "...".toList
  | .bar => some "|".toList
  | .amp => some "&".toList
  | .equals => some "=".toList
  | .this => some "$this".toList
  | .array => some "array".toList
  | .object => some "object".toList
  | .callable => some "callable".toList
  | .static => some "static".toList
  | .stop | .newline | .blank | .ident | .tag | .var | .int | .str | .other => none

/-- What messages call a kind that has no fixed spelling. -/
def className : Kind → Text
  | .stop => "EOF".toList
  | .newline => "Newline".toList
  | .blank => "Whitespace".toList
  | .ident => "Ident".toList
  | .tag => "Tag".toList
  | .var => "Var".toList
  | .int => "Int".toList
  | .str => "String".toList
  | _ => "Other".toList

/-- What messages call a kind: its spelling, or the name of its class. -/
def label (k : Kind) : Text :=
  k.symbol?.getD k.className

/-- The kinds with which a type expression can begin. -/
def startsType : Kind → Bool
  | .lparen | .this | .question | .array | .object | .callable | .static
  | .ident | .backslash | .str | .int => true
  | _ => false

end Kind

/-- A token: its kind, the text it covers and where that text begins. -/
structure Token where
  kind : Kind
  text : Text
  pos : Position
  deriving DecidableEq, Repr

namespace Token

/-- What messages call a token: the spelling of a symbol, or the class with the quoted text. -/
def display (t : Token) : Text :=
  if t.kind.symbol?.isSome || t.kind == .stop || t.kind == .newline then t.kind.label
  else t.kind.label ++ '(' :: Text.quoted t.text ++ [')']

end Token

end Docblock
