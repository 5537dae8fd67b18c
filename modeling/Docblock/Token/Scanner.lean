import Docblock.Token.Basic

/-!
# Cutting a text into tokens

`munch` looks at the front of a text and says which kind of token stands there and how far it
reaches; `tokenize` repeats that to the end.  At every place the longest token wins, and a reserved
word wins over an identifier or variable of the same length.

Every character belongs to some token.  What no class accepts is collected in a token of kind
`other`, which runs on to the next line break, `@`, `$` or `*`.

`tokenize` gives all tokens of a text at once.  A `Cursor` gives them one after the other: it holds
the text that is left, the position where that begins, and whether the end has been reported.
Behind the last token it answers every request with the end, at the same position.
-/

namespace Docblock.Token

/-! ## Character classes -/

/-- Letters of variable names: ASCII letters, the underscore, and everything outside ASCII. -/
def isVarStart (c : Char) : Bool :=
  c == '_' || c.isAlpha || 0x80 ≤ c.toNat

/-- Characters of variable names after the first. -/
def isVarPart (c : Char) : Bool :=
  isVarStart c || c.isDigit

/-- Identifiers also admit a dash, even in front. -/
def isIdentStart (c : Char) : Bool :=
  isVarStart c || c == '-'

/-- Characters of identifiers after the first. -/
def isIdentPart (c : Char) : Bool :=
  isVarPart c || c == '-'

/-- Characters of tag names after the `@`. -/
def isTagPart (c : Char) : Bool :=
  c.isLower || c == '-'

/-- Characters at which a token of kind `other` ends. -/
def endsOther (c : Char) : Bool :=
  c == '\n' || c == '@' || c == '$' || c == '*'

/-! ## The front of a text -/

/-- The length of the leading run of characters satisfying `p`. -/
def runLength (p : Char → Bool) (s : Text) : Nat :=
  (s.takeWhile p).length

/-- How far a token of kind `other` reaches when its first `n` characters are settled. -/
def otherRun (n : Nat) (s : Text) : Nat :=
  n + runLength (fun c => !endsOther c) (s.drop n)

/-- The length of the inside of a quoted string: no line break, no quote, and a backslash only in
front of a quote or another backslash. -/
def stringBody : Text → Nat
  | '\\' :: '\'' :: rest => stringBody rest + 2
  | '\\' :: '\\' :: rest => stringBody rest + 2
  | c :: rest => if c == '\'' || c == '\\' || c == '\n' then 0 else stringBody rest + 1
  | [] => 0

/-- The token that a quote opens. A string that is not closed is `other` text; it takes in the
backslash that broke it off. -/
def munchString (rest : Text) : Kind × Nat :=
  let n := stringBody rest
  match rest.drop n with
  | '\'' :: _ => (.str, n + 1)
  | '\\' :: _ => (.other, otherRun (n + 1) rest)
  | _ => (.other, otherRun n rest)

/-- The token that a dollar sign opens. A dash after the name spoils the variable. -/
def munchVar (rest : Text) : Kind × Nat :=
  let name := match rest with
    | c :: _ => if isVarStart c then rest.takeWhile isVarPart else []
    | [] => []
  let after := rest.drop name.length
  match after with
  | '-' :: _ => (.other, otherRun (name.length + runLength isIdentPart after) rest)
  | _ =>
    if name.isEmpty then (.other, otherRun 0 rest)
    else if name = "this".toList then (.this, name.length)
    else (.var, name.length)

/-- The token that an identifier character opens: a reserved word or an identifier. -/
def munchWord (c : Char) (rest : Text) : Kind × Nat :=
  let tail := rest.takeWhile isIdentPart
  let kind := [Kind.array, .object, .callable, .static].find? (·.symbol? == some (c :: tail))
  (kind.getD .ident, tail.length)

/-- The token at the front of the text `c :: rest`: its kind, and how many characters of `rest` it
takes after `c`. -/
def munch (c : Char) (rest : Text) : Kind × Nat :=
  match c with
  | '\n' => (.newline, 0)
  | ' ' => (.blank, runLength Text.isBlank rest)
  | '\t' => (.blank, runLength Text.isBlank rest)
  | '/' =>
    match rest with
    | '*' :: '*' :: _ => (.openDoc, 2)
    | '*' :: _ => (.other, otherRun 1 rest)
    | _ => (.other, otherRun 0 rest)
  | '*' => if rest.head? = some '/' then (.closeDoc, 1) else (.asterisk, 0)
  | '\\' => (.backslash, 0)
  | '?' => (.question, 0)
  | '(' => (.lparen, 0)
  | ')' => (.rparen, 0)
  | '[' => (.lbrack, 0)
  | ']' => (.rbrack, 0)
  | '\x7b' => (.lbrace, 0)
  | '\x7d' => (.rbrace, 0)
  | '<' => (.lt, 0)
  | '>' => (.gt, 0)
  | ',' => (.comma, 0)
  | ':' => if rest.head? = some ':' then (.doubleColon, 1) else (.colon, 0)
  | '.' =>
    match rest with
    | '.' :: '.' :: _ => (.ellipsis, 2)
    | _ => (.other, otherRun 0 rest)
  | '|' => (.bar, 0)
  | '&' => (.amp, 0)
  | '=' => (.equals, 0)
  | '@' =>
    match runLength isTagPart rest with
    | 0 => (.other, otherRun 0 rest)
    | n => (.tag, n)
  | '$' => munchVar rest
  | '\'' => munchString rest
  | c =>
    if c.isDigit then (.int, runLength Char.isDigit rest)
    else if isIdentStart c then munchWord c rest
    else (.other, otherRun 0 rest)

/-! ## The whole text -/

/-- The tokens of a text that begins at position `p`. -/
def tokensFrom (p : Position) : Text → List Token
  | [] => []
  | c :: rest =>
    let (kind, n) := munch c rest
    let text := c :: rest.take n
    ⟨kind, text, p⟩ :: tokensFrom (p.advance text) (rest.drop n)
termination_by s => s.length
decreasing_by simp only [List.length_cons, List.length_drop]; omega

/-- The tokens of a text, in order, without the end. -/
def tokenize (s : Text) : List Token :=
  tokensFrom .start s

/-- The token that stands for the end of a text. -/
def stopOf (s : Text) : Token :=
  ⟨.stop, [], Position.start.advance s⟩

/-! ## Tokens one at a time -/

/-- A place in a text from which tokens are taken. -/
structure Cursor where
  rest : Text
  pos : Position
  done : Bool
  /-- The end is reported only where nothing is left. -/
  rest_eq_nil : done = true → rest = []

namespace Cursor

/-- The cursor in front of a text. -/
def start (s : Text) : Cursor :=
  ⟨s, .start, false, nofun⟩

/-- The next token, and the cursor behind it. -/
def next (c : Cursor) : Token × Cursor :=
  if c.done then (⟨.stop, [], c.pos⟩, c)
  else
    match c.rest with
    | [] => (⟨.stop, [], c.pos⟩, ⟨[], c.pos, true, fun _ => rfl⟩)
    | d :: rest =>
      let (kind, n) := munch d rest
      let text := d :: rest.take n
      (⟨kind, text, c.pos⟩, ⟨rest.drop n, c.pos.advance text, false, nofun⟩)

/-- The answer to the request with the number `n`, counted from zero. -/
def request (c : Cursor) : Nat → Token
  | 0 => c.next.1
  | n + 1 => c.next.2.request n

end Cursor

end Docblock.Token
