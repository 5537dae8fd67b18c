import Docblock.Token.Scanner

/-!
# The doc comments of a PHP file

A PHP file is cut into segments, of which some are doc comments.  To tell a comment from the same
characters in a string or in markup, the file is followed through its modes: markup outside of the
code tags, code, the strings that can hold expressions, and the strings that cannot.

## Organisation

1. The runs that do not nest: quoted strings, comments, labels.
2. Expressions inside strings. Where one ends is settled by counting brackets when it begins; code
   is then read until that place is reached, and reading goes back to the string.
3. `Mode`, `State` and `State.step`, which reads one segment.
4. `segments`, the whole file. The segments of a file put together are the file.

Only a comment that opens with `/**` and white space is a doc comment; it ends at the first `*/`.
-/

namespace Docblock.Source

open Token (isVarStart isVarPart runLength)

/-! ## Section 1: Runs that do not nest -/

/-- The number of characters before the first occurrence of `needle`. -/
def lengthBefore? (needle : Text) (s : Text) : Option Nat :=
  (Text.breakOn needle s).map fun (before, _) => before.length

/-- The length of a quoted string after its opening quote, the closing quote included. A backslash
takes the next character with it, and a string that is not closed reaches to the end. -/
def quotedLength (close : Char) : Text → Nat
  | [] => 0
  | '\\' :: _ :: rest => quotedLength close rest + 2
  | c :: rest => if c = close then 1 else quotedLength close rest + 1

/-- The length of a comment that ends with its line, or before a closing tag. -/
def lineCommentLength : Text → Nat
  | [] => 0
  | '?' :: '>' :: _ => 0
  | c :: rest => if c = '\n' || c = '\r' then 0 else lineCommentLength rest + 1

/-- Is a character one of those that may follow the `/**` of a doc comment? -/
def isDocSpace (c : Char) : Bool :=
  c == ' ' || c == '\t' || c == '\n' || c == '\r'

/-- Does a comment whose text goes on with `rest` after `/` open a doc comment? -/
def opensDoc : Text → Bool
  | '*' :: '*' :: c :: _ => isDocSpace c
  | _ => false

/-- The word after which the rest of a file is data. -/
def haltWord : Text := "__halt_compiler".toList

/-- What a heredoc opening says: the label, whether the string is verbatim, and the length of the
opening after its first character. -/
structure HeredocOpening where
  label : Text
  verbatim : Bool
  length : Nat

/-- The opening of a heredoc, given what follows its first `<`. A label between double quotes is
the same as a plain one; between single quotes it makes the string verbatim. The line ends after
the label. -/
def heredocOpening? (rest : Text) : Option HeredocOpening := do
  let afterMark ← "<<".toList.isPrefixOf? rest
  let blanks := runLength Text.isBlank afterMark
  let (quote, body) := match afterMark.drop blanks with
    | '"' :: body => (some '"', body)
    | '\'' :: body => (some '\'', body)
    | body => (none, body)
  let label := body.takeWhile isVarPart
  let first ← label.head?
  guard (isVarStart first)
  let afterLabel := body.drop label.length
  let lineEnd ← match quote with
    | none => some afterLabel
    | some q => [q].isPrefixOf? afterLabel
  guard (lineEnd.head?.any fun c => c == '\n' || c == '\r')
  return ⟨label, quote == some '\'', rest.length - lineEnd.length⟩

/-! ## Section 2: Expressions inside strings -/

/-- Does an expression begin here? -/
def opensExpression : Text → Bool
  | '$' :: c :: _ => isVarStart c || c == '\x7b'
  | '\x7b' :: '$' :: _ => true
  | _ => false

/-- The length of an expression in braces after its opening, the closing brace included. -/
def bracedLength (depth : Nat) : Text → Nat
  | [] => 0
  | '\x7d' :: rest =>
    match depth with
    | 0 => 1
    | depth + 1 => bracedLength depth rest + 1
  | '\x7b' :: rest => bracedLength (depth + 1) rest + 1
  | _ :: rest => bracedLength depth rest + 1

/-- The length of an index after its opening bracket, the closing bracket included. White space
ends it early. -/
def indexLength (depth : Nat) : Text → Nat
  | [] => 0
  | ']' :: rest =>
    match depth with
    | 0 => 1
    | depth + 1 => indexLength depth rest + 1
  | '[' :: rest => indexLength (depth + 1) rest + 1
  | c :: rest => if c.isWhitespace then 0 else indexLength depth rest + 1

/-- The length of a property access: an arrow and a name. -/
def accessLength (arrow : Text) (s : Text) : Option Nat := do
  let rest ← arrow.isPrefixOf? s
  let first ← rest.head?
  guard (isVarStart first)
  return arrow.length + runLength isVarPart rest

/-- The length of what may follow a variable: an index or a property. -/
def accessorLength (s : Text) : Nat :=
  match s with
  | '[' :: rest => indexLength 0 rest + 1
  | _ => ((accessLength "->".toList s).or (accessLength "?->".toList s)).getD 0

/-- The length of the expression at the front of a text. -/
def expressionLength (s : Text) : Nat :=
  match s with
  | '$' :: '\x7b' :: rest => bracedLength 0 rest + 2
  | '\x7b' :: _ :: rest => bracedLength 0 rest + 2
  | '$' :: rest =>
    let name := runLength isVarPart rest
    name + 1 + accessorLength (rest.drop name)
  | _ => 0

/-! ## Section 3: Modes -/

/-- The strings that can hold expressions. -/
inductive Enclosure where
  /-- Between two equal quotes. -/
  | quotes (close : Char)
  /-- From a label to the same label on a line of its own. -/
  | heredoc (label : Text)
  deriving DecidableEq, Repr

/-- What the characters at a place of a file are part of. -/
inductive Mode where
  | markup
  | code
  | template (enclosure : Enclosure)
  | verbatim (label : Text)
  | data
  deriving DecidableEq, Repr

/-- An expression inside a string: how many of its characters are still to be read, and the
string. -/
structure Frame where
  left : Nat
  enclosure : Enclosure
  deriving DecidableEq, Repr

/-- The mode at a place of a file, and the expressions around it, innermost first. -/
structure State where
  mode : Mode
  frames : List Frame
  deriving DecidableEq, Repr

/-- What is read in one step: how many characters after the first, whether they are a doc comment,
and the mode after them. -/
structure Step where
  extra : Nat
  isDoc : Bool
  mode : Mode

/-- Read from markup: an opening tag, or everything before one. -/
def markupStep (c : Char) (rest : Text) : Step :=
  if c = '<' && rest.head? = some '?' then
    let tag := rest.tail
    let extra :=
      if (tag.take 3).map Char.toLower = "php".toList then 4
      else if tag.head? = some '=' then 2
      else 1
    ⟨extra, false, .code⟩
  else ⟨(lengthBefore? "<?".toList rest).getD rest.length, false, .markup⟩

/-- Read a comment whose text goes on with `rest` after `/`. A comment that is not closed takes
the rest of the file with it. -/
def blockCommentStep (rest : Text) : Step :=
  match lengthBefore? "*/".toList (rest.drop 1) with
  | some n => ⟨n + 3, opensDoc rest, .code⟩
  | none => ⟨rest.length, false, .data⟩

/-- Does a string in double quotes hold an expression, given what follows its opening quote? -/
def holdsExpression : Text → Bool
  | [] => false
  | '\\' :: _ :: rest => holdsExpression rest
  | c :: rest =>
    if c = '"' then false
    else if opensExpression (c :: rest) then true
    else holdsExpression rest

/-- Read a word of code. -/
def wordStep (c : Char) (rest : Text) : Step :=
  let tail := rest.takeWhile isVarPart
  if (c :: tail).map Char.toLower = haltWord then ⟨rest.length, false, .data⟩
  else ⟨tail.length, false, .code⟩

/-- Read from code. -/
def codeStep (c : Char) (rest : Text) : Step :=
  match c with
  | '?' => if rest.head? = some '>' then ⟨1, false, .markup⟩ else ⟨0, false, .code⟩
  | '/' =>
    match rest with
    | '/' :: _ => ⟨lineCommentLength rest, false, .code⟩
    | '*' :: _ => blockCommentStep rest
    | _ => ⟨0, false, .code⟩
  | '#' =>
    if rest.head? = some '[' then ⟨0, false, .code⟩
    else ⟨lineCommentLength rest, false, .code⟩
  | '\'' => ⟨quotedLength '\'' rest, false, .code⟩
  | '"' =>
    if holdsExpression rest then ⟨0, false, .template (.quotes '"')⟩
    else ⟨quotedLength '"' rest, false, .code⟩
  | '\x60' => ⟨0, false, .template (.quotes '\x60')⟩
  | '<' =>
    match heredocOpening? rest with
    | some opening =>
      ⟨opening.length, false,
        if opening.verbatim then .verbatim opening.label
        else .template (.heredoc opening.label)⟩
    | none => ⟨0, false, .code⟩
  | '$' => ⟨runLength isVarPart rest, false, .code⟩
  -- a name after a backslash is no keyword
  | '\\' => ⟨runLength isVarPart rest, false, .code⟩
  | c => if isVarStart c then wordStep c rest else ⟨0, false, .code⟩

/-- The characters of a quoted string before its end or its next expression. `escaped` says that
a backslash stands before. -/
def quotedRun (close : Char) (escaped : Bool) : Text → Nat
  | [] => 0
  | c :: rest =>
    if c = '\\' then quotedRun close (!escaped) rest + 1
    else if !escaped && (c = close || opensExpression (c :: rest)) then 0
    else quotedRun close false rest + 1

/-- Does the closing label of a heredoc stand here? -/
def atLabel (label : Text) (s : Text) : Bool :=
  label.isPrefixOf s && !(s.drop label.length).head?.any isVarPart

/-- The characters of a heredoc up to the end of the line, its next expression or its closing
label, and whether the label was reached. `fresh` says that only white space stands before on the
line. A verbatim string has no expressions and no escapes. -/
def heredocRun (label : Text) (isVerbatim fresh escaped : Bool) : Text → Nat × Bool
  | [] => (0, false)
  | c :: rest =>
    if c = '\n' || c = '\r' then (1, false)
    else if Text.isBlank c then
      let (n, closed) := heredocRun label isVerbatim fresh escaped rest
      (n + 1, closed)
    else if !isVerbatim && !escaped && opensExpression (c :: rest) then (0, false)
    else if fresh && atLabel label (c :: rest) then (label.length, true)
    else
      let (n, closed) := heredocRun label isVerbatim false (c = '\\' && !escaped) rest
      (n + 1, closed)

/-- Read from a string that can hold expressions; nothing is read where one begins. -/
def templateStep? (enclosure : Enclosure) (c : Char) (rest : Text) : Option Step :=
  match enclosure with
  | .quotes close =>
    if c = close then some ⟨0, false, .code⟩
    else match quotedRun close false (c :: rest) with
      | 0 => none
      | n + 1 => some ⟨n, false, .template enclosure⟩
  | .heredoc label =>
    match heredocRun label false true false (c :: rest) with
    | (0, _) => none
    | (n + 1, closed) => some ⟨n, false, if closed then .code else .template enclosure⟩

/-- Read from a verbatim string. -/
def verbatimStep (label : Text) (c : Char) (rest : Text) : Step :=
  let (n, closed) := heredocRun label true true false (c :: rest)
  ⟨n - 1, false, if closed then .code else .verbatim label⟩

/-- The state after reading `n` characters. Once the innermost expression has been read, reading
goes back to its string. -/
def State.settle (n : Nat) (s : State) : State :=
  match s.frames.map fun frame => { frame with left := frame.left - n } with
  | frame :: frames =>
    if frame.left = 0 then ⟨.template frame.enclosure, frames⟩ else ⟨s.mode, frame :: frames⟩
  | [] => s

/-- The step at a place of a file, and the expressions around what it reads. -/
def State.next (s : State) (c : Char) (rest : Text) : Step × List Frame :=
  match s.mode with
  | .markup => (markupStep c rest, s.frames)
  | .code => (codeStep c rest, s.frames)
  | .verbatim label => (verbatimStep label c rest, s.frames)
  | .data => (⟨rest.length, false, .data⟩, s.frames)
  | .template enclosure =>
    match templateStep? enclosure c rest with
    | some step => (step, s.frames)
    | none => (codeStep c rest, ⟨expressionLength (c :: rest), enclosure⟩ :: s.frames)

/-! ## Section 4: Segments -/

/-- A part of a file. -/
structure Segment where
  isDoc : Bool
  text : Text
  deriving DecidableEq, Repr

/-- The segments of a file from a place on. -/
def segmentsFrom (s : State) : Text → List Segment
  | [] => []
  | c :: rest =>
    let (step, frames) := s.next c rest
    ⟨step.isDoc, c :: rest.take step.extra⟩ ::
      segmentsFrom (State.settle (step.extra + 1) ⟨step.mode, frames⟩) (rest.drop step.extra)
termination_by s => s.length
decreasing_by simp only [List.length_cons, List.length_drop]; omega

/-- The segments of a file. A first line that names an interpreter is passed over. -/
def segments (s : Text) : List Segment :=
  if "#!".toList.isPrefixOf s then
    let line := (lengthBefore? ['\n'] s).getD s.length
    ⟨false, s.take line⟩ :: segmentsFrom ⟨.markup, []⟩ (s.drop line)
  else segmentsFrom ⟨.markup, []⟩ s

end Docblock.Source
