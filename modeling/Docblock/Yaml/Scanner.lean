import Docblock.Yaml.Plain
import Docblock.Yaml.Quoted

/-!
# From indentation to marks

Scanning turns a text into marks, and settles what indentation and line breaks mean: block
collections get marks where they begin and end, and keys get a mark in front.  What is left is read
without looking at columns.

Whether a scalar or a flow collection is a key is known only when the colon after it is reached.
So the scanner remembers where the last one began that could be a key, one for every open bracket;
at the colon, a mark is put in at that place, and the beginning of a mapping before it if the key
is indented further than everything around it.

## Organisation

1. `Mark`, `Candidate` and `Scanner`.
2. Indentation and candidates.
3. Tokens, and `scan`, which reads all of them.
-/

namespace Docblock.Yaml

/-! ## Section 1: Marks -/

/-- The marks of a text, and its scalars. -/
inductive Mark where
  /-- A dash in front of an item. -/
  | item
  /-- A key follows. -/
  | key
  /-- The colon after a key. -/
  | value
  | comma | lbrack | rbrack | lbrace | rbrace
  /-- A block sequence begins. -/
  | blockSeq
  /-- A block mapping begins. -/
  | blockMap
  /-- A block collection ends. -/
  | blockEnd
  | documentStart | documentEnd
  | scalar (text : Text) (plain : Bool)
  deriving DecidableEq, Repr

/-- Something that could be a key: how many marks stand before it, and where it begins. If it is
`required`, only a key can stand there. -/
structure Candidate where
  marks : Nat
  line : Nat
  column : Nat
  index : Nat
  required : Bool
  deriving DecidableEq, Repr

/-- What is known at a place of a text: where it is, the columns of the open block collections,
innermost first, whether a key may begin, the candidate for a key, those of the open brackets
around, and the marks so far. -/
structure Scanner where
  line : Nat
  column : Nat
  index : Nat
  indents : List Nat
  keyAllowed : Bool
  candidate : Option Candidate
  outer : List (Option Candidate)
  marks : List Mark

namespace Scanner

/-- The beginning of a text. -/
def start : Scanner := ⟨0, 0, 0, [], true, none, [], []⟩

/-- Is the scanner inside brackets? -/
def inFlow (s : Scanner) : Bool :=
  !s.outer.isEmpty

/-- The scanner after one character. -/
def stepOver (s : Scanner) (c : Char) : Scanner :=
  if isBreak c then { s with line := s.line + 1, column := 0, index := s.index + 1 }
  else { s with column := s.column + 1, index := s.index + 1 }

/-- The scanner after some characters. -/
def advance (s : Scanner) (text : Text) : Scanner :=
  text.foldl stepOver s

/-- The scanner with a further mark. -/
def emit (s : Scanner) (mark : Mark) : Scanner :=
  { s with marks := s.marks ++ [mark] }

/-! ## Section 2: Indentation and candidates -/

/-- End the block collections that are indented further than a column. -/
def closeTo (s : Scanner) (column : Nat) : Scanner :=
  if s.inFlow then s
  else
    { s with
      indents := s.indents.dropWhile (column < ·)
      marks := s.marks ++ (s.indents.takeWhile (column < ·)).map fun _ => .blockEnd }

/-- End all block collections. -/
def closeAll (s : Scanner) : Scanner :=
  if s.inFlow then s
  else { s with indents := [], marks := s.marks ++ s.indents.map fun _ => .blockEnd }

/-- Begin a block collection at a column, with its mark put in after the given number of marks,
unless there is one at that column already. -/
def openAt (s : Scanner) (column marks : Nat) (mark : Mark) : Scanner :=
  if s.inFlow || s.indents.head?.any (column ≤ ·) then s
  else { s with indents := column :: s.indents, marks := s.marks.insertIdx marks mark }

/-- The number of characters that a key may have. -/
def keyLimit : Nat := 1024

/-- Is it too late for the colon after a candidate? A key stands on one line and is not too long. -/
def isStale (s : Scanner) (c : Candidate) : Bool :=
  c.line < s.line || c.index + keyLimit < s.index

/-- A candidate, if its colon may still come. A required one has to have it. -/
def refresh (s : Scanner) : Option Candidate → Option (Option Candidate)
  | none => some none
  | some c => if s.isStale c then (if c.required then none else some none) else some (some c)

/-- Forget the candidates for which it is too late. -/
def dropStale (s : Scanner) : Option Scanner := do
  let candidate ← s.refresh s.candidate
  let outer ← s.outer.mapM s.refresh
  return { s with candidate := candidate, outer := outer }

/-- Forget the candidate. -/
def dropCandidate (s : Scanner) : Option Scanner :=
  if s.candidate.any (·.required) then none else some { s with candidate := none }

/-- Remember what begins here as a candidate, if a key may begin. In the column of an open
mapping, only a key can. -/
def saveCandidate (s : Scanner) : Option Scanner :=
  if s.keyAllowed then do
    let s ← s.dropCandidate
    let required := !s.inFlow && s.indents.head? = some s.column
    return { s with candidate := some ⟨s.marks.length, s.line, s.column, s.index, required⟩ }
  else some s

/-- Open a bracket. -/
def openFlow (s : Scanner) : Scanner :=
  { s with candidate := none, outer := s.candidate :: s.outer }

/-- Close a bracket. -/
def closeFlow (s : Scanner) : Scanner :=
  match s.outer with
  | candidate :: outer => { s with candidate := candidate, outer := outer }
  | [] => s

/-! ## Section 3: Tokens -/

/-- A marker of documents. -/
def document (s : Scanner) (mark : Mark) : Option (Scanner × Nat) := do
  let s ← s.closeAll.dropCandidate
  return ({ s.emit mark with column := s.column + 3, index := s.index + 3, keyAllowed := false }, 2)

/-- An opening bracket. -/
def opening (s : Scanner) (c : Char) (mark : Mark) : Option (Scanner × Nat) := do
  let s ← s.saveCandidate
  return ({ (s.openFlow.emit mark).stepOver c with keyAllowed := true }, 0)

/-- A closing bracket. -/
def closing (s : Scanner) (c : Char) (mark : Mark) : Option (Scanner × Nat) := do
  let s ← s.dropCandidate
  return ({ (s.closeFlow.emit mark).stepOver c with keyAllowed := false }, 0)

/-- A comma. -/
def comma (s : Scanner) : Option (Scanner × Nat) := do
  let s ← s.dropCandidate
  return ({ (s.emit .comma).stepOver ',' with keyAllowed := true }, 0)

/-- A dash in front of an item. It may stand where a key may. -/
def dash (s : Scanner) : Option (Scanner × Nat) :=
  if !s.inFlow && !s.keyAllowed then none
  else do
    let s ← (s.openAt s.column s.marks.length .blockSeq).dropCandidate
    return ({ (s.emit .item).stepOver '-' with keyAllowed := true }, 0)

/-- A colon after a key. Without a candidate it may stand only where a key may. -/
def colon (s : Scanner) : Option (Scanner × Nat) :=
  match s.candidate with
  | some key =>
    let s := { s with candidate := none, keyAllowed := false, marks := s.marks.insertIdx key.marks .key }
    some (((s.openAt key.column key.marks .blockMap).emit .value).stepOver ':', 0)
  | none =>
    if !s.inFlow && !s.keyAllowed then none
    else
      let s := s.openAt s.column s.marks.length .blockMap
      some ({ (s.emit .value).stepOver ':' with keyAllowed := !s.inFlow }, 0)

/-- A scalar; `rest` follows its first character, and `after` follows the scalar. -/
def scalar (s : Scanner) (c : Char) (rest after text : Text) (isPlain keyAllowed : Bool) :
    Option (Scanner × Nat) := do
  let s ← s.saveCandidate
  let extra := rest.length - after.length
  let s := (s.emit (.scalar text isPlain)).advance (c :: rest.take extra)
  return ({ s with keyAllowed := keyAllowed }, extra)

/-- A plain scalar that begins with `c`. Its later lines are indented further than the block
collection around it. -/
def plain (s : Scanner) (c : Char) (rest : Text) : Option (Scanner × Nat) :=
  if startsPlain s.inFlow c rest then do
    let indent := match s.indents.head? with
      | some column => column + 1
      | none => 0
    let p ← plainScalar s.inFlow indent s.column .none (c :: rest)
    s.scalar c rest p.rest p.text true p.broken
  else none

/-- A token that begins with `c`: the scanner after it, and the number of characters that it takes
after `c`. -/
def token (s : Scanner) (c : Char) (rest : Text) : Option (Scanner × Nat) :=
  if s.column = 0 && atMarker startMarker (c :: rest) then s.document .documentStart
  else if s.column = 0 && atMarker endMarker (c :: rest) then s.document .documentEnd
  else match c with
    | '[' => s.opening c .lbrack
    | '\x7b' => s.opening c .lbrace
    | ']' => s.closing c .rbrack
    | '\x7d' => s.closing c .rbrace
    | ',' => s.comma
    | '-' => if atSpace rest then s.dash else s.plain c rest
    | ':' => if s.inFlow || atSpace rest then s.colon else s.plain c rest
    | '\'' => do
      let (text, after) ← singleQuoted .none rest
      s.scalar c rest after text false false
    | '"' => do
      let (text, after) ← doubleQuoted .none rest
      s.scalar c rest after text false false
    | c => s.plain c rest

/-- May `c` be passed over? A tab may not, where a key may begin outside of brackets. -/
def isSpace (s : Scanner) (c : Char) : Bool :=
  c == ' ' || (c == '\t' && (s.inFlow || !s.keyAllowed)) || (c == '\ufeff' && s.index == 0)

/-- What stands at the front of the text `c :: rest`: white space, a comment or a token. -/
def step (s : Scanner) (c : Char) (rest : Text) : Option (Scanner × Nat) :=
  if s.isSpace c then some (s.stepOver c, 0)
  else if isBreak c then
    some ({ s.stepOver c with keyAllowed := s.keyAllowed || !s.inFlow }, 0)
  else if c = '#' then
    let comment := rest.takeWhile (!isBreak ·)
    some (s.advance (c :: comment), comment.length)
  else do
    let s ← s.dropStale
    (s.closeTo s.column).token c rest

/-- All marks, at the end of a text. -/
def finish (s : Scanner) : Option (List Mark) := do
  let s ← s.dropStale
  let s ← s.closeAll.dropCandidate
  return s.marks

/-- The marks of a text from a place on. -/
def scan (s : Scanner) : Text → Option (List Mark)
  | [] => s.finish
  | c :: rest =>
    match s.step c rest with
    | none => none
    | some (s, extra) => scan s (rest.drop extra)
termination_by text => text.length
decreasing_by simp only [List.length_cons, List.length_drop]; omega

end Scanner

/-- The marks of a text, if every part of it is in its place. -/
def marks? (s : Text) : Option (List Mark) :=
  if s.all isAllowed then Scanner.start.scan (normaliseBreaks s) else none

end Docblock.Yaml
