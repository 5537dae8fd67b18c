import Docblock.Yaml.Folding

/-!
# Plain scalars

A plain scalar has no quotes.  It goes on to the next line as long as that line is indented, and
then takes in whatever stands there, dashes included.  A `#` after white space, a colon before
white space and, inside brackets, a flow mark end it.
-/

namespace Docblock.Yaml

/-- The characters with which no plain scalar begins. -/
def isReserved (c : Char) : Bool :=
  isFlowMark c || c ∈ "&*!|>'\"%@\x60#".toList

/-- May a plain scalar begin with `c`, followed by `rest`? -/
def startsPlain (inFlow : Bool) (c : Char) (rest : Text) : Bool :=
  if c == '-' then !atSpace rest
  else if c == '?' || c == ':' then !inFlow && !atSpace rest
  else !(isReserved c || Text.isBlank c || isBreak c)

/-- The characters that, inside brackets, may not stand directly after a colon. -/
def closesColon (c : Char) : Bool :=
  isFlowMark c || c == '?'

/-- Is `c` at the given column the beginning of something else, if white space stands before it? -/
def endsBeforeWord (inFlow : Bool) (indent column : Nat) (c : Char) (rest : Text) : Bool :=
  (!inFlow && column < indent) || (column == 0 && atDocumentMarker (c :: rest)) || c == '#'

/-- Does `c` end a plain scalar, wherever it stands? -/
def endsWord (inFlow : Bool) (c : Char) (rest : Text) : Bool :=
  (c == ':' && atSpace rest) || (inFlow && isFlowMark c)

/-- A plain scalar: its text, what follows it and the white space after it, and whether that white
space has a line break. -/
structure PlainScalar where
  text : Text
  rest : Text
  broken : Bool
  deriving DecidableEq, Repr

/-- Put text in front of a plain scalar. -/
def PlainScalar.prepend (front : Text) (p : PlainScalar) : PlainScalar :=
  { p with text := front ++ p.text }

/-- A plain scalar from the given column on, after a gap. Later lines have to be indented by
`indent`, and no tab may stand in that indentation. -/
def plainScalar (inFlow : Bool) (indent column : Nat) (gap : Gap) : Text → Option PlainScalar
  | [] => some ⟨[], [], gap.isBroken⟩
  | c :: rest =>
    if Text.isBlank c then
      if c == '\t' && gap.isBroken && column < indent then none
      else plainScalar inFlow indent (column + 1) (gap.addBlank c) rest
    else if isBreak c then plainScalar inFlow indent 0 (gap.addBreak c) rest
    else if gap ≠ .none && endsBeforeWord inFlow indent column c rest then
      some ⟨[], c :: rest, gap.isBroken⟩
    else if inFlow && c == ':' && rest.head?.any closesColon then none
    else if endsWord inFlow c rest then some ⟨[], c :: rest, gap.isBroken⟩
    else (plainScalar inFlow indent (column + 1) .none rest).map (.prepend (gap.text ++ [c]))

end Docblock.Yaml
