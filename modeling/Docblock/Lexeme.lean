import Docblock.Token.Scanner

/-!
# Lexemes: tokens with the blanks before them

The grammar of a comment does not care about blanks between tokens, but free text keeps them.  So
each token other than a blank is paired with the blanks that stand before it: a reader of the
grammar looks only at the token, and a reader of free text writes the gap back.
-/

namespace Docblock

/-- A token that is not a blank, together with the blanks directly before it. -/
structure Lexeme extends Token where
  gap : Text
  deriving DecidableEq, Repr

namespace Lexeme

/-- Pair every token with the blanks before it; `gap` is what has been skipped so far. Blanks at
the very end belong to no lexeme. -/
def attachFrom (gap : Text) : List Token → List Lexeme
  | [] => []
  | t :: rest =>
    if t.kind = .blank then attachFrom (gap ++ t.text) rest
    else ⟨t, gap⟩ :: attachFrom [] rest

/-- The lexemes of a list of tokens. -/
def ofTokens (ts : List Token) : List Lexeme :=
  attachFrom [] ts

/-- The lexemes of a text. -/
def ofText (s : Text) : List Lexeme :=
  ofTokens (Token.tokenize s)

/-- Does the lexeme follow the one before it without a blank? -/
def isGlued (t : Lexeme) : Bool :=
  t.gap.isEmpty

/-- The lexeme with nothing before it. -/
def closeUp (t : Lexeme) : Lexeme :=
  { t with gap := [] }

/-- The text that a list of lexemes covers, blanks included. -/
def source (ts : List Lexeme) : Text :=
  ts.flatMap fun t => t.gap ++ t.text

end Lexeme

end Docblock
