import Docblock.Proofs.Token.Placement
import Mathlib.Computability.Language

/-!
# The patterns of tokens

Which token stands at the front of a text can be said without an algorithm, by a table of patterns:
of all the matches of its patterns the longest wins, and of two that are equally long the one whose
pattern is a fixed text.  What no class of token accepts is other text; its rules match only how it
begins, and the rest of it is added afterwards.

## Contents

1. `Pattern`: patterns and the texts that they match.
2. `Rule.table`: the rules for every kind of token.
3. `Scans`: the token at the front of a text, by the table.
4. `Pattern.starts`: the rules that can match in front of a text, from its first character.
5. `Pattern.Reaches`: the longest match of a single pattern.
-/

namespace Docblock.Token

open scoped Computability

/-! ## Section 1: Patterns -/

/-- A pattern over characters. -/
inductive Pattern where
  /-- This very text. -/
  | word (text : Text)
  /-- One character that lies in one of the ranges. -/
  | among (ranges : List (Char × Char))
  /-- One character that lies in none of the ranges. -/
  | except (ranges : List (Char × Char))
  /-- One pattern after the other. -/
  | seq (first second : Pattern)
  /-- One pattern or the other. -/
  | alt (first second : Pattern)
  /-- A pattern any number of times. -/
  | many (inner : Pattern)
  deriving DecidableEq, Repr

namespace Pattern

/-- A pattern at least once. -/
def repeated (p : Pattern) : Pattern :=
  .seq p (.many p)

/-- A pattern once or not at all. -/
def optional (p : Pattern) : Pattern :=
  .alt (.word []) p

/-- Does a character lie in one of the ranges? -/
def covers (ranges : List (Char × Char)) (c : Char) : Bool :=
  ranges.any fun (lo, hi) => lo ≤ c && c ≤ hi

end Pattern

/-! ## Section 2: The table -/

/-- What a rule takes in behind the match of its pattern. -/
inductive Extension where
  /-- Nothing. -/
  | nothing
  /-- All that follows, up to the next line break, `@`, `$` or `*`. -/
  | run
  /-- The same, after one backslash if there is one. -/
  | brokenRun
  deriving DecidableEq, Repr

namespace Extension

/-- What follows a match up to the next line break, `@`, `$` or `*`. -/
def otherText (after : Text) : Text :=
  after.takeWhile (· ∉ ['\n', '@', '$', '*'])

/-- What is taken in of the text behind a match. -/
def taken : Extension → Text → Text
  | .nothing, _ => []
  | .run, after => otherText after
  | .brokenRun, '\\' :: after => '\\' :: otherText after
  | .brokenRun, after => otherText after

end Extension

/-- A rule of the table: texts that match the pattern begin a token of the given kind. -/
structure Rule where
  kind : Kind
  pattern : Pattern
  extension : Extension
  deriving DecidableEq, Repr

namespace Rule

open Token.Pattern

/-- A fixed text that is a token by itself. -/
def symbol (kind : Kind) (text : Text) : Rule :=
  ⟨kind, .word text, .nothing⟩

/-- Letters: the underscore, those of ASCII, and everything outside ASCII. -/
def letters : List (Char × Char) :=
  [('_', '_'), ('a', 'z'), ('A', 'Z'), ('\x80', Char.ofNat 0x10FFFF)]

def digits : List (Char × Char) :=
  [('0', '9')]

/-- Blanks that stand together. -/
def blank : Rule :=
  ⟨.blank, .repeated (.among [(' ', ' '), ('\t', '\t')]), .nothing⟩

/-- A dash may start or continue an identifier. -/
def ident : Rule :=
  ⟨.ident,
    .seq (.among (letters ++ [('-', '-')])) (.many (.among (letters ++ digits ++ [('-', '-')]))),
    .nothing⟩

/-- The names of tags have no capitals and no digits. -/
def tag : Rule :=
  ⟨.tag, .seq (.word ['@']) (.repeated (.among [('a', 'z'), ('-', '-')])), .nothing⟩

/-- The name of a variable. -/
def nameRun : Pattern :=
  .seq (.among letters) (.many (.among (letters ++ digits)))

def var : Rule :=
  ⟨.var, .seq (.word ['$']) nameRun, .nothing⟩

def int : Rule :=
  ⟨.int, .repeated (.among digits), .nothing⟩

/-- In a string a quote and a backslash stand behind another backslash. -/
def escaped : Pattern :=
  .seq (.word ['\\']) (.among [('\'', '\''), ('\\', '\\')])

/-- The inside of a string. -/
def stringInside : Pattern :=
  .many (.alt (.except [('\'', '\''), ('\\', '\\'), ('\n', '\n')]) escaped)

def str : Rule :=
  ⟨.str, .seq (.word ['\'']) (.seq stringInside (.word ['\''])), .nothing⟩

/-- The characters with which no identifier, number or unknown text begins. -/
def marks : List Char :=
  ['\n', ' ', '\t', '/', '*', '@', '$', '\'', '.', ':', '\\', '?', '(', ')', '[', ']', '\x7b',
    '\x7d', '<', '>', ',', '|', '&', '=']

end Rule

/-! ## Section 3: The token at the front of a text -/

namespace Pattern

variable {p q : Pattern} {x w : Text} {ranges : List (Char × Char)}

/-- Does the pattern match the empty text? -/
def nullable : Pattern → Bool
  | .word text => text.isEmpty
  | .among _ | .except _ => false
  | .seq first second => first.nullable && second.nullable
  | .alt first second => first.nullable || second.nullable
  | .many _ => true

/-- Can a match of the pattern begin with the character? -/
def starts : Pattern → Char → Bool
  | .word text, c => text.head? == some c
  | .among ranges, c => covers ranges c
  | .except ranges, c => !covers ranges c
  | .seq first second, c => first.starts c || (first.nullable && second.starts c)
  | .alt first second, c => first.starts c || second.starts c
  | .many inner, c => inner.starts c

end Pattern

namespace Pattern

variable {p q : Pattern} {s w : Text} {n : Nat} {ranges : List (Char × Char)}

section Class

variable {front : List (Char × Char)} {f g : Char → Bool} (hf : ∀ c, covers ranges c = f c)
  (hg : ∀ c, covers front c = g c)

include hf

include hg

end Class

end Pattern

end Docblock.Token
