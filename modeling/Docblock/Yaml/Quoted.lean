import Docblock.Yaml.Folding

/-!
# Quoted scalars

Between single quotes, a quote is written twice; between double quotes, a backslash begins an
escape, and a backslash at the end of a line joins it to the next.  No line of a quoted scalar may
begin with a marker of documents.
-/

namespace Docblock.Yaml

/-- The scalar after an opening single quote and a gap, and what follows its closing quote. -/
def singleQuoted (gap : Gap) : Text → Option (Text × Text)
  | [] => none
  | '\'' :: '\'' :: rest => do
    let (text, rest) ← singleQuoted .none rest
    return (gap.text ++ '\'' :: text, rest)
  | '\'' :: rest => some (gap.text, rest)
  | c :: rest =>
    if isBreak c then
      if atDocumentMarker rest then none else singleQuoted (gap.addBreak c) rest
    else if Text.isBlank c then singleQuoted (gap.addBlank c) rest
    else do
      let (text, rest) ← singleQuoted .none rest
      return (gap.text ++ c :: text, rest)

/-- The character that a one-letter escape stands for. -/
def simpleEscape? : Char → Option Char
  | '0' => some '\x00'
  | 'a' => some '\x07'
  | 'b' => some '\x08'
  | 't' => some '\t'
  | '\t' => some '\t'
  | 'n' => some '\n'
  | 'v' => some '\x0b'
  | 'f' => some '\x0c'
  | 'r' => some '\r'
  | 'e' => some '\x1b'
  | ' ' => some ' '
  | '"' => some '"'
  | '/' => some '/'
  | '\\' => some '\\'
  | 'N' => some '\u0085'
  | '_' => some '\u00a0'
  | 'L' => some '\u2028'
  | 'P' => some '\u2029'
  | _ => none

/-- The value of a hexadecimal digit. -/
def hexDigit? (c : Char) : Option Nat :=
  if c.isDigit then some (c.toNat - '0'.toNat)
  else if 'a' ≤ c ∧ c ≤ 'f' then some (c.toNat - 'a'.toNat + 10)
  else if 'A' ≤ c ∧ c ≤ 'F' then some (c.toNat - 'A'.toNat + 10)
  else none

/-- The value of a number in hexadecimal digits. -/
def hexValue? (digits : Text) : Option Nat :=
  digits.foldlM (fun value c => (hexDigit? c).map (16 * value + ·)) 0

/-- The character with a code point of `width` digits at the front of a text. -/
def hexEscape? (width : Nat) (s : Text) : Option Char := do
  let digits := s.take width
  guard (digits.length = width)
  let value ← hexValue? digits
  if h : value.isValidChar then some (Char.ofNatAux value h) else none

/-- The number of digits of a numeric escape. -/
def hexWidth? : Char → Option Nat
  | 'x' => some 2
  | 'u' => some 4
  | 'U' => some 8
  | _ => none

/-- The character that an escape stands for, and the number of digits after its letter. -/
def escape? (c : Char) (rest : Text) : Option (Char × Nat) :=
  match hexWidth? c with
  | some width => (hexEscape? width rest).map (·, width)
  | none => (simpleEscape? c).map (·, 0)

/-- The scalar after an opening double quote and a gap, and what follows its closing quote. -/
def doubleQuoted (gap : Gap) : Text → Option (Text × Text)
  | [] => none
  | '"' :: rest => some (gap.text, rest)
  | '\\' :: c :: rest =>
    if isBreak c then
      if atDocumentMarker rest then none
      else do
        let (text, rest) ← doubleQuoted (.spliced []) rest
        return (gap.text ++ text, rest)
    else do
      let (decoded, digits) ← escape? c rest
      let (text, rest) ← doubleQuoted .none (rest.drop digits)
      return (gap.text ++ decoded :: text, rest)
  | c :: rest =>
    if isBreak c then
      if atDocumentMarker rest then none else doubleQuoted (gap.addBreak c) rest
    else if Text.isBlank c then doubleQuoted (gap.addBlank c) rest
    else do
      let (text, rest) ← doubleQuoted .none rest
      return (gap.text ++ c :: text, rest)
termination_by s => s.length
decreasing_by all_goals (simp only [List.length_cons, List.length_drop]; omega)

end Docblock.Yaml
