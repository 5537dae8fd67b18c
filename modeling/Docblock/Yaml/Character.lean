import Docblock.Text.Basic

/-!
# Characters of YAML texts

Which characters a text may have, what divides its lines, and the places at which a word can end.
Line breaks come in several spellings; all but two of them are read as a line feed, so this is done
once for the whole text.
-/

namespace Docblock.Yaml

/-- May a text have this character? Control characters are refused wherever they stand. -/
def isAllowed (c : Char) : Bool :=
  c == '\t' || c == '\n' || c == '\r' || c == '\u0085' || (' ' ≤ c && c ≤ '~') ||
    ('\u00a0' ≤ c && c != '\ufffe' && c != '\uffff')

/-- Carriage returns, with or without a line feed, and next-line characters as line feeds. -/
def normaliseBreaks : Text → Text
  | [] => []
  | '\r' :: '\n' :: rest => '\n' :: normaliseBreaks rest
  | c :: rest => (if c = '\r' || c = '\u0085' then '\n' else c) :: normaliseBreaks rest

/-- Does a character end a line? -/
def isBreak (c : Char) : Bool :=
  c == '\n' || c == '\u2028' || c == '\u2029'

/-- Is a text at its end, at a blank or at a line break? -/
def atSpace : Text → Bool
  | [] => true
  | c :: _ => Text.isBlank c || isBreak c

/-- Does a marker stand here as a word of its own? -/
def atMarker (marker : Text) (s : Text) : Bool :=
  marker.isPrefixOf s && atSpace (s.drop marker.length)

/-- The marker that opens a document. -/
def startMarker : Text := "---".toList

/-- The marker that closes a document. -/
def endMarker : Text := "...".toList

/-- Does a marker of documents stand here? -/
def atDocumentMarker (s : Text) : Bool :=
  atMarker startMarker s || atMarker endMarker s

/-- The characters that structure a flow collection. -/
def isFlowMark (c : Char) : Bool :=
  c == ',' || c == '[' || c == ']' || c == '\x7b' || c == '\x7d'

end Docblock.Yaml
