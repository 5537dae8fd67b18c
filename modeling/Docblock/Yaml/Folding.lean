import Docblock.Yaml.Character

/-!
# Folding lines

A scalar may run over several lines.  Between two words of one line its blanks count as they are.
Between two words of different lines no blank counts: a single line feed stands for one blank, and
of several line feeds all but the first stand for themselves.
-/

namespace Docblock.Yaml

/-- What has been read of a scalar since its last word. -/
inductive Gap where
  /-- Blanks, the last one first. -/
  | blanks (backwards : Text)
  /-- Line breaks, the first one apart from the others. -/
  | breaks (first : Char) (others : Text)
  /-- A line break that joins two lines, and the breaks after it. -/
  | spliced (others : Text)
  deriving DecidableEq, Repr

namespace Gap

/-- Nothing between two characters. -/
def none : Gap := .blanks []

/-- The text of a gap. -/
def text : Gap → Text
  | .blanks backwards => backwards.reverse
  | .breaks '\n' [] => [' ']
  | .breaks '\n' others => others
  | .breaks first others => first :: others
  | .spliced others => others

/-- Does a gap have a line break? -/
def isBroken : Gap → Bool
  | .blanks _ => false
  | .breaks _ _ | .spliced _ => true

/-- A gap with a further blank. After a line break blanks do not count. -/
def addBlank (c : Char) : Gap → Gap
  | .blanks backwards => .blanks (c :: backwards)
  | gap => gap

/-- A gap with a further line break. -/
def addBreak (c : Char) : Gap → Gap
  | .blanks _ => .breaks c []
  | .breaks first others => .breaks first (others ++ [c])
  | .spliced others => .spliced (others ++ [c])

end Gap

end Docblock.Yaml
