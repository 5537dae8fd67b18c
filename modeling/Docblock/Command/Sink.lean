import Docblock.Command.Failure
import Docblock.Comment.Printer
import Docblock.Diagnostic
import Docblock.Project.Path

/-!
# What a command puts out

Progress is told in lines with a verb, set flush right, and a message.  A finding is told in a line
with its severity, code, place and message, and advice stands on a line of its own below it.  On a
terminal the lines are coloured.

A sink is an output that takes bytes as long as it has room.  A comment is written as far as the sink
takes it.
-/

namespace Docblock

/-! ## Section 1: Messages to the user -/

/-- What a coloured text is for. -/
inductive Style where
  | done
  | note
  | skip
  | error
  | location
  | help
  deriving DecidableEq, Repr

/-- The terminal sequence that turns a style on. -/
def Style.sequence : Style → Text
  | .done => "\x1b[1;32m".toList
  | .note => "\x1b[1;36m".toList
  | .skip | .help => "\x1b[1;33m".toList
  | .error => "\x1b[1;31m".toList
  | .location => "\x1b[36m".toList

/-- The style of a severity. -/
def Style.ofSeverity : Severity → Style
  | .error => .error
  | .warning => .skip

/-- How messages are written. -/
structure Console where
  coloured : Bool
  deriving DecidableEq, Repr

namespace Console

/-- The width of the verbs. -/
def verbWidth : Nat := 12

/-- A text in a style. -/
def paint (c : Console) (style : Style) (s : Text) : Text :=
  if c.coloured then style.sequence ++ s ++ "\x1b[0m".toList else s

/-- A line with a verb. -/
def verbLine (c : Console) (style : Style) (verb : String) (message : Text) : Text :=
  let padded := List.replicate (verbWidth - verb.length) ' ' ++ verb.toList
  c.paint style padded ++ ' ' :: message ++ ['\n']

/-- Something was done. -/
def status (c : Console) (verb : String) (message : Text) : Text :=
  c.verbLine .done verb message

/-- Something was learned on the way. -/
def note (c : Console) (verb : String) (message : Text) : Text :=
  c.verbLine .note verb message

/-- There was nothing to do. -/
def skipped (c : Console) (message : Text) : Text :=
  c.verbLine .skip "Skipped" message

/-- A finding in the file at a path. -/
def diagnostic (c : Console) (path : Text) (d : Diagnostic) : Text :=
  let severity := c.paint (.ofSeverity d.severity) d.severity.render
  let place := c.paint .location (path ++ ':' :: d.pos.render)
  let advice := match d.help? with
    | none => []
    | some help => "\n  ".toList ++ c.paint .help "help:".toList ++ ' ' :: help
  severity ++ '[' :: d.code ++ "]: ".toList ++ place ++ ": ".toList ++ d.message ++ advice ++
    ['\n']

/-- A path as it is shown: relative to the working directory, if it lies inside. -/
def showPath (location path : Text) : Text :=
  match Path.relativeTo? location path with
  | some [] => ['.']
  | some relative => relative
  | none => path

end Console

/-! ## Section 2: An output that may close -/

/-- An output: the bytes it still takes, the reason it gives when it takes no more, and the bytes
that have arrived. -/
structure Sink where
  room : Nat
  reason : Text
  arrived : ByteArray

namespace Sink

/-- Write bytes, and tell whether all of them were taken. -/
def write (s : Sink) (bytes : ByteArray) : Except Failure Unit × Sink :=
  let taken := bytes.extract 0 s.room
  let after := { s with room := s.room - taken.size, arrived := s.arrived ++ taken }
  (if taken.size = bytes.size then .ok () else .error (.outputClosed s.reason), after)

/-- Write the canonical text of a comment. -/
def writeComment (s : Sink) (c : Comment) : Except Failure Unit × Sink :=
  s.write (Text.encode c.print)

end Sink

end Docblock
