import Docblock.Source.Format

/-!
# Diagnostics

Checking a file finds two kinds of problem: a comment that is refused, which is an error, and a
comment that formatting would change, which is a warning.  A `Report` collects the diagnostics of
one or more files.
-/

namespace Docblock

/-- How serious a diagnostic is. -/
inductive Severity where
  | warning
  | error
  deriving DecidableEq, Repr

/-- The word for a severity. -/
def Severity.render : Severity → Text
  | .warning => "warning".toList
  | .error => "error".toList

/-- What is wrong with a comment. -/
inductive Problem where
  /-- It is refused, for the reason given. -/
  | malformed (message : Text)
  /-- Formatting would change it. -/
  | unformatted
  deriving DecidableEq, Repr

/-- A problem and where it stands. -/
structure Diagnostic where
  pos : Position
  problem : Problem
  deriving DecidableEq, Repr

namespace Diagnostic

/-- A refused comment is an error, an unformatted one a warning. -/
def severity (d : Diagnostic) : Severity :=
  match d.problem with
  | .malformed _ => .error
  | .unformatted => .warning

/-- The code under which a problem is reported. -/
def code (d : Diagnostic) : Text :=
  match d.problem with
  | .malformed _ => "phpdoc::check::syntax".toList
  | .unformatted => "phpdoc::check::unformatted".toList

/-- What is wrong. -/
def message (d : Diagnostic) : Text :=
  match d.problem with
  | .malformed message => message
  | .unformatted => "doc comment is not formatted".toList

/-- What to do about it. -/
def help? (d : Diagnostic) : Option Text :=
  match d.problem with
  | .malformed _ => none
  | .unformatted => some "Run `phpdocfmt fmt -w` to rewrite it".toList

/-- A diagnostic for an error in a file. -/
def ofError (e : SyntaxError) : Diagnostic :=
  ⟨e.pos, .malformed e.message⟩

/-- The order of diagnostics: by line, then by column, and errors before warnings. -/
def le (a b : Diagnostic) : Bool :=
  if a.pos.line ≠ b.pos.line then a.pos.line < b.pos.line
  else if a.pos.column ≠ b.pos.column then a.pos.column < b.pos.column
  else a.severity = .error || b.severity = .warning

end Diagnostic

/-- The diagnostics of one or more files. -/
structure Report where
  diagnostics : List Diagnostic
  deriving DecidableEq, Repr

namespace Report

/-- A report without diagnostics. -/
def empty : Report := ⟨[]⟩

/-- A report with one more diagnostic. -/
def push (r : Report) (d : Diagnostic) : Report :=
  ⟨r.diagnostics ++ [d]⟩

/-- Two reports, one after the other. -/
def merge (r s : Report) : Report :=
  ⟨r.diagnostics ++ s.diagnostics⟩

/-- A report in order. Diagnostics that the order does not tell apart stay as they are. -/
def sort (r : Report) : Report :=
  ⟨r.diagnostics.mergeSort Diagnostic.le⟩

/-- The number of diagnostics of a severity. -/
def count (severity : Severity) (r : Report) : Nat :=
  r.diagnostics.countP (·.severity = severity)

/-- The number of errors. -/
def errorCount (r : Report) : Nat := r.count .error

/-- The number of warnings. -/
def warningCount (r : Report) : Nat := r.count .warning

/-- Is there nothing to report? -/
def isOk (r : Report) : Bool := r.diagnostics.isEmpty

end Report

namespace Source

/-- The errors of a list of comments. -/
def checkWellFormed (comments : List DocComment) : Report :=
  ⟨comments.filterMap fun c =>
    match Comment.parse c.text with
    | .ok _ => none
    | .error e => some (.ofError ⟨c.start.within e.pos, e.message⟩)⟩

/-- The comments of a list that formatting would change. Those that are refused are passed over. -/
def checkFormatted (comments : List DocComment) : Report :=
  ⟨comments.filterMap fun c =>
    match formatComment c.indent c.text with
    | .ok printed => if printed = c.text then none else some ⟨c.start, .unformatted⟩
    | .error _ => none⟩

/-- Check a file whose comments are found by `find`: first whether they are well formed, then whether
they are formatted. The diagnostics come in the order of the file. -/
def Locator.check (find : Locator) (s : Text) : Report :=
  let comments := find.docComments s
  ((checkWellFormed comments).merge (checkFormatted comments)).sort

/-- Check a file. -/
def check (s : Text) : Report :=
  Locator.check segments s

end Source

end Docblock
