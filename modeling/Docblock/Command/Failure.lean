import Docblock.Fault
import Docblock.Project.Manifest
import Docblock.Project.Workspace

/-!
# Failures of a command

A command fails for one of the causes below.  Every failure has a message and a code, and some have
advice for the user.
-/

namespace Docblock

/-- What a command was doing with a file. -/
inductive FileTask where
  | readSource
  | writeSource
  | readManifest
  | writeManifest
  deriving DecidableEq, Repr

/-- The words for a task that failed. -/
def FileTask.message : FileTask → Text
  | .readSource => "Failed to read file: ".toList
  | .writeSource => "Failed to write file: ".toList
  | .readManifest => "Failed to read manifest: ".toList
  | .writeManifest => "Failed to write manifest: ".toList

/-- Why a command failed. -/
inductive Failure where
  /-- Standard input could not be read. -/
  | input (cause : Cause)
  /-- A file could not be read or written. -/
  | file (path : Text) (task : FileTask) (cause : Cause)
  /-- The text to dump is refused. -/
  | malformed (error : SyntaxError)
  /-- The manifest is not a manifest. -/
  | badManifest
  /-- Standard input was to be formatted in place. -/
  | inputInPlace
  /-- Some comments could not be formatted. -/
  | unformattable (comments : Nat)
  /-- A check has found something. -/
  | findings (errors warnings : Nat)
  /-- There is a manifest already. -/
  | manifestExists
  /-- The output did not take everything. -/
  | outputClosed (reason : Text)
  deriving DecidableEq, Repr

namespace Failure

/-- What went wrong. -/
def message : Failure → Text
  | .input cause => "IO error: ".toList ++ cause.message
  | .file path task cause =>
    "IO error with ".toList ++ path ++ ": ".toList ++ task.message ++ cause.message
  | .malformed error => "Syntax error: ".toList ++ error.render
  | .badManifest => "Parse error: Invalid manifest".toList
  | .inputInPlace => "Format error: cannot use --write with standard input".toList
  | .unformattable n =>
    "Format error: ".toList ++ Text.plural n "doc comment".toList "doc comments".toList ++
      " could not be formatted".toList
  | .findings errors warnings =>
    "Format error: ".toList ++
      Text.plural errors "syntax error".toList "syntax errors".toList ++ ", ".toList ++
      Text.plural warnings "unformatted comment".toList "unformatted comments".toList
  | .manifestExists => "Format error: ".toList ++ Manifest.fileName ++ " already exists".toList
  | .outputClosed reason => "write failed: ".toList ++ reason

/-- The code under which a failure is reported. -/
def code : Failure → Text
  | .input _ | .file _ _ _ => "phpdoc::io".toList
  | .malformed _ => "phpdoc::syntax".toList
  | .badManifest => "phpdoc::parse".toList
  | .inputInPlace | .unformattable _ | .findings _ _ | .manifestExists => "phpdoc::format".toList
  | .outputClosed _ => "phpdoc::print".toList

/-- What to do about a failure. -/
def help? : Failure → Option Text
  | .badManifest => some "Check phpdocfmt.yaml syntax".toList
  | .inputInPlace => some "Pass the files to rewrite as arguments".toList
  | .unformattable _ => some "Comments with syntax errors are left unchanged".toList
  | .findings _ _ => some "Run `phpdocfmt fmt -w` after fixing syntax errors".toList
  | .manifestExists => some "Use --force to overwrite".toList
  | .input _ | .file _ _ _ | .malformed _ | .outputClosed _ => none

end Failure

end Docblock
