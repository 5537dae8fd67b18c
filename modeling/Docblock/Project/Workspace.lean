import Docblock.Project.Path
import Docblock.Project.Tree
import Docblock.Text.Basic

/-!
# A file tree with a working directory

Paths lead from the root or from the working directory to a place in the tree.  Every step of a
path starts from a directory, a double dot goes back one step, and a path that names a file ends
there.  Reading and writing fail for the causes that a file system has.
-/

namespace Docblock

/-- Why a file cannot be read or written. -/
inductive Cause where
  | notFound
  | notADirectory
  | isADirectory
  | notText
  | other (message : Text)
  deriving DecidableEq, Repr

/-- The text of a cause. -/
def Cause.message : Cause → Text
  | .notFound => "No such file or directory (os error 2)".toList
  | .notADirectory => "Not a directory (os error 20)".toList
  | .isADirectory => "Is a directory (os error 21)".toList
  | .notText => "stream did not contain valid UTF-8".toList
  | .other message => message

/-- The text that some bytes hold. -/
def Cause.decode (bytes : ByteArray) : Except Cause Text :=
  match Text.decode? bytes with
  | some text => .ok text
  | none => .error .notText

/-- A file tree, and the names that lead from its root to the working directory. -/
structure Workspace where
  tree : Tree ByteArray
  location : List Text

namespace Workspace

/-- The path of the working directory. -/
def locationPath (w : Workspace) : Text :=
  '/' :: Path.unsplit w.location

/-- Follow the parts of a path from the place that `names` lead to. -/
def follow (tree : Tree ByteArray) (names : List Text) : List Text → Except Cause (List Text)
  | [] => .ok names
  | part :: parts =>
    match tree.get? names with
    | none => .error .notFound
    | some (.file _) => .error .notADirectory
    | some (.dir _) =>
      if Path.isIdle part then follow tree names parts
      else if part = "..".toList then follow tree names.dropLast parts
      else follow tree (names ++ [part]) parts

/-- The names that lead to the place of a path. Nothing stands at the empty path. -/
def resolve (w : Workspace) (path : Text) : Except Cause (List Text) :=
  if path.isEmpty then .error .notFound
  else follow w.tree (if Path.isAbsolute path then [] else w.location) (Path.split path)

/-- What stands at a path. -/
def look? (w : Workspace) (path : Text) : Option (Tree ByteArray) :=
  match w.resolve path with
  | .ok names => w.tree.get? names
  | .error _ => none

/-- The bytes of the file at a path. -/
def readBytes (w : Workspace) (path : Text) : Except Cause ByteArray := do
  let names ← w.resolve path
  match w.tree.get? names with
  | none => .error .notFound
  | some (.dir _) => .error .isADirectory
  | some (.file bytes) => .ok bytes

/-- The text of the file at a path. -/
def read (w : Workspace) (path : Text) : Except Cause Text := do
  let bytes ← w.readBytes path
  Cause.decode bytes

/-- The workspace with a new content for the file at a path. The directory of the file has to be
there; the file itself need not. -/
def write (w : Workspace) (path text : Text) : Except Cause Workspace := do
  let names ← w.resolve path
  match w.tree.get? names with
  | some (.dir _) => .error .isADirectory
  | some (.file _) => .ok { w with tree := w.tree.insert names (.file text.encode) }
  | none =>
    match w.tree.get? names.dropLast with
    | some (.dir _) => .ok { w with tree := w.tree.insert names (.file text.encode) }
    | some (.file _) => .error .notADirectory
    | none => .error .notFound

end Workspace

end Docblock
