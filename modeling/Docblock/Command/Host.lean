import Docblock.Command.Failure

/-!
# What commands ask of their surroundings

Commands are written against an interface, so that the same definition runs on a real file system
and on a `Workspace`.  `Session` is the second: everything a command reads and writes is a value,
and running a command gives the state that it leaves behind.
-/

namespace Docblock

/-- The surroundings of a command. -/
class Host (m : Type → Type) where
  /-- What stands at a path. -/
  look : Text → m (Option (Tree Unit))
  /-- The text of the file at a path. -/
  read : Text → m (Except Cause Text)
  /-- Give the file at a path a new text. -/
  write : Text → Text → m (Except Cause Unit)
  /-- All of standard input. -/
  input : m (Except Cause Text)
  /-- Write to standard output. -/
  output : Text → m Unit
  /-- Write to standard error. -/
  report : Text → m Unit
  /-- The path of the working directory. -/
  location : m Text

/-- What a command does: it may fail, and what it did before stays done. -/
abbrev Action (m : Type → Type) (α : Type) := ExceptT Failure m α

/-! ## Sessions -/

/-- A workspace with standard input, and what has been written so far. -/
structure Session where
  workspace : Workspace
  input : ByteArray
  output : Text
  report : Text

instance : Host (StateM Session) where
  look path := do
    return ((← get).workspace.look? path).map Tree.shape
  read path := do
    return (← get).workspace.read path
  write path text := do
    let s ← get
    match s.workspace.write path text with
    | .ok w =>
      set { s with workspace := w }
      return .ok ()
    | .error cause => return .error cause
  input := do
    return Cause.decode (← get).input
  output text := modify fun s => { s with output := s.output ++ text }
  report text := modify fun s => { s with report := s.report ++ text }
  location := do
    return (← get).workspace.locationPath

end Docblock
