import Docblock.Command.Run

/-!
# The program

The command line on a real file system.  Everything is decided by `Arguments.parse` and
`Command.run`; here they meet the files, the streams and the exit code of a process.
-/

namespace Docblock

/-! ## Files and streams -/

/-- The number and the words with which the system reports an error. -/
def systemError? : IO.Error → Option (UInt32 × String)
  | .alreadyExists _ code words | .interrupted _ code words | .noFileOrDirectory _ code words
  | .invalidArgument _ code words | .permissionDenied _ code words
  | .resourceExhausted _ code words | .inappropriateType _ code words
  | .noSuchThing _ code words | .otherError code words | .resourceBusy code words
  | .resourceVanished code words | .unsupportedOperation code words | .hardwareFault code words
  | .unsatisfiedConstraints code words | .illegalOperation code words
  | .protocolError code words | .timeExpired code words =>
    -- some layers of the system count their errors downwards from zero
    some (if code < 0x80000000 then code else 0 - code, words)
  | .unexpectedEof | .userError _ => none

/-- The cause that an error of the system stands for. -/
def Cause.ofError (e : IO.Error) : Cause :=
  match systemError? e with
  | some (2, _) => .notFound
  | some (20, _) => .notADirectory
  | some (21, _) => .isADirectory
  | some (code, words) => .other (s!"{words} (os error {code})").toList
  | none => .other (toString e).toList

/-- What an operation gives, or why it fails. -/
def attempt {α : Type} (act : IO α) : IO (Except Cause α) := do
  try
    return .ok (← act)
  catch e =>
    return .error (.ofError e)

mutual

/-- What stands at a path, if something does. `above` has the real paths of the directories around
it; a link to one of them counts for nothing. -/
partial def readTree (above : List String) (path : String) : IO (Option (Tree Unit)) := do
  let place := (← IO.currentDir) / path
  match ← attempt place.metadata with
  | .error _ => return none
  | .ok found =>
    if found.type != .dir then
      return some (.file ())
    let real := (← IO.FS.realPath place).toString
    if real ∈ above then
      return none
    return some (.dir (← readDirectory (real :: above) path))

/-- The entries of a directory. A directory that cannot be read has none. -/
partial def readDirectory (above : List String) (path : String) : IO (List (Text × Tree Unit)) := do
  let mut entries : List (Text × Tree Unit) := []
  match ← attempt ((← IO.currentDir) / path).readDir with
  | .error _ => pure ()
  | .ok found =>
    for e in found do
      if let some tree ← readTree above (path ++ "/" ++ e.fileName) then
        entries := Tree.upsert e.fileName.toList (fun _ => tree) entries
  return entries

end

/-- All bytes of a stream. -/
partial def readAll (stream : IO.FS.Stream) (read : ByteArray) : IO ByteArray := do
  let more ← stream.read 65536
  if more.isEmpty then return read else readAll stream (read ++ more)

instance : Host IO where
  look path := if path.isEmpty then return none else readTree [] (String.ofList path)
  read path := do
    match ← attempt (IO.FS.readBinFile (String.ofList path)) with
    | .ok bytes => return Cause.decode bytes
    | .error cause => return .error cause
  write path text := attempt (IO.FS.writeFile (String.ofList path) (String.ofList text))
  input := do
    match ← attempt (do readAll (← IO.getStdin) ByteArray.empty) with
    | .ok bytes => return Cause.decode bytes
    | .error cause => return .error cause
  output text := do (← IO.getStdout).putStr (String.ofList text)
  report text := do (← IO.getStderr).putStr (String.ofList text)
  location := do return (← IO.currentDir).toString.toList

/-! ## The command line -/

/-- How the program is called. -/
def usage : String :=
  "Usage: phpdocfmt <command>\n\n" ++
  "Commands:\n" ++
  "  fmt [-w|--write] [PATHS]     Format doc comments in PHP files\n" ++
  "  check [PATHS]                Report doc comments that do not parse or are not formatted\n" ++
  "  dump [--type] [PATH]         Print the syntax tree of one doc comment as JSON\n" ++
  "  init [--force] [PATH]        Generate phpdocfmt.yaml\n" ++
  "  help                         Print this message\n"

/-- Answer a command line that is not carried out. -/
def answerUsage : UsageError → IO UInt32
  | .helpWanted => do
    (← IO.getStdout).putStr usage
    return 0
  | .versionWanted => do
    (← IO.getStdout).putStr "phpdocfmt 0.4.0\n"
    return 0
  | _ => do
    (← IO.getStderr).putStr usage
    return 2

/-- Show why a command failed. -/
def showFailure (f : Failure) : IO Unit := do
  Host.report (f.code ++ "\n  ".toList ++ f.message ++ ['\n'])
  if let some help := f.help? then
    Host.report ("  help: ".toList ++ help ++ ['\n'])

end Docblock

/-- Run the program. -/
def main (args : List String) : IO UInt32 := do
  match Docblock.Arguments.parse (args.map String.toList) with
  | .error e => Docblock.answerUsage e
  | .ok command =>
    let console : Docblock.Console := ⟨← (← IO.getStderr).isTty⟩
    match ← (command.run console : Docblock.Action IO Unit).run with
    | .ok () => return 0
    | .error f => do
      Docblock.showFailure f
      return 1
