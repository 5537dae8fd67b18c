import Docblock.Command.Arguments
import Docblock.Command.Sink
import Docblock.Command.Discovery
import Docblock.Comment.Json

/-!
# Carrying out commands

Each command reads its files one after the other and stops at the first that it cannot read or
write.  Comments that are refused do not stop it: they are reported, and make the command fail when
it has come to the end.

## Organisation

1. What the commands share.
2. `format`, `check`, `dump` and `init`, each with the steps it consists of.
3. `Command.run`.
-/

namespace Docblock.Command

variable {m : Type → Type} [Monad m] [Host m]

/-! ## Section 1: Shared steps -/

/-- Tell the user something. -/
def tell (message : Text) : Action m Unit :=
  ExceptT.lift (Host.report message)

/-- Write to standard output. -/
def emit (text : Text) : Action m Unit :=
  ExceptT.lift (Host.output text)

/-- Write the file at a path. -/
def writeFile (task : FileTask) (path text : Text) : Action m Unit := do
  match ← (Host.write path text : m _) with
  | .ok () => return
  | .error cause => throw (.file path task cause)

/-- The text of a source file. -/
def readSource (path : Text) : Action m Text := do
  match ← (Host.read path : m _) with
  | .ok text => return text
  | .error cause => throw (.file path .readSource cause)

/-- All of standard input. -/
def readInput : Action m Text := do
  match ← (Host.input : m _) with
  | .ok text => return text
  | .error cause => throw (.input cause)

/-- A path as it is shown to the user. -/
def showPath (path : Text) : Action m Text := do
  return Console.showPath (← (Host.location : m Text)) path

/-- Report diagnostics in the file that is shown as `shown`. -/
def reportAll (console : Console) (shown : Text) : List Diagnostic → Action m Unit
  | [] => return
  | d :: rest => do
    tell (console.diagnostic shown d)
    reportAll console shown rest

/-- There are no files to work on. -/
def noFiles (console : Console) : Action m Unit :=
  tell (console.skipped "no PHP files found".toList)

/-! ## Section 2: The commands -/

/-- What formatting some files came to. -/
structure Tally where
  errors : Nat
  written : Nat
  deriving DecidableEq, Repr

/-- Format one file: write it back if something changed and nothing was refused, or print it. -/
def formatFile (console : Console) (inPlace : Bool) (path : Text) : Action m Tally := do
  let formatted := Source.format (← readSource path)
  let shown ← showPath path
  reportAll console shown (formatted.errors.map .ofError)
  if !inPlace then
    emit formatted.output
    return ⟨formatted.errors.length, 0⟩
  else if formatted.errors.isEmpty && formatted.changed ≠ 0 then
    writeFile .writeSource path formatted.output
    tell (console.status "Formatted" shown)
    return ⟨0, 1⟩
  else
    return ⟨formatted.errors.length, 0⟩

/-- Format files, one after the other. -/
def formatFiles (console : Console) (inPlace : Bool) : List Text → Action m Tally
  | [] => return ⟨0, 0⟩
  | path :: rest => do
    let first ← formatFile console inPlace path
    let others ← formatFiles console inPlace rest
    return ⟨first.errors + others.errors, first.written + others.written⟩

/-- Formatting fails if a comment was refused. -/
def finishFormat (errors : Nat) : Action m Unit :=
  if errors = 0 then return else throw (.unformattable errors)

/-- Format standard input. -/
def formatInput (console : Console) : Action m Unit := do
  let formatted := Source.format (← readInput)
  reportAll console "<stdin>".toList (formatted.errors.map .ofError)
  emit formatted.output
  finishFormat formatted.errors.length

/-- Format the files that some paths stand for. -/
def formatPaths (console : Console) (inPlace : Bool) (paths : List Text) : Action m Unit := do
  let manifest ← Manifest.loadOrDefault ['.']
  let files ← (Project.expandPaths manifest paths : m _)
  if files.isEmpty then noFiles console
  else
    let tally ← formatFiles console inPlace files
    if inPlace then
      tell (console.status "Finished" (Text.plural tally.written "file".toList "files".toList ++
        " rewritten, ".toList ++ Text.ofNat files.length ++ " checked".toList))
    finishFormat tally.errors

/-- The command that formats. -/
def runFormat (console : Console) (paths : List Text) (inPlace : Bool) : Action m Unit :=
  match paths with
  | [] => if inPlace then throw .inputInPlace else formatInput console
  | paths => formatPaths console inPlace paths

/-- Check files, one after the other. -/
def checkFiles (console : Console) : List Text → Action m Report
  | [] => return .empty
  | path :: rest => do
    let report := Source.check (← readSource path)
    let shown ← showPath path
    reportAll console shown report.diagnostics
    let others ← checkFiles console rest
    return report.merge others

/-- The files to check. -/
def filesToCheck (console : Console) (paths : List Text) : Action m (List Text) :=
  match paths with
  | [] => do
    let found ← Project.discover ['.']
    if found.hasManifest then
      tell (console.note "Using" Manifest.fileName)
    return found.files
  | paths => do
    let manifest ← Manifest.loadOrDefault ['.']
    ExceptT.lift (Project.expandPaths manifest paths)

/-- The command that checks. -/
def runCheck (console : Console) (paths : List Text) : Action m Unit := do
  let files ← filesToCheck console paths
  if files.isEmpty then noFiles console
  else
    let report ← checkFiles console files
    if report.isOk then
      tell (console.status "Checked" (Text.plural files.length "file".toList "files".toList))
    else throw (.findings report.errorCount report.warningCount)

/-- The tree in a text as JSON. -/
def toJson (asType : Bool) (text : Text) : Except SyntaxError Json :=
  if asType then (TypeExpr.parse text).map TypeExpr.toJson
  else (Comment.parse text).map Comment.toJson

/-- The command that shows a tree. -/
def runDump (path : Option Text) (asType : Bool) : Action m Unit := do
  let text ← match path with
    | some path => readSource path
    | none => readInput
  match toJson asType text with
  | .ok json => emit (json.pretty ++ ['\n'])
  | .error e => throw (.malformed e)

/-- Where a found file belongs, as seen from the root of the scan: the top-level directory it
stands in, or the root itself. -/
def topLevel (root file : Text) : Text :=
  match Path.components (Path.relativeTo root file) with
  | first :: _ :: _ => first ++ ['/']
  | _ => ['.']

/-- Put a text in its place among texts in order, each of which stands there once. -/
def insertSorted (s : Text) : List Text → List Text
  | [] => [s]
  | t :: rest =>
    if s = t then t :: rest else if s < t then s :: t :: rest else t :: insertSorted s rest

/-- The places of found files, in order and each of them once. -/
def sourceDirs (root : Text) (files : List Text) : List Text :=
  (files.map (topLevel root)).foldl (fun dirs dir => insertSorted dir dirs) []

/-- A quoted item of a sequence in a manifest. -/
def quotedItem (s : Text) : Text :=
  "  - \"".toList ++ s ++ "\"\n".toList

/-- The text of a new manifest. Sources are left out if a file stands in the root, so that the
whole project counts. -/
def manifestText (dirs : List Text) (manifest : Manifest) : Text :=
  (if dirs.isEmpty || dirs.contains ['.'] then [] else "sources:\n".toList ++ dirs.flatMap quotedItem) ++
  (if manifest.excludes.isEmpty then []
    else "excludes:\n".toList ++ manifest.excludes.flatMap quotedItem) ++
  "extensions:\n".toList ++
    manifest.extensions.flatMap fun e => "  - ".toList ++ e ++ ['\n']

/-- The manifest with which a project without one is scanned. -/
def initialManifest (hasVendor : Bool) : Manifest :=
  if hasVendor then { Manifest.default with excludes := ["vendor/*".toList] } else .default

/-- The command that makes a manifest. -/
def runInit (console : Console) (root : Text) (overwrite : Bool) : Action m Unit := do
  let path := Path.join root Manifest.fileName
  if (← (Host.look path : m _)).isSome && !overwrite then throw .manifestExists
  let vendor ← (Host.look (Path.join root "vendor".toList) : m _)
  let manifest := initialManifest (vendor.any Tree.isDir)
  tell (console.status "Scanning" (← showPath root))
  let files ← (Project.scanDirectory manifest root : m _)
  let dirs := sourceDirs root files
  writeFile .writeManifest path (manifestText dirs manifest)
  if !dirs.isEmpty then
    tell (console.note "Discovered" (List.intercalate ", ".toList dirs))
  tell (console.status "Created" (Manifest.fileName ++ " (".toList ++
    Text.plural files.length "PHP file".toList "PHP files".toList ++ " found)".toList))

/-! ## Section 3: Running a command -/

/-- Carry out a command. There are no completions to show for a shell. -/
def run (console : Console) : Command → Action m Unit
  | .format paths inPlace => runFormat console paths inPlace
  | .check paths => runCheck console paths
  | .dump path asType => runDump path asType
  | .init path overwrite => runInit console path overwrite
  | .completions _ => return

end Docblock.Command
