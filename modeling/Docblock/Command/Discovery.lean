import Docblock.Command.Host
import Docblock.Project.Manifest

/-!
# The files a command works on

Files come from the manifest of a project, or from paths that the user gives.  A path to a directory
stands for the files that a scan finds there; any other path stands for itself, whatever its
extension.
-/

namespace Docblock

variable {m : Type → Type} [Monad m] [Host m]

namespace Project

/-- Scan what stands at `dir`. Patterns see paths as they look from `base`. -/
def scanFrom (manifest : Manifest) (base dir : Text) : m (List Text) := do
  match ← Host.look dir with
  | none => return []
  | some tree => return walk (Filter.ofManifest manifest base) dir tree

/-- Scan a directory. -/
def scanDirectory (manifest : Manifest) (root : Text) : m (List Text) :=
  scanFrom manifest root root

/-- Scan sources, one after the other. -/
def scanSources (manifest : Manifest) (base : Text) : List Text → m (List Text)
  | [] => return []
  | source :: rest => do
    let files ← scanFrom manifest base (Path.join base source)
    let others ← scanSources manifest base rest
    return files ++ others

/-- The files that some paths stand for. -/
def expandPaths (manifest : Manifest) : List Text → m (List Text)
  | [] => return []
  | path :: rest => do
    let files ← match ← Host.look path with
      | some (.dir _) => scanDirectory manifest path
      | _ => pure [path]
    let others ← expandPaths manifest rest
    return files ++ others

end Project

namespace Manifest

variable (read : Yaml.Reader)

/-- The manifest in the file at a path, for a reader of YAML documents. -/
def loadBy (path : Text) : Action m Manifest := do
  match ← (Host.read path : m _) with
  | .error cause => throw (.file path .readManifest cause)
  | .ok text =>
    match readBy read text with
    | some manifest => return manifest
    | none => throw .badManifest

/-- The manifest of the project at `root`, if it has one, for a reader of YAML documents. -/
def findBy? (root : Text) : Action m (Option Manifest) := do
  let path := Path.join root fileName
  match ← (Host.look path : m _) with
  | none => return none
  | some _ => return some (← loadBy read path)

/-- The manifest in the file at a path. -/
def load (path : Text) : Action m Manifest :=
  loadBy Yaml.parse? path

/-- The manifest of the project at `root`, or the default one. -/
def loadOrDefault (root : Text) : Action m Manifest := do
  return (← findBy? Yaml.parse? root).getD default

end Manifest

/-- The files of a project, and whether it has a manifest. -/
structure Discovery where
  hasManifest : Bool
  files : List Text

namespace Project

/-- Find the files of the project at `root`, for a reader of YAML documents. -/
def discoverBy (read : Yaml.Reader) (root : Text) : Action m Discovery := do
  let found ← Manifest.findBy? read root
  let manifest := found.getD .default
  let files ← (scanSources manifest root manifest.effectiveSources : m _)
  return ⟨found.isSome, files⟩

/-- Find the files of the project at `root`. -/
def discover (root : Text) : Action m Discovery :=
  discoverBy Yaml.parse? root

end Project

end Docblock
