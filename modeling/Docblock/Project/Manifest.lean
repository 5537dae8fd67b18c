import Docblock.Project.Path
import Docblock.Project.Pattern
import Docblock.Project.Tree
import Docblock.Yaml.Parser

/-!
# Project manifests

A manifest says which directories hold the sources of a project, which paths to leave alone and
which file extensions count.  It is a YAML mapping with three known keys; other keys are ignored.

A scan walks through a tree, depth first and in the order of the entries.  A path that the manifest
leaves out is not listed, and neither is anything below it.  Patterns see paths as they look from
the base of the scan.
-/

namespace Docblock

/-- A project manifest. -/
structure Manifest where
  sources : List Text
  excludes : List Text
  extensions : List Text
  deriving DecidableEq, Repr

namespace Manifest

/-- The name of the file that holds the manifest of a project. -/
def fileName : Text := "phpdocfmt.yaml".toList

/-- The manifest of a project that has none. -/
def default : Manifest := ⟨[], [], ["php".toList]⟩

/-! ## Reading -/

/-- The keys that a manifest knows. -/
inductive Key where
  | sources
  | excludes
  | extensions
  deriving DecidableEq, Repr

namespace Key

/-- The word for a key. -/
def word : Key → Text
  | .sources => "sources".toList
  | .excludes => "excludes".toList
  | .extensions => "extensions".toList

/-- The key that a word stands for. -/
def ofWord? (w : Text) : Option Key :=
  [sources, excludes, extensions].find? (·.word = w)

end Key

/-- The values that a document gives to keys. -/
abbrev Fields := Key → Option (List Text)

/-- Fields of which one has got another value. -/
def Fields.set (f : Fields) (key : Key) (value : Option (List Text)) : Fields :=
  fun k => if k = key then value else f k

/-- A sequence of scalars. -/
def texts? (v : Yaml) : Option (List Text) := do
  let items ← v.items?
  items.mapM Yaml.scalar?

/-- Take one entry of the document into account. A key that has a value already is refused, and one
that is not known is passed over. -/
def Fields.add (f : Fields) (entry : Yaml × Yaml) : Option Fields := do
  match Key.ofWord? (← entry.1.scalar?) with
  | none => return f
  | some key =>
    match f key with
    | some _ => none
    | none => return f.set key (some (← texts? entry.2))

/-- The manifest that a document stands for. -/
def ofYaml? (v : Yaml) : Option Manifest := do
  let entries ← v.entries?
  let f ← entries.foldlM Fields.add fun _ => none
  return ⟨(f .sources).getD default.sources, (f .excludes).getD default.excludes,
    (f .extensions).getD default.extensions⟩

/-- The manifest in a text that `read` takes for a YAML document. A text with nothing but white space
is the default manifest. -/
def readBy (read : Yaml.Reader) (s : Text) : Option Manifest :=
  if (Text.trim s).isEmpty then some default else (read s).bind ofYaml?

/-- The manifest in a text. -/
def parse? (s : Text) : Option Manifest :=
  readBy Yaml.parse? s

/-! ## Questions -/

/-- The sources to scan: the whole project, if none are named. -/
def effectiveSources (m : Manifest) : List Text :=
  if m.sources.isEmpty then [['.']] else m.sources

/-- Is a path left out? -/
def isExcluded (m : Manifest) (path : Text) : Bool :=
  m.excludes.any fun pattern => (Pattern.ofText pattern).leavesOut path

/-- Does the file at a path have one of the extensions? The case of ASCII letters does not count. -/
def hasExtension (m : Manifest) (path : Text) : Bool :=
  (Path.extension? path).any fun extension =>
    m.extensions.any fun e => e.map Char.toLower = extension.map Char.toLower

end Manifest

/-! ## Scanning -/

namespace Project

/-- The parts of a manifest that a scan asks for: which paths to go into, and which files to
list. -/
structure Filter where
  enter : Text → Bool
  list : Text → Bool

/-- The filter of a manifest for a scan with the given base. -/
def Filter.ofManifest (m : Manifest) (base : Text) : Filter :=
  ⟨fun path => !m.isExcluded (Path.relativeTo base path), m.hasExtension⟩

mutual

/-- The files of a tree that stands at a path. -/
def walk {α : Type} (f : Filter) (path : Text) : Tree α → List Text
  | .file _ => if f.enter path && f.list path then [path] else []
  | .dir entries => if f.enter path then walkEntries f path entries else []

/-- The files among the entries of a directory. -/
def walkEntries {α : Type} (f : Filter) (path : Text) : List (Text × Tree α) → List Text
  | [] => []
  | e :: rest => walkEntry f path e ++ walkEntries f path rest

/-- The files of one entry of a directory. -/
def walkEntry {α : Type} (f : Filter) (path : Text) : Text × Tree α → List Text
  | (name, t) => walk f (Path.join path name) t

end

end Project

end Docblock
