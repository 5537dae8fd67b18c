import Docblock.Text.Basic

/-!
# Paths

A path is a text in which slashes divide components.  Empty components and single dots do not
count, except for a dot at the very beginning of a relative path.

Paths are never normalised: joining keeps both sides as they are written, and taking a path
relative to another keeps what is left as it is written.
-/

namespace Docblock.Path

/-- The parts of a path between its slashes, as written. -/
def split : Text → List Text
  | [] => [[]]
  | c :: rest =>
    if c = '/' then [] :: split rest
    else match split rest with
      | part :: parts => (c :: part) :: parts
      | [] => [[c]]

/-- Parts with slashes between them. -/
def unsplit (parts : List Text) : Text :=
  List.intercalate ['/'] parts

/-- Does a path begin at the root? -/
def isAbsolute (p : Text) : Bool :=
  p.head? == some '/'

/-- The path `p` taken from `base`. -/
def join (base p : Text) : Text :=
  if isAbsolute p || base.isEmpty then p
  else if base.getLast? = some '/' then base ++ p
  else base ++ '/' :: p

/-! ## Components -/

/-- Does a part of a path count for nothing? -/
def isIdle (part : Text) : Bool :=
  part.isEmpty || part = ['.']

/-- The components of a path. The root of an absolute path is the component `/`, and a relative
path that begins with a dot has that dot as a component. -/
def components (p : Text) : List Text :=
  let parts := split p
  let front := if isAbsolute p then [['/']] else if parts.head? = some ['.'] then [['.']] else []
  front ++ parts.filter (!isIdle ·)

/-- Leave out the parts at the end that count for nothing. -/
def dropIdleEnd (parts : List Text) : List Text :=
  (parts.reverse.dropWhile isIdle).reverse

/-- A path without the parts at its end that count for nothing. Its first part stays. -/
def trimEnd (p : Text) : Text :=
  match split p with
  | [] => []
  | first :: others =>
    match dropIdleEnd others with
    | [] => if isAbsolute p then ['/'] else first
    | others => unsplit (first :: others)

/-- Step over the given components at the front of the parts of a path. -/
def stripNames : List Text → List Text → Option (List Text)
  | [], parts => some parts
  | _ :: _, [] => none
  | name :: names, part :: parts =>
    if isIdle part then stripNames (name :: names) parts
    else if part = name then stripNames names parts
    else none

/-- The path `p` as seen from `base`, if it lies below it or is the same. -/
def relativeTo? (base p : Text) : Option Text := do
  let rest ← match components base, components p with
    | [], _ => return trimEnd p
    | ['/'] :: names, ['/'] :: _ => stripNames names (split p)
    | ['.'] :: names, ['.'] :: _ => stripNames names (split p)
    | ['/'] :: _, _ | ['.'] :: _, _ | _, ['/'] :: _ | _, ['.'] :: _ => none
    | names, _ => stripNames names (split p)
  return unsplit (dropIdleEnd (rest.dropWhile isIdle))

/-- The path `p` as seen from `base`, or as it is if it lies elsewhere. -/
def relativeTo (base p : Text) : Text :=
  (relativeTo? base p).getD p

/-! ## Names of files -/

/-- The name of the file at a path: its last component, unless that leads somewhere else. -/
def fileName? (p : Text) : Option Text := do
  let name ← ((split p).filter (!isIdle ·)).getLast?
  if name = "..".toList then none else some name

/-- The extension of the file at a path: what follows the last dot of its name, if something
stands before that dot. -/
def extension? (p : Text) : Option Text := do
  let name ← fileName? p
  let extension := (name.reverse.takeWhile (· != '.')).reverse
  if extension.length + 1 < name.length then some extension else none

end Docblock.Path
