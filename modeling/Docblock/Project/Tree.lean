import Docblock.Text.Basic

/-!
# File trees

A tree is a file or a directory with named entries.  `insert` keeps the entries of every directory
in the order of their names and each name at most once.
-/

namespace Docblock

/-- A file with contents of type `α`, or a directory. -/
inductive Tree (α : Type) where
  | file (content : α)
  | dir (entries : List (Text × Tree α))

namespace Tree

variable {α : Type}

/-- Is this a directory? -/
def isDir : Tree α → Bool
  | .dir _ => true
  | .file _ => false

/-- The entry with a name, if this is a directory that has one. -/
def entry? (name : Text) : Tree α → Option (Tree α)
  | .dir entries => entries.lookup name
  | .file _ => none

/-- The tree at the end of a list of names. -/
def get? : List Text → Tree α → Option (Tree α)
  | [], t => some t
  | name :: names, t => (t.entry? name).bind (get? names)

/-- Put an entry in its place among entries in order, given the one that is there so far. -/
def upsert (name : Text) (update : Option (Tree α) → Tree α) :
    List (Text × Tree α) → List (Text × Tree α)
  | [] => [(name, update none)]
  | (other, t) :: rest =>
    if name = other then (name, update (some t)) :: rest
    else if name < other then (name, update none) :: (other, t) :: rest
    else (other, t) :: upsert name update rest

/-- Put a tree at the end of a list of names. Directories on the way are made if need be. -/
def insert : Tree α → List Text → Tree α → Tree α
  | _, [], new => new
  | old, name :: names, new =>
    let entries := match old with
      | .dir entries => entries
      | .file _ => []
    .dir (upsert name (fun below => (below.getD (.dir [])).insert names new) entries)

mutual

/-- A tree without the contents of its files. -/
def shape : Tree α → Tree Unit
  | .file _ => .file ()
  | .dir entries => .dir (shapeEntries entries)

/-- Entries without the contents of their files. -/
def shapeEntries : List (Text × Tree α) → List (Text × Tree Unit)
  | [] => []
  | e :: rest => shapeEntry e :: shapeEntries rest

/-- An entry without the contents of its files. -/
def shapeEntry : Text × Tree α → Text × Tree Unit
  | (name, t) => (name, t.shape)

end

end Tree

end Docblock
