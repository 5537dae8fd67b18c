import Docblock.Yaml.Scanner

/-!
# Reading YAML documents

The part of YAML that project manifests use has scalars, sequences and mappings.  A scalar is kept as
text; whether it was written plainly decides if an empty one stands for nothing.

The marks of a text say where everything begins and ends, so a document is read from left to right
with one mark of lookahead.  Where a node is missing, nothing stands in its place.

Every reader takes a bound on how often it may still call itself; `budget` suffices.
-/

namespace Docblock

/-! ## Section 1: Values -/

/-- A YAML value. -/
inductive Yaml where
  | scalar (text : Text) (plain : Bool)
  | seq (items : List Yaml)
  | map (entries : List (Yaml × Yaml))

namespace Yaml

/-- What stands where nothing is written. -/
def nothing : Yaml := .scalar [] true

/-- The text of a scalar. -/
def scalar? : Yaml → Option Text
  | .scalar text _ => some text
  | _ => none

/-- The items of a sequence; nothing stands for an empty one. -/
def items? : Yaml → Option (List Yaml)
  | .seq items => some items
  | .scalar [] true => some []
  | _ => none

/-- The entries of a mapping; nothing stands for an empty one. -/
def entries? : Yaml → Option (List (Yaml × Yaml))
  | .map entries => some entries
  | .scalar [] true => some []
  | _ => none

/-- What reads a text as a YAML document, or refuses it. -/
abbrev Reader := Text → Option Yaml

/-! ## Section 2: Reading -/

/-- Do some marks begin with one of the given ones? -/
def startsWith (ends : List Mark) (ms : List Mark) : Bool :=
  ms.head?.any (· ∈ ends)

/-- The marks that may follow where an item of a block sequence is missing. -/
def itemEnds : List Mark := [.item, .blockEnd]

/-- The marks that may follow where a key, a value, or an item without indentation is missing. -/
def entryEnds : List Mark := [.key, .value, .blockEnd]

/-- Step over the comma before an item that is not the first. -/
def afterComma (first : Bool) (ms : List Mark) : Option (List Mark) :=
  if first then some ms
  else match ms with
    | .comma :: rest => some rest
    | _ => none

mutual

/-- A node. Block collections may begin here if `block`, and a sequence without indentation if
`bare`. -/
def node (block bare : Bool) : Nat → List Mark → Option (Yaml × List Mark)
  | 0, _ => none
  | n + 1, ms =>
    match ms with
    | .scalar text plain :: rest => some (.scalar text plain, rest)
    | .lbrack :: rest => do
      let (items, rest) ← flowItems true n rest
      return (.seq items, rest)
    | .lbrace :: rest => do
      let (entries, rest) ← flowEntries true n rest
      return (.map entries, rest)
    | .blockSeq :: rest =>
      if block then do
        let (items, rest) ← blockItems n rest
        return (.seq items, rest)
      else none
    | .blockMap :: rest =>
      if block then do
        let (entries, rest) ← blockEntries n rest
        return (.map entries, rest)
      else none
    | .item :: _ =>
      if bare then do
        let (items, rest) ← bareItems n ms
        return (.seq items, rest)
      else none
    | _ => none

/-- A node, or nothing if one of the given marks follows. -/
def optionalNode (ends : List Mark) (block bare : Bool) :
    Nat → List Mark → Option (Yaml × List Mark)
  | 0, _ => none
  | n + 1, ms => if startsWith ends ms then some (nothing, ms) else node block bare n ms

/-- The value of a key, or nothing if no colon follows. -/
def valueOf (ends : List Mark) (block : Bool) : Nat → List Mark → Option (Yaml × List Mark)
  | 0, _ => none
  | n + 1, ms =>
    match ms with
    | .value :: rest => optionalNode ends block block n rest
    | ms => some (nothing, ms)

/-- The items of a block sequence, with its end. -/
def blockItems : Nat → List Mark → Option (List Yaml × List Mark)
  | 0, _ => none
  | n + 1, ms =>
    match ms with
    | .item :: rest => do
      let (item, rest) ← optionalNode itemEnds true false n rest
      let (items, rest) ← blockItems n rest
      return (item :: items, rest)
    | .blockEnd :: rest => some ([], rest)
    | _ => none

/-- The items of a sequence whose dashes stand in the column of its key. -/
def bareItems : Nat → List Mark → Option (List Yaml × List Mark)
  | 0, _ => none
  | n + 1, ms =>
    match ms with
    | .item :: rest => do
      let (item, rest) ← optionalNode (.item :: entryEnds) true false n rest
      let (items, rest) ← bareItems n rest
      return (item :: items, rest)
    | ms => some ([], ms)

/-- The entries of a block mapping, with its end. -/
def blockEntries : Nat → List Mark → Option (List (Yaml × Yaml) × List Mark)
  | 0, _ => none
  | n + 1, ms =>
    match ms with
    | .key :: rest => do
      let (key, rest) ← optionalNode entryEnds true true n rest
      let (value, rest) ← valueOf entryEnds true n rest
      let (entries, rest) ← blockEntries n rest
      return ((key, value) :: entries, rest)
    | .blockEnd :: rest => some ([], rest)
    | _ => none

/-- The items of a flow sequence, with its bracket. A comma divides them, and may follow the last.
A key with its value is an item, and a mapping of its own. -/
def flowItems (first : Bool) : Nat → List Mark → Option (List Yaml × List Mark)
  | 0, _ => none
  | n + 1, ms =>
    match ms with
    | .rbrack :: rest => some ([], rest)
    | ms => do
      let ms ← afterComma first ms
      match ms with
      | .rbrack :: rest => return ([], rest)
      | .key :: rest =>
        let (key, rest) ← node false false n rest
        let (value, rest) ← valueOf [.comma, .rbrack] false n rest
        let (items, rest) ← flowItems false n rest
        return (.map [(key, value)] :: items, rest)
      | ms =>
        let (item, rest) ← node false false n ms
        let (items, rest) ← flowItems false n rest
        return (item :: items, rest)

/-- The entries of a flow mapping, with its bracket. A comma divides them, and may follow the last.
A node that is no key has nothing as its value. -/
def flowEntries (first : Bool) : Nat → List Mark → Option (List (Yaml × Yaml) × List Mark)
  | 0, _ => none
  | n + 1, ms =>
    match ms with
    | .rbrace :: rest => some ([], rest)
    | ms => do
      let ms ← afterComma first ms
      match ms with
      | .rbrace :: rest => return ([], rest)
      | .key :: rest =>
        let (key, rest) ← node false false n rest
        let (value, rest) ← valueOf [.comma, .rbrace] false n rest
        let (entries, rest) ← flowEntries false n rest
        return ((key, value) :: entries, rest)
      | ms =>
        let (key, rest) ← node false false n ms
        let (entries, rest) ← flowEntries false n rest
        return ((key, nothing) :: entries, rest)

end

/-- A bound that suffices to read some marks: no reader calls itself more than three times without
taking a mark. -/
def budget (ms : List Mark) : Nat :=
  4 * ms.length + 4

/-- The node of a document, and what follows it. Without its opening marker, a document has to
have a node. -/
def document : List Mark → Option (Yaml × List Mark)
  | [] => some (nothing, [])
  | .documentStart :: rest =>
    if rest.isEmpty || startsWith [.documentStart, .documentEnd] rest then some (nothing, rest)
    else node true false (budget rest) rest
  | ms => node true false (budget ms) ms

/-- A text that is one document. Markers that close it may follow. -/
def parse? (s : Text) : Option Yaml := do
  let ms ← marks? s
  let (value, rest) ← document ms
  if rest.all (· = .documentEnd) then some value else none

end Yaml

end Docblock
