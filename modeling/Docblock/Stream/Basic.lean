import Docblock.Fault
import Docblock.Token.Scanner

/-!
# A parser that runs along a text

A `Reader` has all lexemes of a line in front of it.  A parser that runs along the text has only
the token where it stands: it takes the tokens from a cursor as it goes, steps over blanks and notes
that it has, and can step back over a single token.  A token that it stepped back over is pending,
and comes first when the parser goes on.

## Organisation

1. `Stream`: where a parser stands, and how it steps on and back.
2. `Parse`: the steps of a parser, which may end early.  A run that ends early has been somewhere
   all the same, so it keeps its place.
-/

namespace Docblock

/-- The kinds of tokens that end a line of a comment. -/
def Kind.endsLine : Kind → Bool
  | .newline | .closeDoc | .stop => true
  | _ => false

/-! ## Section 1: The place of a parser -/

/-- A token that was read ahead and handed back, and whether blanks were stepped over in front of
it. -/
structure Pending where
  tok : Token
  spaced : Bool
  deriving DecidableEq, Repr

/-- Where a parser stands: at the token `tok`, in front of which it stepped over blanks if `spaced`
says so.  `prev` and `prevSpaced` are the same for the token before. -/
structure Stream where
  cursor : Token.Cursor
  tok : Token
  spaced : Bool
  prev : Token
  prevSpaced : Bool
  pending : Option Pending
  /-- The number of types that the parser is inside of. -/
  depth : Nat

namespace Stream

/-- At the first token of a text, even if that is a blank. -/
def start (s : Text) : Stream :=
  let (tok, cursor) := (Token.Cursor.start s).next
  ⟨cursor, tok, false, tok, false, none, 0⟩

/-- Step on to the next token, even if that is a blank. -/
def nextRaw (p : Stream) : Stream :=
  match p.pending with
  | some q =>
    { p with
      tok := q.tok, spaced := q.spaced, prev := p.tok, prevSpaced := p.spaced, pending := none }
  | none =>
    let (tok, cursor) := p.cursor.next
    { p with cursor := cursor, tok := tok, spaced := false, prev := p.tok, prevSpaced := p.spaced }

/-- Step on to the next token that is no blank. -/
def next (p : Stream) : Stream :=
  let q := p.nextRaw
  if q.tok.kind = .blank then
    -- the token before is still the one from which the step was made
    { q.nextRaw with spaced := true, prev := q.prev, prevSpaced := q.prevSpaced }
  else q

/-- Step over blanks. -/
def skipBlank (p : Stream) : Stream :=
  if p.tok.kind = .blank then { p.nextRaw with spaced := true } else p

/-- Step back to the token before. A parser that has stepped back must step on before it can do so
again. -/
def backup? (p : Stream) : Option Stream :=
  match p.pending with
  | some _ => none
  | none =>
    some { p with tok := p.prev, spaced := p.prevSpaced, pending := some ⟨p.tok, p.spaced⟩ }

/-- A number that the tokens in front of a parser do not exceed: no token is empty, and besides the
text that is left there can be the token where it stands, a pending one and the end. -/
def room (p : Stream) : Nat :=
  p.cursor.rest.length + 3

end Stream

/-! ## Section 2: Runs of a parser -/

/-- Why a run ends early. -/
inductive Stop where
  | refused (e : SyntaxError)
  /-- The parser steps back where it may not. -/
  | backedUpTwice
  deriving DecidableEq, Repr

/-- How far a run has come, and where it stood before and after each of its steps back. -/
structure Run where
  place : Stream
  backups : List (Stream × Stream)

/-- The run that has not made any step in a text. -/
def Run.start (s : Text) : Run :=
  ⟨.start s, []⟩

/-- The run inside of the given number of types. -/
def Run.atDepth (r : Run) (depth : Nat) : Run :=
  { r with place := { r.place with depth := depth } }

/-- Some steps of a parser: what comes of them, and how far the run has come with them. -/
def Parse (α : Type) :=
  Run → Except Stop α × Run

namespace Parse

instance : Monad Parse where
  pure a := fun r => (.ok a, r)
  bind x f := fun r =>
    match x r with
    | (.ok a, r) => f a r
    | (.error e, r) => (.error e, r)

/-- Something about the place of a parser. -/
def look {α : Type} (f : Stream → α) : Parse α :=
  fun r => (.ok (f r.place), r)

/-- The token where the parser stands. -/
def peek : Parse Token :=
  look (·.tok)

/-- Move the parser. -/
def move (f : Stream → Stream) : Parse Unit :=
  fun r => (.ok (), { r with place := f r.place })

/-- Step back. -/
def backup : Parse Unit :=
  fun r =>
    match r.place.backup? with
    | some p => (.ok (), ⟨p, r.backups ++ [(r.place, p)]⟩)
    | none => (.error .backedUpTwice, r)

/-- Refuse the text at the token where the parser stands. -/
def refuse {α : Type} (reason : Reason) : Parse α :=
  fun r => (.error (.refused ⟨r.place.tok.pos, reason.message r.place.tok⟩), r)

/-- Step over a token of the given kind, and tell whether there was one. -/
def got (kind : Kind) : Parse Bool := do
  let t ← peek
  if t.kind = kind then
    move Stream.next
    return true
  else return false

/-- Step over a token, which must be of the given kind. -/
def expect (kind : Kind) : Parse Token := do
  let t ← peek
  if t.kind = kind then
    move Stream.next
    return t
  else refuse (.expecting (.token kind))

/-- Steps inside a type. The parser comes out of the type again, also if it refuses the text. -/
def inside {α : Type} (x : Parse α) : Parse α := fun r =>
  let (a, r) := x (r.atDepth (r.place.depth + 1))
  (a, r.atDepth (r.place.depth - 1))

/-- Read one or more items, divided by commas and ended by `close`, which may also follow a
trailing comma. The number bounds the items that are read. -/
def items {α : Type} (item : Parse α) (close : Kind) : Nat → Parse (List α)
  | 0 => return []
  | n + 1 => do
    let first ← item
    let comma ← got .comma
    let t ← peek
    if comma && t.kind != close then
      let others ← items item close n
      return first :: others
    else
      let _ ← expect close
      return [first]

end Parse

end Docblock
