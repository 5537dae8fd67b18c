import Docblock.Stream.Basic
import Docblock.TypeExpr.Parser

/-!
# Type expressions along a text

The grammar of `Docblock.TypeExpr.Parser`, for a parser that runs along the text.  Where a reader
takes the reader `inner` for types inside brackets, these steps take the steps `inner`; `typeTo`
ties the knot.  The nesting is counted in the place of the parser.

An intersection steps past each `&`, and back to it if no type follows.
-/

namespace Docblock.Parse

open TypeExpr (isKey isDefault maxDepth)

/-! ## Leaves -/

/-- The parts of a name after its leading backslash. -/
def nameParts : Nat → Parse (List Text)
  | 0 => return []
  | n + 1 => do
    let t ← expect .ident
    if ← got .backslash then
      let parts ← nameParts n
      return t.text :: parts
    else return [t.text]

/-- A name. -/
def name : Parse Name := do
  let absolute ← got .backslash
  let room ← look Stream.room
  let parts ← nameParts room
  return ⟨parts, absolute⟩

/-- The name of a constant. A `*` glued to it stands for any ending. -/
def constantName : Parse Text := do
  let t ← peek
  match t.kind with
  | .asterisk => do
    move Stream.next
    return ['*']
  | .ident => do
    move Stream.next
    let star ← peek
    if star.kind = .asterisk then
      let spaced ← look (·.spaced)
      move Stream.next
      if spaced then refuse (.detachedAsterisk t.text) else return t.text ++ ['*']
    else return t.text
  | _ => refuse (.expecting .constantName)

/-- The default of a parameter. -/
def defaultValue : Parse Text := do
  let t ← peek
  if isDefault t.kind then
    move Stream.next
    return t.text
  else refuse (.expecting .defaultValue)

/-! ## Shapes and callables -/

/-- One entry of a shape. -/
def entry (inner : Parse TypeExpr) : Parse (Entry TypeExpr) := do
  let t ← peek
  if isKey t.kind then
    move Stream.next
    let optional ← got .question
    let _ ← expect .colon
    let ty ← inner
    return ⟨t.text, optional, ty⟩
  else refuse (.expecting .shapeKey)

/-- The entries of a shape; without braces there are none. -/
def entries (inner : Parse TypeExpr) : Parse (List (Entry TypeExpr)) := do
  if ← got .lbrace then
    let room ← look Stream.room
    items (entry inner) .rbrace room
  else return []

/-- The marks of a parameter and its name without the `$`. The name is required after a mark, and
everywhere if `named` says so. -/
def binder (named : Bool) : Parse (Bool × Bool × Option Text) := do
  let byRef ← got .amp
  let variadic ← got .ellipsis
  let t ← peek
  if t.kind = .var then
    move Stream.next
    return (byRef, variadic, some t.text.tail)
  else if named || byRef || variadic then refuse (.expecting (.token .var))
  else return (byRef, variadic, none)

/-- The parameter of a tag: it has a name and no default. -/
def tagParam (inner : Parse TypeExpr) : Parse (Param TypeExpr) := do
  let ty ← inner
  let (byRef, variadic, name) ← binder true
  return ⟨ty, byRef, variadic, name, none⟩

/-- A parameter of a signature: the name may be missing, and a default may follow it. -/
def signatureParam (inner : Parse TypeExpr) : Parse (Param TypeExpr) := do
  let ty ← inner
  let (byRef, variadic, name) ← binder false
  let t ← peek
  if name.isSome && t.kind == .equals then
    move Stream.next
    let value ← defaultValue
    return ⟨ty, byRef, variadic, name, some value⟩
  else return ⟨ty, byRef, variadic, name, none⟩

/-- The parameters of a signature after its opening parenthesis. -/
def signature (inner : Parse TypeExpr) : Parse (List (Param TypeExpr)) := do
  let t ← peek
  if t.kind = .rparen then
    move Stream.next
    return []
  else
    let room ← look Stream.room
    items (signatureParam inner) .rparen room

/-- What follows the word `callable`. -/
def callableTail (inner : Parse TypeExpr) : Parse TypeExpr := do
  if ← got .lparen then
    let params ← signature inner
    if ← got .colon then
      let result ← inner
      return .callable params (some result)
    else return .callable params none
  else return .callable [] none

/-! ## Basic, atomic and compound types -/

/-- A basic type before its arguments, and whether it may take any. -/
def head (inner : Parse TypeExpr) : Parse (TypeExpr × Bool) := do
  let t ← peek
  match t.kind with
  | .array => do
    move Stream.next
    let es ← entries inner
    return (.shape .array es, true)
  | .object => do
    move Stream.next
    let es ← entries inner
    return (.shape .object es, true)
  | .callable => do
    move Stream.next
    let ty ← callableTail inner
    return (ty, false)
  | .static => do
    move Stream.next
    return (.named .static, true)
  | .ident | .backslash => do
    let n ← name
    return (.named n, true)
  | _ => refuse (.expecting .basicType)

/-- The arguments of a basic type, if it may have any and there are some. -/
def arguments (inner : Parse TypeExpr) (base : TypeExpr) (allowed : Bool) : Parse TypeExpr := do
  let t ← peek
  if allowed && t.kind == .lt then
    move Stream.next
    let room ← look Stream.room
    let args ← items inner .gt room
    return .generic base args
  else return base

/-- The constant taken of a basic type, if there is one. -/
def member (base : TypeExpr) (isNullable : Bool) : Parse TypeExpr := do
  if ← got .doubleColon then
    match base with
    | .named _ =>
      if isNullable then refuse .nullableConstant
      else do
        let name ← constantName
        return .constant base name
    | _ => refuse .constantOfNonName
  else return base

/-- A basic type; `isNullable` if it stands after a `?`. -/
def basic (inner : Parse TypeExpr) (isNullable : Bool) : Parse TypeExpr := do
  let (base, allowed) ← head inner
  let base ← arguments inner base allowed
  member base isNullable

/-- The pairs of brackets after a type. -/
def suffixes : Nat → TypeExpr → Parse TypeExpr
  | 0, ty => return ty
  | n + 1, ty => do
    if ← got .lbrack then
      let _ ← expect .rbrack
      suffixes n (.array ty)
    else return ty

/-- An atomic type before its brackets. -/
def primary (inner : Parse TypeExpr) : Parse TypeExpr := do
  let t ← peek
  match t.kind with
  | .lparen => do
    move Stream.next
    let ty ← inner
    let _ ← expect .rparen
    return .paren ty
  | .this => do
    move Stream.next
    return .this
  | .str | .int => do
    move Stream.next
    return .literal t.text
  | .question => do
    move Stream.next
    let ty ← basic inner true
    return .nullable ty
  | .array | .object | .callable | .static | .ident | .backslash => basic inner false
  | _ => refuse (.expecting .typeStart)

/-- An atomic type. -/
def atomic (inner : Parse TypeExpr) : Parse TypeExpr := do
  let ty ← primary inner
  let room ← look Stream.room
  suffixes room ty

/-- The further members of a union. The number bounds how many are read. -/
def unionTail (atom : Parse TypeExpr) : Nat → Parse (List TypeExpr)
  | 0 => return []
  | n + 1 => do
    if ← got .bar then
      let ty ← atom
      let others ← unionTail atom n
      return ty :: others
    else return []

/-- The further members of an intersection. The parser steps back to an `&` that no type follows,
for it may mark a parameter. The number bounds how many members are read. -/
def intersectionTail (atom : Parse TypeExpr) : Nat → Parse (List TypeExpr)
  | 0 => return []
  | n + 1 => do
    let t ← peek
    if t.kind = .amp then
      move Stream.next
      let u ← peek
      if u.kind.startsType then
        let ty ← atom
        let others ← intersectionTail atom n
        return ty :: others
      else
        backup
        return []
    else return []

/-- A type, its parts inside brackets being read by `inner`. -/
def compound (inner : Parse TypeExpr) : Parse TypeExpr := do
  let first ← atomic inner
  let t ← peek
  let room ← look Stream.room
  if t.kind = .bar then
    let others ← unionTail (atomic inner) room
    return .union (first :: others)
  else
    let others ← intersectionTail (atomic inner) room
    return if others.isEmpty then first else .intersection (first :: others)

/-! ## Nesting -/

/-- A type, unless the parser is inside of too many already. No more types than the given number
are read inside one another. -/
def typeTo : Nat → Parse TypeExpr
  | 0 => refuse .nestingTooDeep
  | n + 1 => do
    let depth ← look (·.depth)
    if maxDepth ≤ depth then refuse .nestingTooDeep
    else inside (compound (typeTo n))

/-- A type anywhere in a comment. The limit on the nesting is met before the number runs out. -/
def type : Parse TypeExpr :=
  typeTo (maxDepth + 1)

/-- Nothing but blanks and line breaks may follow. -/
def expectEnd : Nat → Parse Unit
  | 0 => return ()
  | n + 1 => do
    let t ← peek
    if t.kind = .newline ∨ t.kind = .blank then
      move Stream.nextRaw
      expectEnd n
    else if t.kind = .stop then return ()
    else refuse (.expecting (.token .stop))

/-- Read a text that is one type. -/
def wholeType : Parse TypeExpr := do
  move Stream.skipBlank
  let ty ← type
  let room ← look Stream.room
  expectEnd room
  return ty

end Docblock.Parse
