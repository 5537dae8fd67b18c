import Docblock.Fault
import Docblock.TypeExpr.Basic

/-!
# Reading type expressions

```text
Type     = Atomic { "|" Atomic } | Atomic { "&" Atomic }
Atomic   = ( "(" Type ")" | "$this" | Literal | ["?"] Basic ) { "[" "]" }
Basic    = ( Shape | "static" | Name ) ["<" Types ">"] | Callable | ( "static" | Name ) "::" Const
Shape    = ( "array" | "object" ) ["{" Key ["?"] ":" Type { "," … } [","] "}"]
Callable = "callable" ["(" Params ")" [":" Type]]
Name     = ["\"] Ident { "\" Ident }
Const    = Ident ["*"] | "*"
```

## Organisation

The readers below are not recursive: each takes the reader `inner` for the types that stand inside
brackets, and `TypeExpr.reader` ties the knot.  Its argument is how deep types may still nest, so
the nesting limit is also what the recursion runs on.

An `&` after a type may also mark a by-reference parameter.  An intersection therefore looks past
each `&`: if no type follows, the `&` is handed back, with what follows moved up to it.
-/

namespace Docblock.TypeExpr

open Reader

/-! ## Leaves -/

/-- The parts of a name after its leading backslash. -/
def nameParts : Reader (List Text)
  | t :: rest =>
    if t.kind = .ident then
      match rest with
      | u :: rest' =>
        if u.kind = .backslash then do
          let (parts, rest) ← nameParts rest'
          return (t.text :: parts, rest)
        else .ok ([t.text], rest)
      | [] => .ok ([t.text], rest)
    else Fault.expecting (.token .ident) (t :: rest)
  | [] => Fault.expecting (.token .ident) []

/-- A name. Blanks around its backslashes do not count. -/
def nameReader : Reader Name := fun ts => do
  let (absolute, rest) := skip .backslash ts
  let (parts, rest) ← nameParts rest
  return (⟨parts, absolute⟩, rest)

/-- The name of a constant. A `*` glued to it stands for any ending. -/
def constantName : Reader Text := fun ts =>
  match ts with
  | t :: rest =>
    if t.kind = .asterisk then .ok (['*'], rest)
    else if t.kind = .ident then
      match rest with
      | u :: rest' =>
        if u.kind = .asterisk then
          if u.isGlued then .ok (t.text ++ ['*'], rest')
          else .error ⟨.detachedAsterisk t.text, rest'.head?⟩
        else .ok (t.text, rest)
      | [] => .ok (t.text, rest)
    else Fault.expecting .constantName ts
  | [] => Fault.expecting .constantName ts

/-- Does a lexeme of this kind serve as the key of a shape? -/
def isKey : Kind → Bool
  | .ident | .int | .str | .array | .object | .callable | .static => true
  | _ => false

/-- Does a lexeme of this kind serve as the default of a parameter? -/
def isDefault : Kind → Bool
  | .str | .int | .ident => true
  | _ => false

/-- The default of a parameter. -/
def defaultValue : Reader Text := fun ts =>
  match ts with
  | t :: rest => if isDefault t.kind then .ok (t.text, rest) else Fault.expecting .defaultValue ts
  | [] => Fault.expecting .defaultValue ts

/-! ## Shapes and callables -/

/-- One entry of a shape. -/
def entry (inner : Reader TypeExpr) : Reader (Entry TypeExpr) := fun ts =>
  match ts with
  | t :: rest =>
    if isKey t.kind then do
      let (optional, rest) := skip .question rest
      let (_, rest) ← expect .colon rest
      let (ty, rest) ← inner rest
      return (⟨t.text, optional, ty⟩, rest)
    else Fault.expecting .shapeKey ts
  | [] => Fault.expecting .shapeKey ts

/-- The entries of a shape; without braces there are none. -/
def entries (inner : Reader TypeExpr) : Reader (List (Entry TypeExpr)) := fun ts =>
  match skip .lbrace ts with
  | (true, rest) => list (entry inner) .rbrace rest
  | (false, rest) => .ok ([], rest)

/-- The marks of a parameter and its name without the `$`. The name is required after a mark, and
everywhere if `named` says so. -/
def binder (named : Bool) : Reader (Bool × Bool × Option Text) := fun ts =>
  let (byRef, rest) := skip .amp ts
  let (variadic, rest) := skip .ellipsis rest
  match rest with
  | t :: rest' =>
    if t.kind = .var then .ok ((byRef, variadic, some t.text.tail), rest')
    else if named || byRef || variadic then Fault.expecting (.token .var) rest
    else .ok ((byRef, variadic, none), rest)
  | [] =>
    if named || byRef || variadic then Fault.expecting (.token .var) rest
    else .ok ((byRef, variadic, none), rest)

/-- The parameter of a tag: it has a name and no default. -/
def tagParam (inner : Reader TypeExpr) : Reader (Param TypeExpr) := fun ts => do
  let (ty, rest) ← inner ts
  let ((byRef, variadic, name), rest) ← binder true rest
  return (⟨ty, byRef, variadic, name, none⟩, rest)

/-- A parameter of a signature: the name may be missing, and a default may follow it. -/
def signatureParam (inner : Reader TypeExpr) : Reader (Param TypeExpr) := fun ts => do
  let (ty, rest) ← inner ts
  let ((byRef, variadic, name), rest) ← binder false rest
  if name.isSome && at? .equals rest then
    let (value, rest) ← defaultValue rest.tail
    return (⟨ty, byRef, variadic, name, some value⟩, rest)
  else
    return (⟨ty, byRef, variadic, name, none⟩, rest)

/-- The parameters of a signature after its opening parenthesis. -/
def signature (inner : Reader TypeExpr) : Reader (List (Param TypeExpr)) := fun ts =>
  if at? .rparen ts then .ok ([], ts.tail) else list (signatureParam inner) .rparen ts

/-- What follows the word `callable`. -/
def callableTail (inner : Reader TypeExpr) : Reader TypeExpr := fun ts =>
  match skip .lparen ts with
  | (true, rest) => do
    let (params, rest) ← signature inner rest
    match skip .colon rest with
    | (true, rest) =>
      let (result, rest) ← inner rest
      return (.callable params (some result), rest)
    | (false, rest) => return (.callable params none, rest)
  | (false, rest) => .ok (.callable [] none, rest)

/-! ## Basic, atomic and compound types -/

/-- A basic type before its arguments, and whether it may take any. -/
def head (inner : Reader TypeExpr) : Reader (TypeExpr × Bool) := fun ts =>
  match ts with
  | [] => Fault.expecting .basicType ts
  | t :: rest =>
    match t.kind with
    | .array => do
      let (es, rest) ← entries inner rest
      return ((.shape .array es, true), rest)
    | .object => do
      let (es, rest) ← entries inner rest
      return ((.shape .object es, true), rest)
    | .callable => do
      let (ty, rest) ← callableTail inner rest
      return ((ty, false), rest)
    | .static => .ok ((.named .static, true), rest)
    | .ident | .backslash => do
      let (name, rest) ← nameReader ts
      return ((.named name, true), rest)
    | _ => Fault.expecting .basicType ts

/-- The arguments of a basic type, if it may have any and there are some. -/
def arguments (inner : Reader TypeExpr) (base : TypeExpr) (allowed : Bool) : Reader TypeExpr :=
  fun ts =>
    if allowed && at? .lt ts then do
      let (args, rest) ← list inner .gt ts.tail
      return (.generic base args, rest)
    else .ok (base, ts)

/-- The constant taken of a basic type, if there is one. -/
def member (base : TypeExpr) (isNullable : Bool) : Reader TypeExpr := fun ts =>
  match skip .doubleColon ts with
  | (false, rest) => .ok (base, rest)
  | (true, rest) =>
    match base with
    | .named _ =>
      if isNullable then .error ⟨.nullableConstant, rest.head?⟩
      else do
        let (name, rest) ← constantName rest
        return (.constant base name, rest)
    | _ => .error ⟨.constantOfNonName, rest.head?⟩

/-- A basic type; `isNullable` if it stands after a `?`. -/
def basic (inner : Reader TypeExpr) (isNullable : Bool) : Reader TypeExpr := fun ts => do
  let ((base, allowed), rest) ← head inner ts
  let (base, rest) ← arguments inner base allowed rest
  member base isNullable rest

/-- The pairs of brackets after a type. -/
def suffixes (ty : TypeExpr) : Reader TypeExpr
  | t :: rest =>
    if t.kind = .lbrack then
      match rest with
      | u :: rest' =>
        if u.kind = .rbrack then suffixes (.array ty) rest'
        else Fault.expecting (.token .rbrack) rest
      | [] => Fault.expecting (.token .rbrack) rest
    else .ok (ty, t :: rest)
  | [] => .ok (ty, [])

/-- An atomic type before its brackets. -/
def primary (inner : Reader TypeExpr) : Reader TypeExpr := fun ts =>
  match ts with
  | [] => Fault.expecting .typeStart ts
  | t :: rest =>
    match t.kind with
    | .lparen => do
      let (ty, rest) ← inner rest
      let (_, rest) ← expect .rparen rest
      return (.paren ty, rest)
    | .this => .ok (.this, rest)
    | .str | .int => .ok (.literal t.text, rest)
    | .question => do
      let (ty, rest) ← basic inner true rest
      return (.nullable ty, rest)
    | .array | .object | .callable | .static | .ident | .backslash => basic inner false ts
    | _ => Fault.expecting .typeStart ts

/-- An atomic type. -/
def atomic (inner : Reader TypeExpr) : Reader TypeExpr := fun ts => do
  let (ty, rest) ← primary inner ts
  suffixes ty rest

/-- The further members of a union. The number bounds how many are read. -/
def unionTail (atom : Reader TypeExpr) : Nat → Reader (List TypeExpr)
  | 0, ts => .ok ([], ts)
  | n + 1, ts =>
    match skip .bar ts with
    | (true, rest) => do
      let (ty, rest) ← atom rest
      let (others, rest) ← unionTail atom n rest
      return (ty :: others, rest)
    | (false, rest) => .ok ([], rest)

/-- The further members of an intersection. An `&` that no type follows is handed back, and the
blanks after it are gone. The number bounds how many members are read. -/
def intersectionTail (atom : Reader TypeExpr) : Nat → Reader (List TypeExpr)
  | 0, ts => .ok ([], ts)
  | n + 1, ts =>
    match ts with
    | t :: u :: rest =>
      if t.kind = .amp then
        if u.kind.startsType then do
          let (ty, rest) ← atom (u :: rest)
          let (others, rest) ← intersectionTail atom n rest
          return (ty :: others, rest)
        else .ok ([], t :: u.closeUp :: rest)
      else .ok ([], ts)
    | _ => .ok ([], ts)

/-- A type, its parts inside brackets being read by `inner`. -/
def compound (inner : Reader TypeExpr) : Reader TypeExpr := fun ts => do
  let (first, rest) ← atomic inner ts
  if at? .bar rest then
    let (others, rest) ← unionTail (atomic inner) rest.length rest
    return (.union (first :: others), rest)
  else
    let (others, rest) ← intersectionTail (atomic inner) rest.length rest
    return (if others.isEmpty then first else .intersection (first :: others), rest)

/-! ## Nesting -/

/-- A type within which types may nest to the given depth. -/
def readerTo : Nat → Reader TypeExpr
  | 0, ts => .error ⟨.nestingTooDeep, ts.head?⟩
  | depth + 1, ts => compound (readerTo depth) ts

/-- How deep types may stand inside parentheses, arguments, shapes and callables. -/
def maxDepth : Nat := 128

/-- A type anywhere in a comment. -/
def reader : Reader TypeExpr :=
  readerTo maxDepth

/-- Read a text that is one type. Line breaks may follow it. -/
def parse (s : Text) : Except SyntaxError TypeExpr :=
  let stop := Token.stopOf s
  match reader (Lexeme.ofText s) with
  | .error fault => .error (fault.toError stop)
  | .ok (ty, rest) =>
    match rest.dropWhile (·.kind = .newline) with
    | [] => .ok ty
    | t :: _ => .error (Fault.toError stop ⟨.expecting (.token .stop), some t⟩)

end Docblock.TypeExpr
