import Docblock.TypeExpr.Basic

/-!
# Printing type expressions

Every type has one printed form: no blanks around `|`, `&`, `\` and brackets, one blank after a
comma or colon, and none of the commas and parentheses that a reader can do without.
-/

namespace Docblock

namespace Name

/-- A name with its parts divided by backslashes. -/
def print (n : Name) : Text :=
  (if n.absolute then ['\\'] else []) ++ List.intercalate ['\\'] n.parts

end Name

/-- The reserved word of a shape. -/
def Container.print : Container → Text
  | .array => "array".toList
  | .object => "object".toList

namespace Param

/-- The part of a parameter after its type: the marks and the name. A parameter without a name
has none. -/
def binder {τ : Type} (p : Param τ) : Text :=
  match p.name with
  | none => []
  | some name =>
    (if p.byRef then ['&'] else []) ++ (if p.variadic then "...".toList else []) ++ '$' :: name

/-- A parameter of a signature, given its printed type. -/
def printWith {τ : Type} (ty : Text) (p : Param τ) : Text :=
  ty ++ (if p.name.isSome then ' ' :: p.binder else []) ++
    match p.default with
    | none => []
    | some value => " = ".toList ++ value

end Param

/-- An entry of a shape, given its printed type. -/
def Entry.printWith {τ : Type} (ty : Text) (e : Entry τ) : Text :=
  e.key ++ (if e.optional then ['?'] else []) ++ ": ".toList ++ ty

mutual

/-- The printed form of a type. -/
def TypeExpr.print : TypeExpr → Text
  | .union members => List.intercalate ['|'] (TypeExpr.printAll members)
  | .intersection members => List.intercalate ['&'] (TypeExpr.printAll members)
  | .paren inner => '(' :: inner.print ++ [')']
  | .array element => element.print ++ "[]".toList
  | .nullable inner => '?' :: inner.print
  | .shape container entries =>
    container.print ++
      match TypeExpr.printEntries entries with
      | [] => []
      | printed => '\x7b' :: List.intercalate ", ".toList printed ++ ['\x7d']
  | .generic base args =>
    base.print ++ '<' :: List.intercalate ", ".toList (TypeExpr.printAll args) ++ ['>']
  | .named name => name.print
  | .constant owner name => owner.print ++ "::".toList ++ name
  | .literal text => text
  | .this => "$this".toList
  | .callable params result =>
    "callable".toList ++
      match TypeExpr.printParams params, TypeExpr.printResult result with
      | [], none => []
      | printed, result =>
        '(' :: List.intercalate ", ".toList printed ++ ')' ::
          match result with
          | none => []
          | some result => ": ".toList ++ result

/-- The printed forms of a list of types. -/
def TypeExpr.printAll : List TypeExpr → List Text
  | [] => []
  | t :: rest => t.print :: TypeExpr.printAll rest

/-- The printed entries of a shape. -/
def TypeExpr.printEntries : List (Entry TypeExpr) → List Text
  | [] => []
  | e :: rest => TypeExpr.printEntry e :: TypeExpr.printEntries rest

/-- One printed entry of a shape. -/
def TypeExpr.printEntry : Entry TypeExpr → Text
  | ⟨key, optional, ty⟩ => Entry.printWith ty.print ⟨key, optional, ()⟩

/-- The printed parameters of a signature. -/
def TypeExpr.printParams : List (Param TypeExpr) → List Text
  | [] => []
  | p :: rest => TypeExpr.printParam p :: TypeExpr.printParams rest

/-- One printed parameter of a signature. -/
def TypeExpr.printParam : Param TypeExpr → Text
  | ⟨ty, byRef, variadic, name, default⟩ =>
    Param.printWith ty.print ⟨(), byRef, variadic, name, default⟩

/-- The printed result of a signature. -/
def TypeExpr.printResult : Option TypeExpr → Option Text
  | none => none
  | some ty => some ty.print

end

end Docblock
