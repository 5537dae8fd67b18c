import Docblock.Text.Basic

/-!
# Type expressions

The tree of a type as it is written in a comment.  Parentheses and literals are kept as written, so
that a printed type reads back as the same tree.
-/

namespace Docblock

/-- A possibly namespaced name; `absolute` if it begins with a backslash. -/
structure Name where
  parts : List Text
  absolute : Bool
  deriving DecidableEq, Repr

namespace Name

/-- A name of one part without a leading backslash. -/
def single (part : Text) : Name :=
  ⟨[part], false⟩

/-- The only part of a name that has no namespace. -/
def single? (n : Name) : Option Text :=
  match n with
  | ⟨[part], false⟩ => some part
  | _ => none

/-- The name that the reserved word `static` stands for. -/
def static : Name :=
  single "static".toList

end Name

/-- The reserved words that open a shape. -/
inductive Container where
  | array
  | object
  deriving DecidableEq, Repr

/-- One entry of a shape. The key is an identifier, an integer or a quoted string, as written. -/
structure Entry (τ : Type) where
  key : Text
  optional : Bool
  ty : τ
  deriving Repr

/-- A parameter. The name is written after a `$`; the default is kept as written. -/
structure Param (τ : Type) where
  ty : τ
  byRef : Bool
  variadic : Bool
  name : Option Text
  default : Option Text
  deriving Repr

/-- A type expression. -/
inductive TypeExpr where
  /-- `A|B` -/
  | union (members : List TypeExpr)
  /-- `A&B` -/
  | intersection (members : List TypeExpr)
  /-- `(T)` -/
  | paren (inner : TypeExpr)
  /-- `T[]` -/
  | array (element : TypeExpr)
  /-- `?T` -/
  | nullable (inner : TypeExpr)
  /-- `array` or `object`, with the entries between braces if there are any. -/
  | shape (container : Container) (entries : List (Entry TypeExpr))
  /-- `T<A, B>` -/
  | generic (base : TypeExpr) (args : List TypeExpr)
  /-- A class, an alias or a scalar type. -/
  | named (name : Name)
  /-- `T::NAME`, where the name may end in `*`. -/
  | constant (owner : TypeExpr) (name : Text)
  /-- A number or a quoted string. -/
  | literal (text : Text)
  /-- `$this` -/
  | this
  /-- `callable`, with its signature if there is one. -/
  | callable (params : List (Param TypeExpr)) (result : Option TypeExpr)
  deriving Repr

end Docblock
