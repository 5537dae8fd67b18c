import Docblock.Json
import Docblock.TypeExpr.Basic

/-!
# Type expressions as JSON

A type is an object with one field, named for its form; `$this`, which has no parts, is a string.
-/

namespace Docblock

/-- A name as JSON. -/
def Name.toJson (n : Name) : Json :=
  .record [("parts", .arr (n.parts.map .str)), ("fully_qualified", .bool n.absolute)]

/-- The field for the shapes of a container. -/
def Container.jsonKey : Container → String
  | .array => "array_shape"
  | .object => "object_shape"

/-- An entry of a shape, given its type. -/
def Entry.toJsonWith {τ : Type} (ty : Json) (e : Entry τ) : Json :=
  .record [("key", .str e.key), ("optional", .bool e.optional), ("ty", ty)]

/-- A parameter, given its type. -/
def Param.toJsonWith {τ : Type} (ty : Json) (p : Param τ) : Json :=
  .record [("ty", ty), ("by_ref", .bool p.byRef), ("variadic", .bool p.variadic),
    ("name", .optStr p.name), ("default", .optStr p.default)]

mutual

/-- A type as JSON. -/
def TypeExpr.toJson : TypeExpr → Json
  | .union members => .only "union" (.arr (TypeExpr.toJsonAll members))
  | .intersection members => .only "intersect" (.arr (TypeExpr.toJsonAll members))
  | .paren inner => .only "paren" inner.toJson
  | .array element => .only "array" element.toJson
  | .nullable inner => .only "nullable" inner.toJson
  | .shape container entries =>
    .only container.jsonKey (.arr (TypeExpr.toJsonEntries entries))
  | .generic base args =>
    .only "generic" (.record [("base", base.toJson), ("params", .arr (TypeExpr.toJsonAll args))])
  | .named name => .only "named" name.toJson
  | .constant owner name =>
    .only "const_fetch" (.record [("class", owner.toJson), ("name", .str name)])
  | .literal text => .only "literal" (.str text)
  | .this => .str "this".toList
  | .callable params result =>
    .only "callable" (.record [("params", .arr (TypeExpr.toJsonParams params)),
      ("result", TypeExpr.toJsonOpt result)])

/-- The types of a list as JSON. -/
def TypeExpr.toJsonAll : List TypeExpr → List Json
  | [] => []
  | t :: rest => t.toJson :: TypeExpr.toJsonAll rest

/-- The entries of a shape as JSON. -/
def TypeExpr.toJsonEntries : List (Entry TypeExpr) → List Json
  | [] => []
  | e :: rest => TypeExpr.toJsonEntry e :: TypeExpr.toJsonEntries rest

/-- An entry of a shape as JSON. -/
def TypeExpr.toJsonEntry : Entry TypeExpr → Json
  | ⟨key, optional, ty⟩ => Entry.toJsonWith ty.toJson ⟨key, optional, ()⟩

/-- The parameters of a signature as JSON. -/
def TypeExpr.toJsonParams : List (Param TypeExpr) → List Json
  | [] => []
  | p :: rest => TypeExpr.toJsonParam p :: TypeExpr.toJsonParams rest

/-- A parameter as JSON. -/
def TypeExpr.toJsonParam : Param TypeExpr → Json
  | ⟨ty, byRef, variadic, name, default⟩ =>
    Param.toJsonWith ty.toJson ⟨(), byRef, variadic, name, default⟩

/-- A type that may be missing, as JSON. -/
def TypeExpr.toJsonOpt : Option TypeExpr → Json
  | none => .null
  | some ty => ty.toJson

end

end Docblock
