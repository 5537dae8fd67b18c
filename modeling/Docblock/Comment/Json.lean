import Docblock.Comment.Basic
import Docblock.TypeExpr.Json

/-!
# Doc comments as JSON

A line is an object with one field, `text` or `tag`; a tag is an object with one field, named for
its form.
-/

namespace Docblock

/-- The field for a tag with one type. -/
def TypedKeyword.jsonKey : TypedKeyword → String
  | .returns => "return"
  | .throws => "throws"
  | .inherits => "extends"
  | .implements => "implements"
  | .uses => "uses"

/-- The fields of a method, before its description. -/
def Method.jsonFields (m : Method) : List (String × Json) :=
  [("is_static", .bool m.isStatic), ("result", TypeExpr.toJsonOpt m.result),
    ("name", .str m.name), ("params", .arr (TypeExpr.toJsonParams m.params))]

/-- The form of a tag and its fields, before the description. -/
def Tag.jsonForm : Tag → String × List (String × Json)
  | .param p _ => ("param", [("param", TypeExpr.toJsonParam p)])
  | .typed keyword ty _ => (keyword.jsonKey, [("ty", ty.toJson)])
  | .property access ty v _ =>
    ("property", [("read_only", .bool (access == .readOnly)),
      ("write_only", .bool (access == .writeOnly)), ("ty", ty.toJson), ("var", .str v)])
  | .method m _ => ("method", m.jsonFields)
  | .var ty v _ => ("var", [("ty", ty.toJson), ("var", .optStr v)])
  | .template name bound _ =>
    ("template", [("param", .str name), ("bound", TypeExpr.toJsonOpt bound)])
  | .alias name ty _ => ("type_def", [("name", .str name), ("ty", ty.toJson)])
  | .other name _ => ("other", [("name", .str name)])

/-- A tag as JSON. -/
def Tag.toJson (t : Tag) : Json :=
  let (form, fields) := t.jsonForm
  .only form (.record (fields ++ [("desc", .str t.desc)]))

/-- A line as JSON. -/
def Line.toJson : Line → Json
  | .text value => .only "text" (.only "value" (.str value))
  | .tag t => .only "tag" t.toJson

/-- A comment as JSON. -/
def Comment.toJson (c : Comment) : Json :=
  .record [("lines", .arr (c.lines.map Line.toJson)), ("indent", .str c.indent),
    ("prefer_oneline", .bool c.oneLine)]

end Docblock
