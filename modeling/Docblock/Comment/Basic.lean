import Docblock.TypeExpr.Basic

/-!
# Doc comments

The tree of a doc comment: a list of lines, each free text or a tag.  Thirteen tag keywords have a
structure of their own; a tag with any other keyword keeps what follows it as free text.
-/

namespace Docblock

/-! ## Keywords -/

/-- Tags that take one type and a description. -/
inductive TypedKeyword where
  | returns
  | throws
  | inherits
  | implements
  | uses
  deriving DecidableEq, Repr

/-- How a property may be used. -/
inductive Access where
  | readWrite
  | readOnly
  | writeOnly
  deriving DecidableEq, Repr

/-- The keywords whose tags have a structure. -/
inductive Keyword where
  | param
  | typed (keyword : TypedKeyword)
  | property (access : Access)
  | method
  | var
  | template
  | alias
  deriving DecidableEq, Repr

namespace Keyword

/-- The spelling of a keyword, without the `@`. -/
def text : Keyword → Text
  | .param => "param".toList
  | .typed .returns => "return".toList
  | .typed .throws => "throws".toList
  | .typed .inherits => "extends".toList
  | .typed .implements => "implements".toList
  | .typed .uses => "uses".toList
  | .property .readWrite => "property".toList
  | .property .readOnly => "property-read".toList
  | .property .writeOnly => "property-write".toList
  | .method => "method".toList
  | .var => "var".toList
  | .template => "template".toList
  | .alias => "phpstan-type".toList

/-- All keywords. -/
def all : List Keyword :=
  [.param, .typed .returns, .typed .throws, .typed .inherits, .typed .implements, .typed .uses,
   .property .readWrite, .property .readOnly, .property .writeOnly, .method, .var, .template,
   .alias]

/-- The keyword with the given spelling. -/
def ofText? (s : Text) : Option Keyword :=
  all.find? (·.text = s)

end Keyword

/-! ## Tags and lines -/

/-- The signature of a method. -/
structure Method where
  isStatic : Bool
  result : Option TypeExpr
  name : Text
  params : List (Param TypeExpr)
  deriving Repr

/-- A tag; every tag ends in a description, which may be empty. -/
inductive Tag where
  | param (param : Param TypeExpr) (desc : Text)
  | typed (keyword : TypedKeyword) (ty : TypeExpr) (desc : Text)
  | property (access : Access) (ty : TypeExpr) (var : Text) (desc : Text)
  | method (method : Method) (desc : Text)
  | var (ty : TypeExpr) (var : Option Text) (desc : Text)
  | template (name : Text) (bound : Option TypeExpr) (desc : Text)
  | alias (name : Text) (ty : TypeExpr) (desc : Text)
  | other (name : Text) (desc : Text)
  deriving Repr

namespace Tag

/-- The keyword of a tag that has a structure. -/
def keyword? : Tag → Option Keyword
  | .param .. => some .param
  | .typed keyword .. => some (.typed keyword)
  | .property access .. => some (.property access)
  | .method .. => some .method
  | .var .. => some .var
  | .template .. => some .template
  | .alias .. => some .alias
  | .other .. => none

/-- The name of a tag, with the `@`. -/
def name (t : Tag) : Text :=
  '@' :: match t with
    | .other name _ => name
    | t => (t.keyword?.map Keyword.text).getD []

/-- The description of a tag. -/
def desc : Tag → Text
  | .param _ desc | .typed _ _ desc | .property _ _ _ desc | .method _ desc | .var _ _ desc
  | .template _ _ desc | .alias _ _ desc | .other _ desc => desc

end Tag

/-- A line of a comment, without its marker. -/
inductive Line where
  | text (value : Text)
  | tag (tag : Tag)
  deriving Repr

/-- A doc comment: its lines, the blanks before its opening, and whether it is meant to stand on
one line. -/
structure Comment where
  lines : List Line
  indent : Text
  oneLine : Bool
  deriving Repr

end Docblock
