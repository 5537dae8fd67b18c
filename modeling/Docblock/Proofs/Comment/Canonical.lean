import Docblock.Comment.Json
import Docblock.Proofs.Comment.Pieces
import Docblock.Proofs.TypeExpr.Canonical

/-!
# The trees of comments

The lines of a comment that was read are canonical: the types in its tags are, the fields of a tag
go together as its keyword has them, and free text is the trimmed text of a single line.

- `canonical_fields`: the fields of a tag.
- `canonical_of_readsAs`: a line.
- `parse_canonical`: all trees that are read, of types and of comments.
-/

namespace Docblock

open TypeExpr (AllOf)

/-! ## Section 1: Canonical lines -/

/-- Free text is what is left of one line when the white space at its ends is gone. -/
def Text.IsFree (s : Text) : Prop :=
  '\n' ∉ s ∧ trim s = s

/-- A method that is marked `static` has a result. -/
def Method.Canonical (m : Method) : Prop :=
  (m.isStatic = true → m.result.isSome = true) ∧ (∀ ty ∈ m.result, ty.Canonical) ∧
    ∀ p ∈ m.params, p.Bound ∧ p.ty.Canonical

namespace Tag

/-- Is the tree of a tag written with the given mark set? -/
def HasMark (mark : String) (t : Tag) : Prop :=
  (mark, Json.bool true) ∈ t.jsonForm.2

/-- The fields of a tag are as its keyword has them. -/
def Canonical (t : Tag) : Prop :=
  match t with
  | .param p _ => p.ty.Canonical ∧ p.name.isSome = true ∧ p.default = none
  | .typed _ ty _ | .var ty _ _ | .alias _ ty _ => ty.Canonical
  | .property _ ty _ _ => ty.Canonical ∧ ¬(t.HasMark "read_only" ∧ t.HasMark "write_only")
  | .method m _ => m.Canonical
  | .template _ bound _ => ∀ ty ∈ bound, ty.Canonical
  | .other .. => True

end Tag

/-- A line is free text, or a tag with a description. -/
def Line.Canonical : Line → Prop
  | .text value => value.IsFree
  | .tag t => t.Canonical ∧ t.desc.IsFree

/-- All lines of a comment are canonical. -/
def Comment.Canonical (c : Comment) : Prop :=
  ∀ l ∈ c.lines, l.Canonical

/-! ## Section 2: The fields of tags -/

namespace Tag

/-- A property is read or written only, and never both. -/
theorem not_hasMark_property (access : Access) (ty : TypeExpr) (v d : Text) :
    ¬((Tag.property access ty v d).HasMark "read_only" ∧
      (Tag.property access ty v d).HasMark "write_only") := by
  simp only [HasMark, jsonForm]
  cases access <;> simp

theorem SpelledMethod.canonical {depth : Nat} {m : Method} {ws : List Word}
    (h : SpelledMethod depth m ws) (hws : Genuine ws) : m.Canonical := by
  have hall := TypeExpr.canonical_spelled depth
  cases h with
  | @named isStatic ss ws vs l n name js ps _ _ _ _ _ _ hps =>
    rw [genuine_append, genuine_append, genuine_cons] at hws
    refine ⟨nofun, ?_, hps.canonical hall hws.2.2.2⟩
    -- the mark alone stands for the result `static`
    cases isStatic with
    | true =>
      rintro _ ⟨⟩
      exact .named (.inl rfl)
    | false => simp
  | typed _ hty _ _ _ hps =>
    rw [genuine_append, genuine_append, genuine_cons, genuine_cons] at hws
    refine ⟨fun _ => rfl, ?_, hps.canonical hall hws.2.2.2.2⟩
    rintro _ ⟨⟩
    exact hall hty hws.2.1

/-- The fields of a tag are canonical, whatever description they are given. -/
theorem canonical_fields {depth : Nat} {keyword : Keyword} {mk : Text → Tag} {ws : List Word}
    {stop : List Word → Prop} (h : SpelledFields depth keyword mk ws stop) (hws : Genuine ws)
    (d : Text) : (mk d).Canonical := by
  have hall := TypeExpr.canonical_spelled depth
  cases h with
  | param hp => exact TypeExpr.allOf_tagParam hall hp hws
  | typed hty | var hty => exact hall hty hws
  | property hty _ => exact ⟨hall hty (genuine_append.mp hws).1, not_hasMark_property _ _ _ _⟩
  | method hm => exact hm.canonical hws
  | varNamed hty _ => exact hall hty (genuine_append.mp hws).1
  | template => exact nofun
  -- a template has a type only with a bound
  | bound _ _ hty =>
    rintro _ ⟨⟩
    exact hall hty (genuine_cons.mp (genuine_cons.mp hws).2).2
  | «alias» _ _ hty => exact hall hty (genuine_append.mp (genuine_cons.mp hws).2).2

end Tag

/-! ## Section 3: Lines -/

/-- A part of a line, trimmed, is free text. -/
theorem OnLine.isFree_trim {ts : List Lexeme} (h : OnLine ts) {x : Text}
    (hx : x <:+: Lexeme.source ts) : (Text.trim x).IsFree :=
  ⟨fun hmem => h.not_mem_newline (hx.subset ((Text.trim_infix x).subset hmem)),
    Text.trim_eq_self (Text.trimmed_trim x)⟩

theorem canonical_of_readsAs {ts : List Lexeme} {l : Line} (hts : OnLine ts) (h : ReadsAs ts l) :
    l.Canonical := by
  cases h with
  | text => exact hts.isFree_trim (List.infix_refl _)
  | @tag t rest tag ht hread =>
    have hrest := hts.tail
    -- a tag with any text, or one with a structure
    rcases Tag.read_eq_ok hrest.stands hread with ⟨-, rfl⟩ | ⟨keyword, -, hread⟩
    · exact ⟨trivial, hrest.isFree_trim (List.dropWhile_suffix _).isInfix⟩
    · obtain ⟨mk, ws, stop, rest', hpass, hfields, -, rfl⟩ := Tag.sound_readStructured hread
      have hws := (hpass.genuine (genuine_of_stands hrest.stands)).1
      refine ⟨Tag.canonical_fields hfields hws _, ?_⟩
      -- the description is what the fields have left of the line
      rw [hfields.desc_eq]
      exact (hrest.passes hpass).isFree_trim (List.infix_refl _)

namespace Comment

/-- Every tree that is read is canonical. -/
theorem parse_canonical (s : Text) :
    (∀ ty, TypeExpr.parse s = .ok ty → ty.Canonical) ∧ ∀ c, parse s = .ok c → c.Canonical := by
  refine ⟨fun _ => TypeExpr.canonical_of_parse, fun c h l hl => ?_⟩
  obtain ⟨_, ts, _, _, _, hts, hread⟩ := exists_lexemes_of_mem h l hl
  exact canonical_of_readsAs hts hread

/-- A union inside a shape that takes brackets, and a method with the word `static` as its result. -/
theorem parse_canonical_static :
    (∃ ty, TypeExpr.parse "?array\x7bk: A|(B&C)[]\x7d[]".toList = .ok ty ∧ ty.Canonical) ∧
    ∃ c, parse "/** @method static static m(A&B ...$x) & d\n*/".toList = .ok c ∧ c.Canonical := by
  have hty : TypeExpr.parse "?array\x7bk: A|(B&C)[]\x7d[]".toList =
      .ok (.array (.nullable (.shape .array [⟨['k'], false, .union [.named (.single ['A']),
        .array (.paren (.intersection [.named (.single ['B']), .named (.single ['C'])]))]⟩]))) := by
    cbv
  have hts : Lexeme.ofText "/** @method static static m(A&B ...$x) & d\n*/".toList =
      [⟨⟨.openDoc, "/**".toList, ⟨1, 1⟩⟩, []⟩, ⟨⟨.tag, "@method".toList, ⟨1, 5⟩⟩, [' ']⟩,
       ⟨⟨.static, "static".toList, ⟨1, 13⟩⟩, [' ']⟩, ⟨⟨.static, "static".toList, ⟨1, 20⟩⟩, [' ']⟩,
       ⟨⟨.ident, ['m'], ⟨1, 27⟩⟩, [' ']⟩, ⟨⟨.lparen, ['('], ⟨1, 28⟩⟩, []⟩,
       ⟨⟨.ident, ['A'], ⟨1, 29⟩⟩, []⟩, ⟨⟨.amp, ['&'], ⟨1, 30⟩⟩, []⟩, ⟨⟨.ident, ['B'], ⟨1, 31⟩⟩, []⟩,
       ⟨⟨.ellipsis, "...".toList, ⟨1, 33⟩⟩, [' ']⟩, ⟨⟨.var, "$x".toList, ⟨1, 36⟩⟩, []⟩,
       ⟨⟨.rparen, [')'], ⟨1, 38⟩⟩, []⟩, ⟨⟨.amp, ['&'], ⟨1, 40⟩⟩, [' ']⟩,
       ⟨⟨.ident, ['d'], ⟨1, 42⟩⟩, [' ']⟩, ⟨⟨.newline, ['\n'], ⟨1, 43⟩⟩, []⟩,
       ⟨⟨.closeDoc, "*/".toList, ⟨2, 1⟩⟩, []⟩] := by
    cbv
  have hc : parse "/** @method static static m(A&B ...$x) & d\n*/".toList =
      .ok ⟨[.tag (.method ⟨true, some (.named .static), ['m'],
        [⟨.intersection [.named (.single ['A']), .named (.single ['B'])], false, true, some ['x'],
          none⟩]⟩ "& d".toList)], [], true⟩ := by
    rw [parse, hts]
    rfl
  exact ⟨⟨_, hty, (parse_canonical _).1 _ hty⟩, _, hc, (parse_canonical _).2 _ hc⟩

end Comment

end Docblock
