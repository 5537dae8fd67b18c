import Docblock.Proofs.Lexeme.Phrase
import Docblock.TypeExpr.Parser
import Mathlib.Data.List.Basic

/-!
# The grammar of type expressions

What the readers of `Docblock.TypeExpr.Parser` accept, as rules over words.  A rule says which
words spell a tree.  Since every reader goes on as long as it can, the same words spell the tree
only where nothing that would be read on follows them, so each rule also lists its `Joint`s: the
words that must not come next.

As the readers do, the rules take the grammar `Inner` of the types inside brackets as a parameter,
and `Spelled` ties the knot on the depth to which types may still nest.

## Contents

1. `Joint`, `Clear`: what may follow.
2. The rules, from the leaves to `Compound`.
3. `Orderly`: a type begins with a word that can begin one, the gap before it does not count, and
   no joint of a type is a word that closes brackets or opens a variable.
-/

namespace Docblock

/-! ## Section 1: What may follow -/

/-- Words that would be read as going on with a tree. -/
inductive Joint where
  /-- A word of the given kind. -/
  | word (kind : Kind)
  /-- An `&` before a type, or one that what follows it still has to be drawn up to. -/
  | amp
  deriving DecidableEq, Repr

namespace Joint

/-- Does the joint stand at the front of the words? -/
def meets : Joint → List Word → Bool
  | .word kind, w :: _ => w.kind == kind
  | .amp, w :: u :: _ => w.kind == .amp && (u.kind.startsType || !u.gap.isEmpty)
  | _, _ => false

/-- Everything with which a type can go on. -/
def ofType : List Joint :=
  [.word .backslash, .word .asterisk, .word .lbrace, .word .lparen, .word .colon, .word .lt,
   .word .doubleColon, .word .lbrack, .word .bar, .amp]

end Joint

/-- None of the joints stands at the front of the words. -/
def Clear (js : List Joint) (ws : List Word) : Prop :=
  ∀ j ∈ js, j.meets ws = false

@[simp] theorem clear_nil_left (ws : List Word) : Clear [] ws := by
  simp [Clear]

@[simp] theorem clear_nil_right (js : List Joint) : Clear js [] := by
  intro j _
  cases j <;> rfl

@[simp] theorem clear_cons_left {j : Joint} {js : List Joint} {ws : List Word} :
    Clear (j :: js) ws ↔ j.meets ws = false ∧ Clear js ws := by
  simp [Clear]

/-- Fewer joints are harder to meet. -/
theorem Clear.mono {js ks : List Joint} {ws : List Word} (h : Clear js ws) (hks : ks ⊆ js) :
    Clear ks ws :=
  fun j hj => h j (hks hj)

/-- A joint of one word is met by its kind alone. -/
theorem Joint.meets_word {kind : Kind} {ws : List Word} :
    (Joint.word kind).meets ws = ws.head?.any (·.kind == kind) := by
  cases ws <;> rfl

/-- A joint that is met is not among those of which the words are clear. -/
theorem Clear.not_mem {js : List Joint} {ws : List Word} (h : Clear js ws) {j : Joint}
    (hj : j.meets ws = true) : j ∉ js := by
  intro hmem
  rw [h j hmem] at hj
  cases hj

/-- What is clear of a text is clear of its front. -/
theorem Clear.of_append {js : List Joint} {a b : List Word} (h : Clear js (a ++ b)) :
    Clear js a := by
  intro j hj
  have := h j hj
  -- an `&` looks at two words, so a front of one word alone cannot meet it
  match a with
  | [] => exact clear_nil_right js j hj
  | [_] => cases j with
    | word => exact this
    | amp => rfl
  | _ :: _ :: _ => cases j <;> exact this

/-- The gap before the first word does not count. -/
theorem Clear.after {js : List Joint} {ws : List Word} (h : Clear js ws) (gap : Text) :
    Clear js (Word.after gap ws) := by
  intro j hj
  have := h j hj
  -- the gap that changes is that of the first word, and only the gap of the second one counts
  match ws with
  | [] => exact this
  | [_] => cases j with
    | word => exact this
    | amp => rfl
  | _ :: _ :: _ => cases j <;> exact this

/-- Apart from the `&`, only a joint's own kind of word meets it. -/
theorem clear_cons_of_not_mem {js : List Joint} {w : Word} (ws : List Word)
    (hw : .word w.kind ∉ js) (hamp : w.kind ≠ .amp) : Clear js (w :: ws) := by
  intro j hj
  cases j with
  | word kind =>
    have : w.kind ≠ kind := fun h => hw (h ▸ hj)
    simpa [Joint.meets] using this
  | amp =>
    cases ws with
    | nil => rfl
    | cons u ws => simp [Joint.meets, hamp]

/-- A word that is no joint of a type, nor an `&`, is clear of all types. -/
theorem clear_cons {js : List Joint} (hjs : js ⊆ Joint.ofType) {w : Word} (ws : List Word)
    (hw : .word w.kind ∉ Joint.ofType) (hamp : w.kind ≠ .amp) : Clear js (w :: ws) :=
  clear_cons_of_not_mem ws (fun h => hw (hjs h)) hamp

/-- An `&` that no type follows is clear of all types, once it is drawn up. -/
theorem clear_amp_cons {js : List Joint} (hjs : js ⊆ Joint.ofType) {w u : Word} (ws : List Word)
    (hw : w.kind = .amp) (hu : u.kind.startsType = false) (hgap : u.gap = []) :
    Clear js (w :: u :: ws) := by
  intro j hj
  cases j with
  | word kind =>
    have : w.kind ≠ kind := by
      rintro rfl
      have := hjs hj
      simp [hw, Joint.ofType] at this
    simpa [Joint.meets] using this
  | amp => simp [Joint.meets, hu, hgap]

/-! ## Section 2: The rules -/

/-- A grammar says which words spell a tree, and what must not follow them. -/
abbrev Grammar (α : Type) := α → List Word → List Joint → Prop

namespace TypeExpr

/-- An optional word. -/
inductive Mark (kind : Kind) : Bool → List Word → Prop where
  | absent : Mark kind false []
  | present {w : Word} (hw : w.kind = kind) : Mark kind true [w]

/-- The parts of a name. -/
inductive SpelledParts : Grammar (List Text) where
  -- a backslash after the last part would add another one
  | last {w : Word} (hw : w.kind = .ident) : SpelledParts [w.text] [w] [.word .backslash]
  | cons {w b : Word} {parts : List Text} {ws : List Word} {js : List Joint} (hw : w.kind = .ident)
      (hb : b.kind = .backslash) (h : SpelledParts parts ws js) :
      SpelledParts (w.text :: parts) (w :: b :: ws) js

/-- A name. -/
inductive SpelledName : Grammar Name where
  | relative {parts : List Text} {ws : List Word} {js : List Joint} (h : SpelledParts parts ws js) :
      SpelledName ⟨parts, false⟩ ws js
  | absolute {b : Word} {parts : List Text} {ws : List Word} {js : List Joint}
      (hb : b.kind = .backslash) (h : SpelledParts parts ws js) :
      SpelledName ⟨parts, true⟩ (b :: ws) js

/-- The name of a constant. -/
inductive SpelledConstant : Grammar Text where
  | any {a : Word} (ha : a.kind = .asterisk) : SpelledConstant ['*'] [a] []
  -- an `*` that touches the word would belong to the name
  | exact {w : Word} (hw : w.kind = .ident) : SpelledConstant w.text [w] [.word .asterisk]
  | ending {w a : Word} (hw : w.kind = .ident) (ha : a.kind = .asterisk) (hgap : a.gap = []) :
      SpelledConstant (w.text ++ ['*']) [w, a] []

/-- One or more items up to the closing word; a comma may stand before it. -/
inductive SpelledItems {α : Type} (Item : Grammar α) (close : Kind) : List α → List Word → Prop where
  | last {x : α} {ws : List Word} {js : List Joint} {c : Word} (h : Item x ws js)
      (hc : c.kind = close) : SpelledItems Item close [x] (ws ++ [c])
  | trailing {x : α} {ws : List Word} {js : List Joint} {m c : Word} (h : Item x ws js)
      (hm : m.kind = .comma) (hc : c.kind = close) : SpelledItems Item close [x] (ws ++ [m, c])
  | cons {x : α} {xs : List α} {ws vs : List Word} {js : List Joint} {m : Word} (h : Item x ws js)
      (hm : m.kind = .comma) (hxs : SpelledItems Item close xs vs) :
      SpelledItems Item close (x :: xs) (ws ++ m :: vs)

/-- The marks and the name of a parameter. -/
inductive SpelledBinder : Bool × Bool × Text → List Word → Prop where
  | mk {byRef variadic : Bool} {as es : List Word} {v : Word} (ha : Mark .amp byRef as)
      (he : Mark .ellipsis variadic es) (hv : v.kind = .var) :
      SpelledBinder (byRef, variadic, v.text.tail) (as ++ es ++ [v])

section Rules

variable (Inner : Grammar TypeExpr)

/-- One entry of a shape. -/
inductive SpelledEntry : Grammar (Entry TypeExpr) where
  | mk {k c : Word} {optional : Bool} {qs ws : List Word} {js : List Joint} {ty : TypeExpr}
      (hk : isKey k.kind = true) (hq : Mark .question optional qs) (hc : c.kind = .colon)
      (hty : Inner ty ws js) : SpelledEntry ⟨k.text, optional, ty⟩ (k :: (qs ++ c :: ws)) js

/-- The entries of a shape. -/
inductive SpelledEntries : Grammar (List (Entry TypeExpr)) where
  -- without braces there are no entries, but a brace would open some
  | none : SpelledEntries [] [] [.word .lbrace]
  | some {l : Word} {es : List (Entry TypeExpr)} {ws : List Word} (hl : l.kind = .lbrace)
      (hes : SpelledItems (SpelledEntry Inner) .rbrace es ws) : SpelledEntries es (l :: ws) []

/-- The parameter of a tag. -/
inductive SpelledTagParam : Grammar (Param TypeExpr) where
  | mk {ty : TypeExpr} {ws vs : List Word} {js : List Joint} {byRef variadic : Bool} {name : Text}
      -- the marks follow the type, so none of them may be what it goes on with
      (hty : Inner ty ws js) (hb : SpelledBinder (byRef, variadic, name) vs) (hclear : Clear js vs) :
      SpelledTagParam ⟨ty, byRef, variadic, some name, none⟩ (ws ++ vs) []

/-- A parameter of a signature. -/
inductive SpelledParam : Grammar (Param TypeExpr) where
  -- a type alone is a parameter, unless its marks or its name follow
  | bare {ty : TypeExpr} {ws : List Word} {js : List Joint} (hty : Inner ty ws js) :
      SpelledParam ⟨ty, false, false, none, none⟩ ws
        (.word .amp :: .word .ellipsis :: .word .var :: js)
  | named {ty : TypeExpr} {ws vs : List Word} {js : List Joint} {byRef variadic : Bool}
      {name : Text} (hty : Inner ty ws js) (hb : SpelledBinder (byRef, variadic, name) vs)
      (hclear : Clear js vs) :
      SpelledParam ⟨ty, byRef, variadic, some name, none⟩ (ws ++ vs) [.word .equals]
  | default {ty : TypeExpr} {ws vs : List Word} {js : List Joint} {byRef variadic : Bool}
      {name : Text} {e d : Word} (hty : Inner ty ws js)
      (hb : SpelledBinder (byRef, variadic, name) vs) (hclear : Clear js vs)
      (he : e.kind = .equals) (hd : isDefault d.kind = true) :
      SpelledParam ⟨ty, byRef, variadic, some name, some d.text⟩ (ws ++ vs ++ [e, d]) []

/-- The parameters of a signature with the parenthesis that closes them. -/
inductive SpelledSignature : List (Param TypeExpr) → List Word → Prop where
  | empty {r : Word} (hr : r.kind = .rparen) : SpelledSignature [] [r]
  | params {ps : List (Param TypeExpr)} {ws : List Word}
      (hps : SpelledItems (SpelledParam Inner) .rparen ps ws) : SpelledSignature ps ws

/-- What follows the word `callable`. -/
inductive SpelledCallable : Grammar TypeExpr where
  | bare : SpelledCallable (.callable [] none) [] [.word .lparen]
  -- a colon after the parameters would introduce a result
  | plain {l : Word} {ps : List (Param TypeExpr)} {ws : List Word} (hl : l.kind = .lparen)
      (hps : SpelledSignature Inner ps ws) :
      SpelledCallable (.callable ps none) (l :: ws) [.word .colon]
  | result {l c : Word} {ps : List (Param TypeExpr)} {r : TypeExpr} {ws vs : List Word}
      {js : List Joint} (hl : l.kind = .lparen) (hps : SpelledSignature Inner ps ws)
      (hc : c.kind = .colon) (hr : Inner r vs js) :
      SpelledCallable (.callable ps (some r)) (l :: (ws ++ c :: vs)) js

/-- A basic type before its arguments, and whether it may take any. -/
inductive SpelledHead : Grammar (TypeExpr × Bool) where
  | array {w : Word} {es : List (Entry TypeExpr)} {ws : List Word} {js : List Joint}
      (hw : w.kind = .array) (hes : SpelledEntries Inner es ws js) :
      SpelledHead (.shape .array es, true) (w :: ws) js
  | object {w : Word} {es : List (Entry TypeExpr)} {ws : List Word} {js : List Joint}
      (hw : w.kind = .object) (hes : SpelledEntries Inner es ws js) :
      SpelledHead (.shape .object es, true) (w :: ws) js
  -- the only head that takes no arguments
  | callable {w : Word} {ty : TypeExpr} {ws : List Word} {js : List Joint}
      (hw : w.kind = .callable) (hty : SpelledCallable Inner ty ws js) :
      SpelledHead (ty, false) (w :: ws) js
  | static {w : Word} (hw : w.kind = .static) : SpelledHead (.named .static, true) [w] []
  | named {n : Name} {ws : List Word} {js : List Joint} (hn : SpelledName n ws js) :
      SpelledHead (.named n, true) ws js

/-- A basic type with its arguments. -/
inductive SpelledApplied : Grammar TypeExpr where
  | closed {ty : TypeExpr} {ws : List Word} {js : List Joint}
      (hty : SpelledHead Inner (ty, false) ws js) : SpelledApplied ty ws js
  -- what may take arguments, but has none, is not followed by their bracket
  | plain {ty : TypeExpr} {ws : List Word} {js : List Joint}
      (hty : SpelledHead Inner (ty, true) ws js) : SpelledApplied ty ws (.word .lt :: js)
  | generic {ty : TypeExpr} {args : List TypeExpr} {ws vs : List Word} {js : List Joint} {l : Word}
      (hty : SpelledHead Inner (ty, true) ws js) (hl : l.kind = .lt)
      (hargs : SpelledItems Inner .gt args vs) :
      SpelledApplied (.generic ty args) (ws ++ l :: vs) []

/-- A basic type; no constant is taken of it if it is nullable. -/
inductive SpelledBasic (isNullable : Bool) : Grammar TypeExpr where
  | plain {ty : TypeExpr} {ws : List Word} {js : List Joint} (hty : SpelledApplied Inner ty ws js) :
      SpelledBasic isNullable ty ws (.word .doubleColon :: js)
  | constant {n : Name} {c : Word} {name : Text} {ws vs : List Word} {js ks : List Joint}
      -- a constant belongs to a class, so what stands before it has to be a name
      (hn : SpelledApplied Inner (.named n) ws js) (hnull : isNullable = false)
      (hc : c.kind = .doubleColon) (hname : SpelledConstant name vs ks) :
      SpelledBasic isNullable (.constant (.named n) name) (ws ++ c :: vs) ks

/-- An atomic type before its brackets. -/
inductive SpelledPrimary : Grammar TypeExpr where
  | paren {l r : Word} {ty : TypeExpr} {ws : List Word} {js : List Joint} (hl : l.kind = .lparen)
      (hty : Inner ty ws js) (hr : r.kind = .rparen) :
      SpelledPrimary (.paren ty) (l :: (ws ++ [r])) []
  | this {w : Word} (hw : w.kind = .this) : SpelledPrimary .this [w] []
  | literal {w : Word} (hw : w.kind = .str ∨ w.kind = .int) : SpelledPrimary (.literal w.text) [w] []
  | nullable {q : Word} {ty : TypeExpr} {ws : List Word} {js : List Joint} (hq : q.kind = .question)
      (hty : SpelledBasic Inner true ty ws js) : SpelledPrimary (.nullable ty) (q :: ws) js
  | basic {ty : TypeExpr} {ws : List Word} {js : List Joint}
      (hty : SpelledBasic Inner false ty ws js) : SpelledPrimary ty ws js

/-- An atomic type with some of its brackets. After a type that itself goes on with a bracket there
are none. -/
inductive SpelledSuffixed : Grammar TypeExpr where
  | plain {ty : TypeExpr} {ws : List Word} {js : List Joint} (hty : SpelledPrimary Inner ty ws js) :
      SpelledSuffixed ty ws js
  | array {ty : TypeExpr} {l r : Word} {ws : List Word} {js : List Joint}
      (hty : SpelledSuffixed ty ws js) (hjs : .word .lbrack ∉ js) (hl : l.kind = .lbrack)
      (hr : r.kind = .rbrack) : SpelledSuffixed (.array ty) (ws ++ [l, r]) []

/-- An atomic type with all of its brackets. -/
inductive SpelledAtomic : Grammar TypeExpr where
  | mk {ty : TypeExpr} {ws : List Word} {js : List Joint} (hty : SpelledSuffixed Inner ty ws js) :
      SpelledAtomic ty ws (.word .lbrack :: js)

/-- The members of a union or intersection after the first, each with the operator before it. A
member that itself goes on with the operator is the last. -/
inductive SpelledMembers (operator : Kind) (joint : Joint) : Grammar (List TypeExpr) where
  | last {o : Word} {ty : TypeExpr} {ws : List Word} {js : List Joint} (ho : o.kind = operator)
      (hty : SpelledAtomic Inner ty ws js) :
      SpelledMembers operator joint [ty] (o :: ws) (joint :: js)
  | cons {o : Word} {ty : TypeExpr} {tys : List TypeExpr} {ws vs : List Word} {js ks : List Joint}
      -- `hjs`: the member does not itself swallow the operator that follows it
      (ho : o.kind = operator) (hty : SpelledAtomic Inner ty ws js) (hjs : joint ∉ js)
      (htys : SpelledMembers operator joint tys vs ks) :
      SpelledMembers operator joint (ty :: tys) (o :: (ws ++ vs)) ks

/-- A type. -/
inductive SpelledCompound : Grammar TypeExpr where
  -- a single type is followed by neither operator
  | single {ty : TypeExpr} {ws : List Word} {js : List Joint} (hty : SpelledAtomic Inner ty ws js) :
      SpelledCompound ty ws (.word .bar :: .amp :: js)
  | union {ty : TypeExpr} {tys : List TypeExpr} {ws vs : List Word} {js ks : List Joint}
      (hty : SpelledAtomic Inner ty ws js) (hjs : .word .bar ∉ js)
      (htys : SpelledMembers Inner .bar (.word .bar) tys vs ks) :
      SpelledCompound (.union (ty :: tys)) (ws ++ vs) ks
  | intersection {ty : TypeExpr} {tys : List TypeExpr} {ws vs : List Word} {js ks : List Joint}
      (hty : SpelledAtomic Inner ty ws js) (hjs : .amp ∉ js)
      (htys : SpelledMembers Inner .amp .amp tys vs ks) :
      SpelledCompound (.intersection (ty :: tys)) (ws ++ vs) ks

end Rules

/-- A type within which types nest to at most the given depth. -/
def Spelled : Nat → Grammar TypeExpr
  | 0 => fun _ _ _ => False
  | depth + 1 => SpelledCompound (Spelled depth)

/-! ## Section 3: The fronts and the joints of types -/

/-- What the rules rely on in the grammar of types inside brackets. -/
structure Orderly (G : Grammar TypeExpr) : Prop where
  starts : ∀ {ty : TypeExpr} {ws : List Word} {js : List Joint}, G ty ws js →
    ∃ w vs, ws = w :: vs ∧ w.kind.startsType = true
  joints : ∀ {ty : TypeExpr} {ws : List Word} {js : List Joint}, G ty ws js → js ⊆ Joint.ofType
  after : ∀ {ty : TypeExpr} {ws : List Word} {js : List Joint}, G ty ws js → ∀ gap : Text,
    G ty (Word.after gap ws) js

section Fronts

variable {Inner : Grammar TypeExpr}

/-- The one joint of a name is the backslash, whatever its parts. -/
theorem SpelledParts.joints {parts : List Text} {ws : List Word} {js : List Joint}
    (h : SpelledParts parts ws js) : js = [.word .backslash] := by
  -- the joints are those of the last part
  induction h with
  | last => rfl
  | cons _ _ _ ih => exact ih

theorem SpelledName.joints {n : Name} {ws : List Word} {js : List Joint}
    (h : SpelledName n ws js) : js = [.word .backslash] := by
  cases h with
  | relative h => exact h.joints
  | absolute _ h => exact h.joints

/-- A name begins with its first part, or with the backslash that makes it absolute. -/
theorem SpelledName.starts {n : Name} {ws : List Word} {js : List Joint}
    (h : SpelledName n ws js) :
    ∃ w vs, ws = w :: vs ∧ (w.kind = .ident ∨ w.kind = .backslash) := by
  cases h with
  | relative h =>
    cases h with
    | last hw => exact ⟨_, _, rfl, .inl hw⟩
    | cons hw _ _ => exact ⟨_, _, rfl, .inl hw⟩
  | absolute hb _ => exact ⟨_, _, rfl, .inr hb⟩

/-- The joints of a callable are joints of types. They are those of its result, if it has one, so
this is where the assumption on the types inside brackets comes in. -/
theorem SpelledCallable.joints (hinner : Orderly Inner) {ty : TypeExpr} {ws : List Word}
    {js : List Joint} (h : SpelledCallable Inner ty ws js) : js ⊆ Joint.ofType := by
  cases h with
  | bare => simp [Joint.ofType]
  | plain => simp [Joint.ofType]
  | result _ _ _ hr => exact hinner.joints hr

/-- The joints of a basic type before its arguments are joints of types. -/
theorem SpelledHead.joints (hinner : Orderly Inner) {x : TypeExpr × Bool} {ws : List Word}
    {js : List Joint} (h : SpelledHead Inner x ws js) : js ⊆ Joint.ofType := by
  cases h with
  | array _ hes | object _ hes => cases hes <;> simp [Joint.ofType]
  | callable _ hty => exact hty.joints hinner
  | static => simp
  | named hn => simp [hn.joints, Joint.ofType]

theorem SpelledApplied.joints (hinner : Orderly Inner) {ty : TypeExpr} {ws : List Word}
    {js : List Joint} (h : SpelledApplied Inner ty ws js) : js ⊆ Joint.ofType := by
  cases h with
  | closed hty => exact hty.joints hinner
  | plain hty => exact List.cons_subset.mpr ⟨by simp [Joint.ofType], hty.joints hinner⟩
  | generic => simp

theorem SpelledBasic.joints (hinner : Orderly Inner) {isNullable : Bool} {ty : TypeExpr}
    {ws : List Word} {js : List Joint} (h : SpelledBasic Inner isNullable ty ws js) :
    js ⊆ Joint.ofType := by
  cases h with
  | plain hty => exact List.cons_subset.mpr ⟨by simp [Joint.ofType], hty.joints hinner⟩
  | constant _ _ _ hname => cases hname <;> simp [Joint.ofType]

/-- A type in brackets has no joints, and any other atomic type has those of its basic type. -/
theorem SpelledPrimary.joints (hinner : Orderly Inner) {ty : TypeExpr} {ws : List Word}
    {js : List Joint} (h : SpelledPrimary Inner ty ws js) : js ⊆ Joint.ofType := by
  cases h with
  -- these end with a word after which nothing is read on
  | paren | this | literal => simp
  | nullable _ hty | basic hty => exact hty.joints hinner

theorem SpelledAtomic.joints (hinner : Orderly Inner) {ty : TypeExpr} {ws : List Word}
    {js : List Joint} (h : SpelledAtomic Inner ty ws js) : js ⊆ Joint.ofType := by
  cases h with
  | mk hty =>
    refine List.cons_subset.mpr ⟨by simp [Joint.ofType], ?_⟩
    cases hty with
    | plain hty => exact hty.joints hinner
    | array => simp

/-- The joints of the members are those of the last one, and the operator. -/
theorem SpelledMembers.joints (hinner : Orderly Inner) {operator : Kind} {joint : Joint}
    (hjoint : joint ∈ Joint.ofType) {tys : List TypeExpr} {ws : List Word} {js : List Joint}
    (h : SpelledMembers Inner operator joint tys ws js) : js ⊆ Joint.ofType := by
  -- only the last member leaves joints behind
  induction h with
  | last _ hty => exact List.cons_subset.mpr ⟨hjoint, hty.joints hinner⟩
  | cons _ _ _ _ ih => exact ih

/-- The kinds with which a basic type can begin. -/
theorem SpelledHead.starts {x : TypeExpr × Bool} {ws : List Word} {js : List Joint}
    (h : SpelledHead Inner x ws js) :
    ∃ w vs, ws = w :: vs ∧ w.kind ∈ [Kind.array, .object, .callable, .static, .ident, .backslash] := by
  cases h with
  | array hw _ | object hw _ | callable hw _ | static hw => exact ⟨_, _, rfl, by simp [hw]⟩
  | named hn =>
    obtain ⟨w, vs, rfl, hw | hw⟩ := hn.starts
    · exact ⟨w, vs, rfl, by simp [hw]⟩
    · exact ⟨w, vs, rfl, by simp [hw]⟩

theorem SpelledApplied.starts {ty : TypeExpr} {ws : List Word} {js : List Joint}
    (h : SpelledApplied Inner ty ws js) :
    ∃ w vs, ws = w :: vs ∧ w.kind ∈ [Kind.array, .object, .callable, .static, .ident, .backslash] := by
  cases h with
  | closed hty | plain hty => exact hty.starts
  | generic hty _ _ =>
    obtain ⟨w, vs, rfl, hw⟩ := hty.starts
    exact ⟨w, _, rfl, hw⟩

theorem SpelledBasic.starts {isNullable : Bool} {ty : TypeExpr} {ws : List Word} {js : List Joint}
    (h : SpelledBasic Inner isNullable ty ws js) :
    ∃ w vs, ws = w :: vs ∧ w.kind ∈ [Kind.array, .object, .callable, .static, .ident, .backslash] := by
  cases h with
  | plain hty => exact hty.starts
  | constant hn _ _ _ =>
    obtain ⟨w, vs, rfl, hw⟩ := hn.starts
    exact ⟨w, _, rfl, hw⟩

/-- An atomic type begins with a word that can begin a type. -/
theorem SpelledPrimary.starts {ty : TypeExpr} {ws : List Word} {js : List Joint}
    (h : SpelledPrimary Inner ty ws js) : ∃ w vs, ws = w :: vs ∧ w.kind.startsType = true := by
  cases h with
  | paren hl _ _ => exact ⟨_, _, rfl, by simp [hl, Kind.startsType]⟩
  | this hw => exact ⟨_, _, rfl, by simp [hw, Kind.startsType]⟩
  | literal hw => exact ⟨_, _, rfl, by rcases hw with hw | hw <;> simp [hw, Kind.startsType]⟩
  | nullable hq _ => exact ⟨_, _, rfl, by simp [hq, Kind.startsType]⟩
  | basic hty =>
    obtain ⟨w, vs, rfl, hw⟩ := hty.starts
    refine ⟨w, vs, rfl, ?_⟩
    -- six kinds are left, and all of them can begin a type
    simp only [List.mem_cons, List.not_mem_nil, or_false] at hw
    rcases hw with hw | hw | hw | hw | hw | hw <;> simp [hw, Kind.startsType]

/-- Brackets stand behind a type, so they do not change its first word. -/
theorem SpelledSuffixed.starts {ty : TypeExpr} {ws : List Word} {js : List Joint}
    (h : SpelledSuffixed Inner ty ws js) : ∃ w vs, ws = w :: vs ∧ w.kind.startsType = true := by
  induction h with
  | plain hty => exact hty.starts
  | array _ _ _ _ ih =>
    obtain ⟨w, vs, rfl, hw⟩ := ih
    exact ⟨w, _, rfl, hw⟩

theorem SpelledAtomic.starts {ty : TypeExpr} {ws : List Word} {js : List Joint}
    (h : SpelledAtomic Inner ty ws js) : ∃ w vs, ws = w :: vs ∧ w.kind.startsType = true := by
  cases h with
  | mk hty => exact hty.starts

/-- The gap before a name is not part of it; the same goes for all that begins with a name. -/
theorem SpelledParts.after {parts : List Text} {ws : List Word} {js : List Joint}
    (h : SpelledParts parts ws js) (gap : Text) : SpelledParts parts (Word.after gap ws) js := by
  cases h with
  | @last w hw => exact .last (w := { w with gap := gap }) hw
  | @cons w _ _ _ _ hw hb h => exact .cons (w := { w with gap := gap }) hw hb h

theorem SpelledName.after {n : Name} {ws : List Word} {js : List Joint} (h : SpelledName n ws js)
    (gap : Text) : SpelledName n (Word.after gap ws) js := by
  cases h with
  | relative h => exact .relative (h.after gap)
  | absolute hb h => exact .absolute hb h

/-- The gap before a basic type is not part of it. -/
theorem SpelledHead.after {x : TypeExpr × Bool} {ws : List Word} {js : List Joint}
    (h : SpelledHead Inner x ws js) (gap : Text) : SpelledHead Inner x (Word.after gap ws) js := by
  cases h with
  | array hw hes => exact .array hw hes
  | object hw hes => exact .object hw hes
  | callable hw hty => exact .callable hw hty
  | static hw => exact .static hw
  | named hn => exact .named (hn.after gap)

/-- What begins with a word is not empty. -/
theorem ne_nil_of_starts {P : Word → Prop} {ws : List Word}
    (h : ∃ w vs, ws = w :: vs ∧ P w) : ws ≠ [] := by
  obtain ⟨w, vs, rfl, -⟩ := h
  exact List.cons_ne_nil w vs

/-- The gap before a type with arguments is that before its head. -/
theorem SpelledApplied.after {ty : TypeExpr} {ws : List Word} {js : List Joint}
    (h : SpelledApplied Inner ty ws js) (gap : Text) :
    SpelledApplied Inner ty (Word.after gap ws) js := by
  cases h with
  | closed hty => exact .closed (hty.after gap)
  | plain hty => exact .plain (hty.after gap)
  | generic hty hl hargs =>
    rw [Word.after_append (ne_nil_of_starts hty.starts)]
    exact .generic (hty.after gap) hl hargs

theorem SpelledBasic.after {isNullable : Bool} {ty : TypeExpr} {ws : List Word} {js : List Joint}
    (h : SpelledBasic Inner isNullable ty ws js) (gap : Text) :
    SpelledBasic Inner isNullable ty (Word.after gap ws) js := by
  cases h with
  | plain hty => exact .plain (hty.after gap)
  | constant hn hnull hc hname =>
    rw [Word.after_append (ne_nil_of_starts hn.starts)]
    exact .constant (hn.after gap) hnull hc hname

theorem SpelledPrimary.after {ty : TypeExpr} {ws : List Word} {js : List Joint}
    (h : SpelledPrimary Inner ty ws js) (gap : Text) :
    SpelledPrimary Inner ty (Word.after gap ws) js := by
  cases h with
  | paren hl hty hr => exact .paren hl hty hr
  | this hw => exact .this hw
  | @literal w hw => exact .literal (w := { w with gap := gap }) hw
  | nullable hq hty => exact .nullable hq hty
  | basic hty => exact .basic (hty.after gap)

/-- The gap before a type with brackets is that before the type. -/
theorem SpelledSuffixed.after {ty : TypeExpr} {ws : List Word} {js : List Joint}
    (h : SpelledSuffixed Inner ty ws js) (gap : Text) :
    SpelledSuffixed Inner ty (Word.after gap ws) js := by
  -- over the brackets, from the last to the first
  induction h with
  | plain hty => exact .plain (hty.after gap)
  | array hty hjs hl hr ih =>
    rw [Word.after_append (ne_nil_of_starts hty.starts)]
    exact .array ih hjs hl hr

theorem SpelledAtomic.after {ty : TypeExpr} {ws : List Word} {js : List Joint}
    (h : SpelledAtomic Inner ty ws js) (gap : Text) :
    SpelledAtomic Inner ty (Word.after gap ws) js := by
  cases h with
  | mk hty => exact .mk (hty.after gap)

/-- A union or intersection begins as its first member does, and the joints are those of the last.
-/
theorem orderly_compound (hinner : Orderly Inner) : Orderly (SpelledCompound Inner) where
  starts h := by
    cases h with
    | single hty => exact hty.starts
    | union hty _ _ | intersection hty _ _ =>
      obtain ⟨w, vs, rfl, hw⟩ := hty.starts
      exact ⟨w, _, rfl, hw⟩
  joints h := by
    cases h with
    | single hty =>
      refine List.cons_subset.mpr ⟨by simp [Joint.ofType], ?_⟩
      exact List.cons_subset.mpr ⟨by simp [Joint.ofType], hty.joints hinner⟩
    | union _ _ htys => exact htys.joints hinner (by simp [Joint.ofType])
    | intersection _ _ htys => exact htys.joints hinner (by simp [Joint.ofType])
  after h gap := by
    cases h with
    | single hty => exact .single (hty.after gap)
    | union hty hjs htys =>
      rw [Word.after_append (ne_nil_of_starts hty.starts)]
      exact .union (hty.after gap) hjs htys
    | intersection hty hjs htys =>
      rw [Word.after_append (ne_nil_of_starts hty.starts)]
      exact .intersection (hty.after gap) hjs htys

end Fronts

/-- Types of every depth are orderly, so all that is said above about an orderly `Inner` holds of
them. -/
theorem orderly_spelled (depth : Nat) : Orderly (Spelled depth) := by
  -- over the depth; at depth zero there are no types
  induction depth with
  | zero => exact ⟨fun h => h.elim, fun h => h.elim, fun h => h.elim⟩
  | succ depth ih => exact orderly_compound ih

end TypeExpr

end Docblock
