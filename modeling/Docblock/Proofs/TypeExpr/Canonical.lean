import Docblock.Proofs.TypeExpr.RoundTrip

/-!
# The trees of types

Not every tree is one that some text is read as.  Unions and intersections have no others directly
inside them, only some forms of type stand after a `?`, before arguments or before a constant, and a
parameter has a name where its marks or its default call for one.  `TypeExpr.Canonical` says this of
every node of a tree.

The rules of the grammar are the reason, so the proof goes along them, and not along the readers:
`sound_readerTo` has tied these to the rules once and for all.

- `canonical_spelled`: what is spelled by tokens is canonical.
- `canonical_of_parse`: a type that was read is canonical.
-/

namespace Docblock

/-! ## Section 1: Canonical trees -/

/-- The word `static`, or one or more identifiers. -/
def Name.Canonical (n : Name) : Prop :=
  n = .static ∨ (n.parts ≠ [] ∧ ∀ part ∈ n.parts, Token.Forms .ident part)

/-- A parameter with a mark or a default has a name. -/
def Param.Bound {τ : Type} (p : Param τ) : Prop :=
  p.byRef = true ∨ p.variadic = true ∨ p.default.isSome = true → p.name.isSome = true

namespace TypeExpr

/-- Is the type a union or an intersection, without parentheses around it? -/
def isChain : TypeExpr → Bool
  | .union _ | .intersection _ => true
  | _ => false

/-- Is the type a name or a shape, which may take arguments? -/
def isBase : TypeExpr → Bool
  | .named _ | .shape .. => true
  | _ => false

/-- Is the type one that may stand after a `?`? -/
def isNullableForm : TypeExpr → Bool
  | .named _ | .shape .. | .generic .. | .callable .. => true
  | _ => false

/-- Every node of the tree is as the grammar of types makes it. -/
inductive Canonical : TypeExpr → Prop where
  | union {members : List TypeExpr} (htwo : 2 ≤ members.length)
      (hflat : ∀ m ∈ members, m.isChain = false) (h : ∀ m ∈ members, Canonical m) :
      Canonical (.union members)
  | intersection {members : List TypeExpr} (htwo : 2 ≤ members.length)
      (hflat : ∀ m ∈ members, m.isChain = false) (h : ∀ m ∈ members, Canonical m) :
      Canonical (.intersection members)
  | paren {inner : TypeExpr} (h : Canonical inner) : Canonical (.paren inner)
  | array {element : TypeExpr} (hflat : element.isChain = false) (h : Canonical element) :
      Canonical (.array element)
  | nullable {inner : TypeExpr} (hform : inner.isNullableForm = true) (h : Canonical inner) :
      Canonical (.nullable inner)
  | shape {container : Container} {entries : List (Entry TypeExpr)}
      (h : ∀ e ∈ entries, Canonical e.ty) : Canonical (.shape container entries)
  | generic {base : TypeExpr} {args : List TypeExpr} (hform : base.isBase = true) (hne : args ≠ [])
      (hbase : Canonical base) (h : ∀ a ∈ args, Canonical a) : Canonical (.generic base args)
  | named {n : Name} (h : n.Canonical) : Canonical (.named n)
  | constant {n : Name} {name : Text} (h : Canonical (.named n)) :
      Canonical (.constant (.named n) name)
  | literal {text : Text} : Canonical (.literal text)
  | this : Canonical .this
  | callable {params : List (Param TypeExpr)} {result : Option TypeExpr}
      (hbound : ∀ p ∈ params, p.Bound) (hparams : ∀ p ∈ params, Canonical p.ty)
      (hresult : ∀ r ∈ result, Canonical r) : Canonical (.callable params result)

/-- A type that may be a member of a union, or take brackets. -/
def CanonicalAtom (ty : TypeExpr) : Prop :=
  ty.isChain = false ∧ ty.Canonical

/-- A parameter of a signature. -/
def CanonicalParam (p : Param TypeExpr) : Prop :=
  p.Bound ∧ p.ty.Canonical

theorem isChain_of_isNullableForm {ty : TypeExpr} (h : ty.isNullableForm = true) :
    ty.isChain = false := by
  cases ty <;> first | rfl | cases h

/-! ## Section 2: Along the rules

`hinner` says that the types inside brackets are canonical. -/

section Rules

/-- All trees of a grammar that tokens spell have a property. -/
def AllOf {α : Type} (G : Grammar α) (P : α → Prop) : Prop :=
  ∀ ⦃x : α⦄ ⦃ws : List Word⦄ ⦃js : List Joint⦄, G x ws js → Genuine ws → P x

/-- A list is not empty, and what holds of every item by its own words holds of all. -/
theorem SpelledItems.allOf {α : Type} {Item : Grammar α} {P : α → Prop} (hitem : AllOf Item P)
    {close : Kind} {xs : List α} {ws : List Word} (h : SpelledItems Item close xs ws)
    (hws : Genuine ws) : xs ≠ [] ∧ ∀ x ∈ xs, P x := by
  induction h with
  | last hx _ | trailing hx _ _ =>
    rw [genuine_append] at hws
    exact ⟨List.cons_ne_nil _ _, List.forall_mem_singleton.mpr (hitem hx hws.1)⟩
  | cons hx _ _ ih =>
    rw [genuine_append, genuine_cons] at hws
    exact ⟨List.cons_ne_nil _ _, List.forall_mem_cons.mpr ⟨hitem hx hws.1, (ih hws.2.2).2⟩⟩

/-- The parts of a name are identifiers. -/
theorem SpelledParts.forms {parts : List Text} {ws : List Word} {js : List Joint}
    (h : SpelledParts parts ws js) (hws : Genuine ws) :
    parts ≠ [] ∧ ∀ part ∈ parts, Token.Forms .ident part := by
  have hident {w : Word} (hw : w.kind = .ident) (hgenuine : Token.Forms w.kind w.text) :
      Token.Forms .ident w.text := hw ▸ hgenuine
  induction h with
  | last hw =>
    rw [genuine_cons] at hws
    exact ⟨List.cons_ne_nil _ _, List.forall_mem_singleton.mpr (hident hw hws.1.1)⟩
  | cons hw _ _ ih =>
    rw [genuine_cons, genuine_cons] at hws
    exact ⟨List.cons_ne_nil _ _,
      List.forall_mem_cons.mpr ⟨hident hw hws.1.1, (ih hws.2.2).2⟩⟩

theorem allOf_name : AllOf SpelledName Name.Canonical := by
  intro n ws js h hws
  cases h with
  | relative h => exact .inr (h.forms hws)
  | absolute _ h => exact .inr (h.forms (genuine_cons.mp hws).2)

variable {Inner : Grammar TypeExpr} (hinner : AllOf Inner Canonical)
include hinner

theorem allOf_entry : AllOf (SpelledEntry Inner) fun e => e.ty.Canonical := by
  rintro e ws js ⟨-, -, -, hty⟩ hws
  rw [genuine_cons, genuine_append, genuine_cons] at hws
  exact hinner hty hws.2.2.2

theorem allOf_entries : AllOf (SpelledEntries Inner) fun es => ∀ e ∈ es, e.ty.Canonical := by
  intro es ws js h hws
  cases h with
  | none => simp
  | some _ hes => exact (hes.allOf (allOf_entry hinner) (genuine_cons.mp hws).2).2

theorem allOf_tagParam : AllOf (SpelledTagParam Inner) fun p =>
    p.ty.Canonical ∧ p.name.isSome = true ∧ p.default = none := by
  rintro p ws js ⟨hty, -, -⟩ hws
  exact ⟨hinner hty (genuine_append.mp hws).1, rfl, rfl⟩

theorem allOf_param : AllOf (SpelledParam Inner) CanonicalParam := by
  intro p ws js h hws
  cases h with
  | bare hty => exact ⟨by simp [Param.Bound], hinner hty hws⟩
  | named hty _ _ => exact ⟨fun _ => rfl, hinner hty (genuine_append.mp hws).1⟩
  | default hty _ _ _ _ =>
    exact ⟨fun _ => rfl, hinner hty (genuine_append.mp (genuine_append.mp hws).1).1⟩

theorem SpelledSignature.canonical {ps : List (Param TypeExpr)} {ws : List Word}
    (h : SpelledSignature Inner ps ws) (hws : Genuine ws) : ∀ p ∈ ps, CanonicalParam p := by
  cases h with
  | empty => simp
  | params hps => exact (hps.allOf (allOf_param hinner) hws).2

/-- A spelled callable is canonical and may stand behind a question mark. -/
theorem allOf_callable : AllOf (SpelledCallable Inner) fun ty =>
    ty.isNullableForm = true ∧ ty.Canonical := by
  intro ty ws js h hws
  cases h with
  -- no parameters and no result
  | bare => exact ⟨rfl, .callable (by simp) (by simp) (by simp)⟩
  | plain _ hps =>
    have hparams := hps.canonical hinner (genuine_cons.mp hws).2
    exact ⟨rfl, .callable (fun p hp => (hparams p hp).1) (fun p hp => (hparams p hp).2) (by simp)⟩
  | result _ hps _ hr =>
    rw [genuine_cons, genuine_append, genuine_cons] at hws
    have hparams := hps.canonical hinner hws.2.1
    refine ⟨rfl, .callable (fun p hp => (hparams p hp).1) (fun p hp => (hparams p hp).2) ?_⟩
    rintro _ ⟨⟩
    exact hinner hr hws.2.2.2

/-- A type before its arguments. Only a name or a shape takes any. -/
theorem allOf_head : AllOf (SpelledHead Inner) fun x =>
    (x.2 = true → x.1.isBase = true) ∧ x.1.isNullableForm = true ∧ x.1.Canonical := by
  intro x ws js h hws
  cases h with
  | array _ hes | object _ hes =>
    exact ⟨fun _ => rfl, rfl, .shape (allOf_entries hinner hes (genuine_cons.mp hws).2)⟩
  | callable _ hty => exact ⟨nofun, allOf_callable hinner hty (genuine_cons.mp hws).2⟩
  | static => exact ⟨fun _ => rfl, rfl, .named (.inl rfl)⟩
  | named hn => exact ⟨fun _ => rfl, rfl, .named (allOf_name hn hws)⟩

/-- So is a head, with arguments or without. -/
theorem allOf_applied : AllOf (SpelledApplied Inner) fun ty =>
    ty.isNullableForm = true ∧ ty.Canonical := by
  intro ty ws js h hws
  cases h with
  -- without arguments it is the head
  | closed hty | plain hty => exact (allOf_head hinner hty hws).2
  | generic hty _ hargs =>
    rw [genuine_append, genuine_cons] at hws
    obtain ⟨hbase, -, hcanonical⟩ := allOf_head hinner hty hws.1
    obtain ⟨hne, hall⟩ := hargs.allOf hinner hws.2.2
    exact ⟨rfl, .generic (hbase rfl) hne hcanonical hall⟩

/-- A basic type. A constant is no type that may stand after a `?`. -/
theorem allOf_basic (isNullable : Bool) : AllOf (SpelledBasic Inner isNullable) fun ty =>
    (isNullable = true → ty.isNullableForm = true) ∧ CanonicalAtom ty := by
  intro ty ws js h hws
  cases h with
  | plain hty =>
    obtain ⟨hform, hcanonical⟩ := allOf_applied hinner hty hws
    exact ⟨fun _ => hform, isChain_of_isNullableForm hform, hcanonical⟩
  -- a constant is refused behind a question mark
  | constant hn hnull _ _ =>
    obtain ⟨-, hcanonical⟩ := allOf_applied hinner hn (genuine_append.mp hws).1
    refine ⟨fun h => ?_, rfl, .constant hcanonical⟩
    rw [hnull] at h
    cases h

/-- A spelled primary type is canonical and no chain. -/
theorem allOf_primary : AllOf (SpelledPrimary Inner) CanonicalAtom := by
  intro ty ws js h hws
  -- one case per form of the grammar; the words between brackets are those of the form without them
  cases h with
  | paren _ hty _ =>
    rw [genuine_cons, genuine_append] at hws
    exact ⟨rfl, .paren (hinner hty hws.2.1)⟩
  | this => exact ⟨rfl, .this⟩
  | literal => exact ⟨rfl, .literal⟩
  | nullable _ hty =>
    obtain ⟨hform, -, hcanonical⟩ := allOf_basic hinner true hty (genuine_cons.mp hws).2
    exact ⟨rfl, .nullable (hform rfl) hcanonical⟩
  | basic hty => exact (allOf_basic hinner false hty hws).2

theorem allOf_atomic : AllOf (SpelledAtomic Inner) CanonicalAtom := by
  rintro ty ws _ ⟨hty⟩ hws
  induction hty with
  | plain hty => exact allOf_primary hinner hty hws
  -- what the brackets stand behind is no chain
  | array _ _ _ _ ih =>
    obtain ⟨hflat, hcanonical⟩ := ih (genuine_append.mp hws).1
    exact ⟨rfl, .array hflat hcanonical⟩

/-- The members of a chain are canonical and no chains themselves. -/
theorem allOf_members (operator : Kind) (joint : Joint) :
    AllOf (SpelledMembers Inner operator joint) fun tys =>
      tys ≠ [] ∧ ∀ ty ∈ tys, CanonicalAtom ty := by
  intro tys ws js h hws
  have hatomic := allOf_atomic hinner
  induction h with
  | last _ hty =>
    exact ⟨List.cons_ne_nil _ _,
      List.forall_mem_singleton.mpr (hatomic hty (genuine_cons.mp hws).2)⟩
  | cons _ hty _ _ ih =>
    rw [genuine_cons, genuine_append] at hws
    exact ⟨List.cons_ne_nil _ _,
      List.forall_mem_cons.mpr ⟨hatomic hty hws.2.1, (ih hws.2.2).2⟩⟩

/-- The members of a union or an intersection, the first of them apart. -/
theorem canonical_chain {operator : Kind} {joint : Joint} {ty : TypeExpr} {tys : List TypeExpr}
    {ws vs : List Word} {js ks : List Joint} (hty : SpelledAtomic Inner ty ws js)
    (htys : SpelledMembers Inner operator joint tys vs ks) (hws : Genuine (ws ++ vs)) :
    2 ≤ (ty :: tys).length ∧ ∀ m ∈ ty :: tys, CanonicalAtom m := by
  rw [genuine_append] at hws
  obtain ⟨hne, hall⟩ := allOf_members hinner operator joint htys hws.2
  have hlen := List.length_pos_of_ne_nil hne
  exact ⟨by rw [List.length_cons]; omega,
    List.forall_mem_cons.mpr ⟨allOf_atomic hinner hty hws.1, hall⟩⟩

/-- Whatever the rule of types spells is canonical. -/
theorem allOf_compound : AllOf (SpelledCompound Inner) Canonical := by
  intro ty ws js h hws
  cases h with
  -- one member alone is no chain
  | single hty => exact (allOf_atomic hinner hty hws).2
  | union hty _ htys =>
    obtain ⟨htwo, hall⟩ := canonical_chain hinner hty htys hws
    exact .union htwo (fun m hm => (hall m hm).1) fun m hm => (hall m hm).2
  | intersection hty _ htys =>
    obtain ⟨htwo, hall⟩ := canonical_chain hinner hty htys hws
    exact .intersection htwo (fun m hm => (hall m hm).1) fun m hm => (hall m hm).2

end Rules

theorem canonical_spelled (depth : Nat) : AllOf (Spelled depth) Canonical := by
  -- induction on the depth: the trees inside stand one level lower
  induction depth with
  | zero => exact fun _ _ _ h => h.elim
  | succ depth ih => exact allOf_compound ih

/-- A type that was read is canonical. -/
theorem canonical_of_parse {s : Text} {ty : TypeExpr} (h : parse s = .ok ty) : ty.Canonical := by
  obtain ⟨rest, hread, -⟩ := parse_eq_ok_iff.mp h
  obtain ⟨ws, js, hpass, hspelled, -⟩ := sound_readerTo maxDepth hread
  exact canonical_spelled maxDepth hspelled (hpass.genuine (genuine_ofText s)).1

end TypeExpr

end Docblock
