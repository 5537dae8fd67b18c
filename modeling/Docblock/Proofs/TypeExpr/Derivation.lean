import Docblock.Proofs.TypeExpr.Grammar

/-!
# The grammar of types, read as a grammar

`Docblock.Proofs.TypeExpr.Grammar` says what the readers do, step by step: a callable's result
takes in all it can, and a type is followed by nothing that would go on with it.  Here are the
productions alone, as they stand in the manual.  They are ambiguous, and they say nothing about
where a reader stops.

```text
Type     = Atomic { "|" Atomic } | Atomic { "&" Atomic }
Atomic   = ( "(" Type ")" | "$this" | Str | Int | ["?"] Basic ) { "[" "]" }
Basic    = ( Shape | "static" | Name ) ["<" Type { "," Type } [","] ">"] | Callable
         | ( "static" | Name ) "::" Const                  -- the last not after "?"
Shape    = ( "array" | "object" ) ["{" Entry { "," Entry } [","] "}"]
Entry    = Key ["?"] ":" Type
Callable = "callable" ["(" [Param { "," Param } [","]] ")" [":" Type]]
Param    = Type [[ "&" ] [ "..." ] Var ["=" ( Str | Int | Ident )]]
Name     = ["\"] Ident { "\" Ident }
Const    = "*" | Ident ["*"]                               -- no blank before this "*"
```

## Contents

1. `Similar`: words that no production can tell apart.
2. `Derives`: the productions.
3. `derives_of_spelled`: what the readers accept is derivable, whatever the gaps.
-/

namespace Docblock

open Word (flush)

/-! ## Section 1: Words that differ in their gaps -/

/-- The same kinds and texts in the same order.  Of the gaps only those between an identifier and a
`*` count. -/
inductive Similar : List Word → List Word → Prop where
  | nil : Similar [] []
  | cons {w v : Word} {ws vs : List Word} (kind : v.kind = w.kind) (text : v.text = w.text)
      (star : w.kind = .ident → ∀ a ∈ ws.head?, a.kind = .asterisk → ∀ b ∈ vs.head?,
        (b.gap = [] ↔ a.gap = [])) (h : Similar ws vs) : Similar (w :: ws) (v :: vs)

namespace Similar

variable {a b ws vs : List Word}

theorem refl (ws : List Word) : Similar ws ws := by
  induction ws with
  | nil => exact .nil
  | cons w ws ih =>
    refine .cons rfl rfl ?_ ih
    intro _ a ha _ b hb
    rw [Option.mem_unique ha hb]

theorem exists_cons {w : Word} (h : Similar (w :: ws) vs) :
    ∃ v us, vs = v :: us ∧ v.kind = w.kind ∧ Similar ws us := by
  cases h with
  | cons kind _ _ h => exact ⟨_, _, rfl, kind, h⟩

theorem eq_nil (h : Similar [] vs) : vs = [] := by
  cases h
  rfl

/-- Similar words begin with the same kind. -/
theorem kind_head (h : Similar ws vs) {w v : Word} (hw : w ∈ ws.head?) (hv : v ∈ vs.head?) :
    v.kind = w.kind := by
  cases h with
  | nil => cases hw
  | cons kind _ _ _ =>
    cases hw
    cases hv
    exact kind

/-- Similarity goes both ways. -/
theorem symm (h : Similar ws vs) : Similar vs ws := by
  induction h with
  | nil => exact .nil
  | cons kind text star h ih =>
    refine .cons kind.symm text.symm ?_ ih
    -- an identifier before an asterisk is one on either side
    intro hident a ha hstar b hb
    exact (star (kind ▸ hident) b hb ((h.kind_head hb ha).symm.trans hstar) a ha).symm

/-- Words similar to two runs of words are two such runs. -/
theorem exists_append (h : Similar (a ++ b) vs) :
    ∃ x y, vs = x ++ y ∧ Similar a x ∧ Similar b y := by
  induction a generalizing vs with
  | nil => exact ⟨[], vs, rfl, .nil, h⟩
  | cons w a ih =>
    cases h with
    | @cons _ v _ us kind text star h =>
      obtain ⟨x, y, rfl, hx, hy⟩ := ih h
      refine ⟨v :: x, y, rfl, .cons kind text ?_ hx, hy⟩
      intro hw c hc hstar d hd
      exact star hw c (List.mem_head?_append_of_mem_head? hc) hstar d
        (List.mem_head?_append_of_mem_head? hd)

/-- Similar words may be put together unless a `*` comes to stand there whose gap has changed. -/
theorem append {x y : List Word} (ha : Similar a x) (hb : Similar b y)
    (hstar : ∀ w ∈ b.head?, w.kind = .asterisk → ∀ v ∈ y.head?, (v.gap = [] ↔ w.gap = [])) :
    Similar (a ++ b) (x ++ y) := by
  -- only the gap of the first word of `b` is at stake, and only behind an identifier
  induction ha with
  | nil => exact hb
  | @cons w v ws vs kind text star h ih =>
    refine .cons kind text ?_ ih
    intro hw c hc hc' d hd
    cases h with
    | nil => exact hstar c hc hc' d hd
    | cons => exact star hw c hc hc' d hd

/-- A word that is no identifier goes in front of similar words. -/
theorem cons_word {w : Word} (h : Similar ws vs) (hw : w.kind ≠ .ident) :
    Similar (w :: ws) (w :: vs) :=
  .cons rfl rfl (fun hw' => absurd hw' hw) h

/-- Any word goes in front of similar words that begin with no `*`. -/
theorem cons_head (w : Word) (h : Similar ws vs) (hws : ∀ a ∈ ws.head?, a.kind ≠ .asterisk) :
    Similar (w :: ws) (w :: vs) :=
  .cons rfl rfl (fun _ a ha hstar => absurd hstar (hws a ha)) h

/-- Similar words on both sides of a word that is no identifier. -/
theorem append_cons {x y : List Word} {w : Word} (ha : Similar a x) (hw : w.kind ≠ .ident)
    (hb : Similar b y) : Similar (a ++ w :: b) (x ++ w :: y) := by
  refine ha.append (hb.cons_word hw) ?_
  intro u hu _ v hv
  rw [Option.mem_unique hu hv]

/-- Without a `*`, no gap counts. -/
theorem map_flush (h : ∀ w ∈ ws, w.kind ≠ .asterisk) : Similar ws (ws.map flush) := by
  induction ws with
  | nil => exact .nil
  | cons w ws ih =>
    obtain ⟨-, hws⟩ := List.forall_mem_cons.mp h
    refine .cons rfl rfl ?_ (ih hws)
    intro _ a ha hstar
    exact absurd hstar (hws a (List.mem_of_mem_head? ha))

end Similar

/-! ## Section 2: The productions -/

namespace TypeExpr

/-- The operators between atomic types. -/
inductive Operator where
  | bar
  | amp
  deriving DecidableEq, Repr

/-- The kind of word that an operator is. -/
def Operator.kind : Operator → Kind
  | .bar => .bar
  | .amp => .amp

/-- The brackets that close items. -/
inductive Closer where
  | gt
  | rbrace
  | rparen
  deriving DecidableEq, Repr

/-- The kind of word that a closing bracket is. -/
def Closer.kind : Closer → Kind
  | .gt => .gt
  | .rbrace => .rbrace
  | .rparen => .rparen

/-- The kinds of phrase. -/
inductive Category where
  | type
  /-- Atomic types with the given operator between them. -/
  | chain (operator : Operator)
  | atomic
  /-- A basic type; `nullable` if it stands after a `?`. -/
  | basic (nullable : Bool)
  /-- A shape, the word `static` or a name: what may take arguments. -/
  | base
  /-- The word `static` or a name: what a constant may be taken of. -/
  | owner
  | name
  /-- A name without the backslash in front. -/
  | parts
  | constant
  | entry
  | param
  /-- The marks and the name of a parameter. -/
  | binder
  /-- The parameters of a callable with the parenthesis that closes them. -/
  | signature
  /-- Items with commas between them, and what closes them. -/
  | items (item : Category) (close : Closer)

/-- The words form a phrase. -/
inductive Derives : Category → List Word → Prop where
  -- types
  | first {operator : Operator} {ws : List Word} (h : Derives .atomic ws) : Derives (.chain operator) ws
  | next {operator : Operator} {o : Word} {ws vs : List Word} (h : Derives (.chain operator) ws)
      (ho : o.kind = operator.kind) (h' : Derives .atomic vs) : Derives (.chain operator) (ws ++ o :: vs)
  | union {ws : List Word} (h : Derives (.chain .bar) ws) : Derives .type ws
  | intersection {ws : List Word} (h : Derives (.chain .amp) ws) : Derives .type ws
  -- atomic types
  | paren {l r : Word} {ws : List Word} (hl : l.kind = .lparen) (h : Derives .type ws)
      (hr : r.kind = .rparen) : Derives .atomic (l :: (ws ++ [r]))
  | this {w : Word} (hw : w.kind = .this) : Derives .atomic [w]
  | literal {w : Word} (hw : w.kind = .str ∨ w.kind = .int) : Derives .atomic [w]
  | nullable {q : Word} {ws : List Word} (hq : q.kind = .question) (h : Derives (.basic true) ws) :
      Derives .atomic (q :: ws)
  | basic {ws : List Word} (h : Derives (.basic false) ws) : Derives .atomic ws
  | brackets {l r : Word} {ws : List Word} (h : Derives .atomic ws) (hl : l.kind = .lbrack)
      (hr : r.kind = .rbrack) : Derives .atomic (ws ++ [l, r])
  -- basic types
  | plain {nullable : Bool} {ws : List Word} (h : Derives .base ws) : Derives (.basic nullable) ws
  | generic {nullable : Bool} {l : Word} {ws vs : List Word} (h : Derives .base ws)
      (hl : l.kind = .lt) (h' : Derives (.items .type .gt) vs) :
      Derives (.basic nullable) (ws ++ l :: vs)
  | callable {nullable : Bool} {w : Word} (hw : w.kind = .callable) : Derives (.basic nullable) [w]
  | call {nullable : Bool} {w l : Word} {ws : List Word} (hw : w.kind = .callable)
      (hl : l.kind = .lparen) (h : Derives .signature ws) : Derives (.basic nullable) (w :: l :: ws)
  | result {nullable : Bool} {w l c : Word} {ws vs : List Word} (hw : w.kind = .callable)
      (hl : l.kind = .lparen) (h : Derives .signature ws) (hc : c.kind = .colon)
      (h' : Derives .type vs) : Derives (.basic nullable) (w :: l :: (ws ++ c :: vs))
  | constant {c : Word} {ws vs : List Word} (h : Derives .owner ws) (hc : c.kind = .doubleColon)
      (h' : Derives .constant vs) : Derives (.basic false) (ws ++ c :: vs)
  -- shapes
  | container {w : Word} (hw : w.kind = .array ∨ w.kind = .object) : Derives .base [w]
  | shape {w l : Word} {ws : List Word} (hw : w.kind = .array ∨ w.kind = .object)
      (hl : l.kind = .lbrace) (h : Derives (.items .entry .rbrace) ws) : Derives .base (w :: l :: ws)
  | entry {k c : Word} {optional : Bool} {qs ws : List Word}
      (hk : k.kind ∈ [Kind.ident, .int, .str, .array, .object, .callable, .static])
      (hq : Mark .question optional qs) (hc : c.kind = .colon) (h : Derives .type ws) :
      Derives .entry (k :: (qs ++ c :: ws))
  -- parameters
  | noParams {r : Word} (hr : r.kind = .rparen) : Derives .signature [r]
  | params {ws : List Word} (h : Derives (.items .param .rparen) ws) : Derives .signature ws
  | bare {ws : List Word} (h : Derives .type ws) : Derives .param ws
  | named {ws vs : List Word} (h : Derives .type ws) (h' : Derives .binder vs) :
      Derives .param (ws ++ vs)
  | default {e d : Word} {ws vs : List Word} (h : Derives .type ws) (h' : Derives .binder vs)
      (he : e.kind = .equals) (hd : d.kind ∈ [Kind.str, .int, .ident]) :
      Derives .param (ws ++ vs ++ [e, d])
  | binder {byRef variadic : Bool} {as es : List Word} {v : Word} (ha : Mark .amp byRef as)
      (he : Mark .ellipsis variadic es) (hv : v.kind = .var) : Derives .binder (as ++ es ++ [v])
  -- items
  | last {item : Category} {close : Closer} {trailing : Bool} {c : Word} {ws ms : List Word}
      (h : Derives item ws) (hm : Mark .comma trailing ms) (hc : c.kind = close.kind) :
      Derives (.items item close) (ws ++ (ms ++ [c]))
  | cons {item : Category} {close : Closer} {m : Word} {ws vs : List Word} (h : Derives item ws)
      (hm : m.kind = .comma) (h' : Derives (.items item close) vs) :
      Derives (.items item close) (ws ++ m :: vs)
  -- names
  | owner {ws : List Word} (h : Derives .owner ws) : Derives .base ws
  | static {w : Word} (hw : w.kind = .static) : Derives .owner [w]
  | name {ws : List Word} (h : Derives .name ws) : Derives .owner ws
  | relative {ws : List Word} (h : Derives .parts ws) : Derives .name ws
  | absolute {b : Word} {ws : List Word} (hb : b.kind = .backslash) (h : Derives .parts ws) :
      Derives .name (b :: ws)
  | part {w : Word} (hw : w.kind = .ident) : Derives .parts [w]
  | parts {w b : Word} {ws : List Word} (hw : w.kind = .ident) (hb : b.kind = .backslash)
      (h : Derives .parts ws) : Derives .parts (w :: b :: ws)
  -- constants
  | any {a : Word} (ha : a.kind = .asterisk) : Derives .constant [a]
  | exact {w : Word} (hw : w.kind = .ident) : Derives .constant [w]
  | ending {w a : Word} (hw : w.kind = .ident) (ha : a.kind = .asterisk) (hgap : a.gap = []) :
      Derives .constant [w, a]

/-! ## Section 3: What the readers accept is derivable -/

/-- Words that are similar to a spelling form a phrase. -/
def Admits {α : Type} (c : Category) (G : Grammar α) : Prop :=
  ∀ ⦃x : α⦄ ⦃ws : List Word⦄ ⦃js : List Joint⦄, G x ws js → ∀ ⦃vs : List Word⦄, Similar ws vs →
    Derives c vs

/-- A mark is one among similar words too. -/
theorem Mark.similar {kind : Kind} {b : Bool} {ws vs : List Word} (h : Mark kind b ws)
    (hvs : Similar ws vs) : Mark kind b vs := by
  cases h with
  | absent =>
    rw [hvs.eq_nil]
    exact .absent
  | present hw =>
    obtain ⟨v, us, rfl, hv, hus⟩ := hvs.exists_cons
    rw [hus.eq_nil]
    exact .present (hv.trans hw)

/-- The parts of a name are derivable. -/
theorem admits_parts : Admits .parts SpelledParts := by
  intro parts ws js h
  induction h with
  | last hw =>
    intro vs hvs
    obtain ⟨v, us, rfl, hv, hus⟩ := hvs.exists_cons
    rw [hus.eq_nil]
    exact .part (hv.trans hw)
  | cons hw hb _ ih =>
    intro vs hvs
    obtain ⟨v, us, rfl, hv, hus⟩ := hvs.exists_cons
    obtain ⟨b, xs, rfl, hb', hxs⟩ := hus.exists_cons
    exact .parts (hv.trans hw) (hb'.trans hb) (ih hxs)

theorem admits_name : Admits .name SpelledName := by
  intro n ws js h vs hvs
  cases h with
  | relative h => exact .relative (admits_parts h hvs)
  | absolute hb h =>
    obtain ⟨b, us, rfl, hb', hus⟩ := hvs.exists_cons
    exact .absolute (hb'.trans hb) (admits_parts h hus)

/-- So is the name of a constant. -/
theorem admits_constant : Admits .constant SpelledConstant := by
  intro name ws js h vs hvs
  cases h with
  | any ha =>
    obtain ⟨a, us, rfl, ha', hus⟩ := hvs.exists_cons
    rw [hus.eq_nil]
    exact .any (ha'.trans ha)
  | exact hw =>
    obtain ⟨v, us, rfl, hv, hus⟩ := hvs.exists_cons
    rw [hus.eq_nil]
    exact .exact (hv.trans hw)
  | ending hw ha hgap =>
    cases hvs with
    | cons hv _ hstar h =>
      obtain ⟨a, us, rfl, ha', hus⟩ := h.exists_cons
      obtain rfl := hus.eq_nil
      -- here alone a gap counts
      exact .ending (hv.trans hw) (ha'.trans ha) ((hstar hw _ rfl ha a rfl).mpr hgap)

/-- So is a binder. -/
theorem admits_binder {b : Bool × Bool × Text} {ws : List Word} (h : SpelledBinder b ws)
    {vs : List Word} (hvs : Similar ws vs) : Derives .binder vs := by
  cases h with
  | mk ha he hv =>
    obtain ⟨us, xs, rfl, hus, hxs⟩ := hvs.exists_append
    obtain ⟨as, es, rfl, has, hes⟩ := hus.exists_append
    obtain ⟨v, ys, rfl, hv', hys⟩ := hxs.exists_cons
    rw [hys.eq_nil]
    exact .binder (ha.similar has) (he.similar hes) (hv'.trans hv)

/-- So is a list of items, each of which is. -/
theorem admits_items {α : Type} {Item : Grammar α} {item : Category} (hitem : Admits item Item)
    (close : Closer) {xs : List α} {ws : List Word} (h : SpelledItems Item close.kind xs ws)
    {vs : List Word} (hvs : Similar ws vs) : Derives (.items item close) vs := by
  -- one case per rule of the list: the last item, one with a comma behind it, and one before others
  induction h generalizing vs with
  | last h hc =>
    obtain ⟨us, ys, rfl, hus, hys⟩ := hvs.exists_append
    obtain ⟨c, zs, rfl, hc', hzs⟩ := hys.exists_cons
    rw [hzs.eq_nil]
    exact .last (hitem h hus) .absent (hc'.trans hc)
  | trailing h hm hc =>
    obtain ⟨us, ys, rfl, hus, hys⟩ := hvs.exists_append
    obtain ⟨m, zs, rfl, hm', hzs⟩ := hys.exists_cons
    obtain ⟨c, rs, rfl, hc', hrs⟩ := hzs.exists_cons
    rw [hrs.eq_nil]
    exact .last (hitem h hus) (.present (hm'.trans hm)) (hc'.trans hc)
  | cons h hm _ ih =>
    obtain ⟨us, ys, rfl, hus, hys⟩ := hvs.exists_append
    obtain ⟨m, zs, rfl, hm', hzs⟩ := hys.exists_cons
    exact .cons (hitem h hus) (hm'.trans hm) (ih hzs)

section Inner

variable {Inner : Grammar TypeExpr} (hinner : Admits .type Inner)

include hinner

/-- The entry of a shape is derivable when its type is. -/
theorem admits_entry : Admits .entry (SpelledEntry Inner) := by
  intro e ws js h vs hvs
  cases h with
  | @mk k c _ qs _ _ _ hk hq hc hty =>
    obtain ⟨k', us, rfl, hk', hus⟩ := hvs.exists_cons
    obtain ⟨qs', xs, rfl, hqs, hxs⟩ := hus.exists_append
    obtain ⟨c', ys, rfl, hc', hys⟩ := hxs.exists_cons
    have hkey : k'.kind ∈ [Kind.ident, .int, .str, .array, .object, .callable, .static] := by
      rw [hk']
      revert hk
      cases k.kind <;> simp [isKey]
    exact .entry hkey (hq.similar hqs) (hc'.trans hc) (hinner hty hys)

/-- So is the parameter of a callable. -/
theorem admits_param : Admits .param (SpelledParam Inner) := by
  intro p ws js h vs hvs
  cases h with
  | bare hty => exact .bare (hinner hty hvs)
  | named hty hb _ =>
    obtain ⟨us, bs, rfl, hus, hbs⟩ := hvs.exists_append
    exact .named (hinner hty hus) (admits_binder hb hbs)
  | @default _ _ _ _ _ _ _ e d hty hb _ he hd =>
    obtain ⟨xs, ys, rfl, hxs, hys⟩ := hvs.exists_append
    obtain ⟨us, bs, rfl, hus, hbs⟩ := hxs.exists_append
    obtain ⟨e', zs, rfl, he', hzs⟩ := hys.exists_cons
    obtain ⟨d', rs, rfl, hd', hrs⟩ := hzs.exists_cons
    rw [hrs.eq_nil]
    have hvalue : d'.kind ∈ [Kind.str, .int, .ident] := by
      rw [hd']
      revert hd
      cases d.kind <;> simp [isDefault]
    exact .default (hinner hty hus) (admits_binder hb hbs) (he'.trans he) hvalue

/-- So are the parameters between parentheses. -/
theorem admits_signature {ps : List (Param TypeExpr)} {ws vs : List Word}
    (h : SpelledSignature Inner ps ws) (hvs : Similar ws vs) : Derives .signature vs := by
  cases h with
  | empty hr =>
    obtain ⟨r, us, rfl, hr', hus⟩ := hvs.exists_cons
    rw [hus.eq_nil]
    exact .noParams (hr'.trans hr)
  | params hps => exact .params (admits_items (admits_param hinner) .rparen hps hvs)

/-- So is an array or an object, with braces or without. -/
theorem admits_container {w : Word} {es : List (Entry TypeExpr)} {ws : List Word} {js : List Joint}
    (hw : w.kind = .array ∨ w.kind = .object) (h : SpelledEntries Inner es ws js) {vs : List Word}
    (hvs : Similar (w :: ws) vs) : Derives .base vs := by
  obtain ⟨v, us, rfl, hv, hus⟩ := hvs.exists_cons
  rw [← hv] at hw
  cases h with
  | none =>
    rw [hus.eq_nil]
    exact .container hw
  | some hl hes =>
    obtain ⟨l, xs, rfl, hl', hxs⟩ := hus.exists_cons
    exact .shape hw (hl'.trans hl) (admits_items (admits_entry hinner) .rbrace hes hxs)

/-- So is a callable. -/
theorem admits_callable {w : Word} {ty : TypeExpr} {ws : List Word} {js : List Joint}
    (hw : w.kind = .callable) (h : SpelledCallable Inner ty ws js) {vs : List Word}
    (hvs : Similar (w :: ws) vs) (nullable : Bool) : Derives (.basic nullable) vs := by
  obtain ⟨v, us, rfl, hv, hus⟩ := hvs.exists_cons
  rw [← hv] at hw
  cases h with
  | bare =>
    rw [hus.eq_nil]
    exact .callable hw
  | plain hl hps =>
    obtain ⟨l, xs, rfl, hl', hxs⟩ := hus.exists_cons
    exact .call hw (hl'.trans hl) (admits_signature hinner hps hxs)
  | result hl hps hc hr =>
    obtain ⟨l, xs, rfl, hl', hxs⟩ := hus.exists_cons
    obtain ⟨ys, zs, rfl, hys, hzs⟩ := hxs.exists_append
    obtain ⟨c, rs, rfl, hc', hrs⟩ := hzs.exists_cons
    exact .result hw (hl'.trans hl) (admits_signature hinner hps hys) (hc'.trans hc) (hinner hr hrs)

omit hinner in
/-- So is the owner of a constant, a name or `static`. -/
theorem admits_owner {n : Name} {ws : List Word} {js : List Joint} {allowed : Bool}
    (h : SpelledHead Inner (.named n, allowed) ws js) {vs : List Word} (hvs : Similar ws vs) :
    Derives .owner vs := by
  cases h with
  | callable _ h => cases h
  | static hw =>
    obtain ⟨v, us, rfl, hv, hus⟩ := hvs.exists_cons
    rw [hus.eq_nil]
    exact .static (hv.trans hw)
  | named hn => exact .name (admits_name hn hvs)

/-- So is a type that may have arguments. -/
theorem admits_base {ty : TypeExpr} {ws : List Word} {js : List Joint}
    (h : SpelledHead Inner (ty, true) ws js) {vs : List Word} (hvs : Similar ws vs) :
    Derives .base vs := by
  cases h with
  | array hw hes => exact admits_container hinner (.inl hw) hes hvs
  | object hw hes => exact admits_container hinner (.inr hw) hes hvs
  | static hw => exact .owner (admits_owner (@SpelledHead.static Inner _ hw) hvs)
  | named hn => exact .owner (.name (admits_name hn hvs))

/-- So is it with its arguments or its constant. -/
theorem admits_basic (nullable : Bool) : Admits (.basic nullable) (SpelledBasic Inner nullable) := by
  intro ty ws js h vs hvs
  cases h with
  | plain hty =>
    cases hty with
    | closed hty =>
      cases hty with
      | callable hw hty => exact admits_callable hinner hw hty hvs nullable
    | plain hty => exact .plain (admits_base hinner hty hvs)
    | generic hty hl hargs =>
      obtain ⟨us, xs, rfl, hus, hxs⟩ := hvs.exists_append
      obtain ⟨l, ys, rfl, hl', hys⟩ := hxs.exists_cons
      exact .generic (admits_base hinner hty hus) (hl'.trans hl) (admits_items hinner .gt hargs hys)
  | constant hn hnull hc hname =>
    obtain ⟨us, xs, rfl, hus, hxs⟩ := hvs.exists_append
    obtain ⟨c, ys, rfl, hc', hys⟩ := hxs.exists_cons
    subst hnull
    have howner : Derives .owner us := by
      cases hn with
      | closed hn | plain hn => exact admits_owner hn hus
    exact .constant howner (hc'.trans hc) (admits_constant hname hys)

/-- So is a type without the brackets behind it. -/
theorem admits_primary : Admits .atomic (SpelledPrimary Inner) := by
  intro ty ws js h vs hvs
  cases h with
  | paren hl hty hr =>
    obtain ⟨l, us, rfl, hl', hus⟩ := hvs.exists_cons
    obtain ⟨xs, ys, rfl, hxs, hys⟩ := hus.exists_append
    obtain ⟨r, zs, rfl, hr', hzs⟩ := hys.exists_cons
    rw [hzs.eq_nil]
    exact .paren (hl'.trans hl) (hinner hty hxs) (hr'.trans hr)
  | this hw =>
    obtain ⟨v, us, rfl, hv, hus⟩ := hvs.exists_cons
    rw [hus.eq_nil]
    exact .this (hv.trans hw)
  | literal hw =>
    obtain ⟨v, us, rfl, hv, hus⟩ := hvs.exists_cons
    rw [← hv] at hw
    rw [hus.eq_nil]
    exact .literal hw
  | nullable hq hty =>
    obtain ⟨q, us, rfl, hq', hus⟩ := hvs.exists_cons
    exact .nullable (hq'.trans hq) (admits_basic hinner true hty hus)
  | basic hty => exact .basic (admits_basic hinner false hty hvs)

/-- So is a member of a union or an intersection. -/
theorem admits_atomic : Admits .atomic (SpelledAtomic Inner) := by
  intro ty ws js h vs hvs
  cases h with
  | mk hty =>
    induction hty generalizing vs with
    | plain hty => exact admits_primary hinner hty hvs
    | array _ _ hl hr ih =>
      obtain ⟨us, xs, rfl, hus, hxs⟩ := hvs.exists_append
      obtain ⟨l, ys, rfl, hl', hys⟩ := hxs.exists_cons
      obtain ⟨r, zs, rfl, hr', hzs⟩ := hys.exists_cons
      rw [hzs.eq_nil]
      exact .brackets (ih hus) (hl'.trans hl) (hr'.trans hr)

/-- The members after the first are added one by one. -/
theorem admits_members (operator : Operator) {joint : Joint} {tys : List TypeExpr} {ws : List Word}
    {js : List Joint} (h : SpelledMembers Inner operator.kind joint tys ws js) {us vs : List Word}
    (hus : Derives (.chain operator) us) (hvs : Similar ws vs) :
    Derives (.chain operator) (us ++ vs) := by
  -- the productions grow a chain to the right, so the induction carries the chain read so far
  induction h generalizing us vs with
  | last ho hty =>
    obtain ⟨o, xs, rfl, ho', hxs⟩ := hvs.exists_cons
    exact .next hus (ho'.trans ho) (admits_atomic hinner hty hxs)
  | cons ho hty _ _ ih =>
    obtain ⟨o, xs, rfl, ho', hxs⟩ := hvs.exists_cons
    obtain ⟨ys, zs, rfl, hys, hzs⟩ := hxs.exists_append
    have hnext := ih (.next hus (ho'.trans ho) (admits_atomic hinner hty hys)) hzs
    rwa [List.append_assoc, List.cons_append] at hnext

/-- So is a whole type. -/
theorem admits_compound : Admits .type (SpelledCompound Inner) := by
  intro ty ws js h vs hvs
  cases h with
  | single hty => exact .union (.first (admits_atomic hinner hty hvs))
  | union hty _ htys =>
    obtain ⟨us, xs, rfl, hus, hxs⟩ := hvs.exists_append
    exact .union (admits_members hinner .bar htys (.first (admits_atomic hinner hty hus)) hxs)
  | intersection hty _ htys =>
    obtain ⟨us, xs, rfl, hus, hxs⟩ := hvs.exists_append
    exact .intersection (admits_members hinner .amp htys (.first (admits_atomic hinner hty hus)) hxs)

end Inner

/-- What is similar to the spelling of a type is a type. -/
theorem derives_of_spelled (depth : Nat) : Admits .type (Spelled depth) := by
  induction depth with
  | zero =>
    intro ty ws js h
    exact h.elim
  | succ depth ih => exact admits_compound ih

/-! ## Section 4: Phrases stand on one line -/

theorem Mark.kind_eq {kind : Kind} {b : Bool} {ws : List Word} (h : Mark kind b ws) :
    ∀ w ∈ ws, w.kind = kind := by
  cases h with
  | absent => simp
  | present hw => simpa using hw

/-- No line break is part of a phrase. -/
theorem Derives.not_mem_newline {c : Category} {ws : List Word} (h : Derives c ws) :
    ∀ w ∈ ws, w.kind ≠ .newline := by
  -- induction on the derivation: no production has a line break among its words
  induction h with
  | first _ ih | union _ ih | intersection _ ih | basic _ ih | plain _ ih | params _ ih | bare _ ih
  | owner _ ih | name _ ih | relative _ ih => exact ih
  | @next operator o _ _ _ ho _ ih ih' =>
    have hno : o.kind ≠ .newline := by
      rw [ho]
      cases operator <;> decide
    exact List.forall_mem_append.mpr ⟨ih, List.forall_mem_cons.mpr ⟨hno, ih'⟩⟩
  | paren hl _ hr ih => simpa [hl, hr, or_imp, forall_and] using ih
  | this hw | callable hw | noParams hw | static hw | part hw | any hw | exact hw => simp [hw]
  | literal hw | container hw => rcases hw with hw | hw <;> simp [hw]
  | nullable hq _ ih => simpa [hq] using ih
  | brackets _ hl hr ih => simpa [hl, hr, or_imp, forall_and] using ih
  | generic _ hl _ ih ih' => simpa [hl, or_imp, forall_and] using ⟨ih, ih'⟩
  | call hw hl _ ih => simpa [hw, hl] using ih
  | result hw hl _ hc _ ih ih' => simpa [hw, hl, hc, or_imp, forall_and] using ⟨ih, ih'⟩
  | constant _ hc _ ih ih' => simpa [hc, or_imp, forall_and] using ⟨ih, ih'⟩
  | shape hw hl _ ih => rcases hw with hw | hw <;> simpa [hw, hl] using ih
  | @entry k c _ qs _ hk hq hc _ ih =>
    have hkey : k.kind ≠ .newline := by
      rintro h
      simp [h] at hk
    have hmark : ∀ w ∈ qs, w.kind ≠ .newline := fun w hw => by simp [hq.kind_eq w hw]
    simpa [hkey, hc, or_imp, forall_and] using ⟨hmark, ih⟩
  | named _ _ ih ih' => exact List.forall_mem_append.mpr ⟨ih, ih'⟩
  | @default e d _ _ _ _ he hd ih ih' =>
    have hvalue : d.kind ≠ .newline := by
      rintro h
      simp [h] at hd
    simpa [he, hvalue, or_imp, forall_and] using ⟨ih, ih'⟩
  | @binder _ _ as es _ ha he hv =>
    have has : ∀ w ∈ as, w.kind ≠ .newline := fun w hw => by simp [ha.kind_eq w hw]
    have hes : ∀ w ∈ es, w.kind ≠ .newline := fun w hw => by simp [he.kind_eq w hw]
    simpa [hv, or_imp, forall_and] using ⟨has, hes⟩
  | @last _ close _ c _ ms _ hm hc ih =>
    have hms : ∀ w ∈ ms, w.kind ≠ .newline := fun w hw => by simp [hm.kind_eq w hw]
    have hclose : c.kind ≠ .newline := by
      rw [hc]
      cases close <;> decide
    simpa [hclose, or_imp, forall_and] using ⟨ih, hms⟩
  | cons _ hm _ ih ih' => simpa [hm, or_imp, forall_and] using ⟨ih, ih'⟩
  | absolute hb _ ih => simpa [hb] using ih
  | parts hw hb _ ih => simpa [hw, hb] using ih
  | ending hw ha _ => simp [hw, ha]

end TypeExpr

end Docblock
