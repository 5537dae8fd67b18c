import Docblock.Proofs.TypeExpr.Canonical
import Docblock.Proofs.TypeExpr.Complete

/-!
# Types that begin with the word `static`

The word `static` is a type, and it is also the first word of others: of a union or an intersection
whose first member it begins, of its brackets, its arguments and its constants.  Where a reader takes
the word for something else, what is left of such a type begins with an operator or a bracket, and
that begins no type.

- `TypeExpr.opensStatic`: whether a type begins with the word.
- `staticFront_spelled`: the words that spell a type, as far as they show this.
-/

namespace Docblock.TypeExpr

mutual

/-- Is `static` the first word of a type? -/
def opensStatic : TypeExpr → Bool
  | .union members | .intersection members => firstOpensStatic members
  | .array element => element.opensStatic
  | .generic base _ => base.opensStatic
  | .constant owner _ => owner.opensStatic
  | .named name => name == .static
  | _ => false

/-- The same question about the first of some types. -/
def firstOpensStatic : List TypeExpr → Bool
  | [] => false
  | member :: _ => member.opensStatic

end

/-- The kinds of the words that go on with the type `static`. -/
def afterStatic : List Kind :=
  [.bar, .amp, .lbrack, .lt, .doubleColon]

theorem startsType_of_mem_afterStatic {k : Kind} (h : k ∈ afterStatic) : k.startsType = false := by
  revert h
  cases k <;> decide

/-- How the words of a type begin: with another word than `static`, with that word alone, or with
that word and one that goes on with it. -/
inductive StaticFront : TypeExpr → List Word → Prop where
  | other {ty : TypeExpr} {w : Word} {ws : List Word} (hw : w.kind ≠ .static)
      (hty : ty.opensStatic = false) : StaticFront ty (w :: ws)
  | alone {w : Word} (hw : w.kind = .static) : StaticFront (.named .static) [w]
  | followed {ty : TypeExpr} {w u : Word} {ws : List Word} (hw : w.kind = .static)
      (hty : ty.opensStatic = true) (hne : ty ≠ .named .static) (hu : u.kind ∈ afterStatic) :
      StaticFront ty (w :: u :: ws)

/-- A type that goes on with another begins as that one does. -/
theorem StaticFront.append {ty ty' : TypeExpr} {ws : List Word} (h : StaticFront ty ws)
    (hopens : ty'.opensStatic = ty.opensStatic) (hne : ty' ≠ .named .static) {u : Word} {k : Kind}
    (hu : u.kind = k) (hk : k ∈ afterStatic) (vs : List Word) : StaticFront ty' (ws ++ u :: vs) := by
  cases h with
  | other hw hty => exact .other hw (hopens.trans hty)
  | alone hw => exact .followed hw hopens hne (hu ▸ hk)
  | followed hw hty _ hu' => exact .followed hw (hopens.trans hty) hne hu'

section Rules

variable {Inner : Grammar TypeExpr} {ty : TypeExpr} {ws : List Word} {js : List Joint}

/-- A name that is spelled is made of identifiers, and the word `static` is none. -/
theorem staticFront_name {n : Name} (h : SpelledName n ws js) (hws : Genuine ws) :
    StaticFront (.named n) ws := by
  have hparts : ∀ part ∈ n.parts, Token.Forms .ident part := by
    cases h with
    | relative h => exact (h.forms hws).2
    | absolute _ h => exact (h.forms (genuine_cons.mp hws).2).2
  -- the parts are identifiers, and `static` is none
  have hne : n ≠ .static := by
    rintro rfl
    have hword : ¬Token.Forms .ident "static".toList := by decide
    exact hword (hparts _ List.mem_cons_self)
  obtain ⟨w, vs, rfl, hw | hw⟩ := h.starts
  · exact .other (by simp [hw]) (by simpa [opensStatic] using hne)
  · exact .other (by simp [hw]) (by simpa [opensStatic] using hne)

/-- Nor does any head but the word alone begin with `static`. -/
theorem staticFront_head {isOpen : Bool} (h : SpelledHead Inner (ty, isOpen) ws js)
    (hws : Genuine ws) : StaticFront ty ws := by
  cases h with
  | array hw _ | object hw _ => exact .other (by simp [hw]) rfl
  | callable hw hty =>
    refine .other (by simp [hw]) ?_
    cases hty <;> rfl
  -- the word alone
  | static hw => exact .alone hw
  | named hn => exact staticFront_name hn hws

theorem staticFront_applied (h : SpelledApplied Inner ty ws js) (hws : Genuine ws) :
    StaticFront ty ws := by
  cases h with
  | closed hty | plain hty => exact staticFront_head hty hws
  -- the words behind the head begin with a bracket
  | generic hty hl _ =>
    exact (staticFront_head hty (genuine_append.mp hws).1).append (by rfl) (by simp) hl (by decide) _

theorem staticFront_basic {isNullable : Bool} (h : SpelledBasic Inner isNullable ty ws js)
    (hws : Genuine ws) : StaticFront ty ws := by
  cases h with
  | plain hty => exact staticFront_applied hty hws
  | constant hn _ hc _ =>
    exact (staticFront_applied hn (genuine_append.mp hws).1).append (by rfl) (by simp) hc (by decide) _

/-- A primary type begins with its bracket, its mark or its head. -/
theorem staticFront_primary (h : SpelledPrimary Inner ty ws js) (hws : Genuine ws) :
    StaticFront ty ws := by
  -- one case per form of the grammar
  cases h with
  | paren hl _ _ => exact .other (by simp [hl]) rfl
  | this hw => exact .other (by simp [hw]) rfl
  | literal hw => exact .other (by rcases hw with hw | hw <;> simp [hw]) rfl
  | nullable hq _ => exact .other (by simp [hq]) rfl
  | basic hty => exact staticFront_basic hty hws

theorem staticFront_suffixed (h : SpelledSuffixed Inner ty ws js) (hws : Genuine ws) :
    StaticFront ty ws := by
  induction h with
  | plain hty => exact staticFront_primary hty hws
  | array _ _ hl _ ih =>
    exact (ih (genuine_append.mp hws).1).append (by rfl) (by simp) hl (by decide) _

theorem staticFront_atomic (h : SpelledAtomic Inner ty ws js) (hws : Genuine ws) :
    StaticFront ty ws := by
  cases h with
  | mk hty => exact staticFront_suffixed hty hws

theorem staticFront_compound (h : SpelledCompound Inner ty ws js) (hws : Genuine ws) :
    StaticFront ty ws := by
  cases h with
  | single hty => exact staticFront_atomic hty hws
  | union hty _ htys | intersection hty _ htys =>
    -- the other members begin with their operator
    obtain ⟨o, vs, rfl, ho, -⟩ := htys.starts
    exact (staticFront_atomic hty (genuine_append.mp hws).1).append (by rfl) (by simp) ho (by decide) vs

end Rules

/-- The words of a type begin with `static` just if the type says so. -/
theorem staticFront_spelled {depth : Nat} {ty : TypeExpr} {ws : List Word} {js : List Joint}
    (h : Spelled depth ty ws js) (hws : Genuine ws) : StaticFront ty ws := by
  cases depth with
  | zero => exact h.elim
  | succ depth => exact staticFront_compound h hws

end Docblock.TypeExpr
