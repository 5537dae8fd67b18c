import Docblock.Proofs.Lexeme.Passing
import Docblock.TypeExpr.Parser

/-!
# Readers of types do not look at positions

A reader decides by the kinds, the texts and the gaps of its lexemes.  Their positions it only hands
on: to the lexemes that it leaves, and to the lexeme that it names when it refuses.  So reading
lexemes that stand elsewhere is reading the lexemes as they are and moving what comes out.

Where a lexeme is moved to may depend on all of its token.  That makes two uses of a move possible:
lines that stand further down are read alike, and a move that leaves alone just the lexemes that are
there shows that a reader can name no other.

## Contents

1. `moved`: tokens, lexemes, refusals and outcomes.
2. `Reader.Blind`: readers that commute with every move; single lexemes and lists.
3. `blind_readerTo`: the readers of types.
-/

namespace Docblock

/-! ## Section 1: Moves -/

/-- A token in its new place; `f` says where every token goes. -/
def Token.moved (f : Token → Position) (t : Token) : Token :=
  { t with pos := f t }

/-- A lexeme in its new place. -/
def Lexeme.moved (f : Token → Position) (t : Lexeme) : Lexeme :=
  { t with pos := f t.toToken }

/-- A refusal, with the lexeme it names in its new place. -/
def Fault.moved (f : Token → Position) (x : Fault) : Fault :=
  ⟨x.reason, x.found.map (Lexeme.moved f)⟩

/-- What comes of reading, with the lexeme of a refusal in its new place; `g` does the same for what
was read. -/
def Reader.movedBy {α : Type} (f : Token → Position) (g : α → α) : Except Fault α → Except Fault α
  | .ok x => .ok (g x)
  | .error fault => .error (fault.moved f)

/-- What a reader gives, with the lexemes it leaves or names in their new places. -/
abbrev Reader.movedOutcome {α : Type} (f : Token → Position) :
    Except Fault (α × List Lexeme) → Except Fault (α × List Lexeme) :=
  movedBy f fun out => (out.1, out.2.map (Lexeme.moved f))

variable {α β : Type} {f : Token → Position}

namespace Lexeme

@[simp] theorem moved_kind (t : Lexeme) : (t.moved f).kind = t.kind := rfl

@[simp] theorem moved_text (t : Lexeme) : (t.moved f).text = t.text := rfl

@[simp] theorem moved_gap (t : Lexeme) : (t.moved f).gap = t.gap := rfl

@[simp] theorem isGlued_moved (t : Lexeme) : (t.moved f).isGlued = t.isGlued := rfl

/-- Closing a gap and moving do not get in each other's way. -/
theorem closeUp_moved (t : Lexeme) : (t.moved f).closeUp = t.closeUp.moved f := rfl

@[simp] theorem source_moved (ts : List Lexeme) : source (ts.map (moved f)) = source ts := by
  simp [source, List.flatMap_map]

/-- Pairing tokens with their gaps takes no notice of where they stand. -/
theorem attachFrom_moved (gap : Text) (ts : List Token) :
    attachFrom gap (ts.map (Token.moved f)) = (attachFrom gap ts).map (moved f) := by
  induction ts generalizing gap with
  | nil => rfl
  | cons t ts ih =>
    rw [List.map_cons, attachFrom, attachFrom]
    -- a blank goes into the gap of the next token and is not moved itself
    by_cases hblank : t.kind = .blank
    · rw [if_pos hblank, if_pos (show (t.moved f).kind = .blank from hblank)]
      exact ih _
    · rw [if_neg hblank, if_neg (show ¬(t.moved f).kind = .blank from hblank), ih]
      rfl

end Lexeme

/-! ## Section 2: Single lexemes and lists -/

namespace Reader

/-- Reading lexemes elsewhere is reading them here and moving the outcome. -/
def Blind (r : Reader α) : Prop :=
  ∀ (f : Token → Position) (ts : List Lexeme),
    r (ts.map (Lexeme.moved f)) = movedOutcome f (r ts)

/-- A move goes through a sequence of steps if it goes through each.  The last step of a sequence may
use up the lexemes, so `g` need not be about lexemes that are left. -/
theorem bind_moved {g : β → β} {x y : Except Fault (α × List Lexeme)}
    {k k' : α × List Lexeme → Except Fault β} (hxy : y = movedOutcome f x)
    (hk : ∀ a rest, k' (a, rest.map (Lexeme.moved f)) = movedBy f g (k (a, rest))) :
    y >>= k' = movedBy f g (x >>= k) := by
  subst hxy
  cases x with
  | error fault => rfl
  | ok out => exact hk out.1 out.2

/-- A reader that expects something else names the first lexeme, wherever that stands. -/
theorem expecting_moved (what : Expected) (ts : List Lexeme) :
    Fault.expecting (α := α × List Lexeme) what (ts.map (Lexeme.moved f)) =
      movedOutcome f (Fault.expecting what ts) := by
  rw [Fault.expecting, List.head?_map]
  rfl

theorem at?_moved (kind : Kind) (ts : List Lexeme) :
    at? kind (ts.map (Lexeme.moved f)) = at? kind ts := by
  cases ts <;> rfl

/-- A lexeme is skipped before and after a move alike. -/
theorem skip_moved (kind : Kind) (ts : List Lexeme) :
    skip kind (ts.map (Lexeme.moved f)) =
      ((skip kind ts).1, (skip kind ts).2.map (Lexeme.moved f)) := by
  cases ts with
  | nil => rfl
  | cons t ts =>
    rw [List.map_cons, skip, skip, Lexeme.moved_kind]
    split <;> rfl

/-- A reader of one lexeme is no `Blind` reader, since it hands the lexeme on; so it moves what it has
read as well. -/
theorem blind_expect (kind : Kind) (f : Token → Position) (ts : List Lexeme) :
    expect kind (ts.map (Lexeme.moved f)) =
      (match expect kind ts with
        | .ok (t, rest) => .ok (t.moved f, rest.map (Lexeme.moved f))
        | .error fault => .error (fault.moved f)) := by
  cases ts with
  | nil => rfl
  | cons t ts =>
    rw [List.map_cons, expect, expect, Lexeme.moved_kind]
    split <;> rfl

/-- A step that expects a lexeme and goes on with its kind and its text. -/
theorem expect_bind_moved {g : β → β} {kind : Kind} {ts : List Lexeme}
    {k k' : Lexeme × List Lexeme → Except Fault β}
    (hk : ∀ t rest, k' (t.moved f, rest.map (Lexeme.moved f)) = movedBy f g (k (t, rest))) :
    expect kind (ts.map (Lexeme.moved f)) >>= k' = movedBy f g (expect kind ts >>= k) := by
  rw [blind_expect]
  cases expect kind ts with
  | error fault => rfl
  | ok out => exact hk out.1 out.2

/-- A list of items is read alike when each item is, with any bound on their number. -/
theorem Blind.listUpTo {item : Reader α} (hitem : item.Blind) (close : Kind) (n : Nat) :
    (listUpTo item close n).Blind := by
  intro f ts
  -- induction on the bound, which goes down with every item
  induction n generalizing ts with
  | zero => exact expecting_moved _ ts
  | succ n ih =>
    unfold Reader.listUpTo
    apply bind_moved (hitem f ts)
    intro first rest
    simp only [skip_moved]
    rcases skip .comma rest with ⟨comma, rest⟩
    cases comma with
    | true =>
      -- a list may end with a comma
      simp only [at?_moved]
      split
      · rw [← List.map_tail]
        rfl
      · apply bind_moved (ih rest)
        intro others rest
        rfl
    | false =>
      apply expect_bind_moved
      intro t rest
      rfl

theorem Blind.list {item : Reader α} (hitem : item.Blind) (close : Kind) :
    (list item close).Blind := by
  intro f ts
  unfold Reader.list
  rw [List.length_map]
  exact hitem.listUpTo close _ f ts

end Reader

/-! ## Section 3: The readers of types -/

namespace TypeExpr

open Reader

/-- The parts of a name are read by kinds alone. -/
theorem blind_nameParts : Blind nameParts := by
  intro f ts
  fun_induction nameParts ts with
  | case1 t ht u rest hu ih =>
    -- the name goes on behind a backslash
    rw [List.map_cons, List.map_cons, nameParts]
    simp only [Lexeme.moved_kind, Lexeme.moved_text, ht, hu, if_true]
    apply bind_moved ih
    intro parts rest
    rfl
  | case2 t ht u rest hu =>
    -- another lexeme ends the name
    rw [List.map_cons, List.map_cons, nameParts]
    simp only [Lexeme.moved_kind, Lexeme.moved_text, ht, hu, if_true, if_false]
    rfl
  | case3 t ht =>
    -- the name ends with the lexemes
    simp only [List.map_cons, List.map_nil, nameParts, Lexeme.moved_kind, Lexeme.moved_text, ht,
      if_true]
    rfl
  | case4 t rest ht =>
    -- there is no name
    rw [List.map_cons]
    unfold nameParts
    simp only [Lexeme.moved_kind, ht, if_false]
    exact expecting_moved _ (t :: rest)
  | case5 => rfl

theorem blind_nameReader : Blind nameReader := by
  intro f ts
  unfold nameReader
  simp only [skip_moved]
  apply bind_moved (blind_nameParts f _)
  intro parts rest
  rfl

/-- So is the name of a constant; whether the asterisk behind it is glued is told by its gap. -/
theorem blind_constantName : Blind constantName := by
  intro f ts
  unfold constantName
  -- a name may have a star behind it, so the second lexeme is looked at as well
  rcases ts with _ | ⟨t, _ | ⟨u, rest⟩⟩
  · rfl
  · simp only [List.map_cons, List.map_nil, Lexeme.moved_kind, Lexeme.moved_text]
    split
    · rfl
    · split <;> rfl
  · simp only [List.map_cons, Lexeme.moved_kind, Lexeme.moved_text, Lexeme.isGlued_moved,
      List.head?_map]
    split
    · rfl
    · split
      · by_cases hstar : u.kind = .asterisk
        · simp only [hstar, if_true]
          split <;> rfl
        · simp only [hstar, if_false]
          rfl
      · rfl

theorem blind_defaultValue : Blind defaultValue := by
  intro f ts
  cases ts with
  | nil => rfl
  | cons t ts =>
    simp only [defaultValue, List.map_cons, Lexeme.moved_kind, Lexeme.moved_text]
    split <;> rfl

/-- So are the marks and the variable of a parameter. -/
theorem blind_binder (named : Bool) : Blind (binder named) := by
  intro f ts
  unfold binder
  simp only [skip_moved]
  rcases skip .amp ts with ⟨byRef, rest⟩
  rcases skip .ellipsis rest with ⟨variadic, rest⟩
  cases rest with
  | nil =>
    simp only [List.map_nil]
    split <;> rfl
  | cons t rest =>
    simp only [List.map_cons, Lexeme.moved_kind, Lexeme.moved_text]
    split
    · rfl
    · split <;> rfl

/-- So are the brackets behind a type. -/
theorem blind_suffixes (ty : TypeExpr) : Blind (suffixes ty) := by
  intro f ts
  fun_induction suffixes ty ts with
  | case1 ty t ht u rest hu ih =>
    -- a pair of brackets, and perhaps more of them
    rw [List.map_cons, List.map_cons, suffixes]
    simp only [Lexeme.moved_kind, ht, hu, if_true]
    exact ih
  | case2 ty t ht u rest hu =>
    -- a bracket that is not closed
    rw [List.map_cons, List.map_cons, suffixes]
    simp only [Lexeme.moved_kind, ht, hu, if_true, if_false]
    exact expecting_moved _ (u :: rest)
  | case3 ty t ht =>
    -- nothing follows the opening bracket
    simp only [List.map_cons, List.map_nil, suffixes, Lexeme.moved_kind, ht, if_true]
    rfl
  | case4 ty t rest ht =>
    -- no bracket follows
    rw [List.map_cons]
    unfold suffixes
    simp only [Lexeme.moved_kind, ht, if_false]
    rfl
  | case5 => rfl

/-- So is a constant behind a type. -/
theorem blind_member (base : TypeExpr) (isNullable : Bool) : Blind (member base isNullable) := by
  intro f ts
  unfold member
  simp only [skip_moved]
  rcases skip .doubleColon ts with ⟨found, rest⟩
  cases found with
  | false => rfl
  | true =>
    simp only [List.head?_map]
    split
    · split
      · rfl
      · apply bind_moved (blind_constantName f _)
        intro name rest
        rfl
    · rfl

section Inner

variable {inner : Reader TypeExpr} (hinner : inner.Blind)

include hinner

/-- An entry of a shape is read alike when the type in it is. -/
theorem blind_entry : Blind (entry inner) := by
  intro f ts
  cases ts with
  | nil => rfl
  | cons t ts =>
    simp only [entry, List.map_cons, Lexeme.moved_kind, Lexeme.moved_text, skip_moved]
    split
    · apply expect_bind_moved
      intro colon rest
      apply bind_moved (hinner f rest)
      intro ty rest
      rfl
    · rfl

/-- So are the braces of a shape. -/
theorem blind_entries : Blind (entries inner) := by
  intro f ts
  unfold entries
  simp only [skip_moved]
  rcases skip .lbrace ts with ⟨found, rest⟩
  cases found with
  | true => exact (blind_entry hinner).list _ f rest
  | false => rfl

/-- So is the parameter of a tag. -/
theorem blind_tagParam : Blind (tagParam inner) := by
  intro f ts
  unfold tagParam
  apply bind_moved (hinner f ts)
  intro ty rest
  apply bind_moved (blind_binder true f rest)
  intro marks rest
  rfl

/-- So is the parameter of a callable. -/
theorem blind_signatureParam : Blind (signatureParam inner) := by
  intro f ts
  unfold signatureParam
  apply bind_moved (hinner f ts)
  intro ty rest
  apply bind_moved (blind_binder false f rest)
  rintro ⟨byRef, variadic, name⟩ rest
  simp only [at?_moved]
  -- with a default value, or without
  split
  · rw [← List.map_tail]
    apply bind_moved (blind_defaultValue f _)
    intro value rest
    rfl
  · rfl

/-- So are the parameters between parentheses. -/
theorem blind_signature : Blind (signature inner) := by
  intro f ts
  unfold signature
  rw [at?_moved]
  split
  · rw [← List.map_tail]
    rfl
  · exact (blind_signatureParam hinner).list _ f ts

/-- So is what follows the word `callable`. -/
theorem blind_callableTail : Blind (callableTail inner) := by
  intro f ts
  unfold callableTail
  simp only [skip_moved]
  rcases skip .lparen ts with ⟨found, rest⟩
  cases found with
  | false => rfl
  | true =>
    apply bind_moved (blind_signature hinner f rest)
    intro params rest
    simp only [skip_moved]
    rcases skip .colon rest with ⟨colon, rest⟩
    -- a callable without a colon has no result type
    cases colon with
    | false => rfl
    | true =>
      apply bind_moved (hinner f rest)
      intro result rest
      rfl

/-- So is the word a type begins with and what belongs to it. -/
theorem blind_head : Blind (head inner) := by
  intro f ts
  cases ts with
  | nil => rfl
  | cons t ts =>
    unfold head
    simp only [List.map_cons, Lexeme.moved_kind]
    -- one case for each kind of lexeme that a type can begin with
    split
    · apply bind_moved (blind_entries hinner f ts)
      intro es rest
      rfl
    · apply bind_moved (blind_entries hinner f ts)
      intro es rest
      rfl
    · apply bind_moved (blind_callableTail hinner f ts)
      intro ty rest
      rfl
    · rfl
    · apply bind_moved (blind_nameReader f (t :: ts))
      intro name rest
      rfl
    · apply bind_moved (blind_nameReader f (t :: ts))
      intro name rest
      rfl
    · rfl

/-- So is a type up to its arguments and its constant. -/
theorem blind_basic (isNullable : Bool) : Blind (basic inner isNullable) := by
  intro f ts
  unfold basic
  apply bind_moved (blind_head hinner f ts)
  rintro ⟨base, allowed⟩ rest
  have harguments : arguments inner base allowed (rest.map (Lexeme.moved f)) =
      movedOutcome f (arguments inner base allowed rest) := by
    unfold arguments
    rw [at?_moved]
    split
    · rw [← List.map_tail]
      apply bind_moved (hinner.list _ f _)
      intro args rest
      rfl
    · rfl
  apply bind_moved harguments
  intro base rest
  exact blind_member base isNullable f rest

/-- So is a type without the brackets behind it. -/
theorem blind_primary : Blind (primary inner) := by
  intro f ts
  cases ts with
  | nil => rfl
  | cons t ts =>
    have hbasic : basic inner false (t.moved f :: ts.map (Lexeme.moved f)) =
        movedOutcome f (basic inner false (t :: ts)) := blind_basic hinner false f (t :: ts)
    unfold primary
    simp only [List.map_cons, Lexeme.moved_kind, Lexeme.moved_text]
    -- parentheses, `$this`, literals, a question mark, and the six kinds a basic type begins with
    split
    · apply bind_moved (hinner f ts)
      intro ty rest
      apply expect_bind_moved
      intro close rest
      rfl
    · rfl
    · rfl
    · rfl
    · apply bind_moved (blind_basic hinner true f ts)
      intro ty rest
      rfl
    · exact hbasic
    · exact hbasic
    · exact hbasic
    · exact hbasic
    · exact hbasic
    · exact hbasic
    · rfl

theorem blind_atomic : Blind (atomic inner) := by
  intro f ts
  unfold atomic
  apply bind_moved (blind_primary hinner f ts)
  intro ty rest
  exact blind_suffixes ty f rest

/-- So are the other members of a union. -/
theorem blind_unionTail (n : Nat) : Blind (unionTail (atomic inner) n) := by
  intro f ts
  induction n generalizing ts with
  | zero => rfl
  | succ n ih =>
    unfold unionTail
    simp only [skip_moved]
    rcases skip .bar ts with ⟨found, rest⟩
    cases found with
    | false => rfl
    | true =>
      apply bind_moved (blind_atomic hinner f rest)
      intro ty rest
      apply bind_moved (ih rest)
      intro others rest
      rfl

/-- So are those of an intersection. -/
theorem blind_intersectionTail (n : Nat) : Blind (intersectionTail (atomic inner) n) := by
  intro f ts
  induction n generalizing ts with
  | zero => rfl
  | succ n ih =>
    -- the reader looks at the lexeme behind the ampersand as well
    rcases ts with _ | ⟨t, _ | ⟨u, ts⟩⟩
    · rfl
    · rfl
    · unfold intersectionTail
      simp only [List.map_cons, Lexeme.moved_kind]
      by_cases hamp : t.kind = .amp
      · by_cases hstarts : u.kind.startsType = true
        · simp only [hamp, hstarts, if_true]
          apply bind_moved (blind_atomic hinner f (u :: ts))
          intro ty rest
          apply bind_moved (ih rest)
          intro others rest
          rfl
        · -- what follows the `&` is drawn up and moved, in either order
          simp only [hamp, hstarts, if_true, Lexeme.closeUp_moved]
          rfl
      · simp only [hamp, if_false]
        rfl

/-- So is a whole type. -/
theorem blind_compound : Blind (compound inner) := by
  intro f ts
  unfold compound
  apply bind_moved (blind_atomic hinner f ts)
  intro first rest
  simp only [at?_moved, List.length_map]
  -- the operator behind the first type decides; the number of lexemes bounds how many follow
  split
  · apply bind_moved (blind_unionTail hinner _ f rest)
    intro others rest
    rfl
  · apply bind_moved (blind_intersectionTail hinner _ f rest)
    intro others rest
    rfl

end Inner

/-- The reader of types, at every depth. -/
theorem blind_readerTo (depth : Nat) : Blind (readerTo depth) := by
  induction depth with
  | zero =>
    -- a type that is nested too deep is refused at the lexeme with which it goes on
    intro f ts
    rw [readerTo, readerTo, List.head?_map]
    rfl
  | succ depth ih => exact blind_compound ih

theorem blind_reader : Blind reader :=
  blind_readerTo maxDepth

end TypeExpr

end Docblock
