import Docblock.Proofs.Stream.Mirror
import Docblock.Stream.TypeExpr

/-!
# Types along a text

The steps for a type do what the reader of types does, at every depth.  There is one lemma for each
reader of the grammar.  Where the reader of an intersection hands an `&` back, the steps go back to
it; the other steps only go on.

## Contents

1. Leaves: names, constants, defaults and marks.
2. Shapes, callables, and the parts of a basic type.
3. `mirrors_typeTo`: types at every depth.
-/

namespace Docblock.Parse

open Lexeme (closeFirst)
open Reader (at? skip)
open Surroundings (Ends Faces ne_stop_of_endsLine)

variable {c : Surroundings} {depth : Nat} {r : Run} {ts : List Lexeme}

/-! ## Section 1: Leaves -/

/-- The parts of a name, with a bound on them that suffices. -/
theorem mirrors_nameParts (n : Nat) (h : c.Faces depth r ts) (hn : ts.length < n) :
    c.Ends depth ts.length (nameParts n r) (TypeExpr.nameParts ts) := by
  obtain ⟨n, rfl⟩ := Nat.exists_eq_add_one_of_ne_zero (Nat.ne_zero_of_lt hn)
  fun_induction TypeExpr.nameParts ts generalizing n r with
  | case1 t ht u rest hu ih =>
    -- the name goes on behind a backslash
    apply Ends.expect_cons h rfl ht
    intro r h
    apply Ends.got_bind h rfl (Reader.skip_cons hu)
    intro r h
    rw [if_pos rfl]
    rw [List.length_cons, List.length_cons] at hn
    obtain ⟨n, rfl⟩ := Nat.exists_eq_add_one_of_ne_zero (show n ≠ 0 by omega)
    apply (ih h n (by omega)).bind
    intro parts r rest h hrest
    exact .pure h le_rfl _
  | case2 t ht u rest hu =>
    -- another lexeme ends the name
    apply Ends.expect_cons h rfl ht
    intro r h
    apply Ends.got_bind h rfl (Reader.skip_of_at? (by simpa using hu))
    intro r h
    exact .pure h le_rfl _
  | case3 t ht =>
    -- the name ends with the lexemes
    apply Ends.expect_cons h rfl ht
    intro r h
    apply Ends.got_bind h rfl (Reader.skip_of_at? rfl)
    intro r h
    exact .pure h le_rfl _
  | case4 t rest ht => exact .expect_refuse h rfl (by simpa using ht)
  | case5 => exact .expect_refuse h rfl rfl

/-- A name, absolute or relative. -/
theorem mirrors_name : Mirrors depth name TypeExpr.nameReader := by
  intro c r ts h
  unfold name TypeExpr.nameReader
  cases hskip : skip .backslash ts with
  | mk absolute rest =>
    apply Ends.got_bind h rfl hskip
    intro r h
    rw [look_bind]
    apply (mirrors_nameParts _ h h.length_lt_room).bind
    intro parts r rest h hrest
    exact .pure h le_rfl _

/-- The name of a constant. Whether the asterisk is glued to it, the run has noted on the way. -/
theorem mirrors_constantName : Mirrors depth constantName TypeExpr.constantName := by
  intro c r ts h
  unfold constantName TypeExpr.constantName
  rw [peek_bind]
  cases ts with
  | nil =>
    rw [h.tok_nil]
    rcases c.kind_stop with hk | hk | hk
    · simp only [hk]
      exact .refuse h _
    · simp only [hk]
      exact .refuse h _
    · simp only [hk]
      exact .refuse h _
  | cons t rest =>
    rw [h.tok_cons]
    dsimp only
    cases hk : t.kind with
    | asterisk =>
      apply Ends.next_bind h (by simp [hk])
      intro r h
      exact .pure h le_rfl _
    | ident =>
      rw [if_neg (by simp), if_pos rfl]
      cases rest with
      | nil =>
        apply Ends.next_bind h (by simp [hk])
        intro r h
        rw [peek_bind, h.tok_nil, if_neg (Surroundings.kind_stop_ne rfl)]
        exact .pure h le_rfl _
      | cons u rest =>
        -- the run has noted whether the star is glued to the name
        have hspaced := h.spaced_next (by simp [hk]) (by simp [hk])
        have hnext := h.next (by simp [hk])
        apply Ends.of_next
        rw [peek_bind, hnext.tok_cons]
        by_cases hu : u.kind = .asterisk
        · simp only [hu, if_true]
          rw [look_bind, hspaced]
          apply Ends.next_bind hnext (by simp [hu])
          intro r h
          cases hglued : u.isGlued with
          | true => exact .pure h le_rfl _
          | false => exact .refuse h _
        · simp only [hu, if_false]
          exact .pure hnext le_rfl _
    | _ => exact .refuse h _

/-- The default value of a parameter. -/
theorem mirrors_defaultValue : Mirrors depth defaultValue TypeExpr.defaultValue := by
  intro c r ts h
  unfold defaultValue TypeExpr.defaultValue
  rw [peek_bind]
  cases ts with
  | nil =>
    have hstop : TypeExpr.isDefault c.stop.kind = false := by
      rcases c.kind_stop with hk | hk | hk <;> rw [hk] <;> rfl
    rw [h.tok_nil, hstop]
    exact .refuse h _
  | cons t rest =>
    rw [h.tok_cons]
    dsimp only
    split
    · next hk =>
      apply Ends.next_bind h
      · intro hstop
        rw [hstop] at hk
        cases hk
      intro r h
      exact .pure h le_rfl _
    · exact .refuse h _

/-- The marks and the variable of a parameter. -/
theorem mirrors_binder (named : Bool) : Mirrors depth (binder named) (TypeExpr.binder named) := by
  intro c r ts h
  unfold binder TypeExpr.binder
  cases hamp : skip .amp ts with
  | mk byRef rest =>
    apply Ends.got_bind h rfl hamp
    intro r h
    dsimp only
    cases hellipsis : skip .ellipsis rest with
    | mk variadic rest =>
      apply Ends.got_bind h rfl hellipsis
      intro r h
      dsimp only
      rw [peek_bind]
      -- behind the marks stands a lexeme, or the token that ends the line
      cases rest with
      | nil =>
        rw [h.tok_nil, if_neg (Surroundings.kind_stop_ne rfl)]
        split
        · exact .refuse h _
        · exact .pure h le_rfl _
      | cons t rest =>
        rw [h.tok_cons]
        dsimp only
        split
        · next hvar =>
          apply Ends.next_bind h (by simp [hvar])
          intro r h
          exact .pure h le_rfl _
        · split
          · exact .refuse h _
          · exact .pure h le_rfl _

/-! ## Section 2: Parts of a type -/

/-- A constant behind a type. -/
theorem mirrors_member (base : TypeExpr) (isNullable : Bool) :
    Mirrors depth (member base isNullable) (TypeExpr.member base isNullable) := by
  intro c r ts h
  unfold member TypeExpr.member
  cases hskip : skip .doubleColon ts with
  | mk found rest =>
    apply Ends.got_bind h rfl hskip
    intro r h
    cases found with
    | false => exact .pure h le_rfl _
    | true =>
      rw [if_pos rfl]
      -- only a name has constants, and only outside a nullable type
      cases base with
      | named n =>
        cases isNullable with
        | true => exact .refuse h _
        | false =>
          apply (mirrors_constantName h).bind
          intro name r rest h hrest
          exact .pure h le_rfl _
      | _ => exact .refuse h _

/-- The brackets behind a type, with a bound on them that suffices. -/
theorem ends_suffixes (n : Nat) (ty : TypeExpr) (h : c.Faces depth r ts) (hn : ts.length < n) :
    c.Ends depth ts.length (suffixes n ty r) (TypeExpr.suffixes ty ts) := by
  obtain ⟨n, rfl⟩ := Nat.exists_eq_add_one_of_ne_zero (Nat.ne_zero_of_lt hn)
  fun_induction TypeExpr.suffixes ty ts generalizing n r with
  | case1 ty t ht u rest hu ih =>
    -- a pair of brackets, and perhaps more of them
    apply Ends.got_bind h rfl (Reader.skip_cons ht)
    intro r h
    rw [if_pos rfl]
    apply Ends.expect_cons h rfl hu
    intro r h
    rw [List.length_cons, List.length_cons] at hn
    obtain ⟨n, rfl⟩ := Nat.exists_eq_add_one_of_ne_zero (show n ≠ 0 by omega)
    exact ih h n (by omega)
  | case2 ty t ht u rest hu =>
    -- a bracket that is not closed
    apply Ends.got_bind h rfl (Reader.skip_cons ht)
    intro r h
    rw [if_pos rfl]
    exact .expect_refuse h rfl (by simpa using hu)
  | case3 ty t ht =>
    -- nothing follows the opening bracket
    apply Ends.got_bind h rfl (Reader.skip_cons ht)
    intro r h
    rw [if_pos rfl]
    exact .expect_refuse h rfl rfl
  | case4 ty t rest ht =>
    -- no bracket follows
    apply Ends.got_bind h rfl (Reader.skip_of_at? (by simpa using ht))
    intro r h
    exact .pure h le_rfl _
  | case5 =>
    -- nothing is left
    apply Ends.got_bind h rfl (Reader.skip_of_at? rfl)
    intro r h
    exact .pure h le_rfl _

section Inner

variable {inner : Parse TypeExpr} {reader : Reader TypeExpr} (hinner : Mirrors depth inner reader)

include hinner

/-- An entry of a shape. -/
theorem mirrors_entry : Mirrors depth (entry inner) (TypeExpr.entry reader) := by
  intro c r ts h
  unfold entry TypeExpr.entry
  rw [peek_bind]
  cases ts with
  | nil =>
    have hstop : TypeExpr.isKey c.stop.kind = false := by
      rcases c.kind_stop with hk | hk | hk <;> rw [hk] <;> rfl
    rw [h.tok_nil, hstop]
    exact .refuse h _
  | cons t rest =>
    rw [h.tok_cons]
    dsimp only
    split
    · next hkey =>
      apply Ends.next_bind h
      · intro hstop
        rw [hstop] at hkey
        cases hkey
      intro r h
      cases hskip : skip .question rest with
      | mk optional rest =>
        apply Ends.got_bind h rfl hskip
        intro r h
        apply Ends.expect_bind h rfl
        intro colon r rest _ h
        apply (hinner h).bind
        intro ty r rest h hrest
        exact .pure h le_rfl _
    · exact .refuse h _

/-- The braces of a shape. -/
theorem mirrors_entries : Mirrors depth (entries inner) (TypeExpr.entries reader) := by
  intro c r ts h
  unfold entries TypeExpr.entries
  cases hskip : skip .lbrace ts with
  | mk found rest =>
    apply Ends.got_bind h rfl hskip
    intro r h
    cases found with
    | true => exact (mirrors_entry hinner).list rfl h
    | false => exact .pure h le_rfl _

/-- The parameter of a tag. -/
theorem mirrors_tagParam : Mirrors depth (tagParam inner) (TypeExpr.tagParam reader) := by
  intro c r ts h
  unfold tagParam TypeExpr.tagParam
  apply (hinner h).bind
  intro ty r rest h hrest
  apply (mirrors_binder true h).bind
  intro marks r rest h hrest
  exact .pure h le_rfl _

/-- The parameter of a callable. -/
theorem mirrors_signatureParam :
    Mirrors depth (signatureParam inner) (TypeExpr.signatureParam reader) := by
  intro c r ts h
  unfold signatureParam TypeExpr.signatureParam
  apply (hinner h).bind
  intro ty r rest h hrest
  apply (mirrors_binder false h).bind
  rintro ⟨byRef, variadic, name⟩ r rest h hrest
  dsimp only
  have hequals : at? .equals rest = (r.place.tok.kind == .equals) := h.at?_eq rfl
  rw [peek_bind, ← hequals]
  split
  · next hdefault =>
    rw [Bool.and_eq_true] at hdefault
    obtain ⟨t, rest, rfl, ht⟩ := Reader.at?_eq_true.mp hdefault.2
    apply Ends.next_bind h (by simp [ht])
    intro r h
    apply (mirrors_defaultValue h).bind
    intro value r rest h hrest
    exact .pure h le_rfl _
  · exact .pure h le_rfl _

/-- The parameters between parentheses. -/
theorem mirrors_signature : Mirrors depth (signature inner) (TypeExpr.signature reader) := by
  intro c r ts h
  unfold signature TypeExpr.signature
  rw [peek_bind]
  -- both look whether the parenthesis is closed at once
  have hclose : at? .rparen ts = (r.place.tok.kind == .rparen) := h.at?_eq rfl
  by_cases hat : at? .rparen ts = true
  · obtain ⟨t, rest, rfl, ht⟩ := Reader.at?_eq_true.mp hat
    rw [if_pos hat, h.tok_cons, if_pos ht]
    apply Ends.next_bind h (by simp [ht])
    intro r h
    exact .pure h le_rfl _
  · have htok : r.place.tok.kind ≠ .rparen := by
      rw [hclose] at hat
      simpa using hat
    rw [if_neg hat, if_neg htok]
    exact (mirrors_signatureParam hinner).list rfl h

/-- What follows the word `callable`. -/
theorem mirrors_callableTail :
    Mirrors depth (callableTail inner) (TypeExpr.callableTail reader) := by
  intro c r ts h
  unfold callableTail TypeExpr.callableTail
  cases hskip : skip .lparen ts with
  | mk found rest =>
    apply Ends.got_bind h rfl hskip
    intro r h
    cases found with
    | false => exact .pure h le_rfl _
    | true =>
      rw [if_pos rfl]
      apply (mirrors_signature hinner h).bind
      intro params r rest h hrest
      dsimp only
      cases hcolon : skip .colon rest with
      | mk colon rest =>
        apply Ends.got_bind h rfl hcolon
        intro r h
        -- a callable without a colon has no result type
        cases colon with
        | false => exact .pure h le_rfl _
        | true =>
          rw [if_pos rfl]
          apply (hinner h).bind
          intro result r rest h hrest
          exact .pure h le_rfl _

/-- The word a type begins with and what belongs to it. -/
theorem mirrors_head : Mirrors depth (head inner) (TypeExpr.head reader) := by
  intro c r ts h
  unfold head TypeExpr.head
  rw [peek_bind]
  cases ts with
  | nil =>
    rw [h.tok_nil]
    rcases c.kind_stop with hk | hk | hk
    · simp only [hk]
      exact .refuse h _
    · simp only [hk]
      exact .refuse h _
    · simp only [hk]
      exact .refuse h _
  | cons t rest =>
    rw [h.tok_cons]
    dsimp only
    -- one case for each kind of token that a basic type can begin with
    cases hk : t.kind with
    | array =>
      apply Ends.next_bind h (by simp [hk])
      intro r h
      apply (mirrors_entries hinner h).bind
      intro es r rest h hrest
      exact .pure h le_rfl _
    | object =>
      apply Ends.next_bind h (by simp [hk])
      intro r h
      apply (mirrors_entries hinner h).bind
      intro es r rest h hrest
      exact .pure h le_rfl _
    | callable =>
      apply Ends.next_bind h (by simp [hk])
      intro r h
      apply (mirrors_callableTail hinner h).bind
      intro ty r rest h hrest
      exact .pure h le_rfl _
    | static =>
      apply Ends.next_bind h (by simp [hk])
      intro r h
      exact .pure h le_rfl _
    | ident =>
      apply (mirrors_name h).bind
      intro n r rest h hrest
      exact .pure h le_rfl _
    | backslash =>
      apply (mirrors_name h).bind
      intro n r rest h hrest
      exact .pure h le_rfl _
    | _ => exact .refuse h _

/-- The arguments of a type. -/
theorem mirrors_arguments (base : TypeExpr) (allowed : Bool) :
    Mirrors depth (arguments inner base allowed) (TypeExpr.arguments reader base allowed) := by
  intro c r ts h
  unfold arguments TypeExpr.arguments
  have hat : at? .lt ts = (r.place.tok.kind == .lt) := h.at?_eq rfl
  rw [peek_bind, ← hat]
  split
  · next hargs =>
    rw [Bool.and_eq_true] at hargs
    obtain ⟨t, rest, rfl, ht⟩ := Reader.at?_eq_true.mp hargs.2
    apply Ends.next_bind h (by simp [ht])
    intro r h
    apply (hinner.list rfl h).bind
    intro args r rest h hrest
    exact .pure h le_rfl _
  · exact .pure h le_rfl _

/-- A type up to its arguments and its constant. -/
theorem mirrors_basic (isNullable : Bool) :
    Mirrors depth (basic inner isNullable) (TypeExpr.basic reader isNullable) := by
  intro c r ts h
  unfold basic TypeExpr.basic
  apply (mirrors_head hinner h).bind
  rintro ⟨base, allowed⟩ r rest h hrest
  apply (mirrors_arguments hinner base allowed h).bind
  intro base r rest h hrest
  exact mirrors_member base isNullable h

/-! ## Section 3: Types -/

/-- A type without the brackets behind it. -/
theorem mirrors_primary : Mirrors depth (primary inner) (TypeExpr.primary reader) := by
  intro c r ts h
  unfold primary TypeExpr.primary
  rw [peek_bind]
  cases ts with
  | nil =>
    -- what stops the lexemes begins no type
    rw [h.tok_nil]
    rcases c.kind_stop with hk | hk | hk
    · simp only [hk]
      exact .refuse h _
    · simp only [hk]
      exact .refuse h _
    · simp only [hk]
      exact .refuse h _
  | cons t rest =>
    have hbasic := mirrors_basic hinner false h
    rw [h.tok_cons]
    dsimp only
    cases hk : t.kind with
    | lparen =>
      apply Ends.next_bind h (by simp [hk])
      intro r h
      apply (hinner h).bind
      intro ty r rest h hrest
      apply Ends.expect_bind h rfl
      intro close r rest _ h
      exact .pure h le_rfl _
    | this =>
      apply Ends.next_bind h (by simp [hk])
      intro r h
      exact .pure h le_rfl _
    | str =>
      apply Ends.next_bind h (by simp [hk])
      intro r h
      exact .pure h le_rfl _
    | int =>
      apply Ends.next_bind h (by simp [hk])
      intro r h
      exact .pure h le_rfl _
    | question =>
      apply Ends.next_bind h (by simp [hk])
      intro r h
      apply (mirrors_basic hinner true h).bind
      intro ty r rest h hrest
      exact .pure h le_rfl _
    | array => exact hbasic
    | object => exact hbasic
    | callable => exact hbasic
    | static => exact hbasic
    | ident => exact hbasic
    | backslash => exact hbasic
    | _ => exact .refuse h _

theorem mirrors_atomic : Mirrors depth (atomic inner) (TypeExpr.atomic reader) := by
  intro c r ts h
  unfold atomic TypeExpr.atomic
  apply (mirrors_primary hinner h).bind
  intro ty r rest h hrest
  rw [look_bind]
  exact ends_suffixes _ ty h h.length_lt_room

/-- The other members of a union, with bounds that suffice on both sides. -/
theorem ends_unionTail (n m : Nat) (h : c.Faces depth r ts) (hn : ts.length < n)
    (hm : ts.length ≤ m) :
    c.Ends depth ts.length (unionTail (atomic inner) n r)
      (TypeExpr.unionTail (TypeExpr.atomic reader) m ts) := by
  -- induction on the bound of the steps; that of the reader goes down with it
  induction n generalizing m r ts with
  | zero => exact absurd hn (Nat.not_lt_zero _)
  | succ n ih =>
    unfold unionTail
    cases m with
    | zero =>
      -- no lexeme is left for the reader, and none for the steps
      obtain rfl := List.length_eq_zero_iff.mp (Nat.le_zero.mp hm)
      apply Ends.got_bind h rfl (Reader.skip_of_at? rfl)
      intro r h
      exact .pure h le_rfl _
    | succ m =>
      unfold TypeExpr.unionTail
      cases hskip : skip .bar ts with
      | mk found rest =>
        apply Ends.got_bind h rfl hskip
        intro r' h'
        cases found with
        | false => exact .pure h' le_rfl _
        | true =>
          -- the bar is one lexeme, so both numbers still suffice
          obtain ⟨t, rfl, -⟩ := Reader.skip_eq_true.mp hskip
          rw [List.length_cons] at hn hm
          rw [if_pos rfl]
          apply (mirrors_atomic hinner h').bind
          intro ty r rest h hrest
          apply (ih m h (by omega) (by omega)).bind
          intro others r rest h hrest
          exact .pure h le_rfl _

/-- The steps go back to an `&` where the reader hands it back. -/
theorem ends_intersectionTail (n m : Nat) (h : c.Faces depth r ts) (hn : ts.length < n)
    (hm : ts.length ≤ m) :
    c.Ends depth ts.length (intersectionTail (atomic inner) n r)
      (TypeExpr.intersectionTail (TypeExpr.atomic reader) m ts) := by
  -- induction on the bound of the steps, as for a union
  induction n generalizing m r ts with
  | zero => exact absurd hn (Nat.not_lt_zero _)
  | succ n ih =>
    unfold intersectionTail
    rw [peek_bind]
    cases ts with
    | nil =>
      have hreader : TypeExpr.intersectionTail (TypeExpr.atomic reader) m [] = .ok ([], []) := by
        cases m <;> rfl
      rw [h.tok_nil, if_neg (Surroundings.kind_stop_ne rfl), hreader]
      exact .pure h le_rfl _
    | cons t ts =>
      obtain ⟨m, rfl⟩ := Nat.exists_eq_add_one_of_ne_zero (Nat.ne_zero_of_lt hm)
      rw [List.length_cons] at hn hm
      rw [h.tok_cons]
      by_cases hamp : t.kind = .amp
      · rw [if_pos hamp]
        -- where no type follows, the steps stand at the `&` again as they did before it
        obtain ⟨r', hbackup, h'⟩ := h.exists_backup hamp
        have hnext := h.next (by simp [hamp])
        have hback : c.Ends depth (t :: ts).length
            ((backup >>= fun _ => (pure [] : Parse (List TypeExpr)))
              { r with place := r.place.next })
            (.ok ([], t :: closeFirst ts)) := by
          rw [bind_of_ok hbackup]
          refine .pure h' ?_ _
          rw [List.length_cons, List.length_cons, Lexeme.length_closeFirst]
        cases ts with
        | nil =>
          -- nothing follows the `&`
          have hstop : c.stop.kind.startsType = false := by
            rcases c.kind_stop with hk | hk | hk <;> rw [hk] <;> rfl
          rw [move_bind, peek_bind, hnext.tok_nil, hstop]
          exact hback
        | cons u ts =>
          rw [move_bind, peek_bind, hnext.tok_cons]
          unfold TypeExpr.intersectionTail
          dsimp only
          rw [if_pos hamp]
          by_cases hstarts : u.kind.startsType = true
          · rw [if_pos hstarts, if_pos hstarts]
            have hlength : (u :: ts).length ≤ (t :: u :: ts).length := Nat.le_succ _
            refine Ends.mono ?_ hlength
            apply (mirrors_atomic hinner hnext).bind
            intro ty r rest h hrest
            apply (ih m h (by omega) (by omega)).bind
            intro others r rest h hrest
            exact .pure h le_rfl _
          · rw [if_neg hstarts, if_neg hstarts]
            exact hback
      · rw [if_neg hamp]
        have hreader : TypeExpr.intersectionTail (TypeExpr.atomic reader) (m + 1) (t :: ts) =
            .ok ([], t :: ts) := by
          cases ts with
          | nil => rfl
          | cons u ts => exact if_neg hamp
        rw [hreader]
        exact .pure h le_rfl _

/-- A type whose inner types are mirrored. -/
theorem mirrors_compound : Mirrors depth (compound inner) (TypeExpr.compound reader) := by
  intro c r ts h
  unfold compound TypeExpr.compound
  apply (mirrors_atomic hinner h).bind
  intro first r rest h hrest
  have hbar : at? .bar rest = (r.place.tok.kind == .bar) := h.at?_eq rfl
  dsimp only
  rw [peek_bind, look_bind]
  by_cases hat : at? .bar rest = true
  · have htok : r.place.tok.kind = .bar := by
      rw [hbar] at hat
      simpa using hat
    rw [if_pos hat, if_pos htok]
    apply (ends_unionTail hinner _ _ h h.length_lt_room le_rfl).bind
    intro others r rest h hrest
    exact .pure h le_rfl _
  · have htok : r.place.tok.kind ≠ .bar := by
      rw [hbar] at hat
      simpa using hat
    rw [if_neg hat, if_neg htok]
    apply (ends_intersectionTail hinner _ _ h h.length_lt_room le_rfl).bind
    intro others r rest h hrest
    exact .pure h le_rfl _

end Inner

/-- The steps for a type do what the reader does that has as many levels left as they have. -/
theorem mirrors_typeTo (n : Nat) (hdepth : depth + n = TypeExpr.maxDepth) :
    Mirrors depth (typeTo (n + 1)) (TypeExpr.readerTo n) := by
  -- induction on the frames that may still be opened: what the run counts up, the reader counts
  -- down
  induction n generalizing depth with
  | zero =>
    intro c r ts h
    unfold typeTo
    rw [look_bind, h.depth, if_pos (by omega)]
    exact .refuse h _
  | succ n ih =>
    intro c r ts h
    unfold typeTo
    rw [look_bind, h.depth, if_neg (by omega)]
    apply Ends.inside h
    intro r h
    exact mirrors_compound (ih (by omega)) h

/-- A type that stands in no other. -/
theorem mirrors_type : Mirrors 0 type TypeExpr.reader :=
  mirrors_typeTo TypeExpr.maxDepth (Nat.zero_add _)

end Docblock.Parse
