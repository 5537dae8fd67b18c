import Docblock.Proofs.Comment.LineEnds
import Docblock.Proofs.Stream.Raw
import Docblock.Proofs.Stream.TypeExpr

/-!
# Lines along a text

The steps for the fields of a tag do what the reader of its fields does.  What is left of the line
is its description, and the run has come to the token that ends the line.  So it reads line after
line, with the results and the refusals that there are if every line is read on its own.

## Contents

1. `Parse.mirrors_fields`: the fields of a tag.
2. `Surroundings.Finishes`, `Surroundings.Faces.finishes_line`: a line, from its marker to its end.
3. `Surroundings.Faces.finishes_lines`: all lines of a comment.
-/

namespace Docblock

open Lexeme (attachFrom closeFirst)
open Reader (at? skip)
open Surroundings (Ends Faces)
open Text (Blanks)

/-! ## Section 1: The fields of a tag -/

namespace Parse

open TypeExpr (reader)

/-- The machine decides on the head of a method as the reader does. -/
theorem mirrors_methodHead (isStatic : Bool) (first : TypeExpr) :
    Mirrors 0 (methodHead isStatic first) (Tag.methodHead isStatic first) := by
  intro c r ts h
  unfold methodHead Tag.methodHead
  rw [peek_bind]
  have hat : at? .lparen ts = (r.place.tok.kind == .lparen) := h.at?_eq rfl
  by_cases hparen : at? .lparen ts = true
  · have htok : r.place.tok.kind = .lparen := by
      rw [hat] at hparen
      simpa using hparen
    rw [if_pos hparen, if_pos htok]
    -- the type is the name of the method
    cases first with
    | named n =>
      dsimp only
      cases n.single? with
      | some name => exact .pure h le_rfl _
      | none => exact .refuse h _
    | _ => exact .refuse h _
  · have htok : r.place.tok.kind ≠ .lparen := by
      rw [hat] at hparen
      simpa using hparen
    rw [if_neg hparen, if_neg htok]
    -- otherwise the name is expected
    apply Ends.expect_bind h rfl
    intro name r rest _ h
    exact .pure h le_rfl _

/-- So it does for the whole method. -/
theorem mirrors_method : Mirrors 0 method Tag.readMethod := by
  intro c r ts h
  unfold method Tag.readMethod
  cases hstatic : skip .static ts with
  | mk isStatic rest =>
    apply Ends.got_bind h rfl hstatic
    intro r h
    apply (mirrors_type h).bind
    intro first r rest h hrest
    apply (mirrors_methodHead isStatic first h).bind
    rintro ⟨isStatic, result, name⟩ r rest h hrest
    apply Ends.expect_bind h rfl
    intro _ r rest _ h
    apply (mirrors_signature mirrors_type h).bind
    intro params r rest h hrest
    dsimp only
    cases hcolon : skip .colon rest with
    | mk colon rest =>
      apply Ends.got_bind h rfl hcolon
      intro r h
      -- a colon behind the parameters is refused
      cases colon with
      | true => exact .refuse h _
      | false => exact .pure h le_rfl _

/-- The fields of a tag. -/
theorem mirrors_fields (keyword : Keyword) : Mirrors 0 (fields keyword) (Tag.fields keyword) := by
  intro c r ts h
  -- one case per tag, part by part
  cases keyword with
  | param =>
    apply (mirrors_tagParam mirrors_type h).bind
    intro p r rest h hrest
    exact .pure h le_rfl _
  | typed keyword =>
    apply (mirrors_type h).bind
    intro ty r rest h hrest
    exact .pure h le_rfl _
  | property access =>
    apply (mirrors_type h).bind
    intro ty r rest h hrest
    apply Ends.expect_bind h rfl
    intro v r rest _ h
    exact .pure h le_rfl _
  | method =>
    apply (mirrors_method h).bind
    intro m r rest h hrest
    exact .pure h le_rfl _
  | var =>
    apply (mirrors_type h).bind
    intro ty r rest h hrest
    rw [peek_bind]
    cases rest with
    | nil =>
      -- the line ends, and what ends it is no variable
      rw [h.tok_nil, if_neg (Surroundings.kind_stop_ne rfl)]
      exact .pure h le_rfl _
    | cons t rest =>
      rw [h.tok_cons]
      unfold Tag.optionalVar
      dsimp only
      -- a variable may follow
      by_cases hvar : t.kind = .var
      · rw [if_pos hvar, if_pos hvar]
        apply Ends.next_bind h (by simp [hvar])
        intro r h
        exact .pure h le_rfl _
      · rw [if_neg hvar, if_neg hvar]
        exact .pure h le_rfl _
  | template =>
    apply Ends.expect_bind h rfl
    intro name r rest _ h
    dsimp only
    rw [peek_bind]
    cases rest with
    | nil =>
      -- the line ends, and what ends it opens no bound
      have hbound : opensBound c.stop = false := by
        have hident : c.stop.kind ≠ .ident := Surroundings.kind_stop_ne rfl
        simp [opensBound, hident]
      rw [h.tok_nil, hbound]
      exact .pure h le_rfl _
    | cons t rest =>
      rw [h.tok_cons, List.head?_cons, Option.any_some]
      by_cases hbound : Tag.isBoundWord t = true
      · have hopens : opensBound t.toToken = true := hbound
        have hident : t.kind = .ident := by
          unfold Tag.isBoundWord at hbound
          simpa using (Bool.and_eq_true_iff.mp hbound).1
        rw [if_pos hbound, if_pos hopens]
        apply Ends.next_bind h (by simp [hident])
        intro r h
        apply (mirrors_type h).bind
        intro bound r rest h hrest
        exact .pure h le_rfl _
      · have hopens : ¬opensBound t.toToken = true := hbound
        rw [if_neg hbound, if_neg hopens]
        exact .pure h le_rfl _
  | «alias» =>
    apply Ends.expect_bind h rfl
    intro name r rest _ h
    dsimp only
    cases hskip : skip .equals rest with
    | mk found rest =>
      apply Ends.got_bind h rfl hskip
      intro r h
      apply (mirrors_type h).bind
      intro ty r rest h hrest
      exact .pure h le_rfl _

end Parse

/-- All lines that some lexemes are cut into. -/
def SourceLine.all (stop : Token) (ts : List Lexeme) : List SourceLine :=
  (split stop ts).1 :: (split stop ts).2

namespace Surroundings

variable {α β : Type} {c : Surroundings} {r : Run} {t : Lexeme} {ts : List Lexeme}

/-! ## Section 2: One line -/

/-- Steps through what is left of a line come to its end with the result `y`, or refuse the text as
`y` says. -/
inductive Finishes (c : Surroundings) : Except Stop α × Run → Except SyntaxError α → Prop where
  | done {r : Run} (a : α) (hend : c.AtEnd r) : Finishes c (.ok a, r) (.ok a)
  | refused {r : Run} (e : SyntaxError) (hsound : r.Sound c.text) :
      Finishes c (.error (.refused e), r) (.error e)

/-- What a line finishes with may be put into another form. -/
theorem Finishes.map {x : Parse α} {y : Except SyntaxError α} (h : c.Finishes (x r) y) (f : α → β) :
    c.Finishes ((x >>= fun a => Pure.pure (f a)) r) (y.map f) := by
  generalize hrun : x r = out at h
  cases h with
  -- it ends at the same place
  | done a hend =>
    rw [Parse.bind_of_ok hrun]
    exact .done (f a) hend
  | refused e hsound =>
    rw [Parse.bind_of_error hrun]
    exact .refused e hsound

/-- What a reader of fields leaves stands on the line as well. -/
theorem inside_of_leftOf {rest : List Lexeme} {drawn : Bool} (h : LeftOf ts rest drawn)
    (hts : ∀ t ∈ ts, Inside t) : ∀ t ∈ rest, Inside t := by
  obtain ⟨us, hus, rfl⟩ := h
  have hinside : ∀ t ∈ us, Inside t := fun t ht => hts t (hus.subset ht)
  cases drawn with
  | false => exact hinside
  | true =>
    match us with
    | [] | [_] => exact hinside
    | t :: u :: us =>
      rw [if_pos rfl, Lexeme.drawUp]
      split
      · -- a lexeme that is drawn up has lost its gap
        rw [List.forall_mem_cons, List.forall_mem_cons] at hinside ⊢
        obtain ⟨ht, hu, hus⟩ := hinside
        exact ⟨ht, ⟨hu.endsLine, hu.solid, by simp [Blanks, Lexeme.closeUp]⟩, hus⟩
      · exact hinside

/-- The fields of a tag and its description. -/
theorem Faces.finishes_structured (h : c.Faces 0 r ts) (hts : ∀ t ∈ ts, Inside t)
    (keyword : Keyword) :
    c.Finishes
      ((do
        let mk ← Parse.fields keyword
        let desc ← Parse.description []
        return mk desc : Parse Tag) r)
      ((Tag.readStructured keyword ts).mapError (Fault.toError c.stop)) := by
  have hends := Parse.mirrors_fields keyword h
  rw [Tag.readStructured_eq]
  cases hfields : Tag.fields keyword ts with
  -- the fields are refused
  | error fault =>
    rw [hfields] at hends
    generalize hrun : Parse.fields keyword r = out at hends
    cases hends with
    | refused _ hsound =>
      rw [Parse.bind_of_error hrun]
      exact .refused _ hsound
  | ok result =>
    obtain ⟨mk, rest⟩ := result
    rw [hfields] at hends
    generalize hrun : Parse.fields keyword r = out at hends
    cases hends with
    | done _ hfaces _ =>
      have hrest := inside_of_leftOf (Tag.leftOf_fields hfields []) hts
      -- and the description takes the rest of the line
      obtain ⟨r', hdesc, hend⟩ := hfaces.exists_description hrest
      rw [Parse.bind_of_ok hrun, Parse.bind_of_ok hdesc]
      exact .done _ hend

/-- A tag, from its name to the end of its line. -/
theorem Faces.finishes_tag (h : c.Faces 0 r (t :: ts)) (ht : t.kind = .tag)
    (hts : ∀ u ∈ ts, Inside u) :
    c.Finishes (Parse.tag r) ((Tag.read t ts).mapError (Fault.toError c.stop)) := by
  have htok := h.tok_cons
  have hkind : r.place.tok.kind = .tag := by rw [htok, ht]
  have halong := h.along (h.placed.pending_eq_none (by simp [hkind]))
  rw [Stream.tokens_eq (by simp [hkind])] at halong
  obtain ⟨gap, hattach⟩ := h.attachFrom_behind (by simp [ht])
  have hnext := halong.nextRaw (by simp [hkind])
  obtain ⟨r', toks, gap', hname, halong', hattach', hsame⟩ :=
    exists_gluedName hnext hattach hts hnext.length_le_room
  unfold Parse.tag Tag.read
  rw [Parse.peek_bind, Parse.move_bind, Parse.look_bind, Parse.bind_of_ok hname, htok]
  cases hglued : ts.head?.any Lexeme.isGlued with
  | true =>
    rw [if_pos rfl, if_pos rfl]
    have hkinds : ∀ u ∈ (Tag.gluedName ts).2.2, u.kind.endsLine = false :=
      fun u hu => (hts u ((gluedName_suffix ts).subset hu)).endsLine
    obtain ⟨r'', hdesc, hend⟩ :=
      exists_description_of_along halong' hattach' hkinds (Tag.gluedName ts).2.1
        halong'.length_le_room
    have hdesc : Parse.description (Tag.gluedName ts).2.1 r' = _ := hdesc
    dsimp only
    rw [Parse.bind_of_ok hdesc]
    exact .done _ hend
  | false =>
    -- the run has stepped over the name only
    obtain rfl := hsame hglued
    have hskip := faces_skip_of_along halong (by simp [hkind]) (by simp [hkind]) hattach
    rw [if_neg (by simp), if_neg (by simp)]
    dsimp only
    rw [Parse.move_bind]
    cases hkeyword : Keyword.ofText? t.text.tail with
    | some keyword => exact hskip.finishes_structured hts keyword
    -- the name is no keyword, so any text follows
    | none =>
      obtain ⟨r'', hdesc, hend⟩ := hskip.exists_description hts
      dsimp only
      rw [Parse.bind_of_ok hdesc]
      exact .done _ hend

/-- The marker in front of a line, if there is one. -/
theorem Faces.exists_marker (h : c.Faces 0 r ts) :
    ∃ r', Parse.marker r = (.ok (), r') ∧ c.Faces 0 r' (Line.dropMarker ts) := by
  have hskip : r.place.skipBlank = r.place := if_neg h.solid
  unfold Parse.marker
  rw [Parse.move_bind, hskip, Parse.peek_bind]
  by_cases hstar : r.place.tok.kind = .asterisk
  · rw [if_pos hstar]
    cases ts with
    | nil =>
      rw [h.tok_nil] at hstar
      exact absurd hstar (kind_stop_ne rfl)
    | cons t ts =>
      have ht : t.kind = .asterisk := by rwa [h.tok_cons] at hstar
      have halong := h.along (h.placed.pending_eq_none (by simp [hstar]))
      rw [Stream.tokens_eq (by simp [hstar])] at halong
      obtain ⟨gap, hattach⟩ := h.attachFrom_behind (by simp [ht])
      rw [Line.dropMarker, if_pos ht]
      exact ⟨_, rfl, faces_skip_of_along halong (by simp [hstar]) (by simp [hstar]) hattach⟩
  · -- no marker
    rw [if_neg hstar]
    refine ⟨r, rfl, ?_⟩
    cases ts with
    | nil => exact h
    | cons t ts =>
      have ht : t.kind ≠ .asterisk := by rwa [h.tok_cons] at hstar
      rw [Line.dropMarker, if_neg ht]
      exact h

/-- A line, from its marker to the token that ends it. -/
theorem Faces.finishes_line (h : c.Faces 0 r ts) (hts : ∀ t ∈ ts, Inside t) :
    c.Finishes (Parse.line r) (Line.read ⟨ts, c.stop⟩) := by
  obtain ⟨r', hmarker, h⟩ := h.exists_marker
  have hts : ∀ t ∈ Line.dropMarker ts, Inside t :=
    fun t ht => hts t ((Comment.dropMarker_suffix ts).subset ht)
  unfold Parse.line Line.read
  rw [Parse.bind_of_ok hmarker, Parse.peek_bind]
  dsimp only
  generalize Line.dropMarker ts = us at h hts
  cases us with
  -- an empty line is free text
  | nil =>
    rw [if_neg (by rw [h.tok_nil]; exact kind_stop_ne rfl)]
    obtain ⟨r'', hdesc, hend⟩ := h.exists_description hts
    rw [Parse.bind_of_ok hdesc]
    exact .done _ hend
  | cons t us =>
    dsimp only
    rw [h.tok_cons]
    by_cases ht : t.kind = .tag
    · rw [if_pos ht, if_pos ht]
      have htag := (h.finishes_tag ht (List.forall_mem_cons.mp hts).2).map Line.tag
      cases hread : Tag.read t us with
      | ok read =>
        rw [hread] at htag
        exact htag
      | error fault =>
        rw [hread] at htag
        exact htag
    · rw [if_neg ht, if_neg ht]
      obtain ⟨r'', hdesc, hend⟩ := h.exists_description hts
      rw [Parse.bind_of_ok hdesc]
      exact .done _ hend

/-! ## Section 3: All lines -/

/-- A run that faces nothing has come to the end of the line. -/
theorem Faces.atEnd (h : c.Faces 0 r []) : c.AtEnd r := by
  have htok := h.tok_nil
  have halong := h.along (h.placed.pending_eq_none (by rw [htok]; exact kind_stop_ne rfl))
  obtain ⟨gap, hlexemes⟩ := h.lexemes
  rw [Stream.lexemes, Stream.tokens, Lexeme.attachFrom_solid h.solid] at hlexemes
  rw [Stream.tokens, htok] at halong
  rw [htok] at hlexemes
  exact ⟨_, halong, (List.cons.inj hlexemes).2⟩

/-- The lines that some lexemes are cut into.  The last of them does not count if nothing but the
closing delimiter stands on it. -/
def sources (c : Surroundings) (ts : List Lexeme) : List SourceLine :=
  if c.stop.kind = .closeDoc then SourceLine.dropBlankEnd (SourceLine.all c.stop ts)
  else SourceLine.all c.stop ts

/-- Without a line break there is one line. -/
theorem sources_of_no_newline (hts : ∀ t ∈ ts, t.kind ≠ .newline)
    (h : ts ≠ [] ∨ c.stop.kind ≠ .closeDoc) : c.sources ts = [⟨ts, c.stop⟩] := by
  unfold sources SourceLine.all
  rw [SourceLine.split_of_no_newline hts]
  split
  · next hclose =>
    have hne : ts ≠ [] := h.resolve_right fun hnot => hnot hclose
    rw [SourceLine.dropBlankEnd, List.isEmpty_eq_false_iff.mpr hne]
    rfl
  · rfl

/-- At a line break a line ends, and the others follow. -/
theorem sources_append_newline {front : List Lexeme} (hfront : ∀ t ∈ front, t.kind ≠ .newline)
    (ht : t.kind = .newline) :
    c.sources (front ++ t :: ts) = ⟨front, t.toToken⟩ :: c.sources ts := by
  unfold sources SourceLine.all
  rw [SourceLine.split_append_newline hfront ht]
  split
  · -- only the last line may be dropped
    exact SourceLine.dropBlankEnd_cons _ (List.cons_ne_nil _ _)
  · rfl

/-- Nothing is left in front of the closing delimiter. -/
theorem Faces.eq_nil_of_closeDoc (h : c.Faces 0 r ts) (hts : ∀ t ∈ ts, t.kind = .newline ∨ Inside t)
    (hclose : r.place.tok.kind = .closeDoc) : ts = [] := by
  by_contra hne
  obtain ⟨t, us, rfl⟩ := List.exists_cons_of_ne_nil hne
  rw [h.tok_cons] at hclose
  have hkind : t.kind = .closeDoc := hclose
  rcases hts t List.mem_cons_self with hbreak | hinside
  · exact absurd (hkind.symm.trans hbreak) (by simp)
  · have hends := hinside.endsLine
    rw [hkind] at hends
    cases hends

/-- The last line, which has no line break. -/
theorem Faces.finishes_lastLine (h : c.Faces 0 r ts) (hstop : c.stop.kind ≠ .newline)
    (hts : ∀ t ∈ ts, Inside t) (hbreak : ∀ t ∈ ts, t.kind ≠ .newline)
    (hclose : r.place.tok.kind ≠ .closeDoc) (n : Nat) :
    c.Finishes (Parse.lines (n + 1) r) (Line.readAll (c.sources ts)) := by
  have hcounts : ts ≠ [] ∨ c.stop.kind ≠ .closeDoc := by
    by_cases hnil : ts = []
    · subst hnil
      rw [h.tok_nil] at hclose
      exact .inr hclose
    · exact .inl hnil
  rw [sources_of_no_newline hbreak hcounts]
  unfold Parse.lines
  rw [Parse.peek_bind, if_neg hclose]
  have hline := h.finishes_line hts
  generalize hrun : Parse.line r = out at hline
  unfold Line.readAll
  generalize Line.read ⟨ts, c.stop⟩ = y at hline
  cases hline with
  | refused e hsound =>
    rw [Parse.bind_of_error hrun]
    exact .refused e hsound
  | done first hend =>
    obtain ⟨rest, halong, hrest⟩ := hend
    rw [Parse.bind_of_ok hrun, Parse.bind_of_ok (Parse.got_of_kind_ne (by rwa [halong.tok_eq]))]
    exact .done [first] ⟨rest, halong, hrest⟩

/-- Line after line up to the closing delimiter or the end of the text.  The number is not met, for
every line but the last has a line break. -/
theorem Faces.finishes_lines (h : c.Faces 0 r ts) (hstop : c.stop.kind ≠ .newline)
    (hts : ∀ t ∈ ts, t.kind = .newline ∨ Inside t) {n : Nat} (hn : ts.length < n) :
    c.Finishes (Parse.lines n r) (Line.readAll (c.sources ts)) := by
  induction n generalizing r ts with
  | zero => exact absurd hn (Nat.not_lt_zero _)
  | succ n ih =>
    by_cases hclose : r.place.tok.kind = .closeDoc
    · obtain rfl := h.eq_nil_of_closeDoc hts hclose
      unfold Parse.lines
      rw [Parse.peek_bind, if_pos hclose]
      rw [h.tok_nil] at hclose
      have hsources : c.sources [] = [] := by
        unfold sources
        rw [if_pos hclose]
        rfl
      rw [hsources]
      exact .done [] h.atEnd
    cases hfind : ts.find? (·.kind = .newline) with
    | none =>
      have hbreak : ∀ t ∈ ts, t.kind ≠ .newline := by simpa using hfind
      have hinside : ∀ t ∈ ts, Inside t := fun t ht => (hts t ht).resolve_left (hbreak t ht)
      exact h.finishes_lastLine hstop hinside hbreak hclose n
    | some b =>
      rw [List.find?_eq_some_iff_append] at hfind
      obtain ⟨hb, front, back, rfl, hfront⟩ := hfind
      have hb : b.kind = .newline := by simpa using hb
      have hfront : ∀ t ∈ front, t.kind ≠ .newline := by simpa using hfront
      have hinside : ∀ t ∈ front, Inside t :=
        fun t ht => (hts t (List.mem_append_left _ ht)).resolve_left (hfront t ht)
      obtain ⟨gap, hlexemes⟩ := h.lexemes
      rw [List.append_assoc, List.cons_append] at hlexemes
      -- the line break ends the line, and the other lines are behind it
      have hends : b.toToken.kind.endsLine = true := by rw [hb]; rfl
      let c' : Surroundings := ⟨c.text, b.toToken, back ++ ⟨c.stop, gap⟩ :: c.later, hends⟩
      have hfaces : c'.Faces 0 r front := ⟨h.placed, h.solid, ⟨b.gap, hlexemes⟩, h.depth, h.sound⟩
      have hline := hfaces.finishes_line hinside
      unfold Parse.lines
      rw [Parse.peek_bind, if_neg hclose, sources_append_newline hfront hb]
      generalize hrun : Parse.line r = out at hline
      unfold Line.readAll
      have hread : Line.read ⟨front, b.toToken⟩ = Line.read ⟨front, c'.stop⟩ := rfl
      rw [hread]
      generalize Line.read ⟨front, c'.stop⟩ = y at hline
      cases hline with
      | refused e hsound =>
        rw [Parse.bind_of_error hrun]
        exact .refused e hsound
      | @done r' first hend =>
        obtain ⟨rest, halong, hrest⟩ := hend
        have hplace : r'.place.tok.kind = .newline := by rw [halong.tok_eq]; exact hb
        have hnext : c.Faces 0 { r' with place := r'.place.next } back :=
          faces_next_of_along halong (by rw [hb]; simp) (by rw [hb]; simp) hrest
        have hback := List.forall_mem_append.mp hts
        rw [List.length_append, List.length_cons] at hn
        have hothers := ih hnext (List.forall_mem_cons.mp hback.2).2 (by omega)
        rw [Parse.bind_of_ok hrun, Parse.bind_of_ok (Parse.got_of_kind hplace), if_pos rfl]
        exact hothers.map (first :: ·)

end Surroundings

end Docblock
