import Docblock.Proofs.Comment.Slices
import Docblock.Proofs.Stream.Mirror
import Docblock.Stream.Comment

/-!
# Runs that take every token

Free text keeps its blanks, so a run that reads it takes every token as it comes.  It does not note
blanks then, and it stands at blanks as well.  What it has in front of it are still the last tokens
of the text, and once it steps over blanks again its notes are right.

## Contents

1. `Run.Along`: a run that has some tokens in front of it.
2. `Surroundings.faces_next_of_along`, `Surroundings.faces_skip_of_along`: back to lexemes.
3. `Surroundings.Faces.exists_description`, `Surroundings.exists_gluedName`: the rest of a line.
4. `Surroundings.Faces.exists_expectEnd`: the end of the text.
-/

namespace Docblock

open Lexeme (attachFrom closeFirst)
open Text (Blanks)
open Token (sequence endsBlank)

/-! ## Section 1: Tokens in front of a run -/

/-- A run has some tokens of the text in front of it, and none of them pending. -/
structure Run.Along (s : Text) (r : Run) (ts : List Token) : Prop where
  pending : r.place.pending = none
  tokens : r.place.tokens = ts
  isSuffix : ts <:+ sequence s
  depth : r.place.depth = 0
  sound : r.Sound s

namespace Stream

variable {s : Text} {p : Stream}

/-- Only the notes on the last token depend on where the step was made. -/
theorem next_respaced (p : Stream) (b : Bool) :
    ({ p with spaced := b }).next = { p.next with prevSpaced := b } := by
  unfold next nextRaw
  -- whether a token was held back or not, the flag is noted only
  cases p.pending with
  | some q =>
    simp only
    split
    · rfl
    · rfl
  | none =>
    simp only
    split
    · rfl
    · rfl

/-- A step to the next token and then over blanks leads to where one step over blanks leads. -/
theorem exists_skipBlank_nextRaw (p : Stream) :
    ∃ t b, p.nextRaw.skipBlank = { p.next with prev := t, prevSpaced := b } := by
  by_cases hblank : p.nextRaw.tok.kind = .blank
  · rw [next_of_blank hblank, skipBlank, if_pos hblank]
    exact ⟨_, _, rfl⟩
  · rw [next_of_not_blank hblank, skipBlank, if_neg hblank]
    exact ⟨_, _, rfl⟩

theorem Placed.renoted (h : Placed s p) (t : Token) (b : Bool) :
    Placed s { p with prev := t, prevSpaced := b } := by
  cases h with
  | free before hpending hsequence hspaced => exact .free before hpending hsequence hspaced
  | held before gap q hpending hamp hq hsequence hgap hspaced hqspaced =>
    exact .held before gap q hpending hamp hq hsequence hgap hspaced hqspaced

end Stream

namespace Run

variable {s : Text} {r : Run} {t : Token} {ts : List Token}

namespace Along

theorem tok_eq (h : r.Along s (t :: ts)) : r.place.tok = t :=
  (List.cons.inj h.tokens).1

theorem ne_nil (h : r.Along s ts) : ts ≠ [] := by
  rw [← h.tokens]
  exact List.cons_ne_nil _ _

theorem length_le_room (h : r.Along s ts) : ts.length ≤ r.place.room := by
  rw [← h.tokens]
  exact r.place.length_tokens_le_room

theorem behind_eq (h : r.Along s (t :: ts)) (hstop : t.kind ≠ .stop) : r.place.behind = ts := by
  have htokens := h.tokens
  rw [Stream.tokens_eq (by rwa [h.tok_eq])] at htokens
  exact (List.cons.inj htokens).2

/-- A step leaves the other tokens in front of the run. -/
theorem nextRaw (h : r.Along s (t :: ts)) (hstop : t.kind ≠ .stop) :
    Run.Along s { r with place := r.place.nextRaw } ts := by
  refine ⟨Stream.pending_nextRaw _, ?_, (List.suffix_cons t ts).trans h.isSuffix, ?_, h.sound⟩
  · change r.place.nextRaw.tokens = ts
    rw [Stream.tokens_nextRaw, h.behind_eq hstop]
  · exact (Stream.depth_nextRaw _).trans h.depth

/-- The end of the text is the last token in front of a run. -/
theorem tail_eq_nil (h : r.Along s (t :: ts)) (hstop : t.kind = .stop) : ts = [] := by
  have htokens := h.tokens
  rw [Stream.tokens, if_pos (by rwa [h.tok_eq])] at htokens
  exact (List.cons.inj htokens).2.symm

/-- Blanks are not empty, and nothing but blanks. -/
theorem forms_of_blank (h : r.Along s ts) {b : Token} (hb : b ∈ ts) (hblank : b.kind = .blank) :
    Token.Forms .blank b.text := by
  rcases List.mem_append.mp (h.isSuffix.subset hb) with hmem | hmem
  · rw [← hblank]
    exact Token.forms_of_mem_tokensFrom hmem
  · obtain rfl := List.mem_singleton.mp hmem
    cases hblank

theorem text_ne_nil_of_blank (h : r.Along s ts) :
    ∀ b ∈ ts, b.kind = .blank → b.text ≠ [] :=
  fun _ hb hblank => Token.forms_ne_nil (h.forms_of_blank hb hblank)

end Along

end Run

namespace Surroundings

variable {c : Surroundings} {depth : Nat} {r : Run} {t : Token} {toks : List Token}
  {ts : List Lexeme} {gap : Text}

/-- A run with no token held back goes along the tokens of the text. -/
theorem Faces.along (h : c.Faces 0 r ts) (hfree : r.place.pending = none) :
    r.Along c.text r.place.tokens := by
  refine ⟨hfree, rfl, ?_, h.depth, h.sound⟩
  cases h.placed with
  | free before _ hsequence _ =>
    rw [hsequence]
    exact List.suffix_append before _
  | held before gap q hpending _ _ _ _ _ _ =>
    rw [hfree] at hpending
    cases hpending

/-! ## Section 2: Back to lexemes -/

theorem Faces.renoted (h : c.Faces depth r ts) (t : Token) (b : Bool) :
    c.Faces depth { r with place := { r.place with prev := t, prevSpaced := b } } ts :=
  ⟨h.placed.renoted t b, h.solid, h.lexemes, h.depth, h.sound⟩

/-- At a token that is no blank, a run would note what is in front of it if it looked back. -/
theorem exists_faces_of_along (h : r.Along c.text (t :: toks)) (hblank : t.kind ≠ .blank)
    (hattach : attachFrom [] toks = ts ++ ⟨c.stop, gap⟩ :: c.later) :
    ∃ b, c.Faces 0 { r with place := { r.place with spaced := b } } (⟨t, []⟩ :: ts) := by
  obtain ⟨before, hbefore⟩ := h.isSuffix
  have hsolid : r.place.tok.kind ≠ .blank := by rwa [h.tok_eq]
  refine ⟨endsBlank before, ?_, hsolid, ⟨gap, ?_⟩, h.depth, h.sound⟩
  · -- no token is held back
    refine .free before h.pending ?_ rfl
    rw [← hbefore, ← h.tokens]
    rfl
  · change attachFrom [] r.place.tokens = _
    rw [h.tokens, Lexeme.attachFrom_solid hblank, hattach]
    rfl

theorem faces_next_of_along (h : r.Along c.text (t :: toks)) (hblank : t.kind ≠ .blank)
    (hstop : t.kind ≠ .stop) (hattach : attachFrom [] toks = ts ++ ⟨c.stop, gap⟩ :: c.later) :
    c.Faces 0 { r with place := r.place.next } ts := by
  obtain ⟨b, hfaces⟩ := exists_faces_of_along h hblank hattach
  have hnext := (hfaces.next hstop).renoted r.place.next.prev r.place.next.prevSpaced
  simp only [Stream.next_respaced] at hnext
  exact hnext

theorem faces_skip_of_along (h : r.Along c.text (t :: toks)) (hblank : t.kind ≠ .blank)
    (hstop : t.kind ≠ .stop) (hattach : attachFrom [] toks = ts ++ ⟨c.stop, gap⟩ :: c.later) :
    c.Faces 0 { r with place := r.place.nextRaw.skipBlank } ts := by
  obtain ⟨u, b, hskip⟩ := r.place.exists_skipBlank_nextRaw
  rw [hskip]
  exact (faces_next_of_along h hblank hstop hattach).renoted u b

/-! ## Section 3: The rest of a line -/

/-- A lexeme that stands on a line: it is no blank and does not end the line, and blanks are in
front of it. -/
structure Inside (t : Lexeme) : Prop where
  endsLine : t.kind.endsLine = false
  solid : t.kind ≠ .blank
  gap : Blanks t.gap

/-- A run has come to the token that ends a line. -/
def AtEnd (c : Surroundings) (r : Run) : Prop :=
  ∃ rest, r.Along c.text (c.stop :: rest) ∧ attachFrom [] rest = c.later

end Surroundings

/-- The tokens of a line, from its lexemes and the token that ends it. -/
theorem Lexeme.exists_line {stop : Token} {later : List Lexeme} (hstop : stop.kind.endsLine = true)
    {gap gap' : Text} {toks : List Token} {ts : List Lexeme}
    (hts : ∀ t ∈ ts, t.kind.endsLine = false)
    (hattach : attachFrom gap toks = ts ++ ⟨stop, gap'⟩ :: later)
    (hblank : ∀ b ∈ toks, b.kind = .blank → Blanks b.text) (hgap : Blanks gap) :
    ∃ rest tail, toks.dropWhile (!·.kind.endsLine) = stop :: rest ∧ attachFrom [] rest = later ∧
      gap ++ (toks.takeWhile (!·.kind.endsLine)).flatMap (·.text) = source ts ++ tail ∧
      Blanks tail := by
  -- along the tokens; blanks gather in the gap, and every other token is the next lexeme
  induction toks generalizing gap ts with
  | nil =>
    rw [attachFrom] at hattach
    cases ts <;> cases hattach
  | cons t toks ih =>
    obtain ⟨ht, hblank⟩ := List.forall_mem_cons.mp hblank
    -- a blank adds to the gap, any other token is the next lexeme
    by_cases hb : t.kind = .blank
    · have hends : t.kind.endsLine = false := by rw [hb]; rfl
      rw [attachFrom, if_pos hb] at hattach
      obtain ⟨rest, tail, hdrop, hrest, htext, htail⟩ :=
        ih hts hattach hblank (List.forall_mem_append.mpr ⟨hgap, ht hb⟩)
      refine ⟨rest, tail, ?_, hrest, ?_, htail⟩
      · simpa [hends] using hdrop
      · rw [← htext]
        simp [hends]
    · rw [attachFrom_solid hb] at hattach
      cases ts with
      | nil =>
        obtain ⟨hstop', rfl⟩ := List.cons.inj hattach
        obtain rfl : t = stop := congrArg Lexeme.toToken hstop'
        exact ⟨toks, gap, by simp [hstop], rfl, by simp [hstop, source], hgap⟩
      | cons u ts =>
        obtain ⟨rfl, hmore⟩ := List.cons.inj hattach
        obtain ⟨hends, hts⟩ := List.forall_mem_cons.mp hts
        have hends : t.kind.endsLine = false := hends
        obtain ⟨rest, tail, hdrop, hrest, htext, htail⟩ := ih hts hmore hblank (by simp [Blanks])
        refine ⟨rest, tail, ?_, hrest, ?_, htail⟩
        · simpa [hends] using hdrop
        · rw [List.nil_append] at htext
          rw [source_cons_lexeme, List.append_assoc, List.append_assoc, ← htext]
          simp [hends]

namespace Run.Along

variable {s : Text} {r : Run} {toks : List Token}

/-- A description is the text up to the end of the line. -/
theorem exists_descriptionAfter (h : r.Along s toks) (text : Text) {n : Nat}
    (hn : toks.length ≤ n) :
    ∃ r', Parse.descriptionAfter text n r =
        (.ok (Text.trim (text ++ (toks.takeWhile (!·.kind.endsLine)).flatMap (·.text))), r') ∧
      r'.Along s (toks.dropWhile (!·.kind.endsLine)) := by
  induction toks generalizing text r n with
  | nil => exact absurd rfl h.ne_nil
  | cons t toks ih =>
    rw [List.length_cons] at hn
    obtain ⟨n, rfl⟩ := Nat.exists_eq_add_one_of_ne_zero (Nat.ne_zero_of_lt hn)
    unfold Parse.descriptionAfter
    rw [Parse.peek_bind, h.tok_eq]
    -- the description ends at the token that ends the line
    cases hends : t.kind.endsLine with
    -- the token that ends the line is left
    | true =>
      rw [if_pos rfl, List.takeWhile_cons_of_neg (by simp [hends]),
        List.dropWhile_cons_of_neg (by simp [hends])]
      exact ⟨r, by simp; rfl, h⟩
    -- any other adds its text
    | false =>
      have hstop : t.kind ≠ .stop := by
        intro hstop
        rw [hstop] at hends
        cases hends
      rw [if_neg (by simp), Parse.move_bind, List.takeWhile_cons_of_pos (by simp [hends]),
        List.dropWhile_cons_of_pos (by simp [hends]), List.flatMap_cons, ← List.append_assoc]
      exact ih (h.nextRaw hstop) _ (by omega)

end Run.Along

namespace Surroundings

variable {c : Surroundings} {r : Run} {toks : List Token} {ts : List Lexeme} {gap : Text}

/-- From a place between two tokens, the description is the trimmed rest of the line. -/
theorem exists_description_of_along (h : r.Along c.text toks)
    (hattach : attachFrom [] toks = ts ++ ⟨c.stop, gap⟩ :: c.later)
    (hts : ∀ t ∈ ts, t.kind.endsLine = false) (text : Text) {n : Nat} (hn : toks.length ≤ n) :
    ∃ r', Parse.descriptionAfter text n r = (.ok (Text.trim (text ++ Lexeme.source ts)), r') ∧
      c.AtEnd r' := by
  obtain ⟨rest, tail, hdrop, hrest, htext, htail⟩ :=
    Lexeme.exists_line c.endsLine hts hattach
      (fun b hb hblank => Token.blanks_of_forms (h.forms_of_blank hb hblank)) (by simp [Blanks])
  obtain ⟨r', hdesc, halong⟩ := h.exists_descriptionAfter text hn
  refine ⟨r', ?_, rest, ?_, hrest⟩
  · -- the blanks in front of the token that ends the line are trimmed off
    have htrim :=
      Text.trim_append_space (a := []) (by simp) (text ++ Lexeme.source ts) htail.isSpace
    rw [List.nil_append] at htext htrim
    rw [hdesc, htext, ← htrim, List.append_assoc]
  · rwa [← hdrop]

/-- The gap of the first lexeme is not part of a description. -/
theorem restOfLine_closeFirst (hts : ∀ t ∈ ts, Blanks t.gap) :
    restOfLine (closeFirst ts) = restOfLine ts := by
  cases ts with
  | nil => rfl
  -- the gap of the first lexeme is trimmed off anyway
  | cons t ts =>
    have hgap := hts t List.mem_cons_self
    have htrim :=
      Text.trim_append_space (e := []) hgap.isSpace (t.text ++ Lexeme.source ts) (by simp)
    rw [List.append_nil] at htrim
    rw [restOfLine, restOfLine, source_cons_lexeme, htrim]
    rfl

theorem exists_closeFirst_append (ts later : List Lexeme) (stop : Token) (gap : Text) :
    ∃ gap', closeFirst (ts ++ ⟨stop, gap⟩ :: later) = closeFirst ts ++ ⟨stop, gap'⟩ :: later := by
  cases ts with
  | nil => exact ⟨[], rfl⟩
  | cons t ts => exact ⟨gap, rfl⟩

/-- What is left of a line is its description, whether or not a token is pending there. -/
theorem Faces.exists_description (h : c.Faces 0 r ts) (hts : ∀ t ∈ ts, Inside t) :
    ∃ r', Parse.description [] r = (.ok (restOfLine ts), r') ∧ c.AtEnd r' := by
  unfold Parse.description
  rw [Parse.look_bind, ← restOfLine_closeFirst fun t ht => (hts t ht).gap]
  cases hpending : r.place.pending with
  -- no token is held back, so the tokens are those of the text
  | none =>
    have halong := h.along hpending
    obtain ⟨gap, hlexemes⟩ := h.lexemes
    obtain ⟨gap', hsplit⟩ := exists_closeFirst_append ts c.later c.stop gap
    have hkinds : ∀ t ∈ closeFirst ts, t.kind.endsLine = false := by
      cases ts with
      | nil => simp [closeFirst]
      | cons t ts =>
        rw [Lexeme.closeFirst_cons, List.forall_mem_cons]
        exact ⟨(hts t List.mem_cons_self).endsLine,
          fun u hu => (hts u (List.mem_cons_of_mem t hu)).endsLine⟩
    exact exists_description_of_along halong (hlexemes.trans hsplit) hkinds []
      halong.length_le_room
  | some q =>
    -- the run stands at an `&`, and the token behind it has lost its gap
    cases h.placed with
    | free before hfree _ _ =>
      rw [hfree] at hpending
      cases hpending
    | held before lost q' _ hamp _ hsequence _ _ _ =>
      cases ts with
      | nil =>
        rw [h.tok_nil] at hamp
        exact absurd hamp (kind_stop_ne rfl)
      | cons t ts =>
        have htok := h.tok_cons
        rw [htok] at hamp
        have hamp : t.kind = .amp := hamp
        have hstop : t.kind ≠ .stop := by simp [hamp]
        obtain ⟨gap, hbehind⟩ := h.attachFrom_behind hstop
        have hnonstop : r.place.tok.kind ≠ .stop := by rwa [htok]
        have halong : Run.Along c.text { r with place := r.place.nextRaw } r.place.behind := by
          refine ⟨Stream.pending_nextRaw _, Stream.tokens_nextRaw _, ?_, ?_, h.sound⟩
          · rw [hsequence]
            exact ⟨before ++ r.place.tok :: lost, by simp⟩
          · exact (Stream.depth_nextRaw _).trans h.depth
        have hroom := r.place.length_tokens_le_room
        rw [Stream.tokens_eq hnonstop, List.length_cons] at hroom
        obtain ⟨n, hn⟩ := Nat.exists_eq_add_one_of_ne_zero (Nat.ne_zero_of_lt hroom)
        rw [hn]
        unfold Parse.descriptionAfter
        rw [Parse.peek_bind, htok, hamp, if_neg (by simp [Kind.endsLine]), Parse.move_bind]
        have hkinds : ∀ u ∈ ts, u.kind.endsLine = false :=
          fun u hu => (hts u (List.mem_cons_of_mem t hu)).endsLine
        exact exists_description_of_along halong hbehind hkinds ([] ++ t.text) (by omega)

/-- Nothing belongs to the name if nothing is glued to it. -/
theorem gluedName_of_not_glued (h : ts.head?.any Lexeme.isGlued = false) :
    Tag.gluedName ts = ([], [], ts) := by
  cases ts with
  | nil => rfl
  | cons t ts =>
    have hglued : t.isGlued = false := h
    rw [Tag.gluedName, hglued]
    rfl

/-- Nothing is glued to a name that blanks or the end of the line follow. -/
theorem exists_first_of_not_glued (h : r.Along c.text toks)
    (hattach : attachFrom [] toks = ts ++ ⟨c.stop, gap⟩ :: c.later)
    (hglued : ts.head?.any Lexeme.isGlued = false) :
    ∃ t more, toks = t :: more ∧ (t.kind = .blank ∨ t.kind.endsLine = true) := by
  cases ts with
  -- nothing is left of the line
  | nil =>
    have hfirst := Lexeme.exists_cons_of_attachFrom h.text_ne_nil_of_blank hattach
    split at hfirst
    · obtain ⟨more, rfl, -⟩ := hfirst
      exact ⟨c.stop, more, rfl, .inr c.endsLine⟩
    · obtain ⟨b, more, rfl, hb⟩ := hfirst
      exact ⟨b, more, rfl, .inl hb⟩
  | cons t ts =>
    have hfirst := Lexeme.exists_cons_of_attachFrom h.text_ne_nil_of_blank hattach
    have hglued : t.isGlued = false := hglued
    rw [hglued] at hfirst
    obtain ⟨b, more, rfl, hb⟩ := hfirst
    exact ⟨b, more, rfl, .inl hb⟩

/-- What is left behind a name is a part of the line. -/
theorem gluedName_suffix (ts : List Lexeme) : (Tag.gluedName ts).2.2 <:+ ts := by
  fun_induction Tag.gluedName ts with
  | case1 => exact List.suffix_rfl
  | case2 t rest hglued name hdrop more surplus rest' hrec ih =>
    -- the whole lexeme belongs to the name
    rw [hrec] at ih
    exact ih.trans (List.suffix_cons t rest)
  | case3 t rest hglued name hdrop => exact List.suffix_cons t rest
  | case4 t rest hglued => exact List.suffix_rfl

/-- What is glued to the name of a tag, with the tokens behind it. -/
theorem exists_gluedName (h : r.Along c.text toks)
    (hattach : attachFrom [] toks = ts ++ ⟨c.stop, gap⟩ :: c.later)
    (hts : ∀ t ∈ ts, Inside t) {n : Nat} (hn : toks.length ≤ n) :
    ∃ r' toks' gap', Parse.gluedName n r =
        (.ok ((Tag.gluedName ts).1,
          if ts.head?.any Lexeme.isGlued then some (Tag.gluedName ts).2.1 else none), r') ∧
      r'.Along c.text toks' ∧
      attachFrom [] toks' = (Tag.gluedName ts).2.2 ++ ⟨c.stop, gap'⟩ :: c.later ∧
      (ts.head?.any Lexeme.isGlued = false → r' = r) := by
  induction ts generalizing r toks n with
  | nil =>
    obtain ⟨t, more, rfl, ht⟩ := exists_first_of_not_glued h hattach rfl
    obtain ⟨n, rfl⟩ := Nat.exists_eq_add_one_of_ne_zero (Nat.ne_zero_of_lt hn)
    refine ⟨r, _, gap, ?_, h, hattach, fun _ => rfl⟩
    unfold Parse.gluedName
    rw [Parse.peek_bind, h.tok_eq, if_pos ht]
    rfl
  | cons u ts ih =>
    have hu := hts u List.mem_cons_self
    cases hglued : u.isGlued with
    -- a blank or the end of the line stops the name
    | false =>
      obtain ⟨t, more, rfl, ht⟩ := exists_first_of_not_glued h hattach hglued
      obtain ⟨n, rfl⟩ := Nat.exists_eq_add_one_of_ne_zero (Nat.ne_zero_of_lt hn)
      rw [gluedName_of_not_glued (show (u :: ts).head?.any Lexeme.isGlued = false from hglued)]
      refine ⟨r, _, gap, ?_, h, hattach, fun _ => rfl⟩
      unfold Parse.gluedName
      rw [Parse.peek_bind, h.tok_eq, if_pos ht, List.head?_cons, Option.any_some, hglued]
      rfl
    -- the lexeme is glued to what stands before it
    | true =>
      have hfirst := Lexeme.exists_cons_of_attachFrom h.text_ne_nil_of_blank hattach
      rw [hglued] at hfirst
      obtain ⟨more, rfl, hmore⟩ := hfirst
      have hstop : u.kind ≠ .stop := ne_stop_of_endsLine hu.endsLine
      obtain ⟨n, rfl⟩ := Nat.exists_eq_add_one_of_ne_zero (Nat.ne_zero_of_lt hn)
      rw [List.length_cons] at hn
      unfold Parse.gluedName Tag.gluedName
      rw [Parse.peek_bind, h.tok_eq, if_neg (by simp [hu.solid, hu.endsLine]), Parse.move_bind,
        List.head?_cons, Option.any_some, hglued, if_pos rfl, if_pos rfl]
      have hnext := h.nextRaw hstop
      -- if all of the lexeme belongs to the name, what is glued to it may too
      cases hsurplus : u.text.dropWhile (!Tag.endsName ·) with
      | nil =>
        obtain ⟨r', toks', gap', hname, halong, hattach', hsame⟩ :=
          ih hnext hmore (fun t ht => hts t (List.mem_cons_of_mem u ht)) (Nat.le_of_succ_le_succ hn)
        have hgetD :
            (if ts.head?.any Lexeme.isGlued then some (Tag.gluedName ts).2.1 else none).getD [] =
              (Tag.gluedName ts).2.1 := by
          cases hany : ts.head?.any Lexeme.isGlued with
          | true => rfl
          | false => rw [gluedName_of_not_glued hany]; rfl
        dsimp only
        rw [Parse.bind_of_ok hname]
        refine ⟨r', toks', gap', ?_, halong, hattach', by simp⟩
        rw [hgetD]
        rfl
      -- the lexeme ends the name inside, and what is over opens the description
      | cons d surplus =>
        dsimp only
        exact ⟨_, more, gap, rfl, hnext, hmore, by simp⟩

/-! ## Section 4: The end of the text -/

/-- Nothing but line breaks and blanks may be left of the text. -/
theorem exists_expectEnd_of_along {s : Text} {stop : Token} {gap' : Text} (h : r.Along s toks)
    (hattach : attachFrom gap toks = ts ++ [⟨stop, gap'⟩]) (hstop : stop.kind = .stop)
    (hts : ∀ t ∈ ts, t.kind ≠ .stop) {n : Nat} (hn : toks.length ≤ n) :
    ∃ r', Parse.expectEnd n r = (match ts.dropWhile (·.kind = .newline) with
        | [] => .ok ()
        | t :: _ => .error (.refused (Fault.toError stop ⟨.expecting (.token .stop), some t⟩)), r') ∧
      r'.Sound s := by
  induction toks generalizing r n gap ts with
  | nil => exact absurd rfl h.ne_nil
  | cons t toks ih =>
    rw [List.length_cons] at hn
    obtain ⟨n, rfl⟩ := Nat.exists_eq_add_one_of_ne_zero (Nat.ne_zero_of_lt hn)
    unfold Parse.expectEnd
    rw [Parse.peek_bind, h.tok_eq]
    -- a blank is stepped over, in the tokens only
    by_cases hblank : t.kind = .blank
    · rw [attachFrom, if_pos hblank] at hattach
      rw [if_pos (.inr hblank), Parse.move_bind]
      exact ih (h.nextRaw (by simp [hblank])) hattach hts (by omega)
    rw [Lexeme.attachFrom_solid hblank] at hattach
    cases ts with
    | nil =>
      obtain ⟨hend, -⟩ := List.cons.inj hattach
      obtain rfl : t = stop := congrArg Lexeme.toToken hend
      rw [if_neg (by simp [hstop]), if_pos hstop]
      exact ⟨r, rfl, h.sound⟩
    | cons u ts =>
      obtain ⟨rfl, hmore⟩ := List.cons.inj hattach
      obtain ⟨hu, hts⟩ := List.forall_mem_cons.mp hts
      have hu : t.kind ≠ .stop := hu
      by_cases hbreak : t.kind = .newline
      · rw [if_pos (.inl hbreak), Parse.move_bind, List.dropWhile_cons_of_pos (by simp [hbreak])]
        exact ih (h.nextRaw hu) hmore hts (by omega)
      · -- anything else is not the end
        rw [if_neg (by simp [hblank, hbreak]), if_neg hu,
          List.dropWhile_cons_of_neg (by simp [hbreak])]
        refine ⟨r, ?_, h.sound⟩
        unfold Parse.refuse
        rw [h.tok_eq]
        rfl

/-- The same where a token may be pending. -/
theorem Faces.exists_expectEnd (h : c.Faces 0 r ts) (hstop : c.stop.kind = .stop)
    (hlater : c.later = []) (hts : ∀ t ∈ ts, t.kind ≠ .stop) {n : Nat}
    (hn : r.place.tokens.length ≤ n) :
    ∃ r', Parse.expectEnd n r = (match ts.dropWhile (·.kind = .newline) with
        | [] => .ok ()
        | t :: _ => .error (.refused (Fault.toError c.stop ⟨.expecting (.token .stop), some t⟩)), r') ∧
      r'.Sound c.text := by
  cases hpending : r.place.pending with
  | none =>
    obtain ⟨gap, hlexemes⟩ := h.lexemes
    obtain ⟨gap', hsplit⟩ := exists_closeFirst_append ts c.later c.stop gap
    rw [hlater] at hsplit hlexemes
    have hkinds : ∀ t ∈ closeFirst ts, t.kind ≠ .stop := by
      cases ts with
      | nil => simp [closeFirst]
      -- the first lexeme has lost its gap, which does not matter to its kind
      | cons t ts =>
        rw [Lexeme.closeFirst_cons, List.forall_mem_cons]
        exact ⟨hts t List.mem_cons_self, fun u hu => hts u (List.mem_cons_of_mem t hu)⟩
    have halong := h.along hpending
    have hend := exists_expectEnd_of_along halong (hlexemes.trans hsplit) hstop hkinds hn
    cases ts with
    | nil => exact hend
    | cons t ts =>
      rw [Lexeme.closeFirst_cons] at hend
      -- line breaks may stand in front of the end
      by_cases hbreak : t.kind = .newline
      · rw [List.dropWhile_cons_of_pos (by simp [hbreak])]
        have hclosed : t.closeUp.kind = .newline := hbreak
        rw [List.dropWhile_cons_of_pos (by simp [hclosed])] at hend
        exact hend
      · rw [List.dropWhile_cons_of_neg (by simp [hbreak])]
        have hclosed : t.closeUp.kind ≠ .newline := hbreak
        rw [List.dropWhile_cons_of_neg (by simp [hclosed])] at hend
        exact hend
  | some q =>
    -- the run stands at an `&`
    have hamp : r.place.tok.kind = .amp := by
      by_contra hne
      have hnone := h.placed.pending_eq_none hne
      rw [hnone] at hpending
      cases hpending
    cases ts with
    | nil =>
      rw [h.tok_nil] at hamp
      exact absurd hamp (kind_stop_ne rfl)
    | cons t ts =>
      have htok := h.tok_cons
      have ht : t.kind = .amp := by rwa [htok] at hamp
      obtain ⟨n, rfl⟩ := Nat.exists_eq_add_one_of_ne_zero (Nat.ne_zero_of_lt hn)
      unfold Parse.expectEnd
      rw [Parse.peek_bind, if_neg (by simp [hamp]), if_neg (by simp [hamp]),
        List.dropWhile_cons_of_neg (by simp [ht])]
      refine ⟨r, ?_, h.sound⟩
      unfold Parse.refuse
      rw [htok]
      rfl

end Surroundings

end Docblock
