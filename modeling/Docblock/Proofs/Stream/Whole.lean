import Docblock.Proofs.Stream.Comment

/-!
# Whole texts

A run over a whole text, be it a type or a comment, ends as the grammar says: with the type or the
comment, or with the refusal of the text.  It never ends because the parser steps back twice, and
whenever the parser steps back, what it goes on to see is what stands in the text.

## Contents

1. `Run.EndsAs`: the end of a run.
2. `Parse.wholeType_endsAs`: types.
3. `Run.Along.exists_indentation`: the blanks in front of a comment.
4. `Parse.comment_endsAs`: comments.
5. `Parse.backups_sound`: the steps back of all runs.
-/

namespace Docblock

open Lexeme (attachFrom)
open Text (Blanks)
open Token (sequence stopOf)

/-! ## Section 1: The end of a run -/

/-- A run over the text `s` ends as `y` says, and nothing of the text was lost or repeated when it
stepped back. -/
structure Run.EndsAs {α : Type} (s : Text) (out : Except Stop α × Run) (y : Except SyntaxError α) :
    Prop where
  result : out.1 = y.mapError .refused
  sound : out.2.Sound s

theorem Run.EndsAs.ne_backedUpTwice {α : Type} {s : Text} {out : Except Stop α × Run}
    {y : Except SyntaxError α} (h : Run.EndsAs s out y) : out.1 ≠ .error .backedUpTwice := by
  rw [h.result]
  cases y with
  | ok a => simp [Except.mapError]
  | error e => simp [Except.mapError]

theorem Run.along_start (s : Text) : (Run.start s).Along s (sequence s) := by
  refine ⟨rfl, Stream.tokens_start s, List.suffix_rfl, rfl, ?_⟩
  intro b hb
  cases hb

theorem Lexeme.exists_attachFrom_sequence (s : Text) :
    ∃ gap, attachFrom [] (sequence s) = ofText s ++ [⟨stopOf s, gap⟩] := by
  have hsolid : (stopOf s).kind ≠ .blank := by simp [stopOf]
  obtain ⟨gap, h⟩ := exists_attachFrom_append hsolid [] (Token.tokenize s) []
  exact ⟨gap, h⟩

theorem Lexeme.of_mem_ofText {s : Text} {t : Lexeme} (ht : t ∈ ofText s) :
    t.kind ≠ .stop ∧ t.kind ≠ .blank ∧ Blanks t.gap := by
  obtain ⟨hforms, hsolid⟩ := genuine_ofText s t.word (List.mem_map_of_mem ht)
  exact ⟨hforms.ne_stop, hsolid, Comment.blanks_of_mem_ofText ht⟩

/-- Around all lexemes of a text there is nothing but its end. -/
def Surroundings.whole (s : Text) : Surroundings :=
  ⟨s, stopOf s, [], rfl⟩

/-! ## Section 2: Types -/

/-- Once it has stepped over the blanks at the start, a run has all lexemes in front of it. -/
theorem Surroundings.faces_start (s : Text) :
    (whole s).Faces 0 ⟨(Stream.start s).skipBlank, []⟩ (Lexeme.ofText s) := by
  have halong := Run.along_start s
  obtain ⟨gap, hattach⟩ := Lexeme.exists_attachFrom_sequence s
  have hsound : Run.Sound s ⟨(Stream.start s).skipBlank, []⟩ := by
    intro b hb
    cases hb
  -- only blanks at the very start are skipped; the run then stands on the second token
  by_cases hblank : (Stream.start s).tok.kind = .blank
  · have hsequence := Stream.tokens_start s
    have hnonstop : (Stream.start s).tok.kind ≠ .stop := by simp [hblank]
    have hnext := Stream.tokens_nextRaw (Stream.start s)
    have hskip : (Stream.start s).skipBlank = { (Stream.start s).nextRaw with spaced := true } :=
      if_pos hblank
    rw [Stream.tokens_eq hnonstop, ← hnext] at hsequence
    have hcut : sequence s = [] ++ (Stream.start s).tok :: (Stream.start s).nextRaw.tokens :=
      hsequence.symm
    have hsolid : (Stream.start s).nextRaw.tok.kind ≠ .blank :=
      Token.kind_ne_of_sequence hcut hblank
    refine ⟨?_, ?_, ⟨gap, ?_⟩, ?_, hsound⟩
    · refine .free [(Stream.start s).tok] ?_ ?_ ?_
      · rw [hskip]
        exact Stream.pending_nextRaw _
      · rw [hskip]
        exact hsequence.symm
      · rw [hskip]
        simp [Token.endsBlank, hblank]
    · rw [hskip]
      exact hsolid
    · change _ = Lexeme.closeFirst (Lexeme.ofText s ++ [⟨stopOf s, gap⟩])
      rw [← hattach, ← hsequence, attachFrom, if_pos hblank, Lexeme.closeFirst_attachFrom, hskip,
        Stream.tokens, Lexeme.attachFrom_solid hsolid]
      change attachFrom [] (Stream.start s).nextRaw.tokens = _
      rw [Stream.tokens, Lexeme.attachFrom_solid hsolid]
      rfl
    · rw [hskip]
      exact Stream.depth_nextRaw _
  · have hskip : (Stream.start s).skipBlank = Stream.start s := if_neg hblank
    rw [hskip] at hsound ⊢
    -- nothing is skipped
    refine ⟨.free [] rfl (Stream.tokens_start s).symm rfl, hblank, ⟨gap, ?_⟩, rfl, hsound⟩
    change (Stream.start s).lexemes = Lexeme.closeFirst (Lexeme.ofText s ++ [⟨stopOf s, gap⟩])
    rw [← hattach, ← Stream.tokens_start, Stream.lexemes, Stream.tokens,
      Lexeme.attachFrom_solid hblank]
    rfl

/-- What is left are lexemes that were there. -/
theorem LeftOf.exists_mem {ts rest : List Lexeme} {drawn : Bool} (h : LeftOf ts rest drawn)
    {t : Lexeme} (ht : t ∈ rest) : ∃ u ∈ ts, u.toToken = t.toToken := by
  obtain ⟨us, hus, hrest⟩ := h
  -- drawing up moves no token
  have htokens : rest.map Lexeme.toToken = us.map Lexeme.toToken := by
    rw [hrest]
    split
    · exact Lexeme.map_toToken_drawUp us
    · rfl
  have hmem : t.toToken ∈ us.map Lexeme.toToken := by
    rw [← htokens]
    exact List.mem_map_of_mem ht
  obtain ⟨u, hu, heq⟩ := List.mem_map.mp hmem
  exact ⟨u, hus.subset hu, heq⟩

namespace Parse

open Run (EndsAs)

/-- A run over a text that is to be a type. -/
theorem wholeType_endsAs (s : Text) : EndsAs s (wholeType (Run.start s)) (TypeExpr.parse s) := by
  have htype := mirrors_type (Surroundings.faces_start s)
  unfold wholeType TypeExpr.parse
  rw [move_bind]
  change EndsAs s ((type >>= _) ⟨(Stream.start s).skipBlank, []⟩) _
  generalize hrun : type ⟨(Stream.start s).skipBlank, []⟩ = out at htype
  cases hreader : TypeExpr.reader (Lexeme.ofText s) with
  | error fault =>
    rw [hreader] at htype
    cases htype with
    | refused _ hsound =>
      rw [bind_of_error hrun]
      exact ⟨rfl, hsound⟩
  | ok result =>
    obtain ⟨ty, rest⟩ := result
    -- what the type leaves comes from the text, so the end of the text is not in it
    have hstop : ∀ t ∈ rest, t.kind ≠ .stop := by
      intro t ht
      obtain ⟨u, hu, heq⟩ := (TypeExpr.leaves_readerTo TypeExpr.maxDepth hreader).exists_mem ht
      rw [← heq]
      exact (Lexeme.of_mem_ofText hu).1
    rw [hreader] at htype
    cases htype with
    | done _ hfaces _ =>
      obtain ⟨r, hend, hsound⟩ :=
        hfaces.exists_expectEnd rfl rfl hstop (Stream.length_tokens_le_room _)
      rw [bind_of_ok hrun, look_bind]
      dsimp only
      cases hrest : rest.dropWhile (·.kind = .newline) with
      -- nothing but line breaks follows the type
      | nil =>
        rw [hrest] at hend
        rw [bind_of_ok hend]
        exact ⟨rfl, hsound⟩
      -- something else does
      | cons t _ =>
        rw [hrest] at hend
        rw [bind_of_error hend]
        exact ⟨rfl, hsound⟩

end Parse

/-! ## Section 3: The indentation -/

/-- The blanks in front of a comment are gaps of lexemes, and the last that there are is its
indentation.  While a run gathers them, `gap` is what it has taken since the last line break, and
`indent` the last blanks that it has taken at all. -/
theorem Run.Along.exists_indentation {s : Text} {r : Run} {toks : List Token} (h : r.Along s toks)
    (base gap indent : Text)
    (hgap : (gap = [] ∧ base = indent) ∨
      (gap ≠ [] ∧ gap = indent ∧ ∀ t ∈ toks.head?, t.kind ≠ .blank))
    {n : Nat} (hn : toks.length ≤ n) :
    ∃ r' t gap' more lead,
      Parse.indentation indent n r =
        (.ok ((((lead ++ [(⟨t, gap'⟩ : Lexeme)]).map (·.gap)).filter
          (!·.isEmpty)).getLast?.getD base), r') ∧
      r'.Along s (t :: more) ∧ t.kind ≠ .blank ∧ t.kind ≠ .newline ∧
      attachFrom gap toks = lead ++ ⟨t, gap'⟩ :: attachFrom [] more ∧
      ∀ x ∈ lead, x.kind = .newline := by
  -- along the tokens in front; the two cases of `hgap` are the start of a line and behind its blanks
  induction toks generalizing r gap indent base n with
  | nil => exact absurd rfl h.ne_nil
  | cons t toks ih =>
    rw [List.length_cons] at hn
    obtain ⟨n, rfl⟩ := Nat.exists_eq_add_one_of_ne_zero (Nat.ne_zero_of_lt hn)
    have hn := Nat.le_of_succ_le_succ hn
    unfold Parse.indentation
    rw [Parse.peek_bind, h.tok_eq]
    by_cases hbreak : t.kind = .newline
    · have hnext := h.nextRaw (by simp [hbreak])
      obtain ⟨r', u, gap', more, lead, hrun, halong, hsolid, hnot, hattach, hlead⟩ :=
        ih hnext indent [] indent (.inl ⟨rfl, rfl⟩) hn
      rw [if_pos hbreak, Parse.move_bind]
      refine ⟨r', u, gap', more, ⟨t, gap⟩ :: lead, ?_, halong, hsolid, hnot, ?_, ?_⟩
      · -- the gap of the line break is the last one unless another follows
        rw [hrun]
        rcases hgap with ⟨rfl, rfl⟩ | ⟨hne, rfl, -⟩
        · rfl
        · rw [List.cons_append, List.map_cons, List.filter_cons_of_pos (by simpa using hne),
            List.getLast?_cons, Option.getD_some]
      · rw [Lexeme.attachFrom_solid (by simp [hbreak]), hattach]
        rfl
      · exact List.forall_mem_cons.mpr ⟨hbreak, hlead⟩
    rw [if_neg hbreak]
    by_cases hblank : t.kind = .blank
    · -- two blanks never stand side by side, so the line begins here
      obtain ⟨rfl, rfl⟩ : gap = [] ∧ base = indent :=
        hgap.resolve_right fun hhead => hhead.2.2 t rfl hblank
      have hnext := h.nextRaw (by simp [hblank])
      have hne : t.text ≠ [] := h.text_ne_nil_of_blank t List.mem_cons_self hblank
      have hhead : ∀ u ∈ toks.head?, u.kind ≠ .blank := by
        intro u hu
        obtain ⟨more, rfl⟩ := List.head?_eq_some_iff.mp hu
        obtain ⟨before, hbefore⟩ := h.isSuffix
        exact Token.kind_ne_of_sequence hbefore.symm hblank
      obtain ⟨r', u, gap', more, lead, hrun, halong, hsolid, hnot, hattach, hlead⟩ :=
        ih hnext base t.text t.text (.inr ⟨hne, rfl, hhead⟩) hn
      rw [if_pos hblank, Parse.move_bind]
      refine ⟨r', u, gap', more, lead, hrun, halong, hsolid, hnot, ?_, hlead⟩
      rw [attachFrom, if_pos hblank, List.nil_append, hattach]
    · -- the first token that is neither a blank nor a line break ends the loop
      rw [if_neg hblank]
      refine ⟨r, t, gap, toks, [], ?_, h, hblank, hbreak, Lexeme.attachFrom_solid hblank gap toks,
        by simp⟩
      -- the gap before the token is the last one, if there is any
      rcases hgap with ⟨rfl, rfl⟩ | ⟨hne, rfl, -⟩
      · rfl
      · have hkeep : [gap].filter (!·.isEmpty) = [gap] := by simpa using hne
        rw [List.nil_append, List.map_singleton, hkeep]
        rfl

/-! ## Section 4: Comments -/

/-- Whether a last line without anything counts makes no difference to what is refused. -/
theorem Line.readAll_dropBlankEnd {α : Type} (lines : List SourceLine) (y : Except SyntaxError α) :
    (do let _ ← readAll (SourceLine.dropBlankEnd lines); y) = (do let _ ← readAll lines; y) := by
  induction lines with
  | nil => rfl
  | cons x lines ih =>
    cases lines with
    -- only the last line may be dropped, and reading it succeeds
    | nil =>
      obtain ⟨words, stop⟩ := x
      cases words with
      | nil => rfl
      | cons t words => rfl
    -- a line that is not the last stays
    | cons z lines =>
      rw [SourceLine.dropBlankEnd_cons x (List.cons_ne_nil z lines)]
      simp only [readAll, bind_assoc, pure_bind] at ih ⊢
      rw [ih]

namespace Surroundings

variable {c : Surroundings} {r : Run} {t : Lexeme} {ts : List Lexeme}

/-- Behind a line break, the lines that count begin on the next line. -/
theorem content_of_newline {stop : Token} (ht : t.kind = .newline) :
    SourceLine.content stop (t :: ts) =
      (false, SourceLine.dropBlankEnd (SourceLine.all stop ts)) := by
  have hsplit : SourceLine.split stop ([] ++ t :: ts) =
      (⟨[], t.toToken⟩, SourceLine.all stop ts) :=
    SourceLine.split_append_newline (by simp) ht
  rw [List.nil_append] at hsplit
  rw [SourceLine.content, hsplit]
  rfl

/-- Otherwise they begin on the first. -/
theorem content_of_not_newline {stop : Token} (hts : ∀ t ∈ ts.head?, t.kind ≠ .newline) :
    SourceLine.content stop ts = (true, SourceLine.dropBlankEnd (SourceLine.all stop ts)) := by
  cases ts with
  | nil => rfl
  | cons t ts =>
    have ht : t.kind ≠ .newline := hts t rfl
    have hsplit : SourceLine.split stop (t :: ts) =
        (⟨t :: (SourceLine.split stop ts).1.words, (SourceLine.split stop ts).1.stop⟩,
          (SourceLine.split stop ts).2) := if_neg ht
    rw [SourceLine.content, SourceLine.all, hsplit]

/-- What stands behind the opening delimiter. -/
theorem Faces.exists_content (h : c.Faces 0 r ts) (hstop : c.stop.kind ≠ .newline)
    (hts : ∀ t ∈ ts, t.kind = .newline ∨ Inside t) :
    ∃ broken r' us, Parse.got .newline r = (.ok broken, r') ∧
      SourceLine.content c.stop ts =
        (!broken, SourceLine.dropBlankEnd (SourceLine.all c.stop us)) ∧
      c.Finishes (Parse.lines r'.place.room r') (Line.readAll (c.sources us)) := by
  by_cases hbreak : r.place.tok.kind = .newline
  · cases ts with
    | nil =>
      rw [h.tok_nil] at hbreak
      exact absurd hbreak hstop
    | cons t ts =>
      have ht : t.kind = .newline := by rwa [h.tok_cons] at hbreak
      have hnext := h.next (by simp [ht])
      -- the content begins behind the line break
      exact ⟨true, _, ts, Parse.got_of_kind hbreak, content_of_newline ht,
        hnext.finishes_lines hstop (List.forall_mem_cons.mp hts).2 hnext.length_lt_room⟩
  · -- the content begins on the line of the opening
    have hhead : ∀ t ∈ ts.head?, t.kind ≠ .newline := by
      intro t ht
      obtain ⟨us, rfl⟩ := List.head?_eq_some_iff.mp ht
      rwa [h.tok_cons] at hbreak
    exact ⟨false, r, ts, Parse.got_of_kind_ne hbreak, content_of_not_newline hhead,
      h.finishes_lines hstop hts h.length_lt_room⟩

end Surroundings

namespace Parse

open Run (EndsAs)

variable {s : Text} {r : Run} {t : Token} {toks : List Token} {body : List Lexeme} {gap : Text}

/-- The closing delimiter is missing. -/
theorem endsAs_unclosed (h : (Surroundings.whole s).Faces 0 r body)
    (hbody : ∀ t ∈ body, t.kind = .newline ∨ Surroundings.Inside t) (indent : Text) :
    EndsAs s (commentBody indent r) (do
      let _ ← Line.readAll (SourceLine.content (stopOf s) body).2
      Comment.refuse .closeDoc (stopOf s)) := by
  obtain ⟨broken, r, us, hgot, hcontent, hlines⟩ :=
    h.exists_content (by simp [Surroundings.whole, stopOf]) hbody
  have hcontent : SourceLine.content (stopOf s) body =
      (!broken, SourceLine.dropBlankEnd (SourceLine.all (stopOf s) us)) := hcontent
  have hsources : (Surroundings.whole s).sources us = SourceLine.all (stopOf s) us := rfl
  rw [hsources] at hlines
  unfold commentBody
  rw [bind_of_ok hgot, look_bind, hcontent]
  dsimp only
  rw [Line.readAll_dropBlankEnd]
  generalize hrun : lines r.place.room r = out at hlines
  generalize Line.readAll (SourceLine.all (stopOf s) us) = y at hlines
  cases hlines with
  -- a line fails
  | refused e hsound =>
    rw [bind_of_error hrun]
    exact ⟨rfl, hsound⟩
  | @done r' read hend =>
    obtain ⟨rest, halong, -⟩ := hend
    -- the lines have taken everything up to the end of the text, which is not what is expected
    have hkind : r'.place.tok.kind ≠ .closeDoc := by
      rw [halong.tok_eq]
      simp [Surroundings.whole, stopOf]
    rw [bind_of_ok hrun, bind_of_error (e := .refused ⟨_, _⟩) (expect_of_kind_ne hkind)]
    refine ⟨?_, halong.sound⟩
    rw [halong.tok_eq]
    rfl

/-- The closing delimiter ends the comment, and nothing but line breaks may follow. -/
theorem endsAs_closed {inside after : List Lexeme} {x : Lexeme} {c : Surroundings}
    (htext : c.text = s) (hx : c.stop = x.toToken) (hclose : x.kind = .closeDoc)
    (hlater : c.later = after ++ [⟨stopOf s, gap⟩]) (h : c.Faces 0 r inside)
    (hinside : ∀ t ∈ inside, t.kind = .newline ∨ Surroundings.Inside t)
    (hafter : ∀ t ∈ after, t.kind ≠ .stop) (indent : Text) :
    EndsAs s (commentBody indent r) (do
      let read ← Line.readAll (SourceLine.content x.toToken inside).2
      Comment.expectEnd after
      return ⟨read, indent, (SourceLine.content x.toToken inside).1⟩) := by
  subst htext
  have hstop : c.stop.kind = .closeDoc := by rw [hx, hclose]
  obtain ⟨broken, r, us, hgot, hcontent, hlines⟩ := h.exists_content (by simp [hstop]) hinside
  have hsources : c.sources us = SourceLine.dropBlankEnd (SourceLine.all c.stop us) := if_pos hstop
  rw [hsources] at hlines
  unfold commentBody
  rw [bind_of_ok hgot, look_bind, ← hx, hcontent]
  dsimp only
  generalize hrun : lines r.place.room r = out at hlines
  generalize Line.readAll (SourceLine.dropBlankEnd (SourceLine.all c.stop us)) = y at hlines
  cases hlines with
  -- a line fails
  | refused e hsound =>
    rw [bind_of_error hrun]
    exact ⟨rfl, hsound⟩
  | @done r' read hend =>
    obtain ⟨rest, halong, hrest⟩ := hend
    have hkind : r'.place.tok.kind = .closeDoc := by rw [halong.tok_eq, hstop]
    rw [hlater] at hrest
    -- behind the delimiter the run faces what is left of the text
    have hfaces : (Surroundings.whole c.text).Faces 0 { r' with place := r'.place.next } after :=
      Surroundings.faces_next_of_along halong (by simp [hstop]) (by simp [hstop]) hrest
    obtain ⟨r'', hexpect, hsound⟩ :=
      hfaces.exists_expectEnd rfl rfl hafter (Stream.length_tokens_le_room _)
    rw [bind_of_ok hrun, bind_of_ok (expect_of_kind hkind), look_bind]
    dsimp only
    unfold Comment.expectEnd
    cases hdrop : after.dropWhile (·.kind = .newline) with
    | nil =>
      rw [hdrop] at hexpect
      rw [bind_of_ok hexpect]
      exact ⟨rfl, hsound⟩
    -- something follows the delimiter
    | cons u _ =>
      rw [hdrop] at hexpect
      rw [bind_of_error hexpect]
      exact ⟨rfl, hsound⟩

/-- A comment, from its opening delimiter. -/
theorem endsAs_opened (h : r.Along s (t :: toks)) (ht : t.kind = .openDoc)
    (hattach : attachFrom [] toks = body ++ [⟨stopOf s, gap⟩])
    (hbody : ∀ u ∈ body, u ∈ Lexeme.ofText s) (indent : Text) :
    EndsAs s (commentBody indent { r with place := r.place.next }) (do
      let after := body.dropWhile (·.kind ≠ .closeDoc)
      let closing := (after.head?.map Lexeme.toToken).getD (stopOf s)
      let (oneLine, sources) := SourceLine.content closing (body.takeWhile (·.kind ≠ .closeDoc))
      let read ← Line.readAll sources
      if closing.kind = .closeDoc then
        Comment.expectEnd after.tail
        return ⟨read, indent, oneLine⟩
      else Comment.refuse .closeDoc closing) := by
  -- the only tokens that end a line are line breaks, the closing delimiter and the end
  have hkinds : ∀ u ∈ body, u.kind ≠ .closeDoc → u.kind = .newline ∨ Surroundings.Inside u := by
    intro u hu hclose
    obtain ⟨hstop, hsolid, hgap⟩ := Lexeme.of_mem_ofText (hbody u hu)
    by_cases hbreak : u.kind = .newline
    · exact .inl hbreak
    · refine .inr ⟨?_, hsolid, hgap⟩
      unfold Kind.endsLine
      split
      · contradiction
      · contradiction
      · contradiction
      · rfl
  have hinside : ∀ u ∈ body.takeWhile (·.kind ≠ .closeDoc),
      u.kind = .newline ∨ Surroundings.Inside u := by
    intro u hu
    apply hkinds u ((List.takeWhile_prefix _).subset hu)
    simpa using List.mem_takeWhile_imp hu
  have hsplit := List.takeWhile_append_dropWhile (p := fun u => u.kind ≠ .closeDoc) (l := body)
  have hopen : t.kind ≠ .blank ∧ t.kind ≠ .stop := by simp [ht]
  dsimp only
  cases hdrop : body.dropWhile (·.kind ≠ .closeDoc) with
  | nil =>
    rw [hdrop, List.append_nil] at hsplit
    rw [hsplit] at hinside ⊢
    have hfaces : (Surroundings.whole s).Faces 0 { r with place := r.place.next } body :=
      Surroundings.faces_next_of_along h hopen.1 hopen.2 hattach
    exact endsAs_unclosed hfaces hinside indent
  | cons x after =>
    rw [hdrop] at hsplit
    have hclose : x.kind = .closeDoc := by
      have hhead := List.head?_dropWhile_not (fun u : Lexeme => u.kind ≠ .closeDoc) body
      rw [hdrop] at hhead
      simpa using hhead
    have hafter : ∀ u ∈ after, u.kind ≠ .stop := by
      intro u hu
      apply (Lexeme.of_mem_ofText (hbody u _)).1
      rw [← hsplit]
      simp [hu]
    rw [← hsplit, List.append_assoc, List.cons_append] at hattach
    -- the lines end at the closing delimiter, with the rest of the text behind it
    let c : Surroundings := ⟨s, x.toToken, after ++ [⟨stopOf s, gap⟩], by rw [hclose]; rfl⟩
    have hfaces : c.Faces 0 { r with place := r.place.next }
        (body.takeWhile (·.kind ≠ .closeDoc)) :=
      Surroundings.faces_next_of_along h hopen.1 hopen.2 hattach
    have hends := endsAs_closed rfl rfl hclose rfl hfaces hinside hafter indent
    simp only [List.head?_cons, Option.map_some, Option.getD_some, List.tail_cons, hclose,
      if_true]
    exact hends

/-- A run over a text that is to be a comment. -/
theorem comment_endsAs (s : Text) : EndsAs s (comment (Run.start s)) (Comment.parse s) := by
  have halong := Run.along_start s
  obtain ⟨gap, hsequence⟩ := Lexeme.exists_attachFrom_sequence s
  obtain ⟨r, t, gap', more, lead, hrun, halong, hsolid, hbreak, hattach, hlead⟩ :=
    halong.exists_indentation [] [] [] (.inl ⟨rfl, rfl⟩) halong.length_le_room
  rw [hsequence] at hattach
  unfold comment
  rw [look_bind, bind_of_ok hrun]
  by_cases hstop : t.kind = .stop
  · -- there are only line breaks
    obtain rfl := halong.tail_eq_nil hstop
    obtain ⟨htext, hend⟩ := List.append_singleton_inj.mp hattach
    obtain rfl : stopOf s = t := congrArg Lexeme.toToken hend
    have hdrop : (Lexeme.ofText s).dropWhile (·.kind = .newline) = [] := by
      rw [htext, List.dropWhile_eq_nil_iff]
      simpa using hlead
    have hnot : r.place.tok.kind ≠ .openDoc := by
      rw [halong.tok_eq, hstop]
      simp
    unfold Comment.parse
    dsimp only
    rw [hdrop, bind_of_error (e := .refused ⟨_, _⟩) (expect_of_kind_ne hnot), halong.tok_eq]
    exact ⟨rfl, halong.sound⟩
  · -- the end of the text stands last, behind the first token and the rest
    obtain ⟨body, hmore, htext⟩ : ∃ body, attachFrom [] more = body ++ [⟨stopOf s, gap⟩] ∧
        Lexeme.ofText s = lead ++ ⟨t, gap'⟩ :: body := by
      -- if nothing were left, the first token would be the end
      rcases List.eq_nil_or_concat' (attachFrom [] more) with hnil | ⟨body, y, hbody⟩
      · rw [hnil] at hattach
        obtain ⟨-, hend⟩ := List.append_singleton_inj.mp hattach
        obtain rfl : stopOf s = t := congrArg Lexeme.toToken hend
        exact absurd rfl hstop
      · rw [hbody, ← List.cons_append, ← List.append_assoc] at hattach
        obtain ⟨htext, rfl⟩ := List.append_singleton_inj.mp hattach
        exact ⟨body, hbody, htext⟩
    obtain ⟨htake, hdrop⟩ := Comment.span_append_cons (p := fun u : Lexeme => u.kind = .newline)
      (a := lead) (x := ⟨t, gap'⟩) (by simpa using hlead) (by simpa using hbreak) body
    unfold Comment.parse
    dsimp only
    rw [htext, hdrop, htake]
    dsimp only
    by_cases hopen : t.kind = .openDoc
    · have hkind : r.place.tok.kind = .openDoc := by rw [halong.tok_eq, hopen]
      rw [bind_of_ok (expect_of_kind hkind), if_pos hopen]
      apply endsAs_opened halong hopen hmore
      intro u hu
      rw [htext]
      simp [hu]
    · -- the text opens no comment
      have hkind : r.place.tok.kind ≠ .openDoc := by rwa [halong.tok_eq]
      rw [bind_of_error (e := .refused ⟨_, _⟩) (expect_of_kind_ne hkind), if_neg hopen,
        halong.tok_eq]
      exact ⟨rfl, halong.sound⟩

/-! ## Section 5: Steps back -/

/-- A run over any text, as a type or as a comment, ends as the grammar says, and never because the
parser steps back while a token is pending.  Whenever it steps back, it goes on to see the `&` again
as it stands in the text, then the token that it has read ahead, and then what follows that token,
and nothing is lost or repeated but for the blanks behind the `&`. -/
theorem backups_sound (s : Text) :
    (wholeType (Run.start s)).1 = (TypeExpr.parse s).mapError .refused ∧
    (comment (Run.start s)).1 = (Comment.parse s).mapError .refused ∧
    (wholeType (Run.start s)).1 ≠ .error .backedUpTwice ∧
    (comment (Run.start s)).1 ≠ .error .backedUpTwice ∧
    ∀ b ∈ (wholeType (Run.start s)).2.backups ++ (comment (Run.start s)).2.backups,
      Stream.StepsBack s b.1 b.2 := by
  have htype := wholeType_endsAs s
  have hcomment := comment_endsAs s
  refine ⟨htype.result, hcomment.result, htype.ne_backedUpTwice, hcomment.ne_backedUpTwice, ?_⟩
  exact List.forall_mem_append.mpr ⟨htype.sound, hcomment.sound⟩

/-- Where callables stand in the results of callables, one `&` is handed back by each of them. -/
example :
    (wholeType (Run.start "callable(callable(): callable(): A & $x)".toList)).2.backups.map
        (fun b => (b.1.tok.kind, b.2.tok.kind, b.2.tok.pos.column)) =
      [(.var, .amp, 36), (.var, .amp, 36), (.var, .amp, 36)] := by
  decide +kernel

end Parse

end Docblock
