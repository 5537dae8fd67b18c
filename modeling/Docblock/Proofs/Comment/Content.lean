import Docblock.Proofs.Comment.Pieces
import Docblock.Proofs.Token.Placement
import Mathlib

/-!
# What printing keeps of a comment

The rows of a comment say what its source says, line by line.  To make that precise without the
parser, the source is cut up by its tokens alone: `Comment.pieces` takes what stands between the
delimiters, cuts it at the line breaks and takes off the blanks and the marker in front of each
piece.  Every piece has its line and its row, and up to white space the row is the piece.

The fields of a tag are the one place where the row says anything else, and `Tag.Edited` lists all
that may happen there.

## Contents

1. `pieces`: the source of a comment in pieces.
2. `forall₂_content`: the parser cuts at the same places.
3. `restates_row`: one line.
4. `rows_restate_pieces`: all lines of a comment.
-/

namespace Docblock

open Lexeme (words)
open Row (Spread)
open Text (Blanks despace)
open Word (dense Stands)

/-! ## Section 1: The pieces of a source -/

namespace Token

/-- The text that some tokens cover. -/
def textOf (ts : List Token) : Text :=
  ts.flatMap (·.text)

/-- The tokens that are not blanks. -/
def solid (ts : List Token) : List Token :=
  ts.filter (·.kind != .blank)

/-- The kinds and the texts of the tokens that are not blanks. -/
def cores (ts : List Token) : List (Kind × Text) :=
  (solid ts).map fun t => (t.kind, t.text)

/-- Nothing but blanks. -/
def onlyBlanks (ts : List Token) : Bool :=
  ts.all (·.kind == .blank)

/-- Take off the blanks in front, and one asterisk after them. -/
def unmark (ts : List Token) : List Token :=
  match ts.dropWhile (·.kind == .blank) with
  | t :: rest => if t.kind = .asterisk then rest else t :: rest
  | [] => []

end Token

namespace Comment

/-- The tokens between the delimiters of a comment. -/
def inside (s : Text) : List Token :=
  ((Token.tokenize s).dropWhile (·.kind != .openDoc)).tail.takeWhile (·.kind != .closeDoc)

/-- Leave out the first piece if it is blank and a line break follows it. -/
def dropFirst : List (List Token) → List (List Token)
  | first :: next :: rest =>
    if Token.onlyBlanks first then next :: rest else first :: next :: rest
  | pieces => pieces

/-- Leave out the last piece if it is blank. -/
def dropLast (pieces : List (List Token)) : List (List Token) :=
  if pieces.getLast?.any Token.onlyBlanks then pieces.dropLast else pieces

/-- The source of a comment in pieces, one for every line that counts. -/
def pieces (s : Text) : List (List Token) :=
  (dropLast (dropFirst ((inside s).splitOnP (·.kind == .newline)))).map Token.unmark

end Comment

/-! ## Section 2: The parser cuts at the same places -/

section Filter

variable {α : Type} {p q : α → Bool}

/-- Taking a run and leaving out what is never its end may be done in either order. -/
theorem filter_takeWhile (h : ∀ x, q x = false → p x = true) (l : List α) :
    (l.takeWhile p).filter q = (l.filter q).takeWhile p := by
  induction l with
  | nil => rfl
  | cons x l ih =>
    cases hq : q x with
    | true => cases hp : p x <;> simp [hp, hq, ih]
    | false => simp [h x hq, hq, ih]

/-- What follows the first element that is not dropped, which is not filtered out either. -/
theorem filter_tail_dropWhile (h : ∀ x, q x = false → p x = true) (l : List α) :
    (l.dropWhile p).tail.filter q = ((l.filter q).dropWhile p).tail := by
  induction l with
  | nil => rfl
  | cons x l ih =>
    cases hq : q x with
    | true => cases hp : p x <;> simp [hp, hq, ih]
    | false => simp [h x hq, hq, ih]

/-- What is filtered out makes no difference to where a list is cut. -/
theorem map_filter_splitOnP (h : ∀ x, q x = false → p x = false) (l : List α) :
    (l.splitOnP p).map (List.filter q) = (l.filter q).splitOnP p := by
  -- induction on the list: an element that is left out is no cut and joins the first piece
  induction l with
  | nil => rfl
  | cons x l ih =>
    rw [List.splitOnP_cons_eq_if_modifyHead]
    cases hq : q x with
    | false =>
      rw [if_neg (by simp [h x hq]), List.filter_cons_of_neg (by simp [hq]), ← ih]
      cases l.splitOnP p with
      | nil => rfl
      | cons a as => simp [hq]
    | true =>
      rw [List.filter_cons_of_pos hq, List.splitOnP_cons_eq_if_modifyHead, ← ih]
      split
      · rfl
      · cases l.splitOnP p with
        | nil => rfl
        | cons a as => simp [hq]

end Filter

namespace Lexeme

/-- Lexemes are the tokens that are not blanks. -/
theorem map_toToken_attachFrom (gap : Text) (ts : List Token) :
    (attachFrom gap ts).map (·.toToken) = Token.solid ts := by
  induction ts generalizing gap with
  | nil => rfl
  | cons t ts ih =>
    unfold attachFrom Token.solid
    -- a blank is left out on both sides, as the gap of the next token
    by_cases ht : t.kind = .blank
    · rw [if_pos ht, List.filter_cons_of_neg (by simp [ht])]
      exact ih _
    · rw [if_neg ht, List.filter_cons_of_pos (by simp [ht]), List.map_cons, ih]
      rfl

theorem map_toToken_ofText (s : Text) :
    (ofText s).map (·.toToken) = Token.solid (Token.tokenize s) :=
  map_toToken_attachFrom [] _

end Lexeme

/-- The line has the tokens of the piece. -/
def SourceLine.Covers (line : SourceLine) (piece : List Token) : Prop :=
  line.words.map (·.toToken) = Token.solid piece

namespace SourceLine

variable (stop : Token) {line : SourceLine} {piece : List Token}

/-- Lexemes are cut into lines at their line breaks. -/
theorem map_words_split (ts : List Lexeme) :
    ((split stop ts).1 :: (split stop ts).2).map (fun l => l.words.map (·.toToken)) =
      (ts.map (·.toToken)).splitOnP (·.kind == .newline) := by
  induction ts with
  | nil => rfl
  | cons t ts ih =>
    have hcons : (t :: ts).map (·.toToken) = t.toToken :: ts.map (·.toToken) := rfl
    rw [hcons, List.splitOnP_cons_eq_if_modifyHead, ← ih]
    by_cases ht : t.kind = .newline
    · simp [split, ht]
    · simp [split, ht]

/-- The parser cuts a text where its line breaks are. -/
theorem split_covers {ts : List Lexeme} {us : List Token}
    (h : ts.map (·.toToken) = Token.solid us) :
    List.Forall₂ Covers ((split stop ts).1 :: (split stop ts).2)
      (us.splitOnP (·.kind == .newline)) := by
  -- cutting and leaving out blanks may be done in either order
  have hlines := map_words_split stop ts
  rw [h, Token.solid, ← map_filter_splitOnP (by simp +contextual)] at hlines
  unfold Covers
  rw [← @List.forall₂_map_left_iff _ _ _ (fun a b => a = Token.solid b),
    ← @List.forall₂_map_right_iff _ _ _ (fun a b => a = b), List.forall₂_eq_eq_eq]
  exact hlines

theorem Covers.words_eq_nil (h : Covers line piece) :
    line.words = [] ↔ Token.onlyBlanks piece = true := by
  have hsolid : Token.solid piece = [] ↔ Token.onlyBlanks piece = true := by
    simp [Token.solid, Token.onlyBlanks]
  rw [← hsolid, ← h, List.map_eq_nil_iff]

section Cut

variable {R : SourceLine → List Token → Prop}
  (hR : ∀ {line piece}, R line piece → (line.words = [] ↔ Token.onlyBlanks piece = true))

include hR

/-- A blank last line is left out with its piece. -/
theorem forall₂_dropBlankEnd {lines : List SourceLine} {pieces : List (List Token)}
    (h : List.Forall₂ R lines pieces) :
    List.Forall₂ R (dropBlankEnd lines) (Comment.dropLast pieces) := by
  induction h with
  | nil => exact .nil
  | @cons line piece lines pieces hline hlines ih =>
    cases hlines with
    | nil =>
      unfold dropBlankEnd Comment.dropLast
      by_cases hblank : Token.onlyBlanks piece = true
      · simp [(hR hline).mpr hblank, hblank]
      · have hne : line.words ≠ [] := fun hnil => hblank ((hR hline).mp hnil)
        simp [hne, hblank, hline]
    | @cons line' piece' lines pieces hline' hlines =>
      -- what happens to the last piece does not touch the first
      have hdrop : Comment.dropLast (piece :: piece' :: pieces) =
          piece :: Comment.dropLast (piece' :: pieces) := by
        unfold Comment.dropLast
        rw [List.getLast?_cons_cons]
        split
        · rfl
        · rfl
      rw [hdrop]
      exact .cons hline ih

/-- The lines that count are the pieces that count. -/
theorem forall₂_content {ts : List Lexeme} {pieces : List (List Token)}
    -- the first line is blank with others behind it, or it counts
    (hsplit : List.Forall₂ R ((split stop ts).1 :: (split stop ts).2) pieces) :
    List.Forall₂ R (content stop ts).2 (Comment.dropLast (Comment.dropFirst pieces)) := by
  unfold content
  split
  · next stop' next rest heq =>
    rw [heq] at hsplit
    cases hsplit with
    | @cons _ first _ _ hfirst hrest =>
      cases hrest with
      | @cons _ second _ others hnext hothers =>
        have hblank : Token.onlyBlanks first = true := (hR hfirst).mp rfl
        have hdrop : Comment.dropFirst (first :: second :: others) = second :: others := by
          simp [Comment.dropFirst, hblank]
        rw [hdrop]
        exact forall₂_dropBlankEnd hR (.cons hnext hothers)
  · next first rest hcount heq =>
    rw [heq] at hsplit
    have hkeep : Comment.dropFirst pieces = pieces := by
      cases hsplit with
      | @cons _ piece _ _ hfirst hrest =>
        cases hrest with
        | nil => rfl
        | @cons next _ lines _ _ _ =>
          have hblank : ¬Token.onlyBlanks piece = true := by
            intro hblank
            obtain ⟨ws, stop'⟩ := first
            obtain rfl : ws = [] := (hR hfirst).mpr hblank
            exact hcount _ _ _ rfl rfl
          simp [Comment.dropFirst, hblank]
    rw [hkeep]
    exact forall₂_dropBlankEnd hR hsplit

end Cut

theorem content_covers {ts : List Lexeme} {us : List Token}
    (h : ts.map (·.toToken) = Token.solid us) :
    List.Forall₂ Covers (content stop ts).2
      (Comment.dropLast (Comment.dropFirst (us.splitOnP (·.kind == .newline)))) :=
  forall₂_content stop Covers.words_eq_nil (split_covers stop h)

end SourceLine

namespace Token

variable {t : Token} {ts : List Token}

theorem unmark_of_blank (h : t.kind = .blank) : unmark (t :: ts) = unmark ts := by
  simp [unmark, h]

theorem unmark_of_solid (h : t.kind ≠ .blank) :
    unmark (t :: ts) = if t.kind = .asterisk then ts else t :: ts := by
  simp [unmark, h]

theorem solid_of_blank (h : t.kind = .blank) : solid (t :: ts) = solid ts := by
  simp [solid, h]

theorem solid_of_solid (h : t.kind ≠ .blank) : solid (t :: ts) = t :: solid ts := by
  simp [solid, h]

end Token

/-- The marker in front of a line is the asterisk in front of its piece. -/
theorem SourceLine.map_toToken_dropMarker {ts : List Lexeme} {piece : List Token}
    (h : ts.map (·.toToken) = Token.solid piece) :
    (Line.dropMarker ts).map (·.toToken) = Token.solid (Token.unmark piece) := by
  -- induction on the piece, up to its first token that is no blank
  induction piece with
  | nil =>
    obtain rfl : ts = [] := by simpa [Token.solid] using h
    rfl
  | cons t piece ih =>
    by_cases ht : t.kind = .blank
    · rw [Token.solid_of_blank ht] at h
      rw [Token.unmark_of_blank ht]
      exact ih h
    · rw [Token.solid_of_solid ht] at h
      rw [Token.unmark_of_solid ht]
      obtain ⟨u, us, rfl, rfl, hus⟩ := List.map_eq_cons_iff.mp h
      have hdrop : Line.dropMarker (u :: us) = if u.kind = .asterisk then us else u :: us := rfl
      rw [hdrop]
      by_cases hstar : u.kind = .asterisk
      · rw [if_pos hstar, if_pos hstar]
        exact hus
      · rw [if_neg hstar, if_neg hstar, Token.solid_of_solid ht]
        exact h

/-- What the parser reads between the delimiters are the tokens between them. -/
theorem Comment.map_toToken_inside {s : Text} {lead ts trail : List Lexeme}
    {opening closing : Lexeme} (hs : Lexeme.ofText s = lead ++ opening :: (ts ++ closing :: trail))
    (hlead : ∀ t ∈ lead, t.kind = .newline) (hopen : opening.kind = .openDoc)
    (hts : ∀ t ∈ ts, t.kind ≠ .closeDoc) (hclose : closing.kind = .closeDoc) :
    ts.map (·.toToken) = Token.solid (inside s) := by
  have htokens : Token.solid (Token.tokenize s) = lead.map (·.toToken) ++ opening.toToken ::
      (ts.map (·.toToken) ++ closing.toToken :: trail.map (·.toToken)) := by
    rw [← Lexeme.map_toToken_ofText, hs]
    simp
  unfold inside
  rw [Token.solid, filter_takeWhile (by simp +contextual), filter_tail_dropWhile (by simp +contextual),
    ← Token.solid, htokens]
  -- what stands in front of the opening delimiter, and what stands between the two
  have hbefore := span_append_cons (p := fun t : Token => t.kind != .openDoc) (x := opening.toToken)
    (a := lead.map (·.toToken)) (by simp +contextual [hlead]) (by simp [hopen])
    (ts.map (·.toToken) ++ closing.toToken :: trail.map (·.toToken))
  have hwithin := span_append_cons (p := fun t : Token => t.kind != .closeDoc) (x := closing.toToken)
    (a := ts.map (·.toToken)) (by simpa using hts) (by simp [hclose]) (trail.map (·.toToken))
  rw [hbefore.2, List.tail_cons, hwithin.1]

/-! ## Section 3: One line -/

/-- What is passed and what is left have the kinds and the texts of the whole. -/
theorem Passes.map_core {ts rest : List Lexeme} {ws : List Word} (h : Passes ts ws rest) :
    (words ts).map Word.core = ws.map Word.core ++ (words rest).map Word.core := by
  induction h with
  | done => rfl
  | step t _ ih =>
    rw [Lexeme.words_cons, List.map_cons, ih]
    rfl
  | drawUp _ _ ih => exact ih

theorem Row.Spread.despace {ps : List Text} {y : Text} (h : Spread ps y) :
    despace y = ps.flatMap despace := by
  induction h with
  | nil => rfl
  | cons hb _ _ ih => simp [hb.despace, ih]

theorem OnLine.despace_source {ts : List Lexeme} (h : OnLine ts) :
    despace (Lexeme.source ts) = dense ((words ts).map Word.core) := by
  rw [← Word.source_words]
  apply Word.despace_source
  intro w hw
  exact (h.stands.sound w hw).blank

theorem flatMap_despace_desc (desc : Text) :
    ([desc].filter (!·.isEmpty)).flatMap despace = despace desc := by
  cases desc with
  | nil => rfl
  | cons c desc => simp

/-- The row of a line says what its piece says.  If the line is a tag with a structure, the fields
may be edited, while its keyword and its description are kept. -/
inductive Restates (piece : List (Kind × Text)) : Line → Text → Prop where
  | verbatim {line : Line} {row : Text} (h : despace row = dense piece) : Restates piece line row
  | edited {tag : Tag} {keyword : Keyword} {row : Text} {fields new rest : List (Kind × Text)}
      (hkeyword : tag.keyword? = some keyword)
      (hpiece : piece = (.tag, '@' :: keyword.text) :: (fields ++ rest))
      (hdesc : despace tag.desc = dense rest) (hfields : Tag.Edited keyword fields new)
      (hrow : despace row = dense ((.tag, '@' :: keyword.text) :: (new ++ rest))) :
      Restates piece (.tag tag) row

/-- The row of a line restates its words: as they are, or with the fields of a tag edited. -/
theorem restates_row {ts : List Lexeme} {l : Line} {r : Text} (hts : OnLine ts)
    (hread : ReadsAs ts l) (hrow : l.PrintsAs r) : Restates ((words ts).map Word.core) l r := by
  cases hread with
  | text hfirst =>
    have hd : Text.Trimmed (restOfLine ts) := Text.trimmed_trim _
    obtain ⟨laid, hlaid, rfl⟩ := hrow
    cases hlaid
    apply Restates.verbatim
    rw [← hts.despace_source, List.nil_append]
    have htrim : Text.trimLine (restOfLine ts) = restOfLine ts :=
      Text.trimLine_eq_self (Text.endsOff_isBlank hd.back)
    exact (congrArg despace htrim).trans (Text.despace_trim _)
  | @tag t rest tag ht h =>
    have hforms : Token.Forms .tag t.text := by
      have := hts.stands.1.forms
      rwa [Lexeme.word_kind, ht] at this
    have hcores : (words (t :: rest)).map Word.core = t.word.core :: (words rest).map Word.core := rfl
    rw [hcores]
    -- a tag by an unknown name is kept as it is, one by a known name is read into fields
    rcases Tag.read_eq_ok hts.tail.stands h with ⟨-, rfl⟩ | ⟨keyword, hkeyword, h⟩
    · obtain ⟨y, rfl, hy⟩ := exists_row_unstructured hforms hrow
      apply Restates.verbatim
      -- the name and the description are the text after the tag, cut in two
      have hcut : despace ((Lexeme.source rest).takeWhile (!Tag.endsName ·)) ++ despace y =
          despace (Lexeme.source rest) := by
        rw [hy.despace, flatMap_despace_desc, Text.despace_trim, ← Text.despace_append,
          List.takeWhile_append_dropWhile]
      rw [Text.despace_append, Text.despace_append, List.append_assoc, hcut, hts.tail.despace_source]
      rfl
    · obtain ⟨mk, ws, stop, rest', hpass, hfields, -, rfl⟩ := Tag.sound_readStructured h
      have hgenuine := (hpass.genuine (genuine_of_stands hts.tail.stands)).1
      obtain ⟨cells, parts, stop', hre⟩ := Tag.respell_fields hfields hgenuine
      obtain ⟨z, rfl, hz⟩ := exists_row_structured hre (Text.trimmed_trim _) hrow
      obtain ⟨new, hedited, hnew⟩ := hre.edited
      have htext : '@' :: keyword.text = t.text := by
        rw [Keyword.text_of_ofText? hkeyword]
        exact (tag_of_forms hforms).1.symm
      have hdesc : despace (restOfLine rest') = dense ((words rest').map Word.core) := by
        rw [restOfLine, Text.despace_trim]
        exact (hts.tail.passes hpass).despace_source
      have hhead : t.word.core = (.tag, '@' :: keyword.text) := by
        rw [htext, ← ht]
        rfl
      rw [hpass.map_core, hhead]
      refine .edited (hfields.keyword_eq _) rfl ?_ hedited ?_
      · rw [hfields.desc_eq]
        exact hdesc
      · rw [Text.despace_append, hz.despace, List.flatMap_append, hnew, flatMap_despace_desc,
          ← restOfLine, hdesc]
        simp

/-! ## Section 4: All lines of a comment -/

namespace Token

/-- Without white space, the text of some tokens is that of the solid ones. -/
theorem despace_textOf {ts : List Token} (h : ∀ t ∈ ts, Forms t.kind t.text) :
    despace (textOf ts) = dense (cores ts) := by
  induction ts with
  | nil => rfl
  | cons t ts ih =>
    obtain ⟨ht, hts⟩ := List.forall_mem_cons.mp h
    have htext : textOf (t :: ts) = t.text ++ textOf ts := rfl
    rw [htext, Text.despace_append, ih hts]
    unfold cores
    -- blanks have no text without white space, and the other tokens are the cores
    by_cases hk : t.kind = .blank
    · rw [solid_of_blank hk]
      rw [hk] at ht
      simp [(blanks_of_forms ht).despace]
    · rw [solid_of_solid hk]
      simp

/-- The marker and the blanks around it stand in front. -/
theorem unmark_suffix (ts : List Token) : unmark ts <:+ ts := by
  refine List.IsSuffix.trans ?_ (List.dropWhile_suffix (·.kind == .blank))
  -- an asterisk is left out, or another token or nothing begins what is left
  unfold unmark
  split
  · next t rest heq =>
    rw [heq]
    split
    · exact List.suffix_cons t rest
    · exact List.suffix_rfl
  · exact List.nil_suffix

end Token

namespace Comment

/-- A part of a list that is cut up goes from one cut to the next. -/
theorem exists_append_of_mem_splitOnP {α : Type} {p : α → Bool} {l a : List α}
    (h : a ∈ l.splitOnP p) :
    ∃ pre post, l = pre ++ (a ++ post) ∧ (∀ x ∈ a, p x = false) ∧ ∀ x ∈ post.head?, p x = true := by
  -- on the length: the first piece ends at the first cut, and the others are pieces of what follows
  induction hn : l.length using Nat.strong_induction_on generalizing l with
  | _ n ih =>
    have hsplit := List.takeWhile_append_dropWhile (p := (!p ·)) (l := l)
    have hfirst : ∀ x ∈ l.takeWhile (!p ·), p x = false := fun x hx => by
      simpa using List.mem_takeWhile_imp hx
    have hstop := List.head?_dropWhile_not (!p ·) l
    generalize l.takeWhile (!p ·) = first at hsplit hfirst
    cases hrest : l.dropWhile (!p ·) with
    | nil =>
      -- there is no cut
      rw [hrest, List.append_nil] at hsplit
      subst hsplit
      rw [List.splitOnP_eq_singleton hfirst, List.mem_singleton] at h
      exact ⟨[], [], by simp [h], h ▸ hfirst, by simp⟩
    | cons sep rest =>
      rw [hrest] at hsplit hstop
      subst hsplit
      have hsep : p sep = true := by simpa using hstop
      rw [List.splitOnP_append_cons_of_forall_mem hfirst sep hsep] at h
      rcases List.mem_cons.mp h with rfl | h
      · exact ⟨[], sep :: rest, rfl, hfirst, by simp [hsep]⟩
      · have hshorter : rest.length < n := by
          rw [List.length_append, List.length_cons] at hn
          omega
        obtain ⟨pre, post, rfl, ha, hpost⟩ := ih _ hshorter h rfl
        exact ⟨first ++ sep :: pre, post, by simp, ha, hpost⟩

theorem dropFirst_subset (ps : List (List Token)) : dropFirst ps ⊆ ps := by
  unfold dropFirst
  split
  · split
    · exact List.subset_cons_self _ _
    · exact List.Subset.refl _
  · exact List.Subset.refl _

theorem dropLast_subset (ps : List (List Token)) : dropLast ps ⊆ ps := by
  unfold dropLast
  split
  · exact List.dropLast_subset ps
  · exact List.Subset.refl _

/-- What a source is cut up into is made up of tokens of that source. -/
theorem forms_of_mem_cut {s : Text} {whole : List Token}
    (h : whole ∈ dropLast (dropFirst ((inside s).splitOnP (·.kind == .newline)))) :
    ∀ t ∈ whole, Token.Forms t.kind t.text := by
  intro t ht
  have hcut := dropFirst_subset _ (dropLast_subset _ h)
  have hinside : t ∈ inside s := by
    obtain ⟨pre, post, hl, -, -⟩ := exists_append_of_mem_splitOnP hcut
    rw [hl]
    exact List.mem_append_right pre (List.mem_append_left post ht)
  -- a token of a piece is a token of the whole source
  apply Token.forms_of_mem_tokensFrom (p := .start) (s := s)
  have htail := (List.takeWhile_prefix _).subset hinside
  exact (List.dropWhile_suffix _).subset (List.mem_of_mem_tail htail)

theorem forms_of_mem_pieces {s : Text} {piece : List Token} (h : piece ∈ pieces s) :
    ∀ t ∈ piece, Token.Forms t.kind t.text := by
  obtain ⟨whole, hwhole, rfl⟩ := List.mem_map.mp h
  exact fun t ht => forms_of_mem_cut hwhole t ((Token.unmark_suffix _).subset ht)

theorem cores_of_map_toToken {ts : List Lexeme} {piece : List Token}
    (h : ts.map (·.toToken) = Token.solid piece) :
    Token.cores piece = (words ts).map Word.core := by
  unfold Token.cores
  rw [← h, List.map_map, words, List.map_map]
  rfl

/-- The pieces of the source, the lines of the comment and the printed rows go together, and every
row restates its piece. -/
theorem rows_restate_pieces {s : Text} {c : Comment} (h : parse s = .ok c) :
    c.body.length = c.lines.length ∧
    List.Forall₂ (fun piece x => despace (Token.textOf piece) = dense (Token.cores piece) ∧
      Restates (Token.cores piece) x.1 x.2) (pieces s) (c.lines.zip c.body) := by
  refine ⟨c.printsAs_body.length_eq.symm, ?_⟩
  obtain ⟨lead, opening, ts, closing, trail, hs, hlead, hopen, hts, hclose, -, hlines, -, -⟩ :=
    parse_eq_ok_iff.mp h
  have htokens := map_toToken_inside hs hlead hopen hts hclose
  have hcovers := SourceLine.content_covers closing.toToken htokens
  -- each line with its row, and each piece with its line
  have hlined := forall₂_zip_right (Line.readAll_eq_ok_iff.mp hlines) c.printsAs_body
  have hall := forall₂_join hcovers hlined
  rw [List.forall₂_and_left]
  refine ⟨fun piece hpiece => Token.despace_textOf (forms_of_mem_pieces hpiece), ?_⟩
  unfold pieces
  rw [List.forall₂_map_left_iff]
  refine hall.imp ?_
  rintro piece ⟨l, r⟩ ⟨line, hline, hcover, hread, hrow⟩
  have honline := (onLine_of_mem_content hs hts hline).dropMarker
  have hrestates := restates_row honline (Line.read_eq_ok_iff.mp hread) hrow
  rwa [← cores_of_map_toToken (SourceLine.map_toToken_dropMarker hcover)] at hrestates

/-- A bound that is introduced by `as`, with a comma before the end of its list. -/
theorem rows_restate_pieces_bound :
    ∃ c, parse "/** @template T as array<A,> b\n*/".toList = .ok c ∧
      c.body = ["@template T of array<A> b".toList] ∧
      List.Forall₂ (fun piece x => despace (Token.textOf piece) = dense (Token.cores piece) ∧
        Restates (Token.cores piece) x.1 x.2) (pieces "/** @template T as array<A,> b\n*/".toList)
        (c.lines.zip c.body) := by
  have hts : Lexeme.ofText "/** @template T as array<A,> b\n*/".toList =
      [⟨⟨.openDoc, "/**".toList, ⟨1, 1⟩⟩, []⟩, ⟨⟨.tag, "@template".toList, ⟨1, 5⟩⟩, [' ']⟩,
       ⟨⟨.ident, ['T'], ⟨1, 15⟩⟩, [' ']⟩, ⟨⟨.ident, "as".toList, ⟨1, 17⟩⟩, [' ']⟩,
       ⟨⟨.array, "array".toList, ⟨1, 20⟩⟩, [' ']⟩, ⟨⟨.lt, ['<'], ⟨1, 25⟩⟩, []⟩,
       ⟨⟨.ident, ['A'], ⟨1, 26⟩⟩, []⟩, ⟨⟨.comma, [','], ⟨1, 27⟩⟩, []⟩, ⟨⟨.gt, ['>'], ⟨1, 28⟩⟩, []⟩,
       ⟨⟨.ident, ['b'], ⟨1, 30⟩⟩, [' ']⟩, ⟨⟨.newline, ['\n'], ⟨1, 31⟩⟩, []⟩,
       ⟨⟨.closeDoc, "*/".toList, ⟨2, 1⟩⟩, []⟩] := by
    cbv
  have h : parse "/** @template T as array<A,> b\n*/".toList =
      .ok ⟨[.tag (.template ['T'] (some (.generic (.shape .array []) [.named (.single ['A'])])) ['b'])],
        [], true⟩ := by
    rw [parse, hts]
    rfl
  exact ⟨_, h, rfl, (rows_restate_pieces h).2⟩

end Comment

end Docblock
