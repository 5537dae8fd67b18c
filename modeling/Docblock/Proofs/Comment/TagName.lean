import Docblock.Proofs.Comment.Braces
import Docblock.Proofs.Comment.Slices

/-!
# Tags keep their names

The name of a tag is what the source says from its `@` up to the first space, tab, return or line
break, or up to the closing delimiter.  So whatever is glued to a keyword belongs to the name, and a
tag has the structure of a keyword only if it is called exactly like it.

## Contents

1. `Token.nameAt`: the name that stands at a token of the source.
2. `Tag.name_of_read`: the name of a tag that is read.
3. `Comment.exists_place_of_mem_cut`: where a line stands in the source.
4. `Comment.parse_names`: all lines of a comment.
-/

namespace Docblock

open Lexeme (words attachFrom ofTokens)
open Text (Blanks)

/-! ## Section 1: The name at a token -/

namespace Token

/-- The text from the first of some tokens up to the first space, tab, return or line break, or up
to the closing delimiter. -/
def nameAt (ts : List Token) : Text :=
  (textOf (ts.takeWhile (·.kind != .closeDoc))).takeWhile (· ∉ [' ', '\t', '\r', '\n'])

theorem textOf_append (ts us : List Token) : textOf (ts ++ us) = textOf ts ++ textOf us :=
  List.flatMap_append

theorem takeWhile_eq_of_mem {p q : Char → Bool} {x : Text} (h : ∀ c ∈ x, p c = q c) :
    x.takeWhile p = x.takeWhile q := by
  induction x with
  | nil => rfl
  | cons c x ih =>
    obtain ⟨hc, hx⟩ := List.forall_mem_cons.mp h
    rw [List.takeWhile_cons, List.takeWhile_cons, hc, ih hx]

theorem not_mem_newline_textOf {ts : List Token} (hts : ∀ t ∈ ts, Forms t.kind t.text)
    (hline : ∀ t ∈ ts, t.kind ≠ .newline) : '\n' ∉ textOf ts := by
  intro hmem
  obtain ⟨t, ht, hmem⟩ := List.mem_flatMap.mp hmem
  exact not_mem_newline_of_forms (hts t ht) (hline t ht) hmem

/-- At the latest the name ends with the line. -/
theorem nameAt_append {ts after : List Token} (hforms : ∀ t ∈ ts ++ after, Forms t.kind t.text)
    (hline : ∀ t ∈ ts, t.kind ≠ .newline ∧ t.kind ≠ .closeDoc)
    (hstop : ∀ t ∈ after.head?, t.kind = .newline ∨ t.kind = .closeDoc) :
    nameAt (ts ++ after) = (textOf ts).takeWhile (!Tag.endsName ·) := by
  obtain ⟨hts, hafter⟩ := List.forall_mem_append.mp hforms
  have hnewline := not_mem_newline_textOf hts fun t ht => (hline t ht).1
  have hopen : ∀ t ∈ ts, (t.kind != .closeDoc) = true := fun t ht => by simp [(hline t ht).2]
  rw [nameAt, List.takeWhile_append_of_pos hopen, textOf_append]
  -- a line break stands behind the line, or the closing delimiter
  have hhead : ∀ d ∈ (textOf (after.takeWhile (·.kind != .closeDoc))).head?,
      decide (d ∉ [' ', '\t', '\r', '\n']) = false := by
    cases after with
    | nil => simp [textOf]
    | cons t after =>
      -- a line break ends the name; the delimiter is not part of the text
      rcases hstop t rfl with ht | ht
      · have htext : t.text = ['\n'] := newline_of_forms (ht ▸ hafter t List.mem_cons_self)
        simp [ht, textOf, htext]
      · simp [ht, textOf]
  rw [takeWhile_append_of_head hhead, takeWhile_eq_of_mem]
  intro c hc
  have hc' : c ≠ '\n' := fun h => hnewline (h ▸ hc)
  rw [Bool.eq_iff_iff]
  simp [Tag.endsName, Text.isBlank, hc', and_assoc]

end Token

/-! ## Section 2: Tags that are read -/

namespace Tag

/-- The names of the tags that have a structure. -/
def structuredNames : List Text :=
  ["@param".toList, "@return".toList, "@property".toList, "@property-read".toList,
   "@property-write".toList, "@method".toList, "@var".toList, "@throws".toList, "@extends".toList,
   "@implements".toList, "@uses".toList, "@template".toList, "@phpstan-type".toList]

theorem name_of_keyword? {tag : Tag} {keyword : Keyword} (h : tag.keyword? = some keyword) :
    tag.name = '@' :: keyword.text := by
  cases tag with
  | other => cases h
  | _ =>
    obtain rfl := Option.some.inj h
    rfl

theorem mem_structuredNames {tag : Tag} (h : tag.keyword? ≠ none) : tag.name ∈ structuredNames := by
  obtain ⟨keyword, hkeyword⟩ := Option.ne_none_iff_exists'.mp h
  have hall : ∀ keyword ∈ Keyword.all, '@' :: keyword.text ∈ structuredNames := by decide
  rw [name_of_keyword? hkeyword]
  exact hall keyword (List.mem_of_find?_eq_some (Keyword.ofText?_text keyword))

/-- What is not glued to a name begins with a blank. -/
theorem takeWhile_textOf_of_not_glued {ts : List Token} (hts : ∀ t ∈ ts, Token.Forms t.kind t.text)
    (h : (ofTokens ts).head?.any Lexeme.isGlued = false) :
    (Token.textOf ts).takeWhile (!endsName ·) = [] := by
  cases ts with
  | nil => rfl
  | cons t ts =>
    have ht := hts t List.mem_cons_self
    -- a blank stands next, which ends the name
    by_cases hblank : t.kind = .blank
    · obtain ⟨c, x, hx⟩ := List.exists_cons_of_ne_nil (Token.forms_ne_nil ht)
      have hc : Text.isBlank c = true := by
        rw [hblank] at ht
        exact Token.blanks_of_forms ht c (by simp [hx])
      have htext : Token.textOf (t :: ts) = c :: (x ++ Token.textOf ts) := by
        rw [← List.cons_append, ← hx]
        rfl
      rw [htext, List.takeWhile_cons_of_neg (by simp [endsName_of_isBlank hc])]
    · simp [ofTokens, attachFrom, hblank, Lexeme.isGlued] at h

/-- A tag is called what stands at its token, up to the first character that ends a name. -/
theorem name_of_read {t : Lexeme} {more : List Token} {tag : Tag} (ht : t.kind = .tag)
    (hforms : ∀ u ∈ t.toToken :: more, Token.Forms u.kind u.text)
    (hstands : Word.Stands (words (ofTokens more)) none)
    (h : Tag.read t (ofTokens more) = .ok tag) :
    tag.name = (Token.textOf (t.toToken :: more)).takeWhile (!endsName ·) := by
  obtain ⟨htag, hmore⟩ := List.forall_mem_cons.mp hforms
  rw [ht] at htag
  obtain ⟨htext, -, hpart⟩ := tag_of_forms htag
  -- nothing in the token of the tag ends the name
  have hfront : ∀ c ∈ t.text, (!endsName c) = true := by
    rw [htext]
    refine List.forall_mem_cons.mpr ⟨rfl, fun c hc => ?_⟩
    rw [endsName_of_isTagPart (hpart c hc)]
    rfl
  have hsplit : (Token.textOf (t.toToken :: more)).takeWhile (!endsName ·) =
      t.text ++ (Token.textOf more).takeWhile (!endsName ·) :=
    List.takeWhile_append_of_pos hfront
  rw [hsplit]
  -- without a structure the name goes on in the tokens after the tag
  have hcut (hun : (ofTokens more).head?.any Lexeme.isGlued = true ∨
      Keyword.ofText? t.text.tail = none) :
      tag.name = t.text ++ (Token.textOf more).takeWhile (!endsName ·) := by
    obtain ⟨tail, htail, hsource⟩ := Lexeme.exists_source_attachFrom hmore []
    have htail : Blanks tail := htail (by simp [Blanks])
    have hsame := cut_append_space t.text.tail (Lexeme.source (ofTokens more))
      (fun c hc => endsName_of_isBlank (htail.head c hc)) htail.isSpace
    rw [read_unstructured hstands hun, ← hsame] at h
    obtain rfl := Except.ok.inj h
    have hsource : Token.textOf more = Lexeme.source (ofTokens more) ++ tail := hsource
    rw [cut, name, ← List.cons_append, ← htext, hsource]
  by_cases hglued : (ofTokens more).head?.any Lexeme.isGlued = true
  · exact hcut (.inl hglued)
  cases hkeyword : Keyword.ofText? t.text.tail with
  | none => exact hcut (.inr hkeyword)
  | some keyword =>
    -- the next token is set off, so that the name is the keyword
    rw [read_structured (by simpa using hglued) hkeyword] at h
    obtain ⟨mk, ws, stop, rest, -, hfields, -, rfl⟩ := sound_readStructured h
    rw [name_of_keyword? (hfields.keyword_eq _), Keyword.text_of_ofText? hkeyword, ← htext]
    rw [takeWhile_textOf_of_not_glued hmore (by simpa using hglued), List.append_nil]

end Tag

/-! ## Section 3: The place of a line -/

namespace Comment

/-- A line that counts stands in the tokens of the text, with a line break or the closing delimiter
behind it. -/
theorem exists_place_of_mem_cut {s : Text} {whole : List Token}
    (h : whole ∈ dropLast (dropFirst ((inside s).splitOnP (·.kind == .newline)))) :
    ∃ before after, Token.tokenize s = before ++ (whole ++ after) ∧
      (∀ t ∈ whole, t.kind ≠ .newline ∧ t.kind ≠ .closeDoc) ∧
      ∀ t ∈ after.head?, t.kind = .newline ∨ t.kind = .closeDoc := by
  obtain ⟨pre, post, hinside, hwhole, hpost⟩ :=
    exists_append_of_mem_splitOnP (dropFirst_subset _ (dropLast_subset _ h))
  have hsuffix : ((Token.tokenize s).dropWhile (·.kind != .openDoc)).tail <:+ Token.tokenize s :=
    (List.tail_suffix _).trans (List.dropWhile_suffix _)
  unfold inside at hinside
  generalize ((Token.tokenize s).dropWhile (·.kind != .openDoc)).tail = body at hinside hsuffix
  obtain ⟨before, hs⟩ := hsuffix
  -- no closing delimiter stands inside
  have hopen : ∀ t ∈ pre ++ (whole ++ post), t.kind ≠ .closeDoc := by
    rw [← hinside]
    exact fun t ht => by simpa using List.mem_takeWhile_imp ht
  have hbody :=
    List.takeWhile_append_dropWhile (p := fun t : Token => t.kind != .closeDoc) (l := body)
  have hclose := List.head?_dropWhile_not (fun t : Token => t.kind != .closeDoc) body
  rw [hinside] at hbody
  generalize body.dropWhile (·.kind != .closeDoc) = rest at hbody hclose
  refine ⟨before ++ pre, post ++ rest, ?_, ?_, ?_⟩
  · rw [← hs, ← hbody]
    simp
  · intro t ht
    refine ⟨by simpa using hwhole t ht, hopen t ?_⟩
    exact List.mem_append_right pre (List.mem_append_left post ht)
  · intro t ht
    -- the last line ends where the inside of the comment ends
    cases post with
    | nil =>
      obtain ⟨rest, rfl⟩ := List.head?_eq_some_iff.mp ht
      exact .inr (by simpa using hclose)
    | cons u post =>
      obtain rfl := Option.some.inj ht
      exact .inl (by simpa using hpost u rfl)

/-! ## Section 4: All lines of a comment -/

/-- What the lines that count are read from. -/
theorem forall₂_readsAs {s : Text} {c : Comment} (h : parse s = .ok c) :
    List.Forall₂
      (fun whole l => whole ∈ dropLast (dropFirst ((inside s).splitOnP (·.kind == .newline))) ∧
        ∃ gap, Word.Stands (words (attachFrom gap (Token.unmark whole))) none ∧
          ReadsAs (attachFrom gap (Token.unmark whole)) l)
      (dropLast (dropFirst ((inside s).splitOnP (·.kind == .newline)))) c.lines := by
  obtain ⟨lead, opening, ts, closing, trail, hs, hlead, hopen, hts, hclose, -, hlines, -, -⟩ :=
    parse_eq_ok_iff.mp h
  have hpieces := SourceLine.forall₂_isOf closing.toToken (inside s)
  rw [← eq_ofTokens_inside hs hlead hopen hts hclose] at hpieces
  have hread := forall₂_join hpieces (Line.readAll_eq_ok_iff.mp hlines)
  refine ((List.forall₂_and_left _ _).mpr ⟨fun _ => id, hread⟩).imp ?_
  rintro whole l ⟨hmem, line, hline, hof, hread⟩
  have honline := onLine_of_mem_content hs hts hline
  rw [hof] at honline
  rw [Line.read_eq_ok_iff, hof] at hread
  obtain ⟨gap, -, hdrop⟩ :=
    Line.dropMarker_attachFrom (forms_of_mem_cut hmem) (show Blanks [] by simp [Blanks])
  have hstands := honline.dropMarker.stands
  rw [ofTokens, hdrop] at hstands hread
  exact ⟨hmem, gap, hstands, hread⟩

/-- A line is a tag if its piece begins with one.  It has the name that stands there in the source,
and a structure only if this name is one of those. -/
inductive Names (s : Text) (piece : List Token) : Line → Prop where
  | text {x : Text} (h : ∀ t ∈ (Token.solid piece).head?, t.kind ≠ .tag) : Names s piece (.text x)
  | tag {before after : List Token} {t : Token} {tag : Tag}
      (hs : Token.tokenize s = before ++ t :: after) (hfirst : t ∈ (Token.solid piece).head?)
      (hkind : t.kind = .tag) (hname : tag.name = Token.nameAt (t :: after))
      (hstructured : tag.keyword? ≠ none → tag.name ∈ Tag.structuredNames) :
      Names s piece (.tag tag)

/-- What was read from a line has the name that stands there. -/
theorem names_of_readsAs {s : Text} {whole : List Token} {gap : Text} {l : Line}
    (hmem : whole ∈ dropLast (dropFirst ((inside s).splitOnP (·.kind == .newline))))
    (hstands : Word.Stands (words (attachFrom gap (Token.unmark whole))) none)
    (h : ReadsAs (attachFrom gap (Token.unmark whole)) l) : Names s (Token.unmark whole) l := by
  have htokens := Lexeme.map_toToken_attachFrom gap (Token.unmark whole)
  generalize hts : attachFrom gap (Token.unmark whole) = ts at h hstands htokens
  cases h with
  -- a line of free text has no name
  | text hfirst =>
    refine .text ?_
    rw [← htokens, List.head?_map]
    intro t ht
    obtain ⟨u, hu, rfl⟩ := Option.map_eq_some_iff.mp ht
    exact hfirst u hu
  | @tag t rest tag ht hread =>
    obtain ⟨blanks, more, hunmark, rfl, hblanks⟩ := Lexeme.exists_of_attachFrom_cons hts
    obtain ⟨before, after, hs, hline, hstop⟩ := exists_place_of_mem_cut hmem
    obtain ⟨marker, rfl⟩ : ∃ marker, marker ++ (blanks ++ t.toToken :: more) = whole := by
      rw [← hunmark]
      exact Token.unmark_suffix whole
    -- the marker and the blanks behind it stand before the first token of the piece
    have hplace : Token.tokenize s =
        (before ++ (marker ++ blanks)) ++ t.toToken :: (more ++ after) := by
      rw [hs]
      simp
    have hforms : ∀ u ∈ (t.toToken :: more) ++ after, Token.Forms u.kind u.text := by
      intro u hu
      apply Token.forms_of_mem_tokensFrom (p := .start) (s := s)
      change u ∈ Token.tokenize s
      rw [hplace]
      exact List.mem_append_right _ hu
    have hname := Tag.name_of_read ht (List.forall_mem_append.mp hforms).1 hstands.2.2 hread
    have hrest : ∀ u ∈ t.toToken :: more, u.kind ≠ .newline ∧ u.kind ≠ .closeDoc := fun u hu =>
      hline u (List.mem_append_right marker (List.mem_append_right blanks hu))
    rw [← Token.nameAt_append hforms hrest hstop] at hname
    refine .tag hplace ?_ ht hname Tag.mem_structuredNames
    rw [← htokens]
    rfl

/-- Every tag of a comment has the name that the source says. -/
theorem parse_names {s : Text} {c : Comment} (h : parse s = .ok c) :
    List.Forall₂ (Names s) (pieces s) c.lines := by
  unfold pieces
  rw [List.forall₂_map_left_iff]
  refine (forall₂_readsAs h).imp ?_
  rintro whole l ⟨hmem, gap, hstands, hread⟩
  exact names_of_readsAs hmem hstands hread

/-- A string with a blank inside and a full stop are glued to names, and one line has a
structure. -/
theorem parse_names_glued :
    ∃ c, parse "/**\n * @foo'a b' c\n * @throws E d\n * @return.*/".toList = .ok c ∧
      List.Forall₂ (Names "/**\n * @foo'a b' c\n * @throws E d\n * @return.*/".toList)
        (pieces "/**\n * @foo'a b' c\n * @throws E d\n * @return.*/".toList) c.lines := by
  have hts : Lexeme.ofText "/**\n * @foo'a b' c\n * @throws E d\n * @return.*/".toList =
      [⟨⟨.openDoc, "/**".toList, ⟨1, 1⟩⟩, []⟩, ⟨⟨.newline, ['\n'], ⟨1, 4⟩⟩, []⟩,
       ⟨⟨.asterisk, ['*'], ⟨2, 2⟩⟩, [' ']⟩, ⟨⟨.tag, "@foo".toList, ⟨2, 4⟩⟩, [' ']⟩,
       ⟨⟨.str, "'a b'".toList, ⟨2, 8⟩⟩, []⟩, ⟨⟨.ident, ['c'], ⟨2, 14⟩⟩, [' ']⟩,
       ⟨⟨.newline, ['\n'], ⟨2, 15⟩⟩, []⟩, ⟨⟨.asterisk, ['*'], ⟨3, 2⟩⟩, [' ']⟩,
       ⟨⟨.tag, "@throws".toList, ⟨3, 4⟩⟩, [' ']⟩, ⟨⟨.ident, ['E'], ⟨3, 12⟩⟩, [' ']⟩,
       ⟨⟨.ident, ['d'], ⟨3, 14⟩⟩, [' ']⟩, ⟨⟨.newline, ['\n'], ⟨3, 15⟩⟩, []⟩,
       ⟨⟨.asterisk, ['*'], ⟨4, 2⟩⟩, [' ']⟩, ⟨⟨.tag, "@return".toList, ⟨4, 4⟩⟩, [' ']⟩,
       ⟨⟨.other, ['.'], ⟨4, 11⟩⟩, []⟩, ⟨⟨.closeDoc, "*/".toList, ⟨4, 12⟩⟩, []⟩] := by
    cbv
  have h : parse "/**\n * @foo'a b' c\n * @throws E d\n * @return.*/".toList =
      .ok ⟨[.tag (.other "foo'a".toList "b' c".toList),
        .tag (.typed .throws (.named (.single ['E'])) ['d']),
        .tag (.other "return.".toList [])], [], false⟩ := by
    rw [parse, hts]
    rfl
  exact ⟨_, h, parse_names h⟩

end Comment

end Docblock
