import Docblock.Proofs.Comment.Independence
import Docblock.Proofs.Comment.Layout
import Docblock.Proofs.Source.Closing

/-!
# Free text

A comment may hold any prose: a line that does not begin with a tag is taken as it is, and no line
of prose is ever refused.  What prose can do is to keep the comment from ending.  A quote that is
still open on the last line, a slash, or a slash with a star runs on into the closing delimiter that
stands behind it, and then nothing closes the comment.

## Contents

1. `Text.opensTag`: how a line begins.
2. `Line.exists_readAll_of_prose`: lines of prose are read.
3. `TakesClosing`: when the delimiter is lost.
4. `parse_prose`: comments that hold prose.
-/

namespace Docblock

open Lexeme (words)
open Text (Blanks NoClose)
open Word (source scan)

/-! ## Section 1: How a line begins -/

namespace Text

/-- A text without the star it begins with, if it does. -/
def dropStar : Text → Text
  | '*' :: rest => rest
  | s => s

/-- A line without the blanks in front of it, the star behind them and the blanks after that. -/
def unmarked (l : Text) : Text :=
  (dropStar (l.dropWhile isBlank)).dropWhile isBlank

/-- Does a text begin with an `@` and a name? -/
def startsTag : Text → Bool
  | '@' :: c :: _ => Token.isTagPart c
  | _ => false

/-- Does a line begin with a tag? -/
def opensTag (l : Text) : Bool :=
  startsTag (unmarked l)

theorem dropWhile_blanks_append {b : Text} (hb : Blanks b) (s : Text) :
    (b ++ s).dropWhile isBlank = s.dropWhile isBlank :=
  List.dropWhile_append_of_pos hb

theorem dropWhile_append_of_ne_nil {l : Text} (h : l.dropWhile isBlank ≠ []) (s : Text) :
    (l ++ s).dropWhile isBlank = l.dropWhile isBlank ++ s := by
  rw [List.dropWhile_append, if_neg (by simpa using h)]

theorem dropWhile_append_of_eq_nil {l : Text} (h : l.dropWhile isBlank = []) (s : Text) :
    (l ++ s).dropWhile isBlank = s.dropWhile isBlank := by
  rw [List.dropWhile_append, if_pos (by simpa using h)]

theorem dropStar_append {l : Text} (h : l ≠ []) (s : Text) : dropStar (l ++ s) = dropStar l ++ s := by
  obtain ⟨c, l, rfl⟩ := List.exists_cons_of_ne_nil h
  by_cases hc : c = '*'
  · subst hc
    rfl
  · simp [dropStar, hc]

/-- A closing delimiter behind a line makes no tag of it. -/
theorem opensTag_of_append_closing {l : Text} (h : opensTag (l ++ "*/".toList) = true) :
    opensTag l = true := by
  -- a slash behind the text does not make a tag of it
  have hopens {r : Text} (hr : startsTag (r ++ "*/".toList) = true) : startsTag r = true := by
    cases r with
    | nil => cases hr
    | cons d r =>
      by_cases hd : d = '@'
      · subst hd
        cases r with
        | nil => cases hr
        | cons c r => exact hr
      · simp [startsTag, hd] at hr
  unfold opensTag unmarked at h ⊢
  by_cases hl : l.dropWhile isBlank = []
  · -- the star of the delimiter is taken for the marker
    rw [dropWhile_append_of_eq_nil hl] at h
    cases h
  · rw [dropWhile_append_of_ne_nil hl, dropStar_append hl] at h
    -- nothing stands behind the marker, so the slash would come first
    by_cases hstar : (dropStar (l.dropWhile isBlank)).dropWhile isBlank = []
    · rw [dropWhile_append_of_eq_nil hstar] at h
      cases h
    · -- the tag begins on the line itself
      rw [dropWhile_append_of_ne_nil hstar] at h
      exact hopens h

theorem startsTag_append {name : Text} (hne : name ≠ []) (hname : ∀ c ∈ name, Token.isTagPart c = true)
    (s : Text) : startsTag ('@' :: name ++ s) = true := by
  obtain ⟨c, name, rfl⟩ := List.exists_cons_of_ne_nil hne
  exact hname c List.mem_cons_self

/-- What begins with an `@` has no blanks and no star in front. -/
theorem dropWhile_of_startsTag {x : Text} (h : startsTag x = true) :
    x.dropWhile isBlank = x ∧ dropStar x = x := by
  cases x with
  | nil => cases h
  | cons d x =>
    by_cases hd : d = '@'
    · subst hd
      exact ⟨rfl, rfl⟩
    · simp [startsTag, hd] at h

/-- The lexeme of kind `tag` that begins a line, but for its marker, is what the line begins with. -/
theorem unmarked_of_dropMarker {l : Text} {ts rest : List Lexeme} {t : Lexeme}
    (hts : words ts = scan [] l) (hdrop : Line.dropMarker ts = t :: rest) (ht : t.kind = .tag) :
    ∃ tail, l = Lexeme.source ts ++ tail ∧ unmarked l = t.text ++ (Lexeme.source rest ++ tail) ∧
      startsTag (unmarked l) = true ∧ Word.Stands (words (t :: rest)) tail.head? := by
  obtain ⟨tail, hl, hstands, -⟩ := Word.exists_scan l
  rw [← hts] at hl hstands
  rw [Word.source_words] at hl
  refine ⟨tail, hl, ?_⟩
  -- a tag after some blanks
  have htag (hrest : Word.Stands (words (t :: rest)) tail.head?) :
      (Lexeme.source (t :: rest) ++ tail).dropWhile isBlank = t.text ++ (Lexeme.source rest ++ tail) ∧
        startsTag (t.text ++ (Lexeme.source rest ++ tail)) = true := by
    obtain ⟨hforms, -, hgap⟩ := hrest.1
    rw [Lexeme.word_kind, Lexeme.word_text, ht] at hforms
    rw [Lexeme.word_gap] at hgap
    obtain ⟨htext, hne, hname⟩ := tag_of_forms hforms
    have hstarts := startsTag_append hne hname (Lexeme.source rest ++ tail)
    rw [← htext] at hstarts
    refine ⟨?_, hstarts⟩
    rw [source_cons_lexeme, List.append_assoc, List.append_assoc, dropWhile_blanks_append hgap]
    exact (dropWhile_of_startsTag hstarts).1
  unfold unmarked
  rw [hl]
  cases ts with
  | nil => cases hdrop
  | cons u us =>
    by_cases hstar : u.kind = .asterisk
    · -- the marker first
      obtain rfl : us = t :: rest := by simpa [Line.dropMarker, hstar] using hdrop
      obtain ⟨⟨hforms, -, hgap⟩, -, hrest⟩ := hstands
      have htext : u.text = ['*'] := by
        rw [Lexeme.word_kind, hstar] at hforms
        exact Token.eq_of_forms_symbol hforms rfl
      rw [Lexeme.word_gap] at hgap
      obtain ⟨hdropped, hstarts⟩ := htag hrest
      have hline : dropStar ((Lexeme.source (u :: t :: rest) ++ tail).dropWhile isBlank) =
          Lexeme.source (t :: rest) ++ tail := by
        rw [source_cons_lexeme, List.append_assoc, dropWhile_blanks_append hgap, htext]
        rfl
      rw [hline, hdropped]
      exact ⟨rfl, hstarts, hrest⟩
    · -- no marker, so the tag comes first
      obtain ⟨rfl, rfl⟩ : u = t ∧ us = rest := by simpa [Line.dropMarker, hstar] using hdrop
      obtain ⟨hdropped, hstarts⟩ := htag hstands
      obtain ⟨hblank, hnostar⟩ := dropWhile_of_startsTag hstarts
      rw [hdropped, hnostar, hblank]
      exact ⟨rfl, hstarts, hstands⟩

/-- A text that starts a tag begins with a token that is one. -/
theorem exists_scan_of_startsTag {z : Text} (h : startsTag z = true) (gap : Text) :
    ∃ w ws, scan gap z = w :: ws ∧ w.kind = .tag := by
  obtain ⟨c, r, rfl, hc⟩ : ∃ c r, z = '@' :: c :: r ∧ Token.isTagPart c = true := by
    rcases z with _ | ⟨d, _ | ⟨c, r⟩⟩
    · cases h
    · by_cases hd : d = '@' <;> simp [startsTag] at h
    · by_cases hd : d = '@'
      · subst hd
        exact ⟨c, r, rfl, h⟩
      · simp [startsTag, hd] at h
  -- a character of a name stands behind the sign
  have hmunch : Token.munch '@' (c :: r) = (.tag, Token.runLength Token.isTagPart (c :: r)) := by
    rw [Token.munch_at, if_neg]
    simp [hc]
  obtain ⟨hforms, hgo⟩ := Token.forms_cons_of_munch hmunch
  have hscan := Word.scan_token hforms (by decide) hgo gap
  rw [List.cons_append, List.take_append_drop] at hscan
  exact ⟨_, _, hscan, rfl⟩

/-- A line consists of blanks, of a star with blanks behind it if it has a marker, and of what is
not marked. -/
theorem exists_front (l : Text) : ∃ a b, Blanks a ∧ Blanks b ∧
    (l = a ++ unmarked l ∨ l = a ++ '*' :: (b ++ unmarked l)) := by
  have hl : l.takeWhile isBlank ++ l.dropWhile isBlank = l := List.takeWhile_append_dropWhile
  have hfront (s : Text) : Blanks (s.takeWhile isBlank) := fun c hc => List.mem_takeWhile_imp hc
  have hhead := Word.isBlank_head_dropWhile l
  unfold unmarked
  generalize l.dropWhile isBlank = x at hl hhead
  -- the marker is dropped with the blanks around it, if there is one
  by_cases hstar : x.head? = some '*'
  · obtain ⟨y, rfl⟩ := List.head?_eq_some_iff.mp hstar
    refine ⟨_, _, hfront l, hfront y, .inr ?_⟩
    rw [show dropStar ('*' :: y) = y from rfl, List.takeWhile_append_dropWhile, hl]
  · have hsame : dropStar x = x := by
      unfold dropStar
      split
      · exact absurd rfl hstar
      · rfl
    -- without a marker the blanks are dropped at once
    have hblank : x.dropWhile isBlank = x := by
      cases x with
      | nil => rfl
      | cons d x => rw [List.dropWhile_cons_of_neg (by simp [hhead d rfl])]
    exact ⟨_, [], hfront l, by decide, .inl (by rw [hsame, hblank, hl])⟩

/-- The words of a line that begins with a tag, but for its marker. -/
theorem scan_front {l : Text} (h : startsTag (unmarked l) = true) :
    ∃ gap, scan [] l = scan gap (unmarked l) ∨
      ∃ w : Word, w.kind = .asterisk ∧ scan [] l = w :: scan gap (unmarked l) := by
  obtain ⟨a, b, ha, hb, hl⟩ := exists_front l
  generalize unmarked l = z at h hl
  obtain ⟨x, rfl⟩ : ∃ x, z = '@' :: x := by
    cases z with
    | nil => cases h
    | cons d x =>
      by_cases hd : d = '@'
      · exact ⟨x, by rw [hd]⟩
      · simp [startsTag, hd] at h
  have hhead : ∀ d ∈ ('@' :: x).head?, isBlank d = false := by
    rintro d ⟨⟩
    rfl
  -- blanks only, or the marker with blanks around it
  rcases hl with rfl | rfl
  · exact ⟨a, .inl (Word.scan_blanks ha hhead [])⟩
  · -- the marker is no delimiter, because no slash follows it
    refine ⟨b, .inr ⟨⟨.asterisk, ['*'], a⟩, rfl, ?_⟩⟩
    have hslash : ∀ d ∈ (b ++ '@' :: x).head?, Token.goesOn .asterisk ['*'] d = false := by
      intro d hd
      have hne : d ≠ '/' := by
        rintro rfl
        cases b with
        | nil => cases hd
        | cons c b =>
          cases hd
          exact absurd (hb _ List.mem_cons_self) (by decide)
      simpa [Token.goesOn] using hne
    have hmarker := Word.scan_word (k := .asterisk) (t := ['*']) (by decide) (by decide) ha hslash
    rwa [Word.scan_blanks hb hhead] at hmarker

/-- The lexemes behind the marker of a line that begins with a tag, but for its marker. -/
theorem exists_dropMarker {w : Word} {ws : List Word} {ts : List Lexeme} (hw : w.kind = .tag)
    (hts : words ts = w :: ws ∨ ∃ a : Word, a.kind = .asterisk ∧ words ts = a :: w :: ws) :
    ∃ t rest, Line.dropMarker ts = t :: rest ∧ t.word = w ∧ words rest = ws := by
  -- with the marker in front or without it
  rcases hts with hts | ⟨a, ha, hts⟩
  · obtain ⟨t, rest, rfl, rfl, hrest⟩ := Lexeme.words_eq_cons.mp hts
    have ht : t.kind = .tag := hw
    refine ⟨t, rest, ?_, rfl, hrest⟩
    rw [Line.dropMarker, if_neg]
    simp [ht]
  · obtain ⟨u, us, rfl, rfl, hus⟩ := Lexeme.words_eq_cons.mp hts
    obtain ⟨t, rest, rfl, ht, hrest⟩ := Lexeme.words_eq_cons.mp hus
    have hstar : u.kind = .asterisk := ha
    exact ⟨t, rest, by rw [Line.dropMarker, if_pos hstar], ht, hrest⟩

/-- A line begins with a tag if its first lexeme, but for its marker, is one. -/
theorem opensTag_iff {l : Text} {ts : List Lexeme} (hts : words ts = scan [] l) :
    opensTag l = true ↔ ∃ t rest, Line.dropMarker ts = t :: rest ∧ t.kind = .tag := by
  constructor
  · -- what the text begins with is the first token
    intro h
    obtain ⟨gap, hscan⟩ := scan_front h
    obtain ⟨v, vs, hv, hkind⟩ := exists_scan_of_startsTag h gap
    rw [hv, ← hts] at hscan
    obtain ⟨t, rest, hdrop, rfl, -⟩ := exists_dropMarker hkind hscan
    exact ⟨t, rest, hdrop, hkind⟩
  · rintro ⟨t, rest, hdrop, ht⟩
    obtain ⟨tail, -, -, hstarts, -⟩ := unmarked_of_dropMarker hts hdrop ht
    exact hstarts

end Text

/-! ## Section 2: Lines of prose -/

namespace Line

/-- A line that opens no tag is read as free text. -/
theorem exists_read_of_prose {line : SourceLine} {l : Text} (hwords : words line.words = scan [] l)
    (hl : Text.opensTag l = false) : ∃ v, Line.read line = .ok (.text v) := by
  unfold Line.read
  split
  · next t rest hdrop =>
    have ht : t.kind ≠ .tag := by
      intro ht
      rw [(Text.opensTag_iff hwords).mpr ⟨t, rest, hdrop, ht⟩] at hl
      cases hl
    rw [if_neg ht]
    exact ⟨_, rfl⟩
  · exact ⟨_, rfl⟩

/-- Lines of prose are read, each as the text that it is. -/
theorem exists_readAll_of_prose {s : Text} {ts : List Lexeme} (stop : Token)
    (hts : words ts = scan [] s) (hprose : ∀ l ∈ s.splitOn '\n', Text.opensTag l = false) :
    ∃ vs : List Text, Line.readAll (SourceLine.content stop ts).2 = .ok (vs.map .text) := by
  have hread : ∀ line ∈ (SourceLine.content stop ts).2, ∃ v, Line.read line = .ok (.text v) := by
    intro line hline
    obtain ⟨l, hl, hwords⟩ := SourceLine.exists_of_mem_content hts hline
    exact exists_read_of_prose hwords (hprose l hl)
  obtain ⟨vs, hvs⟩ := exists_forall₂_iff.mpr hread
  exact ⟨vs, Line.readAll_eq_ok_iff.mpr (List.forall₂_map_right_iff.mpr hvs)⟩

end Line

/-! ## Section 3: The closing delimiter -/

theorem Lexeme.mem_of_mem_attachFrom {gap : Text} {ts : List Token} {t : Lexeme}
    (h : t ∈ attachFrom gap ts) : t.toToken ∈ ts := by
  have hmem : t.toToken ∈ (attachFrom gap ts).map (·.toToken) := List.mem_map_of_mem h
  rw [map_toToken_attachFrom] at hmem
  exact List.mem_of_mem_filter hmem

namespace Token

/-- Only other text goes on with a star, and only after a slash or an open quote. -/
theorem goesOn_star_iff {k : Kind} {t : Text} :
    goesOn k t '*' = true ↔
      k = .other ∧ (t = "/".toList ∨ t = "/*".toList ∨ leavesOpen t = true) := by
  by_cases hk : k = .other
  · subst hk
    simp [goesOn, endsOther, or_assoc]
  · rw [Comment.goesOn_star hk]
    simp [hk]

end Token

namespace Comment

/-- The last token of a text takes in a closing delimiter that stands behind the text: a quote that
is still open, a slash, or a slash with a star.  The text is what follows the opening of a comment. -/
def TakesClosing (body : Text) : Prop :=
  ∃ t ∈ (Token.tokensFrom ⟨1, 4⟩ body).getLast?, t.kind = .other ∧
    (t.text = "/".toList ∨ t.text = "/*".toList ∨ Token.leavesOpen t.text = true)

variable {body : Text}

theorem tokensFrom_closing (p : Position) :
    Token.tokensFrom p "*/".toList = [⟨.closeDoc, "*/".toList, p⟩] := by
  have htoken := Token.tokensFrom_append (k := .closeDoc) (t := "*/".toList) (s := []) (by decide)
    (by simp) p
  rw [Token.tokensFrom_nil] at htoken
  exact htoken

/-- A delimiter that nothing takes in is the token behind those of the text. -/
theorem tokensFrom_append_closing (h : ¬TakesClosing body) :
    Token.tokensFrom ⟨1, 4⟩ (body ++ "*/".toList) = Token.tokensFrom ⟨1, 4⟩ body ++
      [⟨.closeDoc, "*/".toList, (⟨1, 4⟩ : Position).advance body⟩] := by
  rw [Token.tokensFrom_append_of_last, tokensFrom_closing]
  intro t ht d hd
  obtain rfl : '*' = d := Option.some.inj hd
  by_contra hgo
  exact h ⟨t, ht, Token.goesOn_star_iff.mp (by simpa using hgo)⟩

/-- A delimiter that is taken in is nowhere a token, if there is none in the text before it. -/
theorem kind_ne_closeDoc_of_takesClosing
    (honly : ∀ a b, body ++ "*/".toList = a ++ "*/".toList ++ b → b = []) (h : TakesClosing body) :
    ∀ t ∈ Token.tokensFrom ⟨1, 4⟩ (body ++ "*/".toList), t.kind ≠ .closeDoc := by
  intro t ht hk
  obtain ⟨pre, post, hsplit⟩ := List.append_of_mem ht
  have htext : t.text = "*/".toList := by
    have hforms := Token.forms_of_mem_tokensFrom ht
    rw [hk] at hforms
    exact Token.eq_of_forms_symbol hforms rfl
  -- the token would be the last one, and the tokens before it would be those of the text
  have hcover := Token.flatMap_text_tokensFrom ⟨1, 4⟩ (body ++ "*/".toList)
  rw [hsplit, List.flatMap_append, List.flatMap_cons, htext, ← List.append_assoc] at hcover
  have hpost := honly _ _ hcover.symm
  rw [hpost, List.append_nil] at hcover
  obtain ⟨htokens, hlast⟩ := Token.tokensFrom_of_append hsplit (List.append_cancel_right hcover)
  -- but the last of those goes on with the star
  obtain ⟨u, hu, hother⟩ := h
  rw [htokens] at hu
  have hgo := hlast u hu '*' rfl
  rw [Token.goesOn_star_iff.mpr hother] at hgo
  cases hgo

/-! ## Section 4: Comments that hold prose -/

theorem closingOf_of_unclosed {stop : Token} {ts : List Lexeme} (h : ∀ t ∈ ts, t.kind ≠ .closeDoc) :
    closingOf stop ts = stop := by
  have hdrop : ts.dropWhile (·.kind ≠ .closeDoc) = [] := by
    simpa [List.dropWhile_eq_nil_iff] using h
  rw [closingOf, hdrop]
  rfl

theorem sourceLines_of_unclosed {stop : Token} {ts : List Lexeme}
    (h : ∀ t ∈ ts, t.kind ≠ .closeDoc) :
    sourceLines stop ts = (SourceLine.content stop ts).2 := by
  have htake : ts.takeWhile (·.kind ≠ .closeDoc) = ts := by
    simpa [List.takeWhile_eq_self_iff] using h
  rw [sourceLines, closingOf_of_unclosed h, htake]

/-- The closing delimiter stands on the last line. -/
theorem opensTag_lines_append_closing (h : ∀ l ∈ body.splitOn '\n', Text.opensTag l = false) :
    ∀ l ∈ (body ++ "*/".toList).splitOn '\n', Text.opensTag l = false := by
  induction body using Text.linewise with
  | last l hl =>
    rw [List.splitOn_eq_singleton hl] at h
    rw [List.splitOn_eq_singleton (by simpa using hl)]
    simp only [List.forall_mem_singleton] at h ⊢
    by_contra hopens
    rw [Text.opensTag_of_append_closing (by simpa using hopens)] at h
    cases h
  -- only the last line has the delimiter behind it
  | line l rest hl ih =>
    rw [List.splitOn_append_cons_self_of_not_mem hl, List.forall_mem_cons] at h
    rw [List.append_assoc, List.cons_append, List.splitOn_append_cons_self_of_not_mem hl,
      List.forall_mem_cons]
    exact ⟨h.1, ih h.2⟩

/-- Prose in a comment is read as it is, line by line, unless its last token takes in the closing
delimiter.  In that case the comment has no end. -/
theorem parse_prose
    (honly : ∀ a b, "/**".toList ++ body ++ "*/".toList = a ++ "*/".toList ++ b → b = [])
    (hprose : ∀ l ∈ body.splitOn '\n', Text.opensTag l = false) :
    (¬TakesClosing body → ∃ c, parse ("/**".toList ++ body ++ "*/".toList) = .ok c ∧
        ∀ l ∈ c.lines, ∃ v, l = .text v) ∧
      (TakesClosing body → parse ("/**".toList ++ body ++ "*/".toList) =
        .error ⟨Position.start.advance ("/**".toList ++ body ++ "*/".toList),
          "expecting */, found EOF".toList⟩) := by
  have hrest : ∀ a b, body ++ "*/".toList = a ++ "*/".toList ++ b → b = [] := by
    intro a b h
    apply honly ("/**".toList ++ a)
    rw [List.append_assoc, h]
    simp
  -- the delimiter is the only one, so the body has none
  have hbody : ¬"*/".toList <:+: body := by
    rintro ⟨a, b, rfl⟩
    have hnil := hrest a (b ++ "*/".toList) (by simp)
    simp at hnil
  have hs := ofText_opening (body ++ "*/".toList)
  rw [← List.append_assoc] at hs
  constructor
  · intro hopen
    -- the delimiter is a token, and what stands before it are the words of the prose
    rw [tokensFrom_append_closing hopen] at hs
    obtain ⟨gap, hattach⟩ := Lexeme.exists_attachFrom_append
      (t := ⟨.closeDoc, "*/".toList, (⟨1, 4⟩ : Position).advance body⟩) (by simp) []
      (Token.tokensFrom ⟨1, 4⟩ body) []
    rw [hattach] at hs
    have hwords : words (Lexeme.attachFrom [] (Token.tokensFrom ⟨1, 4⟩ body)) = scan [] body :=
      Word.words_attachFrom_tokensFrom _ _ _ _
    obtain ⟨vs, hvs⟩ := Line.exists_readAll_of_prose _ hwords hprose
    -- the comment has the lines that were read
    refine ⟨⟨vs.map .text, [], _⟩, (parse_eq_ok_iff_of_parts hs rfl rfl ?_).mpr
      ⟨?_, hvs, rfl, rfl⟩, ?_⟩
    · -- nothing follows the delimiter
      intro t ht
      cases ht
    · intro t ht
      apply Token.kind_ne_closeDoc_of_mem hbody
      exact Lexeme.mem_of_mem_attachFrom ht
    · -- every line was read as free text
      intro l hl
      obtain ⟨v, -, rfl⟩ := List.mem_map.mp hl
      exact ⟨v, rfl⟩
  · intro htakes
    have hclose : ∀ t ∈ Lexeme.attachFrom [] (Token.tokensFrom ⟨1, 4⟩ (body ++ "*/".toList)),
        t.kind ≠ .closeDoc := by
      intro t ht
      exact kind_ne_closeDoc_of_takesClosing hrest htakes _ (Lexeme.mem_of_mem_attachFrom ht)
    have hwords : words (Lexeme.attachFrom [] (Token.tokensFrom ⟨1, 4⟩ (body ++ "*/".toList))) =
        scan [] (body ++ "*/".toList) :=
      Word.words_attachFrom_tokensFrom _ _ _ _
    -- without a delimiter all that follows the opening is read, and then the end is reached
    obtain ⟨vs, hvs⟩ := Line.exists_readAll_of_prose (Token.stopOf _) hwords
      (opensTag_lines_append_closing hprose)
    rw [parse_of_opening hs rfl, sourceLines_of_unclosed hclose, hvs, ok_bind,
      closingOf_of_unclosed hclose]
    rfl

/-- A quote that the end of its line closes off, and brackets, slashes and an `@` inside a line. -/
theorem parse_prose_quote :
    ∃ c, parse "/** it's a\n * // @b, <[(x/\n\t*/".toList = .ok c ∧ ∀ l ∈ c.lines, ∃ v, l = .text v := by
  have hclosed : NoClose "/** it's a\n * // @b, <[(x/\n\t*".toList := by decide
  have hlast : (Token.tokensFrom ⟨1, 4⟩ " it's a\n * // @b, <[(x/\n\t".toList).getLast? =
      some ⟨.blank, ['\t'], ⟨3, 1⟩⟩ := by
    cbv
  apply (@parse_prose " it's a\n * // @b, <[(x/\n\t".toList (Text.noClose_iff.mp hclosed)
    (by decide)).1
  rintro ⟨t, ht, hother, -⟩
  rw [hlast] at ht
  obtain rfl := Option.some.inj ht
  cases hother

/-- Prose that is refused: the quote takes in the delimiter. -/
theorem parse_prose_open_quote :
    (∀ a b, "/** it's */".toList = a ++ "*/".toList ++ b → b = []) ∧
      (∀ l ∈ " it's ".toList.splitOn '\n', Text.opensTag l = false) ∧
      parse "/** it's */".toList = .error ⟨⟨1, 12⟩, "expecting */, found EOF".toList⟩ := by
  have hclosed : NoClose "/** it's *".toList := by decide
  have hts : Lexeme.ofText "/** it's */".toList =
      [⟨⟨.openDoc, "/**".toList, ⟨1, 1⟩⟩, []⟩, ⟨⟨.ident, "it".toList, ⟨1, 5⟩⟩, [' ']⟩,
       ⟨⟨.other, "'s */".toList, ⟨1, 7⟩⟩, []⟩] := by
    cbv
  refine ⟨Text.noClose_iff.mp hclosed, by decide, ?_⟩
  rw [parse, hts]
  rfl

end Comment

end Docblock
