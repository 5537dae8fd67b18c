import Docblock.Proofs.Comment.Content
import Docblock.Proofs.Comment.Trailing
import Docblock.Proofs.Lexeme.Attach
import Docblock.Proofs.TypeExpr.HandBack

/-!
# Free text is kept as it is written

The text of a line and the description of a tag are slices of the source, white space at their ends
apart.  The slice begins where the marker, the name of the tag or its last field ends, and goes on to
the end of the line, with all blanks inside it.

There is one exception.  Where the fields of a tag end in a type that looks past an `&`, and an `&`
follows that belongs to no type, the blanks behind this `&` are lost.

## Contents

1. `Tag.leftOf_fields`: what the fields of a tag leave of their line.
2. `SourceLine.words_of_content`: the lexemes of a line are those of its piece.
3. `Line.Keeps`: a line and the slice of its piece.
4. `Comment.parse_keeps`: all lines of a comment.
-/

namespace Docblock

open Lexeme (words attachFrom ofTokens)
open Text (Blanks)

/-! ## Section 1: What the fields of a tag leave -/

namespace Tag

open Reader

/-- Do the fields of the tag end in a type that looks past an `&`? -/
def looksPast : Tag → Bool
  | .typed _ ty _ | .alias _ ty _ | .var ty none _ | .template _ (some ty) _ => ty.looksPast
  | _ => false

/-- What follows a method is what is left of the lexemes. -/
theorem suffix_of_methodRead {ts rest : List Lexeme} {m : Method} (h : MethodRead ts m rest) :
    rest <:+ ts := by
  have hsound := TypeExpr.sound_readerTo TypeExpr.maxDepth
  cases h with
  | @named us vs _ _ _ _ l _ hs hn _ hl hps _ =>
    have hus := (TypeExpr.leaves_readerTo _ hn).trans (suffix_of_skip hs)
    exact (TypeExpr.suffix_of_signature hsound hps).trans (hus.tail (by simp [hl]))
  -- a type, the name, and the parameters
  | @typed us vs _ _ _ n l _ hs hty hn _ hps _ =>
    have hus := (TypeExpr.leaves_readerTo _ hty).trans (suffix_of_skip hs)
    exact (TypeExpr.suffix_of_signature hsound hps).trans
      ((List.suffix_cons l vs).trans (hus.tail (by simp [hn])))

/-- What follows the fields of a tag is left as it is, or is drawn up to an `&`. -/
theorem leftOf_fields {keyword : Keyword} {ts rest : List Lexeme} {mk : Text → Tag}
    (h : fields keyword ts = .ok (mk, rest)) (d : Text) : LeftOf ts rest (mk d).looksPast := by
  have hleaves := TypeExpr.leaves_readerTo TypeExpr.maxDepth
  -- one case per tag; only a type at the end may have drawn up what follows it
  cases fieldsRead_of_ok h with
  | param hp => exact .of_suffix (TypeExpr.suffix_of_tagParam (TypeExpr.sound_readerTo _) hp)
  | typed hty => exact hleaves hty
  | property hty hv => exact .of_suffix ((hleaves hty).tail (by simp [hv]))
  | method hm => exact .of_suffix (suffix_of_methodRead hm)
  | var hty _ => exact hleaves hty
  | varNamed hty hv => exact .of_suffix ((hleaves hty).tail (by simp [hv]))
  | template _ _ => exact .of_suffix (List.suffix_cons _ _)
  | @bound us _ n b _ _ _ hty =>
    exact (hleaves hty).trans ((List.suffix_cons b us).trans (List.suffix_cons n _))
  | @«alias» us _ _ n _ _ _ he hty =>
    exact (hleaves hty).trans ((suffix_of_skip he).trans (List.suffix_cons n us))

end Tag

/-! ## Section 2: The lexemes of a piece -/

namespace Lexeme

variable {k : Kind} {gap : Text} {ts : List Token}

/-- Taking lexemes up to a kind is taking their tokens up to it. -/
theorem takeWhile_attachFrom (hk : k ≠ .blank) (gap : Text) (ts : List Token) :
    (attachFrom gap ts).takeWhile (·.kind != k) = attachFrom gap (ts.takeWhile (·.kind != k)) := by
  induction ts generalizing gap with
  | nil => rfl
  | cons t ts ih =>
    -- a blank goes to the gap, and is not of the kind
    by_cases hblank : t.kind = .blank
    · simp [attachFrom, hblank, hk.symm, ih]
    · by_cases ht : t.kind = k
      · simp [attachFrom, ht, hk]
      · simp [attachFrom, hblank, ht, ih]

/-- What stands behind the first lexeme of a kind are the lexemes of the tokens behind it. -/
theorem tail_dropWhile_attachFrom (hk : k ≠ .blank) (gap : Text) (ts : List Token) :
    ((attachFrom gap ts).dropWhile (·.kind != k)).tail =
      ofTokens (ts.dropWhile (·.kind != k)).tail := by
  induction ts generalizing gap with
  | nil => rfl
  | cons t ts ih =>
    by_cases hblank : t.kind = .blank
    · simp [attachFrom, hblank, hk.symm, ih]
    · by_cases ht : t.kind = k
      · simp [attachFrom, ht, hk, ofTokens]
      · simp [attachFrom, hblank, ht, ih]

/-- Tokens and their lexemes cover the same text, but for the blanks at the end. -/
theorem exists_source_attachFrom (hts : ∀ t ∈ ts, Token.Forms t.kind t.text) (gap : Text) :
    ∃ tail, (Blanks gap → Blanks tail) ∧
      gap ++ Token.textOf ts = source (attachFrom gap ts) ++ tail := by
  induction ts generalizing gap with
  -- the blanks at the end are in no gap
  | nil => exact ⟨gap, id, by simp [Token.textOf, attachFrom, source]⟩
  | cons t ts ih =>
    obtain ⟨ht, hts⟩ := List.forall_mem_cons.mp hts
    have htext : Token.textOf (t :: ts) = t.text ++ Token.textOf ts := rfl
    by_cases hblank : t.kind = .blank
    · obtain ⟨tail, htail, heq⟩ := ih hts (gap ++ t.text)
      refine ⟨tail, fun hgap => htail ?_, ?_⟩
      · rw [hblank] at ht
        exact List.forall_mem_append.mpr ⟨hgap, Token.blanks_of_forms ht⟩
      · rw [attachFrom, if_pos hblank, htext, ← heq, List.append_assoc]
    · obtain ⟨tail, htail, heq⟩ := ih hts []
      refine ⟨tail, fun _ => htail (by simp [Blanks]), ?_⟩
      rw [attachFrom, if_neg hblank, htext, source_cons_lexeme]
      simp only [List.append_assoc, ← heq, List.nil_append]

/-- The last lexemes of some tokens are the lexemes of the last tokens. -/
theorem exists_of_suffix {us : List Lexeme} (h : us <:+ attachFrom gap ts) :
    us = attachFrom gap ts ∨ ∃ front back, ts = front ++ back ∧ us = ofTokens back := by
  induction ts generalizing gap with
  | nil => exact .inl (List.suffix_nil.mp h)
  | cons t ts ih =>
    by_cases hblank : t.kind = .blank
    · rw [attachFrom, if_pos hblank] at h ⊢
      rcases ih h with rfl | ⟨front, back, rfl, rfl⟩
      · exact .inl rfl
      · exact .inr ⟨t :: front, back, rfl, rfl⟩
    · rw [attachFrom, if_neg hblank] at h ⊢
      -- either nothing is left out, or the first lexeme is
      rcases List.suffix_cons_iff.mp h with rfl | h
      · exact .inl rfl
      · rcases ih h with rfl | ⟨front, back, rfl, rfl⟩
        · exact .inr ⟨[t], ts, rfl, rfl⟩
        · exact .inr ⟨t :: front, back, rfl, rfl⟩

/-- Drawing up changes no token. -/
theorem map_toToken_drawUp (ts : List Lexeme) :
    (drawUp ts).map (·.toToken) = ts.map (·.toToken) := by
  match ts with
  | [] | [_] => rfl
  | t :: u :: ts =>
    rw [drawUp]
    split
    · rfl
    · rfl

end Lexeme

namespace Token

theorem solid_append (ts us : List Token) : solid (ts ++ us) = solid ts ++ solid us :=
  List.filter_append ts us

theorem solid_of_blanks {ts : List Token} (h : ∀ t ∈ ts, t.kind = .blank) : solid ts = [] := by
  rw [solid, List.filter_eq_nil_iff]
  intro t ht
  simp [h t ht]

end Token

namespace SourceLine

/-- The lexemes of the line are those of the piece. -/
def IsOf (line : SourceLine) (piece : List Token) : Prop :=
  line.words = ofTokens piece

theorem IsOf.covers {line : SourceLine} {piece : List Token} (h : line.IsOf piece) :
    line.Covers piece := by
  rw [IsOf] at h
  rw [Covers, h]
  exact Lexeme.map_toToken_attachFrom [] piece

/-- The lines of the lexemes are those of the pieces between line breaks. -/
theorem isOf_split (stop : Token) (gap : Text) (ts : List Token) :
    ∃ first others, ts.splitOnP (·.kind == .newline) = first :: others ∧
      (split stop (attachFrom gap ts)).1.words = attachFrom gap first ∧
      List.Forall₂ IsOf (split stop (attachFrom gap ts)).2 others := by
  -- along the tokens; a blank goes to the gap, a line break ends the piece, and any other adds to
  -- the first
  induction ts generalizing gap with
  | nil => exact ⟨[], [], rfl, rfl, .nil⟩
  | cons t ts ih =>
    rw [List.splitOnP_cons_eq_if_modifyHead]
    by_cases hblank : t.kind = .blank
    · obtain ⟨first, others, hsplit, hfirst, hothers⟩ := ih (gap ++ t.text)
      refine ⟨t :: first, others, by simp [hblank, hsplit], ?_, ?_⟩
      · rw [attachFrom, if_pos hblank, hfirst, attachFrom, if_pos hblank]
      · rwa [attachFrom, if_pos hblank]
    · obtain ⟨first, others, hsplit, hfirst, hothers⟩ := ih []
      rw [attachFrom, if_neg hblank]
      -- a line break ends the first piece
      by_cases ht : t.kind = .newline
      · exact ⟨[], first :: others, by simp [ht, hsplit], by simp [split, ht, attachFrom],
          by simpa [split, ht] using ⟨hfirst, hothers⟩⟩
      · refine ⟨t :: first, others, by simp [ht, hsplit], ?_, ?_⟩
        · simp [split, ht, attachFrom, hblank, hfirst]
        · simpa [split, ht] using hothers

/-- The lines that count have the lexemes of the pieces that count. -/
theorem forall₂_isOf (stop : Token) (us : List Token) :
    List.Forall₂ IsOf (content stop (ofTokens us)).2
      (Comment.dropLast (Comment.dropFirst (us.splitOnP (·.kind == .newline)))) := by
  refine forall₂_content stop (fun h => h.covers.words_eq_nil) ?_
  obtain ⟨first, others, hsplit, hfirst, hothers⟩ := isOf_split stop [] us
  rw [hsplit]
  exact .cons hfirst hothers

end SourceLine

/-- The lexemes between the delimiters are those of the tokens between them. -/
theorem Comment.eq_ofTokens_inside {s : Text} {lead ts trail : List Lexeme}
    {opening closing : Lexeme} (hs : Lexeme.ofText s = lead ++ opening :: (ts ++ closing :: trail))
    (hlead : ∀ t ∈ lead, t.kind = .newline) (hopen : opening.kind = .openDoc)
    (hts : ∀ t ∈ ts, t.kind ≠ .closeDoc) (hclose : closing.kind = .closeDoc) :
    ts = ofTokens (inside s) := by
  have hbefore := span_append_cons (p := fun t : Lexeme => t.kind != .openDoc) (x := opening)
    (a := lead) (by simp +contextual [hlead]) (by simp [hopen]) (ts ++ closing :: trail)
  -- both cuts are made at the delimiters
  have hwithin := span_append_cons (p := fun t : Lexeme => t.kind != .closeDoc) (x := closing)
    (a := ts) (by simpa using hts) (by simp [hclose]) trail
  have htail := Lexeme.tail_dropWhile_attachFrom (k := .openDoc) (by decide) [] (Token.tokenize s)
  have hofText : attachFrom [] (Token.tokenize s) = Lexeme.ofText s := rfl
  rw [hofText, hs, hbefore.2, List.tail_cons] at htail
  rw [htail, ofTokens, Lexeme.takeWhile_attachFrom (by decide)] at hwithin
  exact hwithin.1.symm

/-- Behind the marker of a line are the lexemes of its piece without the marker. -/
theorem Line.dropMarker_attachFrom {ts : List Token} (hts : ∀ t ∈ ts, Token.Forms t.kind t.text)
    {gap : Text} (hgap : Blanks gap) :
    ∃ gap', Blanks gap' ∧ dropMarker (attachFrom gap ts) = attachFrom gap' (Token.unmark ts) := by
  induction ts generalizing gap with
  | nil => exact ⟨[], by simp [Blanks], rfl⟩
  | cons t ts ih =>
    obtain ⟨ht, hts⟩ := List.forall_mem_cons.mp hts
    -- blanks in front of the marker go with it
    by_cases hblank : t.kind = .blank
    · rw [attachFrom, if_pos hblank, Token.unmark_of_blank hblank]
      rw [hblank] at ht
      exact ih hts (List.forall_mem_append.mpr ⟨hgap, Token.blanks_of_forms ht⟩)
    · rw [attachFrom, if_neg hblank, Token.unmark_of_solid hblank, dropMarker]
      -- the first solid token is the marker or not
      by_cases hstar : t.kind = .asterisk
      · exact ⟨[], by simp [Blanks], by simp [hstar]⟩
      · exact ⟨gap, hgap, by simp [hstar, attachFrom, hblank]⟩

/-! ## Section 3: A line and its piece -/

/-- An `&` is the first thing in a text that is no blank. -/
def Text.OpensAmp (s : Text) : Prop :=
  (s.dropWhile isBlank).head? = some '&'

/-- The fields of a tag take the tokens `front` of a piece, from the keyword on, and no others. -/
structure Tag.Takes (keyword : Keyword) (mk : Text → Tag) (piece front back : List Token) : Prop where
  piece_eq : piece = front ++ back
  keyword_text : ∃ t ∈ (Token.solid front).head?, t.kind = .tag ∧ t.text = '@' :: keyword.text
  read : ∃ rest, Tag.fields keyword (ofTokens piece).tail = .ok (mk, rest) ∧
    rest.map (·.toToken) = Token.solid back

/-- The line keeps what its piece says behind the marker, the name of its tag and the fields. -/
inductive Line.Keeps (piece : List Token) : Line → Prop where
  /-- A line without a tag is its whole piece. -/
  | text (h : ∀ t ∈ (Token.solid piece).head?, t.kind ≠ .tag) :
      Keeps piece (.text (Text.trim (Token.textOf piece)))
  /-- The name of a tag ends before the first blank or return. -/
  | unstructured {gap name slice : Text}
      (hpiece : Token.textOf piece = gap ++ ('@' :: name ++ slice)) (hgap : Blanks gap)
      (hname : ∀ c ∈ name, Tag.endsName c = false)
      (hslice : ∀ c ∈ slice.head?, Tag.endsName c = true) :
      Keeps piece (.tag (.other name (Text.trim slice)))
  | structured {keyword : Keyword} {mk : Text → Tag} {front back : List Token}
      (htakes : Tag.Takes keyword mk piece front back)
      (hamp : (mk []).looksPast = true → ¬Text.OpensAmp (Token.textOf back)) :
      Keeps piece (.tag (mk (Text.trim (Token.textOf back))))
  /-- The blanks behind an `&` are lost if the fields look past it. -/
  | drawnUp {keyword : Keyword} {mk : Text → Tag} {front back : List Token} {gap gap' slice : Text}
      (htakes : Tag.Takes keyword mk piece front back) (hamp : (mk []).looksPast = true)
      (hback : Token.textOf back = gap ++ '&' :: (gap' ++ slice)) (hgap : Blanks gap)
      (hgap' : Blanks gap') (hslice : ∀ c ∈ slice.head?, Text.isBlank c = false) :
      Keeps piece (.tag (mk (Text.trim ('&' :: slice))))

/-- Behind the blanks in front of it, a token shows whether it is an `&`. -/
theorem opensAmp_iff {gap : Text} (hgap : Blanks gap) {k : Kind} {t : Text} (h : Token.Forms k t)
    (hk : k ≠ .blank) (rest : Text) : Text.OpensAmp (gap ++ (t ++ rest)) ↔ k = .amp := by
  unfold Text.OpensAmp
  obtain ⟨c, r, rfl⟩ := List.exists_cons_of_ne_nil (Token.forms_ne_nil h)
  have hc : Text.isBlank c = false := Token.isBlank_head_of_forms h hk c rfl
  rw [List.dropWhile_append_of_pos hgap, List.cons_append, List.dropWhile_cons_of_neg (by simp [hc]),
    List.head?_cons, Option.some.injEq]
  constructor
  · -- a text that begins with `&` has that as its first token
    rintro rfl
    have hmunch : Token.munch '&' r = (k, r.length) := h
    exact (congrArg Prod.fst hmunch).symm
  · rintro rfl
    exact (List.cons.inj (Token.eq_of_forms_symbol h rfl)).1

/-- Behind an `&` that drew up its successor, the description loses the blanks between them. -/
theorem restOfLine_drawUp {t u : Lexeme} {ts : List Lexeme} {tail : Text} (ht : t.text = ['&'])
    (hgap : Blanks t.gap) (htail : Blanks tail) :
    restOfLine (t :: u.closeUp :: ts) =
      Text.trim ('&' :: (u.text ++ (Lexeme.source ts ++ tail))) := by
  have hsource : Lexeme.source (t :: u.closeUp :: ts) =
      t.gap ++ ('&' :: (u.text ++ Lexeme.source ts) ++ []) := by
    rw [source_cons_lexeme, source_cons_lexeme, ht]
    simp [Lexeme.closeUp]
  have hslice : '&' :: (u.text ++ (Lexeme.source ts ++ tail)) =
      [] ++ ('&' :: (u.text ++ Lexeme.source ts) ++ tail) := by
    simp
  rw [restOfLine, hsource, hslice, Text.trim_append_space hgap.isSpace _ (by simp),
    Text.trim_append_space (by simp) _ htail.isSpace]

/-- Either there is no `&` at the front, and nothing is drawn up, or what follows the blanks behind
the `&` is. -/
theorem drawUp_cases {ts : List Lexeme} (hsound : ∀ w ∈ words ts, w.Sound) {tail : Text}
    (htail : Blanks tail) :
    (¬Text.OpensAmp (Lexeme.source ts ++ tail) ∧ Lexeme.drawUp ts = ts) ∨
    ∃ gap gap' slice, Lexeme.source ts ++ tail = gap ++ '&' :: (gap' ++ slice) ∧ Blanks gap ∧
      Blanks gap' ∧ (∀ c ∈ slice.head?, Text.isBlank c = false) ∧
      restOfLine (Lexeme.drawUp ts) = Text.trim ('&' :: slice) := by
  cases ts with
  -- nothing but blanks
  | nil =>
    have hnil : tail.dropWhile Text.isBlank = [] := List.dropWhile_eq_nil_iff.mpr htail
    exact .inl ⟨by simp [Lexeme.source, Text.OpensAmp, hnil], rfl⟩
  | cons t ts =>
    obtain ⟨ht, hsound⟩ := List.forall_mem_cons.mp hsound
    have hgap : Blanks t.gap := ht.blank
    rw [source_cons_lexeme, List.append_assoc, List.append_assoc]
    by_cases hamp : t.kind = .amp
    · have htext : t.text = ['&'] := by
        have hforms := ht.forms
        rw [Lexeme.word_kind, hamp] at hforms
        exact Token.eq_of_forms_symbol hforms rfl
      rw [htext]
      refine .inr ?_
      -- what is drawn up is the lexeme behind the `&`, if there is one
      cases ts with
      | nil =>
        refine ⟨t.gap, tail, [], by simp [Lexeme.source], hgap, htail, by simp, ?_⟩
        have hdraw : Lexeme.drawUp [t] = [t] := rfl
        rw [hdraw, restOfLine, source_cons_lexeme, htext]
        exact Text.trim_append_space hgap.isSpace ['&'] (by simp [Lexeme.source])
      | cons u ts =>
        obtain ⟨hu, -⟩ := List.forall_mem_cons.mp hsound
        refine ⟨t.gap, u.gap, u.text ++ (Lexeme.source ts ++ tail), ?_, hgap, hu.blank, ?_, ?_⟩
        · rw [source_cons_lexeme]
          simp
        · obtain ⟨c, r, hr⟩ := List.exists_cons_of_ne_nil (Token.forms_ne_nil hu.forms)
          have hhead := Token.isBlank_head_of_forms hu.forms hu.solid
          rw [Lexeme.word_text] at hr hhead
          rw [hr] at hhead ⊢
          exact hhead
        · rw [Lexeme.drawUp, if_pos hamp, restOfLine_drawUp htext hgap htail]
    · -- another lexeme comes first, so nothing is drawn up
      refine .inl ⟨?_, drawUp_cons hamp⟩
      exact mt (opensAmp_iff hgap ht.forms ht.solid _).mp hamp

theorem Tag.endsName_of_isTagPart {c : Char} (h : Token.isTagPart c = true) :
    endsName c = false := by
  rw [endsName, Bool.or_eq_false_iff]
  refine ⟨(Token.solid_of_isIdentPart (Token.isIdentPart_of_isTagPart h)).1, ?_⟩
  rw [beq_eq_false_iff_ne]
  rintro rfl
  exact absurd h (by decide)

namespace Line

variable {piece : List Token}

/-- The description of a tag is the slice behind its fields. -/
theorem keeps_of_takes {keyword : Keyword} {mk : Text → Tag} {front back : List Token}
    {rest : List Lexeme} (hforms : ∀ t ∈ back, Token.Forms t.kind t.text)
    (hsound : ∀ w ∈ words (ofTokens back), w.Sound)
    (htakes : Tag.Takes keyword mk piece front back)
    (hrest : rest = if (mk []).looksPast then Lexeme.drawUp (ofTokens back) else ofTokens back) :
    Keeps piece (.tag (mk (restOfLine rest))) := by
  obtain ⟨tail, htail, hback⟩ : ∃ tail, Blanks tail ∧
      Token.textOf back = Lexeme.source (ofTokens back) ++ tail := by
    obtain ⟨tail, htail, hback⟩ := Lexeme.exists_source_attachFrom hforms []
    exact ⟨tail, htail (by simp [Blanks]), hback⟩
  -- if nothing is drawn up, the description is the whole slice
  have hsame (hrest : rest = ofTokens back)
      (hamp : (mk []).looksPast = true → ¬Text.OpensAmp (Token.textOf back)) :
      Keeps piece (.tag (mk (restOfLine rest))) := by
    have htrim := Text.trim_append_space (a := []) (by simp) (Lexeme.source (ofTokens back))
      htail.isSpace
    rw [List.nil_append, ← hback] at htrim
    rw [hrest, restOfLine, ← htrim]
    exact .structured htakes hamp
  cases hlooks : (mk []).looksPast with
  -- the tag does not look past its type
  | false =>
    rw [hlooks] at hrest
    exact hsame hrest (by simp [hlooks])
  | true =>
    rw [hlooks, if_pos rfl] at hrest
    -- either nothing is drawn up, or what is behind the `&` is
    rcases drawUp_cases hsound htail with ⟨hamp, hdraw⟩ | ⟨gap, gap', slice, heq, hgap, hgap', hslice, hkept⟩
    · refine hsame (hrest.trans hdraw) fun _ => ?_
      rwa [hback]
    · rw [hrest, hkept]
      exact .drawnUp htakes hlooks (hback.trans heq) hgap hgap' hslice

/-- A tag without a structure keeps all that follows its name. -/
theorem keeps_cut {blanks more : List Token} {t : Token}
    (hforms : ∀ u ∈ blanks ++ t :: more, Token.Forms u.kind u.text) (ht : t.kind = .tag)
    (hblanks : ∀ b ∈ blanks, b.kind = .blank) :
    Keeps (blanks ++ t :: more) (.tag (Tag.cut t.text.tail (Lexeme.source (ofTokens more)))) := by
  obtain ⟨hblank, htag⟩ := List.forall_mem_append.mp hforms
  obtain ⟨htag, hmore⟩ := List.forall_mem_cons.mp htag
  obtain ⟨tail, htail, hsource⟩ := Lexeme.exists_source_attachFrom hmore []
  have htail : Blanks tail := htail (by simp [Blanks])
  rw [ht] at htag
  obtain ⟨htext, -, htagpart⟩ := tag_of_forms htag
  -- the blanks before the tag
  have hgap : Blanks (Token.textOf blanks) := by
    intro c hc
    obtain ⟨b, hb, hc⟩ := List.mem_flatMap.mp hc
    have hbforms := hblank b hb
    rw [hblanks b hb] at hbforms
    exact Token.blanks_of_forms hbforms c hc
  generalize hx : Lexeme.source (ofTokens more) = x
  have htrim := Text.trim_append_space (a := []) (by simp) (x.dropWhile (!Tag.endsName ·))
    htail.isSpace
  rw [List.nil_append] at htrim
  -- blanks at the end of the line are trimmed with the description
  rw [Tag.cut, ← htrim]
  refine .unstructured ?_ hgap ?_ ?_
  · have hpiece : Token.textOf (blanks ++ t :: more) =
        Token.textOf blanks ++ (t.text ++ Token.textOf more) := by
      simp [Token.textOf]
    have hcut : Token.textOf more =
        x.takeWhile (!Tag.endsName ·) ++ (x.dropWhile (!Tag.endsName ·) ++ tail) := by
      rw [← List.append_assoc, List.takeWhile_append_dropWhile, ← hx]
      exact hsource
    rw [hpiece, hcut, htext]
    simp
  · -- nothing in the name ends it
    refine List.forall_mem_append.mpr ⟨fun c hc => ?_, fun c hc => ?_⟩
    · exact Tag.endsName_of_isTagPart (htagpart c hc)
    · simpa using List.mem_takeWhile_imp hc
  · -- and what follows it does
    intro c hc
    cases hdrop : x.dropWhile (!Tag.endsName ·) with
    | nil =>
      rw [hdrop, List.nil_append] at hc
      exact Tag.endsName_of_isBlank (htail.head c hc)
    | cons d y =>
      have hends := List.head?_dropWhile_not (!Tag.endsName ·) x
      rw [hdrop] at hc hends
      obtain rfl : d = c := Option.some.inj hc
      simpa using hends

/-- A tag with a structure keeps what its fields leave. -/
theorem keeps_structured {blanks more : List Token} {t : Token} {keyword : Keyword} {tag : Tag}
    (hforms : ∀ u ∈ blanks ++ t :: more, Token.Forms u.kind u.text) (ht : t.kind = .tag)
    (hblanks : ∀ b ∈ blanks, b.kind = .blank)
    (hstands : Word.Stands (words (ofTokens more)) none)
    (hkeyword : Keyword.ofText? t.text.tail = some keyword)
    (hread : Tag.readStructured keyword (ofTokens more) = .ok tag) :
    Keeps (blanks ++ t :: more) (.tag tag) := by
  obtain ⟨-, htag⟩ := List.forall_mem_append.mp hforms
  obtain ⟨hword, hmore⟩ := List.forall_mem_cons.mp htag
  rw [ht] at hword
  rw [Tag.readStructured_eq, bind_eq_ok] at hread
  obtain ⟨⟨mk, rest⟩, hfields, hread⟩ := hread
  cases hread
  obtain ⟨us, hus, hrest⟩ := Tag.leftOf_fields hfields []
  -- what is left of the lexemes cuts the tokens in two
  obtain ⟨front, back, rfl, rfl⟩ : ∃ front back, more = front ++ back ∧ us = ofTokens back := by
    rcases Lexeme.exists_of_suffix hus with rfl | h
    · exact ⟨[], more, rfl, rfl⟩
    · exact h
  have hsolid : t.kind ≠ .blank := by simp [ht]
  have htakes : Tag.Takes keyword mk (blanks ++ t :: (front ++ back)) (blanks ++ t :: front) back := by
    refine ⟨by simp, ⟨t, ?_, ht, ?_⟩, rest, ?_, ?_⟩
    · rw [Token.solid_append, Token.solid_of_blanks hblanks, Token.solid_of_solid hsolid]
      rfl
    · rw [Keyword.text_of_ofText? hkeyword]
      exact (tag_of_forms hword).1
    · rwa [ofTokens, Lexeme.attachFrom_blanks hblanks, Lexeme.attachFrom_solid hsolid, List.tail_cons]
    · -- drawing up moves no token
      have hsame : rest.map (·.toToken) = (ofTokens back).map (·.toToken) := by
        rw [hrest]
        split
        · exact Lexeme.map_toToken_drawUp _
        · rfl
      rw [hsame]
      exact Lexeme.map_toToken_attachFrom [] back
  refine keeps_of_takes (fun u hu => hmore u (List.mem_append_right front hu)) ?_ htakes hrest
  intro w hw
  obtain ⟨u, hu, rfl⟩ := List.mem_map.mp hw
  exact hstands.sound _ (List.mem_map_of_mem (hus.subset hu))

/-- A line keeps what its piece says. -/
theorem keeps_of_readsAs {gap : Text} {l : Line} (hforms : ∀ t ∈ piece, Token.Forms t.kind t.text)
    (hgap : Blanks gap) (hstands : Word.Stands (words (attachFrom gap piece)) none)
    (h : ReadsAs (attachFrom gap piece) l) : Keeps piece l := by
  obtain ⟨tail, htail, hpiece⟩ := Lexeme.exists_source_attachFrom hforms gap
  have htail : Blanks tail := htail hgap
  have htokens := Lexeme.map_toToken_attachFrom gap piece
  generalize hts : attachFrom gap piece = ts at h hstands hpiece htokens
  cases h with
  -- the line is its trimmed source
  | text hfirst =>
    have htrim : restOfLine ts = Text.trim (Token.textOf piece) := by
      have hfront := Text.trim_append_space hgap.isSpace (Token.textOf piece) (e := []) (by simp)
      have hback := Text.trim_append_space (a := []) (by simp) (Lexeme.source ts) htail.isSpace
      rw [List.append_nil, hpiece] at hfront
      rw [List.nil_append, hfront] at hback
      exact hback.symm
    rw [htrim]
    refine .text ?_
    rw [← htokens, List.head?_map]
    intro t ht
    obtain ⟨u, hu, rfl⟩ := Option.map_eq_some_iff.mp ht
    exact hfirst u hu
  | @tag t rest tag ht hread =>
    obtain ⟨blanks, more, rfl, rfl, hblanks⟩ := Lexeme.exists_of_attachFrom_cons hts
    have hrest : Word.Stands (words (ofTokens more)) none := hstands.2.2
    -- a tag with any text, or with a structure
    rcases Tag.read_eq_ok hrest hread with ⟨-, rfl⟩ | ⟨keyword, hkeyword, hread⟩
    · exact keeps_cut hforms ht hblanks
    · exact keeps_structured hforms ht hblanks hrest hkeyword hread

end Line

/-! ## Section 4: All lines of a comment -/

namespace Comment

/-- The lines of a comment and the pieces of its source go together, and every line keeps what its
piece says. -/
theorem parse_keeps {s : Text} {c : Comment} (h : parse s = .ok c) :
    List.Forall₂ Line.Keeps (pieces s) c.lines := by
  obtain ⟨lead, opening, ts, closing, trail, hs, hlead, hopen, hts, hclose, -, hlines, -, -⟩ :=
    parse_eq_ok_iff.mp h
  have htokens := eq_ofTokens_inside hs hlead hopen hts hclose
  have hpieces := SourceLine.forall₂_isOf closing.toToken (inside s)
  rw [← htokens] at hpieces
  have hread := forall₂_join hpieces (Line.readAll_eq_ok_iff.mp hlines)
  unfold pieces
  rw [List.forall₂_map_left_iff]
  have hforms := (List.forall₂_and_left _ _).mpr ⟨fun _ => forms_of_mem_cut, hread⟩
  refine hforms.imp ?_
  rintro whole l ⟨hforms, line, hline, hof, hread⟩
  -- every line lies inside the delimiters
  have honline := onLine_of_mem_content hs hts hline
  rw [hof] at honline
  rw [Line.read_eq_ok_iff, hof] at hread
  -- the marker is dropped from the tokens as from the lexemes
  obtain ⟨gap, hgap, hdrop⟩ := Line.dropMarker_attachFrom hforms (show Blanks [] by simp [Blanks])
  have hstands := honline.dropMarker.stands
  rw [ofTokens, hdrop] at hstands hread
  exact Line.keeps_of_readsAs (fun t ht => hforms t ((Token.unmark_suffix _).subset ht)) hgap hstands hread

/-- Text with blanks inside, a name that ends inside a token, and an `&` behind a union, which is not
looked past. -/
theorem parse_keeps_union :
    ∃ c, parse "/**\n *  a  b \n * @foo. c  d\n * @return A|B &  e\n */".toList = .ok c ∧
      List.Forall₂ Line.Keeps
        (pieces "/**\n *  a  b \n * @foo. c  d\n * @return A|B &  e\n */".toList) c.lines := by
  have hts : Lexeme.ofText "/**\n *  a  b \n * @foo. c  d\n * @return A|B &  e\n */".toList =
      [⟨⟨.openDoc, "/**".toList, ⟨1, 1⟩⟩, []⟩, ⟨⟨.newline, ['\n'], ⟨1, 4⟩⟩, []⟩,
       ⟨⟨.asterisk, ['*'], ⟨2, 2⟩⟩, [' ']⟩, ⟨⟨.ident, ['a'], ⟨2, 5⟩⟩, [' ', ' ']⟩,
       ⟨⟨.ident, ['b'], ⟨2, 8⟩⟩, [' ', ' ']⟩, ⟨⟨.newline, ['\n'], ⟨2, 10⟩⟩, [' ']⟩,
       ⟨⟨.asterisk, ['*'], ⟨3, 2⟩⟩, [' ']⟩, ⟨⟨.tag, "@foo".toList, ⟨3, 4⟩⟩, [' ']⟩,
       ⟨⟨.other, ". c  d".toList, ⟨3, 8⟩⟩, []⟩, ⟨⟨.newline, ['\n'], ⟨3, 14⟩⟩, []⟩,
       ⟨⟨.asterisk, ['*'], ⟨4, 2⟩⟩, [' ']⟩, ⟨⟨.tag, "@return".toList, ⟨4, 4⟩⟩, [' ']⟩,
       ⟨⟨.ident, ['A'], ⟨4, 12⟩⟩, [' ']⟩, ⟨⟨.bar, ['|'], ⟨4, 13⟩⟩, []⟩, ⟨⟨.ident, ['B'], ⟨4, 14⟩⟩, []⟩,
       ⟨⟨.amp, ['&'], ⟨4, 16⟩⟩, [' ']⟩, ⟨⟨.ident, ['e'], ⟨4, 19⟩⟩, [' ', ' ']⟩,
       ⟨⟨.newline, ['\n'], ⟨4, 20⟩⟩, []⟩, ⟨⟨.closeDoc, "*/".toList, ⟨5, 2⟩⟩, [' ']⟩] := by
    cbv
  have h : parse "/**\n *  a  b \n * @foo. c  d\n * @return A|B &  e\n */".toList =
      .ok ⟨[.text "a  b".toList, .tag (.other "foo.".toList "c  d".toList),
        .tag (.typed .returns (.union [.named (.single ['A']), .named (.single ['B'])])
          "&  e".toList)], [], false⟩ := by
    rw [parse, hts]
    rfl
  exact ⟨_, h, parse_keeps h⟩

/-- Behind an `&` that is handed back to a description the blanks are lost, so the description stands
nowhere in the source. -/
theorem not_infix_desc_amp :
    ∃ tag, parse "/** @return A & \"x\" */".toList = .ok ⟨[.tag tag], [], true⟩ ∧
      ¬tag.desc <:+: "/** @return A & \"x\" */".toList := by
  have hts : Lexeme.ofText "/** @return A & \"x\" */".toList =
      [⟨⟨.openDoc, "/**".toList, ⟨1, 1⟩⟩, []⟩, ⟨⟨.tag, "@return".toList, ⟨1, 5⟩⟩, [' ']⟩,
       ⟨⟨.ident, ['A'], ⟨1, 13⟩⟩, [' ']⟩, ⟨⟨.amp, ['&'], ⟨1, 15⟩⟩, [' ']⟩,
       ⟨⟨.other, "\"x\" ".toList, ⟨1, 17⟩⟩, [' ']⟩, ⟨⟨.closeDoc, "*/".toList, ⟨1, 21⟩⟩, []⟩] := by
    cbv
  refine ⟨.typed .returns (.named (.single ['A'])) "&\"x\"".toList, ?_, ?_⟩
  · rw [parse, hts]
    rfl
  · simp only [Tag.desc]
    decide

end Comment

end Docblock
