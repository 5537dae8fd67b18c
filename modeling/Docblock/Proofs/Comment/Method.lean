import Docblock.Proofs.Comment.FreeText
import Docblock.Proofs.Comment.Reprint
import Docblock.Proofs.TypeExpr.Front

/-!
# Methods and the word `static`

In front of the result of a method the word `static` marks the method, and it is also a type.  The
reader takes it for the mark wherever it can, and gives it back as the result only if nothing but
the name of the method follows.  So a method with any result is read if it has the mark.  Without
the mark it is read unless the result begins with the word `static` and goes on after it, as
`static|null` does: then the word is taken for the mark, and `|` begins no type.

- `Comment.exists_parse_onLine`: a comment with one tag is read as its tag is.
- `Tag.readMethod_call`: a method without the mark.
- `Comment.parse_onLine_method`: the comments with one method that has a result.
-/

namespace Docblock

open Lexeme (words words_eq_nil words_eq_cons words_eq_singleton words_eq_append)
open Reader
open Text (Blanks unmarked)
open TypeExpr
open Word (source scan after)

/-! ## Section 1: Comments with one tag -/

namespace Comment

/-- A comment with one line, and its delimiters on lines of their own. -/
def onLine (l tail : Text) : Text :=
  "/**\n".toList ++ l ++ '\n' :: (tail ++ "*/".toList)

variable {l tail x : Text}

/-- A comment with one line is that line. -/
theorem exists_source_onLine (hl : ∀ w ∈ scan [] l, w.kind ≠ .newline ∧ w.kind ≠ .closeDoc)
    (htail : Blanks tail) :
    ∃ line : SourceLine, words line.words = scan [] l ∧
      parse (onLine l tail) = (Line.read line).map fun l => ⟨[l], [], false⟩ := by
  obtain ⟨ws, hws, hscan⟩ := exists_joined ["/**".toList, l] (tail ++ "*/".toList)
  have hopening : scan [] "/**".toList = [⟨.openDoc, "/**".toList, []⟩] :=
    scan_opening (show Blanks [] by decide)
  have hclosing : scan [] (tail ++ "*/".toList) = [⟨.closeDoc, "*/".toList, tail⟩] := by
    have hword := Word.scan_word (k := .closeDoc) (t := "*/".toList) (s := []) (by decide)
      (by decide) htail (by simp)
    rwa [Word.scan_nil, List.append_nil] at hword
  have htext (a c : Text) : [a, l].flatMap (· ++ ['\n']) ++ (tail ++ c) =
      a ++ ['\n'] ++ l ++ '\n' :: (tail ++ c) := by
    simp
  -- two lines in front of the closing delimiter, the first of which is the opening one
  have hlayout : scan [] (onLine l tail) = _ := (congrArg (scan []) (htext _ _)).symm.trans hscan
  rw [hclosing, ← Word.words_ofText] at hlayout
  rw [List.map_cons, hopening] at hws
  cases hws with
  | @cons _ ws _ n hn hws =>
  obtain ⟨ts, ts', hs, hts, hts'⟩ := words_eq_append.mp hlayout
  obtain ⟨closing, rfl, hclose⟩ := words_eq_singleton.mp hts'
  obtain ⟨opening, us, rfl, hopen, hus⟩ := words_eq_cons.mp hts
  obtain ⟨n, vs, rfl, rfl, hvs⟩ := words_eq_cons.mp hus
  obtain ⟨sources, hsources, hsplit⟩ := split_joined hws
    (List.forall_mem_singleton.mpr fun w hw => (hl w hw).1) hvs closing.toToken
  cases hsources with
  | @cons _ line _ _ hline hnil =>
  cases hnil
  have hinside : ∀ t ∈ n :: vs, t.kind ≠ .closeDoc := by
    have hwords : ∀ w ∈ ws, w.kind ≠ .closeDoc :=
      (hws.mem_iff fun w hw => by simp [hw]).mpr
        (List.forall_mem_singleton.mpr fun w hw => (hl w hw).2)
    rw [← hvs] at hwords
    refine List.forall_mem_cons.mpr ⟨?_, fun t ht => hwords t.word (List.mem_map_of_mem ht)⟩
    rw [show n.kind = .newline from hn]
    exact Kind.noConfusion
  have hparts : Lexeme.ofText (onLine l tail) = opening :: (n :: vs ++ [closing]) := hs
  refine ⟨line, hline, ?_⟩
  rw [parse_of_parts hparts (congrArg Word.kind hopen) (congrArg Word.kind hclose) hinside,
    content_newline hn hsplit, lastGap_singleton, show opening.gap = [] from congrArg Word.gap hopen,
    Line.readAll]
  cases Line.read line <;> rfl

/-- The words of a line that begins, but for its marker, with the keyword of a tag. -/
theorem scan_keyword {keyword : Keyword} (hl : unmarked l = '@' :: keyword.text ++ x)
    (hx : ∀ d ∈ x.head?, Text.isBlank d = true) :
    ∃ gap, scan [] l = ⟨.tag, '@' :: keyword.text, gap⟩ :: scan [] x ∨
      ∃ w : Word, w.kind = .asterisk ∧
        scan [] l = w :: ⟨.tag, '@' :: keyword.text, gap⟩ :: scan [] x := by
  have htag : Token.Forms .tag ('@' :: keyword.text) := by
    rcases keyword with _ | k | a | _ | _ | _ | _
    case typed => cases k <;> decide
    case property => cases a <;> decide
    all_goals decide
  -- the line starts a tag, so it is scanned from there
  have hstarts : Text.startsTag (unmarked l) = true := by
    obtain ⟨-, hne, hname⟩ := tag_of_forms htag
    rw [hl]
    exact Text.startsTag_append hne hname _
  have hword (gap : Text) := Word.scan_token htag (by decide)
    (fun d hd => Token.not_isTagPart_of_isBlank (hx d hd)) gap
  obtain ⟨gap, hscan⟩ := Text.scan_front hstarts
  rw [hl, hword] at hscan
  exact ⟨gap, hscan⟩

/-- A line that begins with a keyword is read as what follows it. -/
theorem exists_read_keyword {keyword : Keyword} (hl : unmarked l = '@' :: keyword.text ++ x)
    (hx : ∀ d ∈ x.head?, Text.isBlank d = true) {line : SourceLine}
    (hline : words line.words = scan [] l) :
    ∃ ts, words ts = scan [] x ∧
      (∀ tag, Tag.readStructured keyword ts = .ok tag → Line.read line = .ok (.tag tag)) ∧
      ∀ fault, Tag.readStructured keyword ts = .error fault →
        Line.read line = .error (fault.toError line.stop) := by
  obtain ⟨gap, hscan⟩ := scan_keyword hl hx
  rw [← hline] at hscan
  obtain ⟨t, ts, hdrop, ht, hts⟩ := Text.exists_dropMarker (by rfl) hscan
  have htext : t.text = '@' :: keyword.text := congrArg Word.text ht
  have ht : t.kind = .tag := congrArg Word.kind ht
  -- a blank follows the keyword, so nothing is glued to it
  have hread : Tag.read t ts = Tag.readStructured keyword ts := by
    refine Tag.read_structured (not_glued_of_scan hts hx) ?_
    rw [htext]
    exact Keyword.ofText?_text keyword
  refine ⟨ts, hts, fun tag htag => ?_, fun fault hfault => ?_⟩
  · rw [Line.read, hdrop]
    simp only [ht, if_true, hread, htag]
  · rw [Line.read, hdrop]
    simp only [ht, if_true, hread, hfault]

/-- A comment with one tag is read as that tag is. -/
theorem exists_parse_onLine {keyword : Keyword}
    (hl : unmarked l = '@' :: keyword.text ++ ' ' :: x)
    (hx : ∀ w ∈ scan [] (' ' :: x), w.kind ≠ .newline ∧ w.kind ≠ .closeDoc) (htail : Blanks tail) :
    ∃ ts stop, words ts = scan [] (' ' :: x) ∧
      (∀ tag, Tag.readStructured keyword ts = .ok tag →
        parse (onLine l tail) = .ok ⟨[.tag tag], [], false⟩) ∧
      ∀ fault, Tag.readStructured keyword ts = .error fault →
        parse (onLine l tail) = .error (fault.toError stop) := by
  have hblank : ∀ d ∈ (' ' :: x).head?, Text.isBlank d = true := by
    rintro _ ⟨⟩
    rfl
  obtain ⟨gap, hscan⟩ := scan_keyword hl hblank
  have hkinds : ∀ w ∈ scan [] l, w.kind ≠ .newline ∧ w.kind ≠ .closeDoc := by
    rcases hscan with hscan | ⟨w, hw, hscan⟩
    · rw [hscan]
      simpa using hx
    · rw [hscan]
      simpa [hw] using hx
  obtain ⟨line, hline, hparse⟩ := exists_source_onLine hkinds htail
  obtain ⟨ts, hts, hok, herror⟩ := exists_read_keyword hl hblank hline
  refine ⟨ts, line.stop, hts, fun tag htag => ?_, fun fault hfault => ?_⟩
  · rw [hparse, hok tag htag]
    rfl
  · rw [hparse, herror fault hfault]
    rfl

end Comment

/-! ## Section 2: Methods without the mark -/

namespace TypeExpr

/-- Does a type begin with the word `static` and go on after it? -/
def goesOnFromStatic : TypeExpr → Bool
  | .named _ => false
  | ty => ty.opensStatic

theorem goesOnFromStatic_of_ne {ty : TypeExpr} (hopens : ty.opensStatic = true)
    (hne : ty ≠ .named .static) : ty.goesOnFromStatic = true := by
  cases ty with
  | named n =>
    have hn : n = .static := by simpa [opensStatic] using hopens
    exact absurd (congrArg named hn) hne
  | _ => exact hopens

theorem goesOnFromStatic_of_not_opensStatic {ty : TypeExpr} (h : ty.opensStatic = false) :
    ty.goesOnFromStatic = false := by
  cases ty with
  | named => rfl
  | _ => exact h

/-- What begins no type is refused as one. -/
theorem reader_cons_of_not_startsType {t : Lexeme} (h : t.kind.startsType = false)
    (ts : List Lexeme) : reader (t :: ts) = .error ⟨.expecting .typeStart, some t⟩ := by
  -- none of the forms of a type begins with this kind
  have hprimary : primary (readerTo 127) (t :: ts) = Fault.expecting .typeStart (t :: ts) := by
    unfold primary
    simp only
    split
    all_goals first
      | rfl
      | next hk =>
        rw [hk] at h
        cases h
  rw [reader, maxDepth, readerTo, compound, atomic, hprimary]
  rfl

end TypeExpr

namespace Tag

/-- A single name is spelled by its one word, and a parenthesis may follow it. -/
theorem exists_spelled_single {n : Word} (hn : n.kind = .ident) :
    ∃ js, Spelled maxDepth (.named (.single n.text)) [n] js ∧ .word .lparen ∉ js :=
  ⟨_, .single (.mk (.plain (.basic (.plain (.plain (.named (.relative (.last hn)))))))), by simp⟩

/-- A method with a result and without the mark: the words are read as they are meant, unless the
result goes on after the word `static`. -/
theorem readMethod_call {ty : TypeExpr} {ws vs : List Word} {js : List Joint} {n l : Word}
    {ps : List (Param TypeExpr)} (hty : Spelled maxDepth ty ws js) (hws : Genuine ws)
    (hn : n.kind = .ident) (hl : l.kind = .lparen)
    (hps : SpelledSignature (Spelled maxDepth) ps vs) {ts : List Lexeme}
    (hts : words ts = ws ++ n :: l :: vs) :
    (ty.goesOnFromStatic = false → readMethod ts = .ok (⟨false, some ty, n.text, ps⟩, [])) ∧
      (ty.goesOnFromStatic = true → ∃ t, t.kind ∈ afterStatic ∧
        readMethod ts = .error ⟨.expecting .typeStart, some t⟩) := by
  have hread {m : Method} (hm : SpelledMethod maxDepth m (words ts)) :
      readMethod ts = .ok (m, []) := by
    have hall : readMethod (ts ++ []) = .ok (m, []) :=
      complete_readMethod hm rfl (clear_nil_right _)
    rwa [List.append_nil] at hall
  cases staticFront_spelled hty hws with
  -- the result does not begin with the word, and no mark is taken
  | @other _ w us hw hopens =>
    refine ⟨fun _ => hread ?_, fun h => ?_⟩
    · rw [hts]
      exact .typed .absent hty (fun _ => by simpa using hw) hn hl hps
    · rw [goesOnFromStatic_of_not_opensStatic hopens] at h
      cases h
  | @alone w hw =>
    refine ⟨fun _ => hread ?_, nofun⟩
    -- the word is taken for the mark and given back as the result
    obtain ⟨ks, hname, hks⟩ := exists_spelled_single hn
    rw [hts]
    exact .named (.present hw) hname rfl nofun hks hl hps
  -- the word is taken for the mark, and what goes on from it begins no type
  | @followed _ w u us hw hopens hne hu =>
    refine ⟨fun h => ?_, fun _ => ?_⟩
    · rw [goesOnFromStatic_of_ne hopens hne] at h
      cases h
    · obtain ⟨t, us', rfl, rfl, hus⟩ := words_eq_cons.mp hts
      obtain ⟨t', us', rfl, rfl, -⟩ := words_eq_cons.mp hus
      refine ⟨t', hu, ?_⟩
      rw [readMethod, skip_cons (show t.kind = .static from hw)]
      simp only [reader_cons_of_not_startsType (startsType_of_mem_afterStatic hu)]
      rfl

end Tag

/-! ## Section 3: Comments with one method -/

/-- What is written of some words is read as these words, also after a blank. -/
theorem Word.scan_blank_of_written {t : Text} {old ws : List Word} (h : Written t old ws)
    (hne : ws ≠ []) : scan [] (' ' :: t) = after [' '] ws := by
  have hstands := h.phrase.after (show Blanks [' '] by decide) none (by simp)
  rw [← scan_source hstands, source_after h.flush hne, h.source]
  rfl

namespace Tag

/-- The words of a method that has the mark and a result. -/
theorem SpelledMethod.exists_call {m : Method} {ws us : List Word} {w : Word}
    (h : SpelledMethod maxDepth m ws) (hm : m.isStatic = true) (hws : ws = w :: us) :
    ∃ ty vs js n l xs, m.result = some ty ∧ us = vs ++ n :: l :: xs ∧ Spelled maxDepth ty vs js ∧
      n.kind = .ident ∧ n.text = m.name ∧ l.kind = .lparen ∧
      SpelledSignature (Spelled maxDepth) m.params xs := by
  cases h with
  | named => cases hm
  | typed hs hty _ hn hl hps =>
    cases hs with
    | absent => cases hm
    | present hs =>
      obtain ⟨-, rfl⟩ := List.cons.inj hws
      exact ⟨_, _, _, _, _, _, rfl, rfl, hty, hn, rfl, hl, hps⟩

section Parts

variable {s p : Text} {ty : TypeExpr} {name : Text} {ps : List (Param TypeExpr)}
  {rest : List Lexeme} (hty : TypeExpr.parse s = .ok ty) (hname : Token.Forms .ident name)
  (hps : TypeExpr.signature TypeExpr.reader (Lexeme.ofText p) = .ok (ps, rest))
include hty hname hps

/-- What the parser can build as the parts of a method is printed, with the mark, as words that spell
it. -/
theorem spelled_print_static :
    SpelledMethod maxDepth ⟨true, some ty, name, ps⟩
        (scan [] (' ' :: Method.print ⟨true, some ty, name, ps⟩)) ∧
      ∀ w ∈ scan [] (' ' :: Method.print ⟨true, some ty, name, ps⟩), w.kind.isTypeWord = true := by
  obtain ⟨rest', hread, -⟩ := TypeExpr.parse_eq_ok_iff.mp hty
  obtain ⟨vs, js, hpass, hvs, -⟩ := sound_readerTo maxDepth hread
  obtain ⟨xs, hpass', hxs⟩ := sound_signature (sound_readerTo maxDepth) hps
  let mark : Word := ⟨.static, "static".toList, []⟩
  let n : Word := ⟨.ident, name, []⟩
  let l : Word := ⟨.lparen, ['('], []⟩
  have hm : SpelledMethod maxDepth ⟨true, some ty, name, ps⟩ ([mark] ++ (vs ++ n :: l :: xs)) :=
    .typed (.present rfl) hvs nofun (n := n) rfl rfl hxs
  -- all words come from texts that were parsed
  have hgenuine : Genuine ([mark] ++ (vs ++ n :: l :: xs)) := by
    rw [genuine_append, genuine_append, genuine_cons, genuine_cons, genuine_cons]
    refine ⟨⟨⟨by decide, by decide⟩, genuine_nil⟩, (hpass.genuine (genuine_ofText s)).1,
      ⟨hname, Kind.noConfusion⟩, ⟨by decide, by decide⟩, (hpass'.genuine (genuine_ofText p)).1⟩
  obtain ⟨ws, hws, hne, hwritten⟩ := respell_method hm hgenuine
  rw [Word.scan_blank_of_written hwritten hne]
  exact ⟨hws.after [' '], Written.typed_after hwritten.typed⟩

/-- Without the mark the words are the same, but for the mark. -/
theorem exists_scan_call :
    ∃ ws js n l xs, scan [] (' ' :: Method.print ⟨false, some ty, name, ps⟩) = ws ++ n :: l :: xs ∧
      Spelled maxDepth ty ws js ∧ Genuine ws ∧ n.kind = .ident ∧ n.text = name ∧ l.kind = .lparen ∧
      SpelledSignature (Spelled maxDepth) ps xs ∧
      ∀ w ∈ ws ++ n :: l :: xs, w.kind.isTypeWord = true := by
  obtain ⟨hspelled, htyped⟩ := spelled_print_static hty hname hps
  obtain ⟨_, -, hstands, -⟩ := Word.exists_scan (' ' :: Method.print ⟨false, some ty, name, ps⟩)
  -- the mark is printed in front of the same method
  have hprint : Method.print ⟨true, some ty, name, ps⟩ =
      "static".toList ++ ' ' :: Method.print ⟨false, some ty, name, ps⟩ := by
    simp [Method.print]
  generalize Method.print ⟨false, some ty, name, ps⟩ = x at hprint hstands ⊢
  have hmark : scan [] (' ' :: ("static".toList ++ ' ' :: x)) =
      ⟨.static, "static".toList, [' ']⟩ :: scan [] (' ' :: x) :=
    Word.scan_word (k := .static) (b := [' ']) (t := "static".toList) (by decide) (by decide)
      (by simp [Text.isBlank]) fun d hd => by
        obtain rfl := Option.some.inj hd
        exact Token.goesOn_eq_false_of_isBreak rfl _ (by decide)
  rw [hprint, hmark] at hspelled htyped
  obtain ⟨ty', ws, js, n, l, xs, hty', hx, hws, hn, htext, hl, hxs⟩ := hspelled.exists_call rfl rfl
  obtain rfl := Option.some.inj hty'
  have hgenuine := genuine_of_stands hstands
  rw [hx] at hgenuine htyped
  exact ⟨ws, js, n, l, xs, hx, hws, (genuine_append.mp hgenuine).1, hn, htext, hl, hxs,
    (List.forall_mem_cons.mp htyped).2⟩

end Parts

end Tag

namespace Comment

/-- The words of types neither end a line nor a comment. -/
theorem not_break_of_typed {ws : List Word} (h : ∀ w ∈ ws, w.kind.isTypeWord = true) :
    ∀ w ∈ ws, w.kind ≠ .newline ∧ w.kind ≠ .closeDoc := by
  intro w hw
  have htyped := h w hw
  constructor
  · intro hk
    rw [hk] at htyped
    cases htyped
  · intro hk
    rw [hk] at htyped
    cases htyped

/-- A comment with one method that has a result.  With the mark it is always read back.  Without
the mark it is, unless the result begins with the word `static` and goes on after it: then the
comment is refused where the type goes on. -/
theorem parse_onLine_method {s p : Text} {ty : TypeExpr} {name : Text}
    {ps : List (Param TypeExpr)} {rest : List Lexeme} (hty : TypeExpr.parse s = .ok ty)
    (hname : Token.Forms .ident name)
    (hps : TypeExpr.signature TypeExpr.reader (Lexeme.ofText p) = .ok (ps, rest))
    (isStatic : Bool) {l tail : Text}
    (hl : unmarked l = "@method ".toList ++ Method.print ⟨isStatic, some ty, name, ps⟩)
    (htail : Blanks tail) :
    (isStatic = true ∨ ty.goesOnFromStatic = false → parse (onLine l tail) =
        .ok ⟨[.tag (.method ⟨isStatic, some ty, name, ps⟩ [])], [], false⟩) ∧
      (isStatic = false → ty.goesOnFromStatic = true → ∃ t : Token, t.kind ∈ afterStatic ∧
        parse (onLine l tail) = .error ⟨t.pos, (Reason.expecting .typeStart).message t⟩) := by
  change unmarked l = '@' :: Keyword.method.text ++ ' ' :: _ at hl
  cases isStatic with
  -- with the mark the printed words spell the method again
  | true =>
    obtain ⟨hspelled, htyped⟩ := Tag.spelled_print_static hty hname hps
    obtain ⟨ts, stop, hts, hok, -⟩ :=
      exists_parse_onLine hl (not_break_of_typed htyped) htail
    refine ⟨fun _ => hok _ ?_, nofun⟩
    have hread : Tag.readStructured .method (ts ++ []) = .ok (.method _ (restOfLine [])) :=
      Tag.complete_readStructured (.method hspelled) hts (clear_nil_right _)
    rwa [List.append_nil] at hread
  -- without it the front of the result decides
  | false =>
    obtain ⟨ws, js, n, l, xs, hscan, hws, hgenuine, hn, rfl, hl', hxs, htyped⟩ :=
      Tag.exists_scan_call hty hname hps
    rw [← hscan] at htyped
    obtain ⟨ts, stop, hts, hok, herror⟩ :=
      exists_parse_onLine hl (not_break_of_typed htyped) htail
    obtain ⟨hread, hrefuse⟩ := Tag.readMethod_call hws hgenuine hn hl' hxs (hts.trans hscan)
    refine ⟨fun h => hok _ ?_, fun _ h => ?_⟩
    · simp only [Tag.readStructured, hread (h.resolve_left Bool.false_ne_true)]
      rfl
    · obtain ⟨t, ht, hfault⟩ := hrefuse h
      refine ⟨t.toToken, ht, herror ⟨.expecting .typeStart, some t⟩ ?_⟩
      simp only [Tag.readStructured, hfault]
      rfl

/-- The result `static|null`, with the mark in front of it and without. -/
theorem parse_onLine_method_null :
    parse (onLine " * @method static static|null m(A &...$x = 1)".toList [' ']) =
        .ok ⟨[.tag (.method ⟨true, some (.union [.named .static, .named (.single "null".toList)]),
          ['m'], [⟨.named (.single ['A']), true, true, some ['x'], some ['1']⟩]⟩ [])], [], false⟩ ∧
      ∃ t : Token, t.kind ∈ afterStatic ∧
        parse (onLine "\t@method static|null m(A &...$x = 1)".toList []) =
          .error ⟨t.pos, (Reason.expecting .typeStart).message t⟩ := by
  have hty : TypeExpr.parse "static|null".toList =
      .ok (.union [.named .static, .named (.single "null".toList)]) := by cbv
  have hps : TypeExpr.signature TypeExpr.reader (Lexeme.ofText "A &...$x = 1)".toList) =
      .ok ([⟨.named (.single ['A']), true, true, some ['x'], some ['1']⟩], []) := by cbv
  have hname : Token.Forms .ident ['m'] := by decide
  exact ⟨(parse_onLine_method hty hname hps true (by rfl) (by decide)).1 (.inl rfl),
    (parse_onLine_method hty hname hps false (by rfl) (by decide)).2 rfl rfl⟩

/-- Not every type is read as the result of a method without the mark. -/
theorem not_parse_onLine_method_static :
    ¬∀ (s p : Text) (ty : TypeExpr) (name : Text) (ps : List (Param TypeExpr)) (rest : List Lexeme),
      TypeExpr.parse s = .ok ty → Token.Forms .ident name →
      TypeExpr.signature TypeExpr.reader (Lexeme.ofText p) = .ok (ps, rest) →
      parse (onLine (" * @method ".toList ++ Method.print ⟨false, some ty, name, ps⟩) [' ']) =
        .ok ⟨[.tag (.method ⟨false, some ty, name, ps⟩ [])], [], false⟩ := by
  intro h
  have hty : TypeExpr.parse "static|null".toList =
      .ok (.union [.named .static, .named (.single "null".toList)]) := by cbv
  have hps : TypeExpr.signature TypeExpr.reader (Lexeme.ofText [')']) = .ok ([], []) := by cbv
  have hts : Lexeme.ofText "/**\n * @method static|null m()\n */".toList =
      [⟨⟨.openDoc, "/**".toList, ⟨1, 1⟩⟩, []⟩, ⟨⟨.newline, ['\n'], ⟨1, 4⟩⟩, []⟩,
       ⟨⟨.asterisk, ['*'], ⟨2, 2⟩⟩, [' ']⟩, ⟨⟨.tag, "@method".toList, ⟨2, 4⟩⟩, [' ']⟩,
       ⟨⟨.static, "static".toList, ⟨2, 12⟩⟩, [' ']⟩, ⟨⟨.bar, ['|'], ⟨2, 18⟩⟩, []⟩,
       ⟨⟨.ident, "null".toList, ⟨2, 19⟩⟩, []⟩, ⟨⟨.ident, ['m'], ⟨2, 24⟩⟩, [' ']⟩,
       ⟨⟨.lparen, ['('], ⟨2, 25⟩⟩, []⟩, ⟨⟨.rparen, [')'], ⟨2, 26⟩⟩, []⟩,
       ⟨⟨.newline, ['\n'], ⟨2, 27⟩⟩, []⟩, ⟨⟨.closeDoc, "*/".toList, ⟨3, 2⟩⟩, [' ']⟩] := by
    cbv
  have hparse : parse "/**\n * @method static|null m()\n */".toList =
      .error ⟨⟨2, 18⟩, "expecting ( or basic type, found |".toList⟩ := by
    rw [parse, hts]
    rfl
  have htext : onLine (" * @method ".toList ++ Method.print ⟨false,
      some (.union [.named .static, .named (.single "null".toList)]), ['m'], []⟩) [' '] =
        "/**\n * @method static|null m()\n */".toList := by decide
  have hok := h _ _ _ ['m'] _ _ hty (by decide) hps
  rw [htext, hparse] at hok
  cases hok

end Comment

end Docblock
