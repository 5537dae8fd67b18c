import Docblock.Proofs.Comment.FreeText
import Docblock.Proofs.Comment.Reprint
import Docblock.Proofs.TypeExpr.Trailing

/-!
# A line with a carriage return at its end

The return is text of its line like any other, but as the last thing on the line it is nearly always
lost: free text is trimmed, and what the fields of a tag are read from stops before it.  One kind of
line is an exception.  Behind a keyword that stands alone the return goes on with the name of the
tag, which is then no keyword any more.

## Contents

1. `Word.trailed_scan`: the words of a line with a return at its end.
2. `Tag.steady_fields`: the fields of a keyword are read alike with a return behind them.
3. `Line.read_return`: a line is read alike with a return at its end, unless it `Line.IsBare`.
-/

namespace Docblock

open Lexeme (words)
open Text (Blanks)
open Word (source scan Stands)

/-! ## Section 1: A line with a return at its end -/

namespace Token

/-- A return goes on with other text, and with nothing else. -/
theorem goesOn_return (k : Kind) (t : Text) : goesOn k t '\r' = (k == .other) := by
  cases k <;> simp [goesOn, Text.isBlank, endsOther] <;> decide

/-- A token that ends in a return is other text. -/
theorem kind_of_forms_return {k : Kind} {t : Text} (h : Forms k t) (hlast : t.getLast? = some '\r') :
    k = .other := by
  have hmem : '\r' ∈ t := List.mem_of_getLast? hlast
  -- one case per shape; only other text may end with a return
  cases shape_of_forms h with
  | symbol hsymbol =>
    have hnone : ∀ x, k.symbol? = some x → '\r' ∉ x := by
      clear h hsymbol
      cases k <;> simp [Kind.symbol?]
    exact absurd hmem (hnone t hsymbol)
  | newline => simp at hmem
  | blank hall => exact absurd (hall '\r' hmem) (by decide)
  | ident hall => exact absurd (hall '\r' hmem) (by decide)
  | tag hall =>
    rcases List.mem_cons.mp hmem with hat | hmem
    · cases hat
    · exact absurd (hall '\r' hmem) (by decide)
  | var hall =>
    rcases List.mem_cons.mp hmem with hdollar | hmem
    · cases hdollar
    · exact absurd (hall '\r' hmem) (by decide)
  | int hall => exact absurd (hall '\r' hmem) (by decide)
  | str =>
    rw [List.getLast?_concat] at hlast
    cases hlast
  | other => rfl

/-- Other text with a return behind it is other text. -/
theorem Forms.append_return {t : Text} (h : Forms .other t) : Forms .other (t ++ ['\r']) := by
  obtain ⟨c, p, rfl⟩ := List.exists_cons_of_ne_nil (forms_ne_nil h)
  have hmunch : munch c p = (.other, p.length) := h
  cases hm : munch c (p ++ ['\r']) with
  | mk k n =>
    obtain ⟨hforms, hgo⟩ := forms_cons_of_munch hm
    have hle := munch_le_length c (p ++ ['\r'])
    rw [hm, List.length_append, List.length_singleton] at hle
    by_cases hn : n = p.length + 1
    · -- the token takes in the return
      have htake : (p ++ ['\r']).take n = p ++ ['\r'] := by
        rw [List.take_of_length_le]
        simp [hn]
      rw [htake] at hforms
      obtain rfl := kind_of_forms_return hforms (List.getLast?_concat (a := '\r') (l := c :: p))
      exact hforms
    · -- it ends before the return, so it is the token that is there without the return
      have hshort : n ≤ p.length := by
        simp only at hle
        omega
      rw [List.take_append_of_le_length hshort] at hforms hgo
      rw [List.drop_append_of_le_length hshort, List.head?_append] at hgo
      have hgo' : ∀ d ∈ (p.drop n).head?, goesOn k (c :: p.take n) d = false := by
        intro d hd
        apply hgo d
        rw [Option.mem_def.mp hd]
        rfl
      have hsame := munch_of_forms hforms hgo'
      rw [List.take_append_drop, hmunch, List.length_take, Nat.min_eq_left hshort] at hsame
      obtain ⟨rfl, rfl⟩ := Prod.mk.inj hsame
      rw [List.drop_length] at hgo
      have hreturn := hgo '\r' rfl
      rw [goesOn_return] at hreturn
      cases hreturn

end Token

namespace Word

theorem scan_return {gap : Text} (hgap : Blanks gap) :
    scan [] (gap ++ ['\r']) = [⟨.other, ['\r'], gap⟩] := by
  have hscan := scan_word (k := .other) (t := ['\r']) (b := gap) (s := []) (by decide) (by decide) hgap
    (by simp)
  rw [scan_nil] at hscan
  exact hscan

/-- A return is a word by itself, unless the last word of its line is other text. -/
theorem scan_append_return {l : Text} (hlast : ∀ w ∈ (scan [] l).getLast?, w.kind ≠ .other) :
    ∃ tail, l = source (scan [] l) ++ tail ∧ Blanks tail ∧
      scan [] (l ++ ['\r']) = scan [] l ++ [⟨.other, ['\r'], tail⟩] := by
  obtain ⟨tail, hl, hstands, htail⟩ := exists_scan l
  refine ⟨tail, hl, htail, ?_⟩
  -- the last word does not go on with the return
  have hnext : Stands (scan [] l) (tail ++ ['\r']).head? := by
    cases tail with
    -- blanks stand between
    | cons c tail => exact hstands
    | nil =>
      apply hstands.of_last
      intro w hw d hd
      obtain rfl : '\r' = d := Option.some.inj hd
      rw [Token.goesOn_return]
      simpa using hlast w hw
  conv_lhs => rw [hl]
  rw [List.append_assoc, scan_source_append hnext, scan_return htail]

/-- The words of a line that a return is added to. -/
theorem trailed_scan (l : Text) : Trailed (scan [] l) (scan [] (l ++ ['\r'])) := by
  -- a return is a token of its own, unless other text takes it in
  by_cases hlast : ∀ w ∈ (scan [] l).getLast?, w.kind ≠ .other
  · obtain ⟨tail, -, htail, hscan⟩ := scan_append_return hlast
    have happend := (Trailed.behind htail).append (scan [] l)
    rw [List.append_nil] at happend
    rwa [hscan]
  · obtain ⟨w, hw, hk⟩ : ∃ w ∈ (scan [] l).getLast?, w.kind = .other := by simpa using hlast
    obtain ⟨tail, hl, hstands, htail⟩ := exists_scan l
    obtain ⟨init, hinit⟩ := List.getLast?_eq_some_iff.mp hw
    rw [hinit] at hl hstands ⊢
    obtain ⟨hbefore, ⟨hforms, -, hblank⟩, hgo, -⟩ := stands_append.mp hstands
    rw [hk] at hforms hgo
    -- other text takes in the blanks behind it, so there are none
    obtain rfl : tail = [] := by
      cases tail with
      | nil => rfl
      | cons c tail =>
        have hc := hgo c rfl
        rw [Token.goesOn_of_isBlank (htail c List.mem_cons_self)] at hc
        cases hc
    -- the words before the last are as they were
    have hnext : Stands init (w.gap ++ (w.text ++ ['\r'])).head? := by
      obtain ⟨c, text, htext⟩ := List.exists_cons_of_ne_nil (Token.forms_ne_nil hforms)
      rw [source_cons, source_nil, List.append_nil, htext] at hbefore
      rw [htext]
      cases hgap : w.gap <;> simpa [hgap] using hbefore
    -- the last word is longer by the return
    have hscan : scan [] (w.gap ++ (w.text ++ ['\r'])) = [⟨.other, w.text ++ ['\r'], w.gap⟩] := by
      have hword := scan_word hforms.append_return (by decide) hblank (s := []) (by simp)
      rwa [scan_nil, List.append_nil] at hword
    have hsource : l ++ ['\r'] = source init ++ (w.gap ++ (w.text ++ ['\r'])) := by
      rw [hl]
      simp
    have hword : w = ⟨.other, w.text, w.gap⟩ := by rw [← hk]
    rw [hsource, scan_source_append hnext, hscan]
    apply Trailed.append
    rw [hword]
    exact .within

theorem stands_scan (l : Text) : Stands (scan [] l) none := by
  obtain ⟨tail, -, hstands, -⟩ := exists_scan l
  exact hstands.of_last (by simp)

end Word

/-! ## Section 2: Tags and lines -/

/-- The source of a line with a return has white space more at its end, and that ends every name. -/
theorem Trailed.exists_space {ts us : List Lexeme} (h : Trailed (words ts) (words us)) :
    ∃ e, (∀ c ∈ e, Text.isSpace c = true) ∧ (∀ d ∈ e.head?, Tag.endsName d = true) ∧
      Lexeme.source us = Lexeme.source ts ++ e := by
  obtain ⟨e, he, hsource⟩ := h.exists_source
  rw [Word.source_words, Word.source_words] at hsource
  have hreturn : ∀ c ∈ ['\r'], Text.isSpace c = true := by
    intro c hc
    obtain rfl := List.mem_singleton.mp hc
    rfl
  refine ⟨e ++ ['\r'], List.forall_mem_append.mpr ⟨he.isSpace, hreturn⟩, ?_, hsource⟩
  intro d hd
  -- what is added begins with the return or with blanks
  cases e with
  | nil =>
    obtain rfl := Option.some.inj hd
    rfl
  | cons c e =>
    obtain rfl := Option.some.inj hd
    exact Tag.endsName_of_isBlank (he c List.mem_cons_self)

theorem restOfLine_trailed {ts us : List Lexeme} (h : Trailed (words ts) (words us)) :
    restOfLine us = restOfLine ts := by
  obtain ⟨e, hspace, -, hsource⟩ := h.exists_space
  rw [restOfLine, restOfLine, hsource]
  exact Text.trim_append_space (a := []) (by simp) _ hspace

namespace Tag

open Reader

/-- The head of a method is read in the same way with a return at the end of the line. -/
theorem steady_methodHead (isStatic : Bool) (first : TypeExpr) :
    Steady (methodHead isStatic first) := by
  intro ts us h
  unfold methodHead
  rw [at?_trailed (by decide) h]
  split
  · split
    · split
      · exact .ok h
      · exact .error
    · exact .error
  · -- otherwise the name has to follow
    apply expect_trailed (by decide) h
    intro t u rest rest' htext hrest
    simp only [htext]
    exact .ok hrest

/-- So is the whole signature. -/
theorem steady_readMethod : Steady readMethod := by
  intro ts us h
  unfold readMethod
  -- the modifier, the first type, the head, the parameters and the colon, in this order
  obtain ⟨isStatic, xs, ys, hxs, hys, hxy⟩ := skip_trailed (k := .static) (by decide) h
  simp only [hxs, hys]
  refine (TypeExpr.steady_readerTo _ hxy).bind ?_
  intro first rest rest' _ _ hrest
  refine (steady_methodHead isStatic first hrest).bind ?_
  rintro ⟨isStatic, result, name⟩ rest rest' _ _ hrest
  apply expect_trailed (by decide) hrest
  intro _ _ rest rest' _ hrest
  have hsignature := TypeExpr.steady_signature (TypeExpr.steady_readerTo _)
    (TypeExpr.sound_readerTo TypeExpr.maxDepth)
  refine (hsignature hrest).bind ?_
  intro params rest rest' _ _ hrest
  obtain ⟨b, xs, ys, hxs, hys, hxy⟩ := skip_trailed (k := .colon) (by decide) hrest
  simp only [hxs, hys]
  cases b with
  | true => exact .error
  | false => exact .ok hxy

/-- So is a name that may be left out. -/
theorem optionalVar_trailed {ts us : List Lexeme} (h : Trailed (words ts) (words us)) :
    ∃ v rest rest', optionalVar ts = (v, rest) ∧ optionalVar us = (v, rest') ∧
      Trailed (words rest) (words rest') := by
  cases ts with
  | nil =>
    obtain ⟨u, rfl, hu⟩ := h.of_nil
    exact ⟨none, [], [u], rfl, by simp [optionalVar, hu], h⟩
  | cons t ts =>
    obtain ⟨u, us, rfl, hu, hsame⟩ := h.of_cons
    by_cases ht : t.kind = .var
    · -- a variable is never the return, so it is the same word
      obtain ⟨hword, hus⟩ := hsame (by rw [ht]; decide)
      have htext : u.text = t.text := congrArg Word.text hword
      exact ⟨some t.text.tail, ts, us, by simp [optionalVar, ht], by simp [optionalVar, hu, ht, htext],
        hus⟩
    · exact ⟨none, t :: ts, u :: us, by simp [optionalVar, ht], by simp [optionalVar, hu, ht], h⟩

/-- The word in front of a bound is an identifier, which a return does not change. -/
theorem any_isBoundWord_trailed {ts us : List Lexeme} (h : Trailed (words ts) (words us)) :
    us.head?.any isBoundWord = ts.head?.any isBoundWord := by
  cases ts with
  | nil =>
    obtain ⟨u, rfl, hu⟩ := h.of_nil
    simp [isBoundWord, hu]
  | cons t ts =>
    obtain ⟨u, us, rfl, hu, hsame⟩ := h.of_cons
    simp only [List.head?_cons, Option.any_some, isBoundWord, hu]
    by_cases ht : t.kind = .ident
    · have htext : u.text = t.text := congrArg Word.text (hsame (by rw [ht]; decide)).1
      rw [htext]
    · have hne : (t.kind == .ident) = false := by simpa using ht
      rw [hne, Bool.false_and, Bool.false_and]

theorem tail_trailed_of_isBoundWord {ts us : List Lexeme} (hbound : ts.head?.any isBoundWord = true)
    (h : Trailed (words ts) (words us)) : Trailed (words ts.tail) (words us.tail) := by
  apply tail_trailed (k := .ident) (by decide) _ h
  cases ts with
  | nil => cases hbound
  | cons t ts => exact (Bool.and_eq_true_iff.mp hbound).1

/-- The fields of every tag are read in the same way with a return at the end. -/
theorem steady_fields (keyword : Keyword) : Steady (fields keyword) := by
  have hreader : Steady TypeExpr.reader := TypeExpr.steady_readerTo _
  intro ts us h
  -- one case per tag, each along its fields
  cases keyword with
  | param =>
    refine (TypeExpr.steady_tagParam hreader h).bind ?_
    intro p rest rest' _ _ hrest
    exact .ok hrest
  | typed keyword =>
    refine (hreader h).bind ?_
    intro ty rest rest' _ _ hrest
    exact .ok hrest
  | property access =>
    refine (hreader h).bind ?_
    intro ty rest rest' _ _ hrest
    apply expect_trailed (by decide) hrest
    intro t u rest rest' htext hrest
    simp only [htext]
    exact .ok hrest
  | method =>
    refine (steady_readMethod h).bind ?_
    intro m rest rest' _ _ hrest
    exact .ok hrest
  | var =>
    refine (hreader h).bind ?_
    intro ty rest rest' _ _ hrest
    obtain ⟨v, xs, ys, hxs, hys, hxy⟩ := optionalVar_trailed hrest
    simp only [hxs, hys]
    exact .ok hxy
  | template =>
    apply expect_trailed (by decide) h
    intro t u rest rest' htext hrest
    simp only [htext, any_isBoundWord_trailed hrest]
    split
    · next hbound =>
      refine (hreader (tail_trailed_of_isBoundWord hbound hrest)).bind ?_
      intro bound rest rest' _ _ hrest
      exact .ok hrest
    · exact .ok hrest
  | «alias» =>
    apply expect_trailed (by decide) h
    intro t u rest rest' htext hrest
    obtain ⟨b, xs, ys, hxs, hys, hxy⟩ := skip_trailed (k := .equals) (by decide) hrest
    simp only [hxs, hys, htext]
    refine (hreader hxy).bind ?_
    intro ty rest rest' _ _ hrest
    exact .ok hrest

/-- A tag with a structure is the same with a return behind it. -/
theorem readStructured_trailed (keyword : Keyword) {ts us : List Lexeme}
    (h : Trailed (words ts) (words us)) {tag : Tag} :
    readStructured keyword ts = .ok tag ↔ readStructured keyword us = .ok tag := by
  rw [readStructured_eq, readStructured_eq]
  have hfields := steady_fields keyword h
  generalize fields keyword ts = x at hfields ⊢
  generalize fields keyword us = y at hfields ⊢
  cases hfields with
  -- the description is trimmed
  | @ok mk rest rest' hrest =>
    have hdesc : mk (restOfLine rest') = mk (restOfLine rest) := by rw [restOfLine_trailed hrest]
    rw [ok_bind, ok_bind]
    simp only [hdesc]
  | error =>
    constructor
    · intro h
      cases h
    · intro h
      cases h

/-- No structure is read off nothing. -/
theorem readStructured_nil (keyword : Keyword) {tag : Tag} :
    readStructured keyword [] ≠ .ok tag := by
  have hreader : ∃ f, TypeExpr.reader [] = .error f := ⟨_, rfl⟩
  obtain ⟨f, hreader⟩ := hreader
  cases keyword <;>
    simp [readStructured, TypeExpr.tagParam, readMethod, skip, expect, hreader, Fault.expecting,
      bind, Except.bind]

/-- The name of a tag ends before a return, and its description loses the return. -/
theorem cut_trailed (name : Text) {ts us : List Lexeme} (h : Trailed (words ts) (words us)) :
    cut name (Lexeme.source us) = cut name (Lexeme.source ts) := by
  obtain ⟨e, hspace, hends, hsource⟩ := h.exists_space
  rw [hsource, cut_append_space name _ hends hspace]

/-- A tag is the same with a return behind it, unless nothing else follows its keyword: then the
return spoils the keyword. -/
theorem read_trailed {t : Lexeme} {ts us : List Lexeme} (h : Trailed (words ts) (words us))
    (hts : Stands (words ts) none) (hus : Stands (words us) none) {tag : Tag} :
    read t ts = .ok tag ↔ read t us = .ok tag ∧
      (Keyword.ofText? t.text.tail ≠ none → ts = [] → us.head?.any Lexeme.isGlued = false) := by
  -- a tag with no structure takes any text
  by_cases hkeyword : Keyword.ofText? t.text.tail = none
  · rw [read_unstructured hts (.inr hkeyword), read_unstructured hus (.inr hkeyword), cut_trailed _ h]
    simp [hkeyword]
  · obtain ⟨keyword, hkeyword'⟩ := Option.ne_none_iff_exists'.mp hkeyword
    cases ts with
    -- nothing stands behind the tag but the return
    | nil =>
      cases hglued : us.head?.any Lexeme.isGlued with
      | true =>
        -- the keyword alone is refused
        rw [read_structured rfl hkeyword']
        simp [hkeyword, readStructured_nil]
      | false =>
        rw [read_structured rfl hkeyword', read_structured hglued hkeyword',
          readStructured_trailed keyword h]
        simp
    -- the return stands further on
    | cons u ts =>
      have hsame : us.head?.any Lexeme.isGlued = u.isGlued := h.isGlued_head
      cases hglued : u.isGlued with
      | true =>
        rw [read_unstructured hts (.inl hglued), read_unstructured hus (.inl (hsame.trans hglued)),
          cut_trailed _ h]
        simp
      | false =>
        have hglued' : (u :: ts).head?.any Lexeme.isGlued = false := hglued
        rw [read_structured hglued' hkeyword', read_structured (hsame.trans hglued) hkeyword',
          readStructured_trailed keyword h]
        simp

end Tag

namespace Line

/-- The marker of a line is never its return. -/
theorem dropMarker_trailed {ts us : List Lexeme} (h : Trailed (words ts) (words us)) :
    Trailed (words (dropMarker ts)) (words (dropMarker us)) := by
  cases ts with
  | nil =>
    obtain ⟨u, rfl, hu⟩ := h.of_nil
    have hdrop : dropMarker [u] = [u] := by simp [dropMarker, hu]
    rw [hdrop]
    exact h
  | cons t ts =>
    obtain ⟨u, us, rfl, hu, hsame⟩ := h.of_cons
    by_cases ht : t.kind = .asterisk
    · simp only [dropMarker, hu, ht, if_true]
      exact (hsame (by rw [ht]; decide)).2
    · simp only [dropMarker, hu, ht, if_false]
      exact h

/-- A line that is a keyword with a structure and nothing else, but for the marker. -/
def IsBare (l : Text) : Prop :=
  ∃ keyword : Keyword, Text.unmarked l = '@' :: keyword.text

/-- A keyword is a name that a tag can have. -/
theorem keyword_text (keyword : Keyword) :
    keyword.text ≠ [] ∧ ∀ c ∈ keyword.text, Token.isTagPart c = true := by
  have hall : (!keyword.text.isEmpty && keyword.text.all Token.isTagPart) = true := by
    rcases keyword with _ | k | a | _ | _ | _ | _
    case typed => cases k <;> rfl
    case property => cases a <;> rfl
    all_goals rfl
  obtain ⟨hne, hall⟩ := Bool.and_eq_true_iff.mp hall
  exact ⟨by simpa using hne, List.all_eq_true.mp hall⟩

/-- Words at the end of a line are left alone when its marker is dropped. -/
theorem words_dropMarker_append {ts us : List Lexeme} {vs : List Word} (hne : ts ≠ [])
    (h : words us = words ts ++ vs) : words (dropMarker us) = words (dropMarker ts) ++ vs := by
  obtain ⟨t, ts, rfl⟩ := List.exists_cons_of_ne_nil hne
  rw [Lexeme.words_cons, List.cons_append] at h
  obtain ⟨u, us, rfl, hu, hus⟩ := Lexeme.words_eq_cons.mp h
  have hkind : u.kind = t.kind := congrArg Word.kind hu
  -- the marker is the first word, which is the same on both lines
  simp only [dropMarker, hkind]
  split
  · exact hus
  · rw [Lexeme.words_cons, hu, hus]
    rfl

/-- The return is glued to a keyword just when the line is bare. -/
theorem isBare_iff {l : Text} {ts us rest rest' : List Lexeme} {t u : Lexeme}
    (hts : words ts = scan [] l) (hus : words us = scan [] (l ++ ['\r']))
    (hdrop : dropMarker ts = t :: rest) (hdrop' : dropMarker us = u :: rest') (ht : t.kind = .tag) :
    IsBare l ↔ Keyword.ofText? t.text.tail ≠ none ∧ rest = [] ∧
      rest'.head?.any Lexeme.isGlued = true := by
  obtain ⟨tail, hl, hunmarked, -, hstands⟩ := Text.unmarked_of_dropMarker hts hdrop ht
  obtain ⟨⟨hforms, -, -⟩, hgo, hrests⟩ := hstands
  rw [Lexeme.word_kind, Lexeme.word_text, ht] at hforms hgo
  obtain ⟨htext, -, -⟩ := tag_of_forms hforms
  -- behind a keyword that stands alone, the gap of the return is what the line ends in
  have hgap (hrest : rest = []) : rest'.head?.any Lexeme.isGlued = tail.isEmpty := by
    subst hrest
    have hne : ts ≠ [] := by
      rintro rfl
      cases hdrop
    have hlast : ∀ w ∈ (scan [] l).getLast?, w.kind ≠ .other := by
      intro w hw
      obtain ⟨pre, hpre⟩ := Comment.dropMarker_suffix ts
      rw [hdrop] at hpre
      rw [← hts, ← hpre, Lexeme.words_append, List.getLast?_append] at hw
      obtain rfl : t.word = w := Option.some.inj hw
      rw [Lexeme.word_kind, ht]
      decide
    obtain ⟨tail', hl', -, hscan⟩ := Word.scan_append_return hlast
    rw [← hts] at hl' hscan
    rw [Word.source_words, hl] at hl'
    obtain rfl := List.append_cancel_left hl'
    have hwords := words_dropMarker_append hne (hus.trans hscan)
    rw [hdrop, hdrop', Lexeme.words_cons, Lexeme.words_cons, List.cons_append] at hwords
    obtain ⟨v, rfl, hv⟩ := Lexeme.words_eq_singleton.mp (List.cons.inj hwords).2
    have hvgap : v.gap = tail := congrArg Word.gap hv
    rw [← hvgap]
    rfl
  constructor
  · -- the line is the keyword alone
    rintro ⟨keyword, hkeyword⟩
    rw [hunmarked, htext, List.cons_append, List.cons.injEq] at hkeyword
    obtain ⟨-, hkeyword⟩ := hkeyword
    -- the name of the tag does not go on, so nothing follows it
    have hnil : Lexeme.source rest ++ tail = [] := by
      cases hz : Lexeme.source rest ++ tail with
      | nil => rfl
      | cons d z =>
        have hd : Token.isTagPart d = true := by
          apply (keyword_text keyword).2
          rw [← hkeyword, hz]
          simp
        have hnext : d ∈ (Word.source (words rest)).head?.or tail.head? := by
          rw [Word.source_words, ← List.head?_append, hz]
          rfl
        have hstop : Token.isTagPart d = false := hgo d hnext
        rw [hd] at hstop
        cases hstop
    obtain ⟨hrest, htail⟩ := List.append_eq_nil_iff.mp hnil
    rw [hnil, List.append_nil] at hkeyword
    have hrest' : rest = [] := by
      cases rest with
      | nil => rfl
      | cons v rest =>
        rw [← Word.source_words] at hrest
        exact absurd hrest (Word.source_ne_nil hrests)
    refine ⟨?_, hrest', ?_⟩
    · rw [hkeyword, Keyword.ofText?_text]
      simp
    · rw [hgap hrest', htail]
      rfl
  · -- conversely nothing but the keyword stands on the line
    rintro ⟨hkeyword, hrest, hglued⟩
    obtain ⟨keyword, hkeyword⟩ := Option.ne_none_iff_exists'.mp hkeyword
    rw [hgap hrest, List.isEmpty_iff] at hglued
    refine ⟨keyword, ?_⟩
    rw [hunmarked, hrest, hglued, Keyword.text_of_ofText? hkeyword, ← htext]
    simp [Lexeme.source]

theorem stands_of_dropMarker {l : Text} {ts rest : List Lexeme} {t : Lexeme}
    (hts : words ts = scan [] l) (hdrop : dropMarker ts = t :: rest) : Stands (words rest) none := by
  have hstands := Word.stands_scan l
  obtain ⟨pre, hpre⟩ := Comment.dropMarker_suffix ts
  rw [← hts, ← hpre, hdrop, Lexeme.words_append] at hstands
  exact (Word.stands_append.mp hstands).2.2.2

/-- A line that begins with no tag reads as its text. -/
theorem readsAs_text_iff {ts : List Lexeme} (h : ∀ t ∈ ts.head?, t.kind ≠ .tag) {x : Line} :
    ReadsAs ts x ↔ x = .text (restOfLine ts) := by
  constructor
  · intro hx
    cases hx with
    | tag ht _ => exact absurd ht (h _ rfl)
    | text => rfl
  · rintro rfl
    exact .text h

/-- A line that begins with a tag reads as that tag, if it can be read. -/
theorem readsAs_tag_iff {t : Lexeme} {rest : List Lexeme} (ht : t.kind = .tag) {x : Line} :
    ReadsAs (t :: rest) x ↔ ∃ tag, Tag.read t rest = .ok tag ∧ x = .tag tag := by
  constructor
  · intro hx
    cases hx with
    | tag _ hread => exact ⟨_, hread, rfl⟩
    | text hne => exact absurd ht (hne t rfl)
  · rintro ⟨tag, hread, rfl⟩
    exact .tag ht hread

/-- A line is the same with a return at its end, unless it is bare. A bare line is refused without
the return. -/
theorem read_return {l : Text} {line line' : SourceLine} (hline : words line.words = scan [] l)
    (hline' : words line'.words = scan [] (l ++ ['\r'])) {x : Line} :
    read line = .ok x ↔ read line' = .ok x ∧ ¬IsBare l := by
  have htrail : Trailed (words line.words) (words line'.words) := by
    rw [hline, hline']
    exact Word.trailed_scan l
  have hdrop := dropMarker_trailed htrail
  have hbare : IsBare l → ∃ t rest, dropMarker line.words = t :: rest ∧ t.kind = .tag := by
    rintro ⟨keyword, hkeyword⟩
    apply (Text.opensTag_iff hline).mp
    unfold Text.opensTag
    rw [hkeyword, ← List.append_nil ('@' :: keyword.text)]
    exact Text.startsTag_append (keyword_text keyword).1 (keyword_text keyword).2 []
  -- a line of free text
  have htext (hts : ∀ t ∈ (dropMarker line.words).head?, t.kind ≠ .tag)
      (hus : ∀ u ∈ (dropMarker line'.words).head?, u.kind ≠ .tag) :
      read line = .ok x ↔ read line' = .ok x ∧ ¬IsBare l := by
    have hnot : ¬IsBare l := by
      intro h
      obtain ⟨t, rest, hcons, ht⟩ := hbare h
      rw [hcons] at hts
      exact hts t rfl ht
    rw [read_eq_ok_iff, read_eq_ok_iff, readsAs_text_iff hts, readsAs_text_iff hus,
      restOfLine_trailed hdrop]
    exact (and_iff_left hnot).symm
  cases hts : dropMarker line.words with
  -- only the return is left of the line
  | nil =>
    rw [hts] at hdrop
    obtain ⟨u, hus, hu⟩ := hdrop.of_nil
    apply htext
    · simp [hts]
    · simp [hus, hu]
  | cons t rest =>
    rw [hts] at hdrop
    obtain ⟨u, rest', hus, hu, hsame⟩ := hdrop.of_cons
    -- both lines begin with words of one kind
    by_cases ht : t.kind = .tag
    · -- a tag; the bare keyword is the only one the return makes a difference to
      obtain ⟨hword, hrest⟩ := hsame (by rw [ht]; decide)
      have hread : Tag.read u rest' = Tag.read t rest' := by
        have htext : u.text = t.text := congrArg Word.text hword
        unfold Tag.read
        rw [htext]
      have hstands := stands_of_dropMarker hline hts
      have hstands' := stands_of_dropMarker hline' hus
      rw [read_eq_ok_iff, read_eq_ok_iff, hts, hus, readsAs_tag_iff ht, readsAs_tag_iff (hu.trans ht),
        hread, isBare_iff hline hline' hts hus ht]
      simp only [Tag.read_trailed hrest hstands hstands']
      constructor
      · rintro ⟨tag, ⟨hread, hglued⟩, rfl⟩
        refine ⟨⟨tag, hread, rfl⟩, ?_⟩
        rintro ⟨hkeyword, hnil, hglued'⟩
        rw [hglued hkeyword hnil] at hglued'
        cases hglued'
      · rintro ⟨⟨tag, hread, rfl⟩, hnot⟩
        refine ⟨tag, ⟨hread, ?_⟩, rfl⟩
        intro hkeyword hnil
        by_contra hglued
        exact hnot ⟨hkeyword, hnil, by simpa using hglued⟩
    · apply htext
      · simp [hts, ht]
      · simp [hus, hu, ht]

/-- Where the words of a line stand makes no difference to what is read. -/
theorem read_of_words_eq {line line' : SourceLine} (h : words line.words = words line'.words)
    {x : Line} (hread : read line = .ok x) : read line' = .ok x := by
  -- both lines are moved to one place, where they are the same
  have hplace (ts : List Lexeme) : ts.map (Lexeme.moved fun _ => .start) =
      (words ts).map fun w => ⟨⟨w.kind, w.text, .start⟩, w.gap⟩ := by
    rw [words, List.map_map]
    rfl
  have hmoved := read_moved_of_ok hread fun _ => .start
  rw [read_eq_ok_iff, SourceLine.moved, hplace, h, ← hplace] at hmoved
  have hmoved' : read (line'.moved fun _ => .start) = .ok x := read_eq_ok_iff.mpr hmoved
  cases hread' : read line' with
  | ok x' =>
    rw [read_moved_of_ok hread'] at hmoved'
    exact hmoved'
  | error e =>
    obtain ⟨t, rest, fault, hwords, ht, hfault, -⟩ := read_eq_error_iff.mp hread'
    rw [read_moved_of_error hwords ht hfault] at hmoved'
    cases hmoved'

end Line

end Docblock
