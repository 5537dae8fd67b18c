import Docblock.Proofs.Lexeme.Passing
import Docblock.Proofs.Text.Trim

/-!
# Phrases: words that are written out anew

A printer writes the words of a tree with gaps of its own.  `Phrase ws` says that the words `ws`
can be read back in front of any character that breaks off a token.  All the punctuation of types
consists of such characters, and so does the blank, so phrases are put together piece by piece.

- `Word.after gap ws`: the words `ws` with `gap` in front.
- `Genuine`: words that are tokens, whatever their gaps.
- `Condensed`: which words of a type are left out in print.
- `Written text old ws`: the words `ws` are read off `text`, and are the words of `old` that are
  printed, with other gaps.
-/

namespace Docblock

/-! ## Section 1: Words apart from their gaps -/

namespace Word

/-- The kind and the text of a word. -/
def core (w : Word) : Kind × Text :=
  (w.kind, w.text)

/-- The word with nothing before it. -/
def flush (w : Word) : Word :=
  { w with gap := [] }

/-- The words with the given gap before the first of them. -/
def after (gap : Text) : List Word → List Word
  | [] => []
  | w :: ws => { w with gap := gap } :: ws

@[simp] theorem flush_kind (w : Word) : w.flush.kind = w.kind := rfl

@[simp] theorem flush_text (w : Word) : w.flush.text = w.text := rfl

@[simp] theorem flush_gap (w : Word) : w.flush.gap = [] := rfl

@[simp] theorem core_flush (w : Word) : w.flush.core = w.core := rfl

@[simp] theorem after_nil (gap : Text) : after gap [] = [] := rfl

@[simp] theorem after_cons (gap : Text) (w : Word) (ws : List Word) :
    after gap (w :: ws) = { w with gap := gap } :: ws := rfl

/-- Only the first word gets the gap, so what comes behind a word is left alone. -/
theorem after_append {a : List Word} (h : a ≠ []) (gap : Text) (b : List Word) :
    after gap (a ++ b) = after gap a ++ b := by
  cases a with
  | nil => exact absurd rfl h
  | cons w a => rfl

@[simp] theorem map_core_after (gap : Text) (ws : List Word) :
    (after gap ws).map core = ws.map core := by
  cases ws <;> rfl

/-- The text of some words without their gaps and without any other white space. -/
def dense (xs : List (Kind × Text)) : Text :=
  xs.flatMap fun x => Text.despace x.2

@[simp] theorem dense_nil : dense [] = [] := rfl

@[simp] theorem dense_cons (x : Kind × Text) (xs : List (Kind × Text)) :
    dense (x :: xs) = Text.despace x.2 ++ dense xs := rfl

@[simp] theorem dense_append (xs ys : List (Kind × Text)) :
    dense (xs ++ ys) = dense xs ++ dense ys := by
  simp [dense]

/-- White space counts for nothing in the dense text, so the gaps may be left out of it at once. -/
theorem despace_source {ws : List Word} (h : ∀ w ∈ ws, Text.Blanks w.gap) :
    Text.despace (source ws) = dense (ws.map core) := by
  induction ws with
  | nil => rfl
  | cons w ws ih =>
    -- the gap of the first word goes, and what is left of it is its text without white space
    obtain ⟨hw, hws⟩ := List.forall_mem_cons.mp h
    simp [hw.despace, ih hws, core]

@[simp] theorem map_core_flush (ws : List Word) : (ws.map flush).map core = ws.map core := by
  simp

/-- Nothing stands before the words. -/
def Flush (ws : List Word) : Prop :=
  ∀ w ∈ ws.head?, w.gap = []

theorem Flush.cons {w : Word} (h : w.gap = []) (ws : List Word) : Flush (w :: ws) := by
  simpa [Flush] using h

/-- What stands before the first words stands before all of them. -/
theorem Flush.append {a : List Word} (h : Flush a) (hne : a ≠ []) (b : List Word) :
    Flush (a ++ b) := by
  cases a with
  | nil => exact absurd rfl hne
  | cons w a => exact h

/-- A gap in front of words that had none is written in front of their text. -/
theorem source_after {ws : List Word} (h : Flush ws) (hne : ws ≠ []) (gap : Text) :
    source (after gap ws) = gap ++ source ws := by
  cases ws with
  | nil => exact absurd rfl hne
  | cons w ws =>
    have hw : w.gap = [] := h w rfl
    simp [hw]

end Word

open Word (source Stands after Flush)

/-- Words that are tokens, whatever their gaps. -/
def Genuine (ws : List Word) : Prop :=
  ∀ w ∈ ws, Token.Forms w.kind w.text ∧ w.kind ≠ .blank

@[simp] theorem genuine_nil : Genuine [] := by
  simp [Genuine]

@[simp] theorem genuine_cons {w : Word} {ws : List Word} :
    Genuine (w :: ws) ↔ (Token.Forms w.kind w.text ∧ w.kind ≠ .blank) ∧ Genuine ws := by
  simp [Genuine]

@[simp] theorem genuine_append {a b : List Word} : Genuine (a ++ b) ↔ Genuine a ∧ Genuine b := by
  simp only [Genuine, List.mem_append, or_imp, forall_and]
  tauto

/-- What stands in a text consists of tokens. -/
theorem genuine_of_stands {ws : List Word} {next : Option Char} (h : Stands ws next) :
    Genuine ws :=
  fun w hw => ⟨(h.sound w hw).forms, (h.sound w hw).solid⟩

/-- All words of a text are tokens. -/
theorem genuine_ofText (s : Text) : Genuine (Lexeme.words (Lexeme.ofText s)) := by
  obtain ⟨tail, -, hstands, -⟩ := Word.exists_scan s
  rw [Word.words_ofText]
  exact genuine_of_stands hstands

/-- What is passed over is genuine, and so is what is left, if all of it was. -/
theorem Passes.genuine {ts rest : List Lexeme} {ws : List Word} (h : Passes ts ws rest)
    (hts : Genuine (Lexeme.words ts)) : Genuine ws ∧ Genuine (Lexeme.words rest) := by
  -- being a token is a matter of the kind and the text, so it goes along with the words
  have hts' : ∀ t ∈ ts, Token.Forms t.kind t.text ∧ t.kind ≠ .blank := by
    simpa [Genuine, Lexeme.words] using hts
  have := h.forall_words (P := fun k x => Token.Forms k x ∧ k ≠ .blank) hts'
  simpa [Genuine, Lexeme.words] using this

/-! ## Section 2: Breaks -/

/-- Characters that end every token of a type. -/
def Token.isBreak (c : Char) : Bool :=
  !isIdentPart c && c != '/'

/-- A blank breaks off a token. -/
theorem Token.isBreak_of_isBlank {c : Char} (h : Text.isBlank c = true) : isBreak c = true := by
  rcases isBlank_iff.mp h with rfl | rfl <;> decide

namespace Kind

/-- The kinds of token of which types are made up. -/
def isTypeWord : Kind → Bool
  | .stop | .newline | .blank | .openDoc | .closeDoc | .tag | .other => false
  | _ => true

/-- Those that end at every such character: all but the colon, which another colon continues. -/
def isBroken (k : Kind) : Bool :=
  k.isTypeWord && k != .colon

/-- Those that nothing at all continues. -/
def isClosed : Kind → Bool
  | .backslash | .question | .lparen | .rparen | .lbrack | .rbrack | .lbrace | .rbrace | .lt | .gt
  | .comma | .doubleColon | .ellipsis | .bar | .amp | .equals | .str => true
  | _ => false

/-- Those after which a printer leaves a blank. -/
def isSpaced : Kind → Bool
  | .comma | .colon | .equals => true
  | _ => false

theorem isTypeWord_of_isBroken {k : Kind} (h : k.isBroken = true) : k.isTypeWord = true := by
  rw [isBroken, Bool.and_eq_true] at h
  exact h.1

/-- What nothing continues is a word of types. -/
theorem isTypeWord_of_isClosed {k : Kind} (h : k.isClosed = true) : k.isTypeWord = true := by
  revert h
  cases k <;> decide

/-- The words that end a list of arguments, entries or parameters. -/
def endsList : Kind → Bool
  | .gt | .rbrace | .rparen => true
  | _ => false

/-- The brackets that end a list end at every break. -/
theorem isBroken_of_endsList {k : Kind} (h : k.endsList = true) : k.isBroken = true := by
  revert h
  cases k <;> decide

theorem ne_colon_of_endsList {k : Kind} (h : k.endsList = true) : k ≠ .colon := by
  rintro rfl
  cases h

theorem isTypeWord_of_isSpaced {k : Kind} (h : k.isSpaced = true) : k.isTypeWord = true := by
  revert h
  cases k <;> decide

end Kind

/-- A break character does not go on with any word of a type but the colon. -/
theorem Token.goesOn_eq_false_of_isBreak {k : Kind} (hk : k.isBroken = true) (t : Text) {c : Char}
    (h : isBreak c = true) : goesOn k t c = false := by
  simp only [isBreak, Bool.and_eq_true, Bool.not_eq_eq_eq_not, Bool.not_true, bne_iff_ne, ne_eq] at h
  -- the classes of characters lie inside one another, so the largest one decides
  obtain ⟨hident, hslash⟩ := h
  have hvar : isVarPart c = false ∧ (c == '-') = false := by
    simpa [isIdentPart] using hident
  have hdigit : c.isDigit = false := by
    have := hvar.1
    simp only [isVarPart, Bool.or_eq_false_iff] at this
    exact this.2
  -- the slash is only looked at by an asterisk, which would become a delimiter
  cases k <;> simp_all [goesOn, Kind.isBroken, Kind.isTypeWord]

/-- No character goes on with a closed token. -/
theorem Token.goesOn_eq_false_of_isClosed {k : Kind} (h : k.isClosed = true) (t : Text) (c : Char) :
    goesOn k t c = false := by
  cases k <;> simp_all [goesOn, Kind.isClosed]

/-- A blank does not go on with a colon either. -/
theorem Token.goesOn_blank_of_isSpaced {k : Kind} (h : k.isSpaced = true) (t : Text) :
    goesOn k t ' ' = false := by
  cases k <;> simp_all [goesOn, Kind.isSpaced]

/-- Words that stand in front of any character that breaks off a token, and at the end. -/
def Phrase (ws : List Word) : Prop :=
  ∀ next : Option Char, (∀ c ∈ next, Token.isBreak c = true) → Stands ws next

/-- The first character of a text, if it has one, breaks off a token. -/
def Breaks (s : Text) : Prop :=
  ∀ c ∈ s.head?, Token.isBreak c = true

theorem phrase_nil : Phrase [] := fun _ _ => trivial

theorem Phrase.stands {ws : List Word} (h : Phrase ws) {s : Text} (hs : Breaks s) :
    Stands ws s.head? :=
  h _ hs

/-- A phrase may follow another one if its text begins with a break. -/
theorem Phrase.append {a b : List Word} (ha : Phrase a) (hb : Phrase b)
    (hbreak : Breaks (source b)) : Phrase (a ++ b) := by
  intro next hnext
  refine Word.stands_append.mpr ⟨ha _ ?_, hb next hnext⟩
  intro c hc
  -- the first words stand in front of `b`, or of what comes after it where `b` is empty
  cases hs : (source b).head? with
  | none =>
    rw [hs, Option.none_or] at hc
    exact hnext c hc
  | some d =>
    rw [hs, Option.some_or] at hc
    exact hbreak c (by rw [hs]; exact hc)

/-- A token that ends at breaks is a phrase by itself. -/
theorem phrase_single {w : Word} (hw : Token.Forms w.kind w.text ∧ w.kind ≠ .blank)
    (hgap : ∀ c ∈ w.gap, Text.isBlank c = true) (hk : w.kind.isBroken = true) : Phrase [w] := by
  intro next hnext
  refine ⟨⟨hw.1, hw.2, hgap⟩, ?_, trivial⟩
  intro c hc
  exact Token.goesOn_eq_false_of_isBreak hk w.text (hnext c (by simpa using hc))

/-- A word that never goes on may stand in front of any phrase. -/
theorem Phrase.cons_closed {w : Word} {ws : List Word} (hws : Phrase ws)
    (hw : Token.Forms w.kind w.text ∧ w.kind ≠ .blank) (hgap : ∀ c ∈ w.gap, Text.isBlank c = true)
    (hk : w.kind.isClosed = true) : Phrase (w :: ws) :=
  fun next hnext =>
    ⟨⟨hw.1, hw.2, hgap⟩, fun c _ => Token.goesOn_eq_false_of_isClosed hk w.text c, hws next hnext⟩

/-- The gap before a phrase may be any blanks. -/
theorem Phrase.after {ws : List Word} (h : Phrase ws) {gap : Text}
    (hgap : ∀ c ∈ gap, Text.isBlank c = true) : Phrase (after gap ws) := by
  intro next hnext
  have := h next hnext
  cases ws with
  | nil => trivial
  | cons w ws => exact ⟨⟨this.1.forms, this.1.solid, hgap⟩, this.2⟩

/-- A word in front of words that are set off from it. -/
theorem Phrase.cons_after {w : Word} {ws : List Word} (hws : Phrase ws) (hflush : Flush ws)
    (hne : ws ≠ []) (hw : Token.Forms w.kind w.text ∧ w.kind ≠ .blank)
    (hgap : ∀ c ∈ w.gap, Text.isBlank c = true)
    (hk : w.kind.isSpaced = true) : Phrase (w :: Word.after [' '] ws) := by
  intro next hnext
  refine ⟨⟨hw.1, hw.2, hgap⟩, ?_, hws.after (List.forall_mem_singleton.mpr rfl) next hnext⟩
  intro c hc
  -- the character that follows the word is the blank
  rw [Word.source_after hflush hne] at hc
  obtain rfl : ' ' = c := by simpa using hc
  exact Token.goesOn_blank_of_isSpaced hk w.text

/-! ## Section 3: Words that are left out -/

/-- The words of a type that are printed, against those it was read from, both without their gaps.
Two things are left out: a comma right before the end of a list, and the parentheses of a callable
that has neither parameters nor a result. -/
inductive Condensed : List (Kind × Text) → List (Kind × Text) → Prop where
  | nil : Condensed [] []
  | keep (x : Kind × Text) {a b : List (Kind × Text)} (h : Condensed a b) :
      Condensed (x :: a) (x :: b)
  | comma {m x : Kind × Text} {a b : List (Kind × Text)} (hm : m.1 = .comma)
      (hx : x.1.endsList = true) (h : Condensed (x :: a) b) : Condensed (m :: x :: a) b
  | parens {w l r : Kind × Text} {a b : List (Kind × Text)} (hw : w.1 = .callable)
      (hl : l.1 = .lparen) (hr : r.1 = .rparen) (hresult : ∀ x ∈ a.head?, x.1 ≠ .colon)
      (h : Condensed a b) : Condensed (w :: l :: r :: a) (w :: b)

namespace Condensed

variable {a a' b b' : List (Kind × Text)}

/-- Words that stay the same may be put in front. -/
theorem append_left (a : List (Kind × Text)) (h : Condensed b b') : Condensed (a ++ b) (a ++ b') := by
  induction a with
  | nil => exact h
  | cons x a ih => exact .keep x ih

theorem refl (a : List (Kind × Text)) : Condensed a a := by
  simpa using append_left a .nil

/-- Two lists one after the other, of which the second is no result of the first. -/
theorem append (h : Condensed a b) (h' : Condensed a' b') (hresult : ∀ x ∈ a'.head?, x.1 ≠ .colon) :
    Condensed (a ++ a') (b ++ b') := by
  induction h with
  | nil => exact h'
  | keep x h ih => exact .keep x ih
  | comma hm hx h ih => exact .comma hm hx ih
  | @parens w l r a b hw hl hr hnext h ih =>
    -- the word behind the parentheses is looked at, and it may be the first of the second list
    refine .parens hw hl hr ?_ ih
    cases a with
    | nil => exact hresult
    | cons x a => exact hnext

/-- What is printed is part of what was read, in the same order. -/
theorem sublist (h : Condensed a b) : b.Sublist a := by
  -- over the words that are read: a comma is one that is dropped, and the parentheses are two
  induction h with
  | nil => exact .slnil
  | keep x _ ih => exact ih.cons_cons x
  | comma _ _ _ ih => exact ih.cons _
  | parens _ _ _ _ _ ih => exact ((ih.cons _).cons _).cons_cons _

end Condensed

/-- Words that have come to an end: whatever is next, the same ones of them are printed. -/
def Ended (old ws : List Word) : Prop :=
  ∀ ⦃a b : List (Kind × Text)⦄, Condensed a b →
    Condensed (old.map Word.core ++ a) (ws.map Word.core ++ b)

/-- Words that are all printed have come to an end. -/
theorem ended_flush (ws : List Word) : Ended ws (ws.map Word.flush) := by
  intro a b h
  rw [Word.map_core_flush]
  exact h.append_left _

/-! ## Section 4: Words that are written -/

/-- Some words of types that are read off a text, and are words of `old` with other gaps.  Unless
there are none, the first word is that of `old`. -/
structure Written (text : Text) (old ws : List Word) : Prop where
  source : source ws = text
  flush : Flush ws
  phrase : Phrase ws
  typed : ∀ w ∈ ws, w.kind.isTypeWord = true
  kept : Condensed (old.map Word.core) (ws.map Word.core)
  front : ws ≠ [] → ws.head?.map Word.core = old.head?.map Word.core
  noResult : ∀ w ∈ old.head?, w.kind ≠ .colon

namespace Written

variable {s t : Text} {old old' ws vs : List Word} {w : Word}

/-- Where nothing is written, nothing is read. -/
theorem nil : Written [] [] [] where
  source := rfl
  flush := by simp [Flush]
  phrase := phrase_nil
  typed := by simp
  kept := .nil
  front := fun h => absurd rfl h
  noResult := by simp

/-- One word is written as it is. -/
theorem single (hw : Token.Forms w.kind w.text ∧ w.kind ≠ .blank) (hk : w.kind.isBroken = true) :
    Written w.text [w] [w.flush] where
  source := by simp
  flush := .cons rfl []
  phrase := phrase_single hw (by simp) hk
  typed := by simpa using Kind.isTypeWord_of_isBroken hk
  kept := .refl _
  front := fun _ => rfl
  -- a colon does not end at every break, so the word is none
  noResult := by
    rintro v hv hcolon
    cases hv
    rw [hcolon] at hk
    cases hk

theorem typed_after {gap : Text} (h : ∀ w ∈ ws, w.kind.isTypeWord = true) :
    ∀ w ∈ after gap ws, w.kind.isTypeWord = true := by
  cases ws with
  | nil => exact h
  | cons w ws => simpa using h

/-- What follows the first piece does not change its first word. -/
theorem front_append (h : Written s old ws) (hne : ws ≠ []) (old' vs : List Word) :
    (ws ++ vs).head?.map Word.core = (old ++ old').head?.map Word.core := by
  have hfront := h.front hne
  cases ws with
  | nil => exact absurd rfl hne
  | cons w ws =>
    cases old with
    | nil => simp at hfront
    | cons u old => exact hfront

/-- Words that are written come from words that were read. -/
theorem ne_nil (h : Written s old ws) (hne : ws ≠ []) : old ≠ [] := by
  rintro rfl
  exact hne (List.map_eq_nil_iff.mp (List.sublist_nil.mp h.kept.sublist))

/-- The colon is asked about only where a piece begins. -/
theorem noResult_append (h : Written s old ws) (hne : ws ≠ []) (old' : List Word) :
    ∀ w ∈ (old ++ old').head?, w.kind ≠ .colon := by
  have hold := h.noResult
  cases old with
  | nil => exact absurd rfl (h.ne_nil hne)
  | cons u old => exact hold

/-- Every word that is printed is one of those it was read from. -/
theorem core_mem (h : Written s old ws) (hw : w ∈ ws) : w.core ∈ old.map Word.core :=
  h.kept.sublist.subset (List.mem_map_of_mem hw)

/-- The printed text, without white space, is made up of the words that are kept. -/
theorem despace_eq (h : Written s old ws) : Text.despace s = Word.dense (ws.map Word.core) := by
  have hstands : Stands ws none := h.phrase none (by simp)
  rw [← h.source]
  exact Word.despace_source fun w hw => (hstands.sound w hw).blank

/-- Two pieces are condensed apart, since the second does not begin with a colon. -/
theorem kept_append (hws : Written s old ws) (hvs : Written t old' vs) :
    Condensed ((old ++ old').map Word.core) ((ws ++ vs).map Word.core) := by
  rw [List.map_append, List.map_append]
  refine hws.kept.append hvs.kept ?_
  rw [List.head?_map]
  intro x hx
  obtain ⟨w, hw, rfl⟩ := Option.map_eq_some_iff.mp hx
  exact hvs.noResult w hw

/-- Two pieces, of which the second begins with a break. -/
theorem append (hws : Written s old ws) (hvs : Written t old' vs) (hne : ws ≠ [])
    (hbreak : Breaks t) : Written (s ++ t) (old ++ old') (ws ++ vs) where
  source := by rw [Word.source_append, hws.source, hvs.source]
  flush := hws.flush.append hne vs
  phrase := hws.phrase.append hvs.phrase (by rwa [hvs.source])
  typed := List.forall_mem_append.mpr ⟨hws.typed, hvs.typed⟩
  kept := hws.kept_append hvs
  front := fun _ => hws.front_append hne old' vs
  noResult := hws.noResult_append hne old'

/-- Two pieces with a blank between them. -/
theorem append_after (hws : Written s old ws) (hvs : Written t old' vs) (hne : ws ≠ [])
    (hne' : vs ≠ []) : Written (s ++ ' ' :: t) (old ++ old') (ws ++ after [' '] vs) where
  source := by
    rw [Word.source_append, Word.source_after hvs.flush hne', hws.source, hvs.source]
    rfl
  flush := hws.flush.append hne _
  -- the blank breaks off the last token of the first piece
  phrase := by
    refine hws.phrase.append (hvs.phrase.after (List.forall_mem_singleton.mpr rfl)) ?_
    rw [Word.source_after hvs.flush hne']
    intro c hc
    obtain rfl : ' ' = c := by simpa using hc
    rfl
  typed := List.forall_mem_append.mpr ⟨hws.typed, typed_after hvs.typed⟩
  kept := by
    simpa using hws.kept_append hvs
  front := fun _ => hws.front_append hne old' _
  noResult := hws.noResult_append hne old'

/-- A word that never goes on, in front of a piece. -/
theorem cons_closed (hvs : Written t old vs) (hw : Token.Forms w.kind w.text ∧ w.kind ≠ .blank)
    (hk : w.kind.isClosed = true) : Written (w.text ++ t) (w :: old) (w.flush :: vs) where
  source := by simp [hvs.source]
  flush := .cons rfl vs
  phrase := hvs.phrase.cons_closed hw (by simp) hk
  typed := List.forall_mem_cons.mpr ⟨Kind.isTypeWord_of_isClosed hk, hvs.typed⟩
  kept := hvs.kept.keep w.core
  front := fun _ => rfl
  noResult := by
    rintro v hv hcolon
    cases hv
    rw [hcolon] at hk
    cases hk

/-- A word in front of a piece that is set off from it. -/
theorem cons_after (hvs : Written t old vs) (hne : vs ≠ [])
    (hw : Token.Forms w.kind w.text ∧ w.kind ≠ .blank) (hk : w.kind.isSpaced = true)
    (hcolon : w.kind ≠ .colon) :
    Written (w.text ++ ' ' :: t) (w :: old) (w.flush :: after [' '] vs) where
  source := by simp [Word.source_after hvs.flush hne, hvs.source]
  flush := .cons rfl _
  phrase := hvs.phrase.cons_after hvs.flush hne hw (by simp) hk
  typed := List.forall_mem_cons.mpr ⟨Kind.isTypeWord_of_isSpaced hk, typed_after hvs.typed⟩
  kept := by
    rw [List.map_cons, List.map_cons, Word.map_core_after]
    exact hvs.kept.keep w.core
  front := fun _ => rfl
  noResult := by
    rintro v hv
    cases hv
    exact hcolon

/-- Two pieces with a colon between them.  The first must have come to an end, since a result
keeps the parentheses of a callable. -/
theorem append_colon (hws : Written s old ws) (hended : Ended old ws) (hne : ws ≠ [])
    (hw : Token.Forms w.kind w.text ∧ w.kind ≠ .blank) (hcolon : w.kind = .colon)
    (hvs : Written t old' vs) (hne' : vs ≠ []) :
    Written (s ++ ':' :: ' ' :: t) (old ++ w :: old') (ws ++ w.flush :: after [' '] vs) := by
  have hspaced : w.kind.isSpaced = true := by rw [hcolon]; rfl
  have htext : w.text = [':'] := Token.eq_of_forms_symbol hw.1 (hcolon ▸ rfl)
  have hsource : Word.source (w.flush :: after [' '] vs) = ':' :: ' ' :: t := by
    simp [htext, Word.source_after hvs.flush hne', hvs.source]
  constructor
  case source => rw [Word.source_append, hws.source, hsource]
  case flush => exact hws.flush.append hne _
  case phrase =>
    refine hws.phrase.append (hvs.phrase.cons_after hvs.flush hne' hw (by simp) hspaced) ?_
    rw [hsource]
    intro c hc
    obtain rfl : ':' = c := by simpa using hc
    rfl
  case typed =>
    refine List.forall_mem_append.mpr ⟨hws.typed, List.forall_mem_cons.mpr ⟨?_, typed_after hvs.typed⟩⟩
    exact Kind.isTypeWord_of_isSpaced hspaced
  -- here the first piece is asked what it prints in front of a colon
  case kept =>
    simpa using hended (hvs.kept.keep w.core)
  case front => exact fun _ => hws.front_append hne _ _
  case noResult => exact hws.noResult_append hne _

/-- The end of a list, with the comma before it left out. -/
theorem append_end {m e : Word} (hws : Written s old ws) (hne : ws ≠ []) (hm : m.kind = .comma)
    (he : e.kind.endsList = true) (hend : Written t [e] [e.flush]) (hbreak : Breaks t) :
    Written (s ++ t) (old ++ [m, e]) (ws ++ [e.flush]) := by
  have hall := hws.append hend hne hbreak
  refine ⟨hall.source, hall.flush, hall.phrase, hall.typed, ?_, fun _ => hws.front_append hne _ _,
    hws.noResult_append hne _⟩
  rw [List.map_append, List.map_append]
  refine hws.kept.append (.comma hm he (.refl _)) ?_
  simp [Word.core, hm]

/-- A callable without parameters and result loses its parentheses. -/
theorem drop_parens {l r : Word} (h : Written s [w] [w.flush]) (hw : w.kind = .callable)
    (hl : l.kind = .lparen) (hr : r.kind = .rparen) : Written s [w, l, r] [w.flush] where
  source := h.source
  flush := h.flush
  phrase := h.phrase
  typed := h.typed
  kept := .parens hw hl hr (by simp) .nil
  front := h.front
  noResult := h.noResult

/-- A word that is not a colon ends a piece. -/
theorem ended_append {e : Word} (h : Written s old ws) (he : e.kind ≠ .colon) :
    Ended (old ++ [e]) (ws ++ [e.flush]) := by
  intro a b hab
  have := h.kept.append (hab.keep e.core) (by simpa [Word.core] using he)
  simpa using this

/-- An end is one also behind a word and a blank. -/
theorem ended_append_after {e : Word} (h : Written s old ws) (hvs : Ended old' vs)
    (he : e.kind ≠ .colon) : Ended (old ++ e :: old') (ws ++ e.flush :: after [' '] vs) := by
  intro a b hab
  have := h.kept.append ((hvs hab).keep e.core) (by simpa [Word.core] using he)
  simpa using this

/-- The end of a list is an end, also where the comma before it was left out. -/
theorem ended_append_end {m e : Word} (h : Written s old ws) (hm : m.kind = .comma)
    (he : e.kind.endsList = true) : Ended (old ++ [m, e]) (ws ++ [e.flush]) := by
  intro a b hab
  have := h.kept.append (Condensed.comma (m := m.core) hm he (hab.keep e.core))
    (by simp [Word.core, hm])
  simpa using this

end Written

end Docblock
