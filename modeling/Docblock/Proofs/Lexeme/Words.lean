import Docblock.Proofs.Token.Shape

/-!
# Words: a text as the parser sees it

The parser reads lexemes, and what it builds does not depend on where they stand.  A `Word` is a
lexeme without its position; `scan` gives the words of a text.

`Stands ws next` is the local condition under which the words `ws`, written one after another in
front of the character `next`, are read as these very words.  It is checked word by word, and it
splits over `++`, so the words of a text that was put together from parts are known once those of
the parts are.

- `exists_scan`: the words of a text stand in it.
- `scan_source_append`: words that stand in front of a text are its first words.
-/

namespace Docblock

/-! ## Section 1: Words and their source -/

/-- A lexeme without its position. -/
structure Word where
  kind : Kind
  text : Text
  gap : Text
  deriving DecidableEq, Repr

/-- The word that a lexeme is. -/
def Lexeme.word (t : Lexeme) : Word :=
  ⟨t.kind, t.text, t.gap⟩

/-- The words of some lexemes. -/
def Lexeme.words (ts : List Lexeme) : List Word :=
  ts.map Lexeme.word

namespace Lexeme

@[simp] theorem words_nil : words [] = [] := rfl

@[simp] theorem words_cons (t : Lexeme) (ts : List Lexeme) :
    words (t :: ts) = t.word :: words ts := rfl

@[simp] theorem words_append (ts us : List Lexeme) : words (ts ++ us) = words ts ++ words us := by
  simp [words]

@[simp] theorem length_words (ts : List Lexeme) : (words ts).length = ts.length := by
  simp [words]

@[simp] theorem word_kind (t : Lexeme) : t.word.kind = t.kind := rfl

@[simp] theorem word_text (t : Lexeme) : t.word.text = t.text := rfl

@[simp] theorem word_gap (t : Lexeme) : t.word.gap = t.gap := rfl

theorem words_eq_nil {ts : List Lexeme} : words ts = [] ↔ ts = [] := by
  simp [words]

/-- Words with a first one come from lexemes with a first one. -/
theorem words_eq_cons {ts : List Lexeme} {w : Word} {ws : List Word} :
    words ts = w :: ws ↔ ∃ t us, ts = t :: us ∧ t.word = w ∧ words us = ws := by
  simp [words, List.map_eq_cons_iff]

theorem words_eq_singleton {ts : List Lexeme} {w : Word} :
    words ts = [w] ↔ ∃ t, ts = [t] ∧ t.word = w := by
  simp [words, List.map_eq_cons_iff]

/-- Words that are cut come from lexemes that are cut at the same place. -/
theorem words_eq_append {ts : List Lexeme} {ws vs : List Word} :
    words ts = ws ++ vs ↔ ∃ us us', ts = us ++ us' ∧ words us = ws ∧ words us' = vs := by
  simp [words, List.map_eq_append_iff]

/-- Closing up a lexeme that has no gap changes nothing. -/
theorem closeUp_eq_self {t : Lexeme} (h : t.gap = []) : t.closeUp = t := by
  cases t
  simp_all [closeUp]

end Lexeme

namespace Word

open Lexeme (words)
open Token (Forms goesOn)

/-- The text that a list of words covers, blanks included. -/
def source (ws : List Word) : Text :=
  ws.flatMap fun w => w.gap ++ w.text

@[simp] theorem source_nil : source [] = [] := rfl

@[simp] theorem source_cons (w : Word) (ws : List Word) :
    source (w :: ws) = w.gap ++ (w.text ++ source ws) := by
  simp [source]

@[simp] theorem source_append (a b : List Word) : source (a ++ b) = source a ++ source b := by
  simp [source]

/-- Leaving out the positions does not change the text. -/
theorem source_words (ts : List Lexeme) : source (words ts) = Lexeme.source ts := by
  simp [source, words, Lexeme.source, List.flatMap_map]

/-! ## Section 2: Reading words off a text -/

/-- The words of a text; `gap` is what has been skipped before it. -/
def scan (gap s : Text) : List Word :=
  words (Lexeme.attachFrom gap (Token.tokensFrom .start s))

/-- A word that can stand in a text: it is one token, which is no blank, after blanks. -/
structure Sound (w : Word) : Prop where
  forms : Forms w.kind w.text
  solid : w.kind ≠ .blank
  blank : ∀ c ∈ w.gap, Text.isBlank c = true

/-- Words that stand one after another in a text, and are read as such: no word goes on in the
next.  `next` is the character that follows the last of them, if there is one. -/
def Stands : List Word → Option Char → Prop
  | [], _ => True
  | w :: ws, next =>
    w.Sound ∧ (∀ d ∈ (source ws).head?.or next, goesOn w.kind w.text d = false) ∧ Stands ws next

/-- Words that stand in a text are sound, one by one. -/
theorem Stands.sound {ws : List Word} {next : Option Char} (h : Stands ws next) :
    ∀ w ∈ ws, w.Sound := by
  induction ws with
  | nil => simp
  | cons w ws ih => exact List.forall_mem_cons.mpr ⟨h.1, ih h.2.2⟩

/-- The character that follows some texts and the one behind them all. -/
theorem head?_append_or (a b : Text) (next : Option Char) :
    (a ++ b).head?.or next = a.head?.or (b.head?.or next) := by
  cases a <;> simp

/-- Words stand in a text if the first of them stand in front of the others, and these in front of
what comes next. -/
theorem stands_append {a b : List Word} {next : Option Char} :
    Stands (a ++ b) next ↔ Stands a ((source b).head?.or next) ∧ Stands b next := by
  induction a with
  | nil => simp [Stands]
  | cons w a ih =>
    -- each word looks at the first character behind it, which may lie in the second part
    simp only [List.cons_append, Stands, source_append, head?_append_or, ih]
    tauto

/-! ## Section 3: Words that stand are the words that are read -/

/-- The positions of the tokens do not matter to their words. -/
theorem words_attachFrom_tokensFrom (gap : Text) (p q : Position) (s : Text) :
    words (Lexeme.attachFrom gap (Token.tokensFrom p s)) =
      words (Lexeme.attachFrom gap (Token.tokensFrom q s)) := by
  -- over the length of the text, since the tokens have different lengths
  induction hn : s.length using Nat.strong_induction_on generalizing gap p q s with
  | _ n ih =>
    by_cases hs : s = []
    · simp [hs, Token.tokensFrom_nil]
    · obtain ⟨k, t, rest, rfl, ht, hforms, hgo⟩ := Token.exists_forms hs
      have hlt : rest.length < n := by
        have := List.length_pos_of_ne_nil ht
        simp at hn
        omega
      rw [Token.tokensFrom_append hforms hgo, Token.tokensFrom_append hforms hgo]
      unfold Lexeme.attachFrom
      split
      · -- a blank goes into the gap, with no word for it
        exact ih _ hlt _ _ _ _ rfl
      · simp only [Lexeme.words_cons]
        rw [ih _ hlt _ _ (q.advance t) _ rfl]
        rfl

@[simp] theorem scan_nil (gap : Text) : scan gap [] = [] := by
  simp [scan, Token.tokensFrom_nil, Lexeme.attachFrom]

theorem words_ofText (s : Text) : words (Lexeme.ofText s) = scan [] s := rfl

/-- A token that does not go on is the first word, and reading begins anew behind it. -/
theorem scan_token {k : Kind} {t s : Text} (h : Forms k t) (hk : k ≠ .blank)
    (hgo : ∀ d ∈ s.head?, goesOn k t d = false) (gap : Text) :
    scan gap (t ++ s) = ⟨k, t, gap⟩ :: scan [] s := by
  unfold scan
  rw [Token.tokensFrom_append h hgo, Lexeme.attachFrom, if_neg hk, Lexeme.words_cons,
    words_attachFrom_tokensFrom _ _ .start]
  rfl

/-- Blanks that end before the text are put into the gap of its first word. -/
theorem scan_blanks {b s : Text} (hb : ∀ c ∈ b, Text.isBlank c = true)
    (hs : ∀ d ∈ s.head?, Text.isBlank d = false) (gap : Text) :
    scan gap (b ++ s) = scan (gap ++ b) s := by
  cases b with
  | nil => simp
  | cons c b =>
    -- a run of blanks is a single token, and it is skipped
    have hforms : Forms .blank (c :: b) := Token.forms_blank hb
    unfold scan
    rw [Token.tokensFrom_append hforms hs, Lexeme.attachFrom, if_pos rfl,
      words_attachFrom_tokensFrom _ _ .start]

/-- A token after some blanks is the first word of a text. -/
theorem scan_word {k : Kind} {t b s : Text} (h : Forms k t) (hk : k ≠ .blank)
    (hb : ∀ c ∈ b, Text.isBlank c = true) (hgo : ∀ d ∈ s.head?, goesOn k t d = false) :
    scan [] (b ++ (t ++ s)) = ⟨k, t, b⟩ :: scan [] s := by
  have hhead : ∀ d ∈ (t ++ s).head?, Text.isBlank d = false := by
    rw [List.head?_append_of_ne_nil _ (Token.forms_ne_nil h)]
    exact Token.isBlank_head_of_forms h hk
  rw [scan_blanks hb hhead, scan_token h hk hgo]
  rfl

/-- Words that stand in front of a text are the first words of the whole. -/
theorem scan_source_append {ws : List Word} {s : Text} (h : Stands ws s.head?) :
    scan [] (source ws ++ s) = ws ++ scan [] s := by
  induction ws with
  | nil => simp
  | cons w ws ih =>
    -- over the words: the first one is read off, and the others stand behind it
    obtain ⟨hw, hgo, hws⟩ := h
    rw [source_cons, List.append_assoc, List.append_assoc,
      scan_word hw.forms hw.solid hw.blank (by rwa [List.head?_append]), ih hws]
    rfl

/-- The words of a text cover it up to the blanks at its end, and stand there one after another. -/
theorem exists_scan (s : Text) :
    ∃ tail, s = source (scan [] s) ++ tail ∧ Stands (scan [] s) tail.head? ∧
      ∀ c ∈ tail, Text.isBlank c = true := by
  induction hn : s.length using Nat.strong_induction_on generalizing s with
  | _ n ih =>
    -- first the blanks at the front, then one token
    obtain ⟨b, s', rfl, hb, hs'⟩ : ∃ b s', s = b ++ s' ∧ (∀ c ∈ b, Text.isBlank c = true) ∧
        ∀ d ∈ s'.head?, Text.isBlank d = false := by
      refine ⟨s.takeWhile Text.isBlank, s.dropWhile Text.isBlank,
        List.takeWhile_append_dropWhile.symm, fun c hc => List.mem_takeWhile_imp hc, ?_⟩
      have := List.head?_dropWhile_not Text.isBlank s
      intro d hd
      rw [Option.mem_def.mp hd] at this
      simpa using this
    rw [scan_blanks hb hs', List.nil_append]
    by_cases hnil : s' = []
    · -- only blanks are left, and no word comes of them
      subst hnil
      exact ⟨b, by simp, by simp [Stands], hb⟩
    · obtain ⟨k, t, rest, rfl, ht, hforms, hgo⟩ := Token.exists_forms hnil
      -- all blanks are in `b`, so this token is a word
      have hk : k ≠ .blank := by
        rintro rfl
        cases Token.shape_of_forms hforms with
        | symbol h => simp [Kind.symbol?] at h
        | @blank c r h => simpa [h c] using hs' c (by simp)
      have hlt : rest.length < n := by
        have := List.length_pos_of_ne_nil ht
        simp at hn
        omega
      obtain ⟨tail, hrest, hstands, htail⟩ := ih _ hlt rest rfl
      rw [scan_token hforms hk hgo]
      refine ⟨tail, ?_, ?_, htail⟩
      · rw [source_cons, List.append_assoc, List.append_assoc, ← hrest]
      · refine ⟨⟨hforms, hk, hb⟩, ?_, hstands⟩
        rwa [← List.head?_append, ← hrest]

/-- Words that make up a whole text are its words. -/
theorem scan_source {ws : List Word} (h : Stands ws none) : scan [] (source ws) = ws := by
  have := scan_source_append (s := []) h
  simpa using this

/-- A word takes at least one character. -/
theorem source_ne_nil {w : Word} {ws : List Word} {next : Option Char}
    (h : Stands (w :: ws) next) : source (w :: ws) ≠ [] := by
  rw [source_cons]
  have := Token.forms_ne_nil h.1.forms
  simp [this]

/-- Whether words stand in front of a character is decided by the last of them. -/
theorem Stands.of_last {ws : List Word} {next next' : Option Char} (h : Stands ws next)
    (hlast : ∀ w ∈ ws.getLast?, ∀ d ∈ next', Token.goesOn w.kind w.text d = false) :
    Stands ws next' := by
  induction ws with
  | nil => trivial
  | cons w ws ih =>
    obtain ⟨hw, hgo, hws⟩ := h
    -- all words but the last stand in front of another word
    cases ws with
    | nil => exact ⟨hw, by simpa using hlast w, trivial⟩
    | cons v ws =>
      refine ⟨hw, ?_, ih hws (by simpa using hlast)⟩
      obtain ⟨c, s, hs⟩ := List.exists_cons_of_ne_nil (source_ne_nil hws)
      simpa [hs] using hgo

/-- There are no words in blanks. -/
theorem scan_of_blanks {b : Text} (hb : ∀ c ∈ b, Text.isBlank c = true) (gap : Text) :
    scan gap b = [] := by
  have := scan_blanks hb (show ∀ d ∈ ([] : Text).head?, Text.isBlank d = false by simp) gap
  simpa using this

/-- Words that cover a text up to some blanks are its words. -/
theorem scan_eq {ws : List Word} {tail : Text} (h : Stands ws tail.head?)
    (htail : ∀ c ∈ tail, Text.isBlank c = true) : scan [] (source ws ++ tail) = ws := by
  rw [scan_source_append h, scan_of_blanks htail, List.append_nil]

end Word

end Docblock
