import Docblock.Proofs.Comment.Fields
import Docblock.Proofs.Lexeme.Respacing

/-!
# Free text on a line

Descriptions and lines of text are kept as they are, less the white space at their ends.  In plain
text, where that white space is made up of blanks, the words of such a text are alike before and
after printing (`alike_restOfLine`), and so they are taken for the same thing.

A tag without a structure is cut by characters rather than by words: `read_unstructured` says what
it is in terms of the text after its name.
-/

namespace Docblock

open Lexeme (words)
open Reader
open Text (Blanks Plain)
open Word (source scan Stands after Like Alike)

/-! ## Section 1: Lexemes on a line -/

/-- Lexemes that stand one after another on a line of a comment. -/
structure OnLine (ts : List Lexeme) : Prop where
  stands : Stands (words ts) none
  within : ∀ t ∈ ts, t.kind ≠ .newline ∧ t.kind ≠ .closeDoc

namespace OnLine

variable {ts rest : List Lexeme} {ws : List Word} {t : Lexeme}

theorem passes (h : OnLine ts) (hpass : Passes ts ws rest) : OnLine rest where
  stands := hpass.stands h.stands
  within := (hpass.forall_words (P := fun k _ => k ≠ .newline ∧ k ≠ .closeDoc) h.within).2

theorem tail (h : OnLine (t :: ts)) : OnLine ts where
  stands := h.stands.2.2
  within := fun u hu => h.within u (List.mem_cons_of_mem t hu)

theorem dropMarker (h : OnLine ts) : OnLine (Line.dropMarker ts) := by
  unfold Line.dropMarker
  split
  · split
    · exact h.tail
    · exact h
  · exact h

theorem scan_source (h : OnLine ts) : scan [] (Lexeme.source ts) = words ts := by
  rw [← Word.source_words]
  exact Word.scan_source h.stands

end OnLine

/-- The characters of some lexemes are those of their texts, and blanks. -/
theorem mem_source {ws : List Word} {next : Option Char} (h : Stands ws next) {c : Char}
    (hc : c ∈ source ws) : Text.isBlank c = true ∨ ∃ w ∈ ws, c ∈ w.text := by
  induction ws with
  | nil => cases hc
  | cons w ws ih =>
    rw [Word.source_cons, List.mem_append, List.mem_append] at hc
    -- in the gap, in the text, or further on
    rcases hc with hc | hc | hc
    · exact .inl (h.1.blank c hc)
    · exact .inr ⟨w, List.mem_cons_self, hc⟩
    · rcases ih h.2.2 hc with hblank | ⟨v, hv, hmem⟩
      · exact .inl hblank
      · exact .inr ⟨v, List.mem_cons_of_mem w hv, hmem⟩

/-- The source of a line has no line break: a line break is a token of its own. -/
theorem OnLine.not_mem_newline {ts : List Lexeme} (h : OnLine ts) : '\n' ∉ Lexeme.source ts := by
  intro hmem
  rw [← Word.source_words] at hmem
  rcases mem_source h.stands hmem with hblank | ⟨w, hw, hmem⟩
  · cases hblank
  · obtain ⟨t, ht, rfl⟩ := List.mem_map.mp hw
    have hforms := (genuine_of_stands h.stands _ hw).1
    exact Token.not_mem_newline_of_forms hforms (h.within t ht).1 hmem

/-- The source of a line is plain if its words are. -/
theorem OnLine.plain_source {ts : List Lexeme} (h : OnLine ts) (hplain : ∀ t ∈ ts, Plain t.text) :
    Plain (Lexeme.source ts) := by
  intro c hc hspace
  rw [← Word.source_words] at hc
  -- gaps are spaces and tabs
  rcases mem_source h.stands hc with hblank | ⟨w, hw, hmem⟩
  · rcases Token.isBlank_iff.mp hblank with rfl | rfl
    · exact .inl rfl
    · exact .inr (.inl rfl)
  · obtain ⟨t, ht, rfl⟩ := List.mem_map.mp hw
    exact hplain t ht c hmem hspace

/-! ## Section 2: What is left of a line -/

theorem trim_source_scan (s : Text) : Text.trim (source (scan [] s)) = Text.trim s := by
  obtain ⟨tail, hs, -, htail⟩ := Word.exists_scan s
  have := Text.trim_append_space (a := []) (by simp) (source (scan [] s))
    (show ∀ c ∈ tail, Text.isSpace c = true from Blanks.isSpace htail)
  rw [List.nil_append, ← hs] at this
  exact this.symm

/-- Blanks in front of a text go to its first word. -/
theorem scan_blanks_after {b s : Text} (hb : Blanks b)
    (hs : ∀ d ∈ s.head?, Text.isBlank d = false) : scan [] (b ++ s) = after b (scan [] s) := by
  -- blanks alone leave no word
  by_cases hnil : s = []
  · subst hnil
    rw [List.append_nil, Word.scan_of_blanks hb, Word.scan_nil]
    rfl
  · obtain ⟨k, t, rest, rfl, -, hforms, hgo⟩ := Token.exists_forms hnil
    have hk : k ≠ .blank := by
      rintro rfl
      cases Token.shape_of_forms hforms with
      | symbol h => cases h
      | @blank c r h => simpa [h c] using hs c
    rw [Word.scan_blanks hb hs, Word.scan_token hforms hk hgo, Word.scan_token hforms hk hgo]
    rfl

theorem map_kind_after (gap : Text) (ws : List Word) :
    (after gap ws).map Word.kind = ws.map Word.kind := by
  cases ws <;> rfl

/-- The rest of a line reads alike when it is set between other blanks. -/
theorem alike_restOfLine {ts : List Lexeme} (h : OnLine ts) (hplain : ∀ t ∈ ts, Plain t.text)
    {b e : Text} (hb : Blanks b) (he : Blanks e) :
    ∃ us us' a, words ts = after a us ∧ scan [] (b ++ (restOfLine ts ++ e)) = after b us' ∧
      Alike us us' := by
  obtain ⟨a, z, hsource, ha, hz⟩ :=
    Text.exists_trim_of_plain (h.plain_source hplain) h.not_mem_newline
  rw [show Text.trim (Lexeme.source ts) = restOfLine ts from rfl] at hsource
  have htrimmed : Text.Trimmed (restOfLine ts) := Text.trimmed_trim _
  -- a line with nothing left on it has blanks only
  by_cases hnil : restOfLine ts = []
  · refine ⟨[], [], a, ?_, ?_, .nil⟩
    · rw [← h.scan_source, hsource, hnil, Word.after_nil]
      exact Word.scan_of_blanks (List.forall_mem_append.mpr ⟨ha, hz⟩) []
    · rw [hnil, Word.after_nil]
      exact Word.scan_of_blanks (List.forall_mem_append.mpr ⟨hb, he⟩) []
  · -- otherwise the trimmed text begins with a word
    have hhead (x : Text) : ∀ d ∈ (restOfLine ts ++ x).head?, Text.isBlank d = false := by
      intro d hd
      rw [List.head?_append_of_ne_nil _ hnil] at hd
      by_contra hblank
      rw [Bool.not_eq_false] at hblank
      have := htrimmed.front d hd
      rw [Text.isSpace_of_isBlank hblank] at this
      cases this
    refine ⟨scan [] (restOfLine ts ++ z), scan [] (restOfLine ts ++ e), a, ?_, ?_, ?_⟩
    · rw [← h.scan_source, hsource]
      exact scan_blanks_after ha (hhead z)
    · exact scan_blanks_after hb (hhead e)
    · exact (Word.alike_append_blanks hz _).symm.trans (Word.alike_append_blanks he _)

/-- In particular its words are of the same kinds. -/
theorem map_kind_restOfLine {ts : List Lexeme} (h : OnLine ts) (hplain : ∀ t ∈ ts, Plain t.text)
    {b e : Text} (hb : Blanks b) (he : Blanks e) :
    (scan [] (b ++ (restOfLine ts ++ e))).map Word.kind = ts.map (·.kind) := by
  obtain ⟨us, us', a, hts, hscan, halike⟩ := alike_restOfLine h hplain hb he
  have hkinds : (words ts).map Word.kind = ts.map (·.kind) := by
    simp [words, Function.comp_def]
  rw [hscan, ← hkinds, hts, map_kind_after, map_kind_after, halike.map_kind]

/-- What goes on with a tree does so alike. -/
theorem clear_of_alike {js : List Joint} {us us' : List Word} (h : Alike us us') {a b : Text}
    (hclear : Clear js (after a us)) : Clear js (after b us') := by
  intro j hj
  have hmeets := hclear j hj
  cases h with
  | nil => exact clear_nil_right js j hj
  | @cons w w' _ _ hw hrest =>
    cases j with
    -- a kind is the same in words that are alike
    | word kind =>
      simp only [Word.after_cons, Joint.meets] at hmeets ⊢
      rwa [hw.kind]
    -- an `&` is told by the word behind it and by whether there is a gap
    | amp =>
      cases hrest with
      | nil => rfl
      | @cons v v' _ _ hv _ =>
        have hgap : v'.gap.isEmpty = v.gap.isEmpty := by
          rw [Bool.eq_iff_iff, List.isEmpty_iff, List.isEmpty_iff]
          exact hv.gap
        simp only [Word.after_cons, Joint.meets] at hmeets ⊢
        rwa [hw.kind, hv.kind, hgap]

/-- The word in front of a bound is an identifier, and alike words have its text. -/
theorem isBound_of_alike {us us' : List Word} (h : Alike us us') {a b : Text}
    (hbound : (after a us).head?.any Word.isBound = false) :
    (after b us').head?.any Word.isBound = false := by
  cases h with
  | nil => rfl
  | @cons w w' _ _ hw _ =>
    simp only [Word.after_cons, List.head?_cons, Option.any_some, Word.isBound] at hbound ⊢
    by_cases hident : w.kind = .ident
    · rwa [hw.kind, hw.text (by simp [hident]) (by simp [hident])]
    · simp [hw.kind, hident]

/-- What may follow the fields of a tag is told by the kinds of the words and by an identifier. -/
theorem Tag.SpelledFields.stop_of_alike {depth : Nat} {keyword : Keyword} {mk : Text → Tag}
    {ws : List Word} {stop : List Word → Prop} (h : Tag.SpelledFields depth keyword mk ws stop)
    {us us' : List Word}
    (halike : Alike us us') {a b : Text} (hstop : stop (after a us)) : stop (after b us') := by
  cases h with
  | param | typed | method | var | bound | «alias» => exact clear_of_alike halike hstop
  | property | varNamed => trivial
  | template => exact isBound_of_alike halike hstop

/-! ## Section 3: Tags without a structure -/

namespace Tag

/-- What is glued to a name is cut at the first character that ends a name. -/
theorem gluedName_eq {ts : List Lexeme} (hgap : ∀ t ∈ ts, Blanks t.gap) :
    (gluedName ts).1 = (Lexeme.source ts).takeWhile (!endsName ·) ∧
      (gluedName ts).2.1 ++ Lexeme.source (gluedName ts).2.2 =
        (Lexeme.source ts).dropWhile (!endsName ·) := by
  have hsource (t : Lexeme) (rest : List Lexeme) (h : t.isGlued = true) :
      Lexeme.source (t :: rest) = t.text ++ Lexeme.source rest := by
    have : t.gap = [] := by simpa [Lexeme.isGlued] using h
    simp [Lexeme.source, this]
  fun_induction gluedName ts with
  | case1 => exact ⟨rfl, rfl⟩
  | case2 t rest hglued name hdrop more surplus rest' hrec ih =>
    -- the whole lexeme belongs to the name
    obtain ⟨ih₁, ih₂⟩ := ih fun u hu => hgap u (List.mem_cons_of_mem t hu)
    have hall : ∀ c ∈ t.text, (!endsName c) = true := List.dropWhile_eq_nil_iff.mp hdrop
    have hname : name = t.text := List.takeWhile_eq_self_iff.mpr hall
    rw [hrec] at ih₁ ih₂
    rw [hsource t rest hglued, List.takeWhile_append_of_pos hall, List.dropWhile_append_of_pos hall,
      hname]
    exact ⟨congrArg (t.text ++ ·) ih₁, ih₂⟩
  | case3 t rest hglued name hdrop =>
    -- the name ends inside the lexeme
    rw [hsource t rest hglued, List.takeWhile_append, List.dropWhile_append, if_neg, if_neg]
    · exact ⟨rfl, rfl⟩
    · simpa [List.isEmpty_iff] using hdrop
    · intro hlen
      apply hdrop
      have := (List.takeWhile_prefix (fun x => !endsName x) (l := t.text)).eq_of_length hlen
      exact List.dropWhile_eq_nil_iff.mpr (List.takeWhile_eq_self_iff.mp this)
  | case4 t rest hglued =>
    -- a gap ends the name
    -- the gap is not empty, and a blank ends the name
    obtain ⟨c, gap, hc⟩ : ∃ c gap, t.gap = c :: gap :=
      List.exists_cons_of_ne_nil (by simpa [Lexeme.isGlued] using hglued)
    have hblank : Text.isBlank c = true := hgap t List.mem_cons_self c (by simp [hc])
    have hends : endsName c = true := by simp [endsName, hblank]
    have hfront : Lexeme.source (t :: rest) = c :: (gap ++ t.text ++ Lexeme.source rest) := by
      simp [Lexeme.source, hc]
    rw [hfront, List.takeWhile_cons_of_neg (by simp [hends]),
      List.dropWhile_cons_of_neg (by simp [hends]), ← hfront]
    exact ⟨rfl, rfl⟩

/-- The tag without a structure whose name begins with `name`, before the given text. -/
def cut (name rest : Text) : Tag :=
  .other (name ++ rest.takeWhile (!endsName ·)) (Text.trim (rest.dropWhile (!endsName ·)))

/-- A tag whose name goes on, or is no keyword, has no structure. -/
theorem read_unstructured {t : Lexeme} {rest : List Lexeme} (hrest : Stands (words rest) none)
    (h : rest.head?.any Lexeme.isGlued = true ∨ Keyword.ofText? t.text.tail = none) :
    Tag.read t rest = .ok (cut t.text.tail (Lexeme.source rest)) := by
  have hgap : ∀ u ∈ rest, Blanks u.gap := by
    intro u hu
    exact (hrest.sound _ (List.mem_map_of_mem hu)).blank
  -- cutting the source is taking the glued lexemes
  obtain ⟨hname, hdesc⟩ := gluedName_eq hgap
  unfold Tag.read cut
  rw [← hname, ← hdesc]
  simp only
  split
  · rfl
  · -- nothing is glued to the name, so the name is not a keyword
    next hglued =>
    have hnone : gluedName rest = ([], [], rest) := by
      cases rest with
      | nil => rfl
      | cons u rest =>
        have : u.isGlued = false := by simpa using hglued
        simp [gluedName, this]
    rw [h.resolve_left hglued, hnone, List.append_nil]
    rfl

/-- Otherwise it is read by its keyword. -/
theorem read_structured {t : Lexeme} {rest : List Lexeme}
    (hglued : rest.head?.any Lexeme.isGlued = false) {keyword : Keyword}
    (hkeyword : Keyword.ofText? t.text.tail = some keyword) :
    Tag.read t rest = readStructured keyword rest := by
  simp [Tag.read, hglued, hkeyword]

/-- A tag that is read has no structure, or that of its keyword. -/
theorem read_eq_ok {t : Lexeme} {rest : List Lexeme} {tag : Tag} (hrest : Stands (words rest) none)
    (h : Tag.read t rest = .ok tag) :
    ((rest.head?.any Lexeme.isGlued = true ∨ Keyword.ofText? t.text.tail = none) ∧
      tag = cut t.text.tail (Lexeme.source rest)) ∨
    ∃ keyword, Keyword.ofText? t.text.tail = some keyword ∧
      readStructured keyword rest = .ok tag := by
  -- either any text is taken, or the keyword stands alone and is known
  by_cases hun : rest.head?.any Lexeme.isGlued = true ∨ Keyword.ofText? t.text.tail = none
  · rw [read_unstructured hrest hun] at h
    exact .inl ⟨hun, (Except.ok.inj h).symm⟩
  · rw [not_or] at hun
    obtain ⟨keyword, hkeyword⟩ := Option.ne_none_iff_exists'.mp hun.2
    rw [read_structured (by simpa using hun.1) hkeyword] at h
    exact .inr ⟨keyword, hkeyword, h⟩

end Tag

theorem Keyword.text_of_ofText? {s : Text} {keyword : Keyword}
    (h : Keyword.ofText? s = some keyword) : keyword.text = s := by
  simpa using List.find?_some h

theorem Keyword.ofText?_text (keyword : Keyword) : Keyword.ofText? keyword.text = some keyword := by
  rcases keyword with _ | k | a | _ | _ | _ | _
  case typed => cases k <;> rfl
  case property => cases a <;> rfl
  all_goals rfl

/-! ## Section 4: Lines -/

/-- What the lexemes after the marker of a line are: a tag, or free text. -/
inductive ReadsAs : List Lexeme → Line → Prop where
  | tag {t : Lexeme} {rest : List Lexeme} {tag : Tag} (ht : t.kind = .tag)
      (h : Tag.read t rest = .ok tag) : ReadsAs (t :: rest) (.tag tag)
  | text {ts : List Lexeme} (h : ∀ t ∈ ts.head?, t.kind ≠ .tag) :
      ReadsAs ts (.text (restOfLine ts))

theorem Line.read_eq_ok_iff {line : SourceLine} {l : Line} :
    Line.read line = .ok l ↔ ReadsAs (Line.dropMarker line.words) l := by
  unfold Line.read
  cases hts : Line.dropMarker line.words with
  -- an empty line is free text
  | nil =>
    constructor
    · intro h
      cases h
      exact @ReadsAs.text [] (by simp)
    · intro h
      cases h with
      | text => rfl
  -- the first lexeme decides whether the line is a tag
  | cons t rest =>
    simp only
    constructor
    · intro h
      split at h
      · next ht =>
        split at h
        · next tag hread =>
          cases h
          exact .tag ht hread
        · cases h
      · next ht =>
        cases h
        exact .text (by simpa using ht)
    · intro h
      cases h with
      | tag ht h => rw [if_pos ht, h]
      | text h => rw [if_neg (h t rfl)]

end Docblock
