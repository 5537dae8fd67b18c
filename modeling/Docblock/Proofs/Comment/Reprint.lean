import Docblock.Proofs.Comment.Pieces

/-!
# Lines read back from their rows

In plain text, a line that was read is read again, as the same line, from its aligned and trimmed
row, whatever blanks are set before and after the row.  There is one exception, the tags that run
on: their fields end in `callable`, and their description begins with a parenthesis.

- `reads_text`, `reads_unstructured`, `reads_structured`: the three kinds of line.
- `reads_row`: all lines.
-/

namespace Docblock

open Lexeme (words words_eq_cons words_eq_append)
open Row (Padded Spread Solid)
open Text (Blanks Plain EndsOff isSpace trimmed_trim)
open Word (source scan Stands after Alike)

/-! ## Section 1: Reading back -/

/-- A description that would be read as going on with the fields of its tag. -/
def Tag.runsOn (t : Tag) : Bool :=
  t.endsInCallable && t.desc.head? == some '('

/-- A line that is a tag which runs on. -/
def Line.runsOn : Line → Bool
  | .text _ => false
  | .tag t => t.runsOn

/-- Words of one line that are read as the line `l`. -/
def ReadBack (ws : List Word) (l : Line) : Prop :=
  (∀ w ∈ ws, w.kind ≠ .closeDoc) ∧ ∀ us, words us = ws → ReadsAs us l

/-! ## Section 2: Free text -/

variable {ts : List Lexeme} {b e r : Text}

theorem restOfLine_of_scan {us : List Lexeme} {d : Text} (hd : Text.Trimmed d) (hb : Blanks b)
    (he : Blanks e) (hus : words us = scan [] (b ++ (d ++ e))) : restOfLine us = d := by
  rw [restOfLine, ← Word.source_words, hus, trim_source_scan]
  exact Text.trim_append hb.isSpace hd he.isSpace

/-- Words of the kinds on a line have no closing delimiter among them. -/
theorem not_closeDoc_of_map_kind {ws : List Word} {ts : List Lexeme} (hts : OnLine ts)
    (h : ws.map Word.kind = ts.map (·.kind)) : ∀ w ∈ ws, w.kind ≠ .closeDoc := by
  intro w hw
  have hmem : w.kind ∈ ts.map (·.kind) := by
    rw [← h]
    exact List.mem_map_of_mem hw
  obtain ⟨t, ht, hkind⟩ := List.mem_map.mp hmem
  rw [← hkind]
  exact (hts.within t ht).2

/-- A line of free text reads back from its row. -/
theorem reads_text (hts : OnLine ts) (hplain : ∀ t ∈ ts, Plain t.text)
    (hfirst : ∀ t ∈ ts.head?, t.kind ≠ .tag) (hrow : (Line.text (restOfLine ts)).PrintsAs r)
    (hb : Blanks b) (he : Blanks e) :
    ReadBack (scan [] (b ++ (r ++ e))) (.text (restOfLine ts)) := by
  have hd : Text.Trimmed (restOfLine ts) := Text.trimmed_trim _
  -- free text is printed as it is
  obtain rfl : r = restOfLine ts := by
    obtain ⟨laid, hlaid, rfl⟩ := hrow
    cases hlaid
    exact Text.trimLine_eq_self (Text.endsOff_isBlank hd.back)
  have hkinds := map_kind_restOfLine hts hplain hb he
  refine ⟨not_closeDoc_of_map_kind hts hkinds, ?_⟩
  intro us hus
  rw [← restOfLine_of_scan hd hb he hus]
  refine .text ?_
  intro u hu
  -- the first word is of the same kind as before
  rw [← hus] at hkinds
  have hhead := congrArg List.head? hkinds
  simp only [words, List.map_map, List.head?_map, Option.mem_def.mp hu] at hhead
  cases hts' : ts.head? with
  | none => simp [hts'] at hhead
  | some t =>
    have hkind : u.kind = t.kind := by simpa [hts'] using hhead
    rw [hkind]
    exact hfirst t hts'

/-! ## Section 3: Tags without a structure -/

/-- Dropping stops in front of what does not have the property. -/
theorem dropWhile_append_of_head {P : Char → Bool} {x s : Text} (hs : ∀ d ∈ s.head?, P d = false) :
    (x ++ s).dropWhile P = x.dropWhile P ++ s := by
  induction x with
  | nil =>
    cases s with
    | nil => rfl
    | cons d s => simp [hs d rfl]
  | cons d x ih => cases hd : P d <;> simp [hd, ih]

theorem Tag.endsName_of_isBlank {c : Char} (h : Text.isBlank c = true) : Tag.endsName c = true := by
  simp [Tag.endsName, h]

theorem Tag.isSpace_of_endsName {c : Char} (h : Tag.endsName c = true) : isSpace c = true := by
  simp only [Tag.endsName, Bool.or_eq_true, beq_iff_eq] at h
  rcases h with h | rfl
  · exact Text.isSpace_of_isBlank h
  · decide

/-- White space at the end of a line does not count, if it begins with what ends a name. -/
theorem Tag.cut_append_space (name x : Text) {e : Text} (hhead : ∀ d ∈ e.head?, Tag.endsName d = true)
    (he : ∀ c ∈ e, isSpace c = true) : Tag.cut name (x ++ e) = Tag.cut name x := by
  have hstop : ∀ d ∈ e.head?, (!Tag.endsName d) = false := by
    intro d hd
    simp [hhead d hd]
  have htrim := Text.trim_append_space (a := []) (by simp) (x.dropWhile (!Tag.endsName ·)) he
  unfold Tag.cut
  rw [Token.takeWhile_append_of_head hstop, dropWhile_append_of_head hstop, ← htrim, List.nil_append]

theorem Tag.cut_source_scan (name x : Text) : Tag.cut name (source (scan [] x)) = Tag.cut name x := by
  obtain ⟨tail, hx, -, htail⟩ := Word.exists_scan x
  conv_rhs => rw [hx]
  rw [Tag.cut_append_space name _ _ (Blanks.isSpace htail)]
  intro d hd
  exact Tag.endsName_of_isBlank (htail d (List.mem_of_mem_head? hd))

/-- A name and a description that are set apart are found again. -/
theorem Tag.cut_append {name more y d : Text} (hmore : ∀ c ∈ more, Tag.endsName c = false)
    (hy : ∀ c ∈ y.head?, Text.isBlank c = true) (htrim : Text.trim y = d) :
    Tag.cut name (more ++ y) = .other (name ++ more) d := by
  have hall : ∀ c ∈ more, (!Tag.endsName c) = true := by simpa using hmore
  have hstop : ∀ c ∈ y.head?, (!Tag.endsName c) = false := by
    intro c hc
    simp [Tag.endsName_of_isBlank (hy c hc)]
  -- the name takes all of `more` and stops at the blank
  have hdrop : more.dropWhile (!Tag.endsName ·) = [] := List.dropWhile_eq_nil_iff.mpr hall
  have htake : more.takeWhile (!Tag.endsName ·) = more := List.takeWhile_eq_self_iff.mpr hall
  unfold Tag.cut
  rw [Token.takeWhile_append_of_head hstop, dropWhile_append_of_head hstop, hdrop, htake,
    List.nil_append, htrim]

/-- The words after the name of a tag are alike before and after printing. -/
theorem map_kind_unstructured {rest : List Lexeme} (hrest : OnLine rest)
    (hplain : ∀ u ∈ rest, Plain u.text) {y : Text}
    (hy : Spread ([Text.trim ((Lexeme.source rest).dropWhile (!Tag.endsName ·))].filter
      (!·.isEmpty)) y) (he : Blanks e) :
    (scan [] ((Lexeme.source rest).takeWhile (!Tag.endsName ·) ++ (y ++ e))).map Word.kind =
      rest.map (·.kind) := by
  -- the source is cut behind what is glued to the name
  generalize hmore : (Lexeme.source rest).takeWhile (!Tag.endsName ·) = more
  generalize hdrop : (Lexeme.source rest).dropWhile (!Tag.endsName ·) = x at hy
  have hsource : Lexeme.source rest = more ++ x := by
    rw [← hmore, ← hdrop, List.takeWhile_append_dropWhile]
  have hx : Plain x ∧ '\n' ∉ x := by
    have hp := hrest.plain_source hplain
    have hn := hrest.not_mem_newline
    rw [hsource] at hp hn
    exact ⟨fun c hc => hp c (List.mem_append_right more hc),
      fun hc => hn (List.mem_append_right more hc)⟩
  obtain ⟨a, z, hx', ha, hz⟩ := Text.exists_trim_of_plain hx.1 hx.2
  have hold : Alike (scan [] (more ++ x)) (scan [] (more ++ (y ++ e))) := by
    rcases spread_desc hy with ⟨hd, rfl⟩ | ⟨b, hb, hbne, hd, rfl⟩
    · -- there is no description: blanks at most follow the name
      rw [hx', hd]
      exact (Word.alike_append_blanks (List.forall_mem_append.mpr ⟨ha, hz⟩) more).symm.trans
        (Word.alike_append_blanks he more)
    · -- a blank ends the name, so some blanks stand before the description
      have hane : a ≠ [] := by
        rintro rfl
        obtain ⟨c, d', hc⟩ := List.exists_cons_of_ne_nil hd
        have hfront : isSpace c = false := (trimmed_trim x).front c (by rw [hc]; rfl)
        have hends := List.head?_dropWhile_not (!Tag.endsName ·) (Lexeme.source rest)
        rw [hdrop, hx', hc] at hends
        rw [Tag.isSpace_of_endsName (by simpa using hends)] at hfront
        cases hfront
      -- drop the blanks at the end, change those in the middle, and put others at the end
      have hfirst : Alike (scan [] (more ++ x)) (scan [] (more ++ (a ++ Text.trim x))) := by
        have := Word.alike_append_blanks hz (more ++ (a ++ Text.trim x))
        rw [List.append_assoc, List.append_assoc, ← hx'] at this
        exact this.symm
      have hlast := Word.alike_append_blanks he (more ++ (b ++ Text.trim x))
      have hmiddle : Alike (scan [] (more ++ (a ++ Text.trim x)))
          (scan [] (more ++ (b ++ Text.trim x))) := Word.alike_resize ha hane hb hbne Iff.rfl
      rw [List.append_assoc] at hlast
      exact (hfirst.trans hmiddle).trans hlast
  have hwords := hold.map_kind
  rw [← hsource, hrest.scan_source] at hwords
  rw [hwords]
  simp [words, Function.comp_def]

/-- In plain text, what is glued to a name goes on with it. -/
theorem takeWhile_ne_nil_of_glued {rest : List Lexeme} (hrest : OnLine rest)
    (hplain : ∀ u ∈ rest, Plain u.text) (h : rest.head?.any Lexeme.isGlued = true) :
    (Lexeme.source rest).takeWhile (!Tag.endsName ·) ≠ [] := by
  cases rest with
  | nil => cases h
  | cons u rest =>
    -- the first word has no gap
    have hgap : u.gap = [] := by simpa [Lexeme.isGlued] using h
    have hforms : Token.Forms u.kind u.text := hrest.stands.1.forms
    obtain ⟨c, x, hc⟩ := List.exists_cons_of_ne_nil (Token.forms_ne_nil hforms)
    have hends : Tag.endsName c = false := by
      -- what ends a name is a blank, and a word begins with none
      by_contra hends
      rw [Bool.not_eq_false] at hends
      have hmem : c ∈ Lexeme.source (u :: rest) := by simp [Lexeme.source, hc]
      have hblank := Text.isBlank_of_plain (hrest.plain_source hplain) hrest.not_mem_newline hmem
        (Tag.isSpace_of_endsName hends)
      rw [Token.isBlank_head_of_forms hforms hrest.stands.1.solid c (by rw [hc]; rfl)] at hblank
      cases hblank
    have hfront : Lexeme.source (u :: rest) = c :: (x ++ Lexeme.source rest) := by
      simp [Lexeme.source, hgap, hc]
    rw [hfront, List.takeWhile_cons_of_pos (by simp [hends])]
    exact List.cons_ne_nil c _

/-- A text that begins with no blank has a first word without a gap. -/
theorem exists_scan_cons {s : Text} (hne : s ≠ []) (hs : ∀ d ∈ s.head?, Text.isBlank d = false) :
    ∃ w ws, scan [] s = w :: ws ∧ w.gap = [] := by
  obtain ⟨k, t, rest, rfl, -, hforms, hgo⟩ := Token.exists_forms hne
  -- a token of blanks would begin with one
  have hk : k ≠ .blank := by
    rintro rfl
    cases Token.shape_of_forms hforms with
    | symbol h => cases h
    | @blank c r h => simpa [h c] using hs c
  exact ⟨_, _, Word.scan_token hforms hk hgo [], rfl⟩

/-- A text that begins with no blank is glued to what stands before it. -/
theorem glued_of_scan {us : List Lexeme} {x : Text} (hus : words us = scan [] x) (hne : x ≠ [])
    (hx : ∀ c ∈ x.head?, Text.isBlank c = false) : us.head?.any Lexeme.isGlued = true := by
  obtain ⟨w, ws, hw, hgap⟩ := exists_scan_cons hne hx
  rw [hw] at hus
  obtain ⟨u, us, rfl, rfl, -⟩ := words_eq_cons.mp hus
  simpa [Lexeme.isGlued] using hgap

/-- The name of a tag is a token of its own where no letter of a name follows. -/
theorem scan_name {name more y : Text} (hforms : Token.Forms .tag name) (hb : Blanks b)
    (hmore : ∀ c ∈ more.head?, Token.isTagPart c = false)
    (hy : ∀ c ∈ y.head?, Text.isBlank c = true) :
    scan [] (b ++ (name ++ (more ++ y))) = ⟨.tag, name, b⟩ :: scan [] (more ++ y) := by
  refine Word.scan_word hforms (by decide) hb fun c hc => ?_
  rw [List.head?_append, Option.mem_def, Option.or_eq_some_iff] at hc
  rcases hc with hc | ⟨-, hc⟩
  · exact hmore c hc
  · exact Token.not_isTagPart_of_isBlank (hy c hc)

/-- A description in a row is set off by a blank, and can be trimmed out again. -/
theorem trim_of_spread_desc {desc y : Text} (hdesc : Text.Trimmed desc)
    (hy : Spread ([desc].filter (!·.isEmpty)) y) (he : Blanks e) :
    (∀ c ∈ (y ++ e).head?, Text.isBlank c = true) ∧ Text.trim (y ++ e) = desc := by
  -- an empty description is not printed
  rcases spread_desc hy with ⟨rfl, rfl⟩ | ⟨b, hb, hne, -, rfl⟩
  · exact ⟨he.head, Text.trim_append (a := []) (by simp) Text.trimmed_nil he.isSpace⟩
  · refine ⟨?_, ?_⟩
    · obtain ⟨c, b, rfl⟩ := List.exists_cons_of_ne_nil hne
      exact hb.head
    · rw [List.append_assoc]
      exact Text.trim_append hb.isSpace hdesc he.isSpace

/-- A tag without a structure reads back from its row. -/
theorem reads_unstructured {t : Lexeme} {rest : List Lexeme} (hts : OnLine (t :: rest))
    (hplain : ∀ u ∈ t :: rest, Plain u.text) (ht : t.kind = .tag)
    (h : rest.head?.any Lexeme.isGlued = true ∨ Keyword.ofText? t.text.tail = none)
    (hrow : (Line.tag (Tag.cut t.text.tail (Lexeme.source rest))).PrintsAs r)
    (hb : Blanks b) (he : Blanks e) :
    ReadBack (scan [] (b ++ (r ++ e))) (.tag (Tag.cut t.text.tail (Lexeme.source rest))) := by
  have hrest := hts.tail
  have hplain' : ∀ u ∈ rest, Plain u.text := fun u hu => hplain u (List.mem_cons_of_mem t hu)
  have hforms : Token.Forms .tag t.text := by
    have := hts.stands.1.forms
    rwa [Lexeme.word_kind, ht] at this
  have hglued := takeWhile_ne_nil_of_glued hrest hplain'
  have hkinds {y : Text} := map_kind_unstructured hrest hplain' (y := y) (e := e)
  have hfront : ∀ c ∈ (Lexeme.source rest).head?, Token.isTagPart c = false := by
    have hgo : ∀ d ∈ (source (words rest)).head?.or none, Token.goesOn t.kind t.text d = false :=
      hts.stands.2.1
    simpa [ht, Token.goesOn, Word.source_words] using hgo
  have hmore : ∀ c ∈ (Lexeme.source rest).takeWhile (!Tag.endsName ·), Tag.endsName c = false := by
    intro c hc
    simpa using List.mem_takeWhile_imp hc
  -- the name begins where the text behind the tag does
  have hname : ∀ c ∈ ((Lexeme.source rest).takeWhile (!Tag.endsName ·)).head?,
      c ∈ (Lexeme.source rest).head? := by
    intro c hc
    obtain ⟨z, hz⟩ := List.takeWhile_prefix (!Tag.endsName ·) (l := Lexeme.source rest)
    rw [← hz, List.head?_append, Option.mem_def.mp hc]
    rfl
  have hsolid : ∀ c ∈ t.text ++ (Lexeme.source rest).takeWhile (!Tag.endsName ·),
      Text.isBlank c = false := isBlank_cut hforms
  have hdesc := trimmed_trim ((Lexeme.source rest).dropWhile (!Tag.endsName ·))
  obtain ⟨y, rfl, hspread⟩ := exists_row_unstructured hforms hrow
  unfold Tag.cut
  generalize (Lexeme.source rest).takeWhile (!Tag.endsName ·) = more at *
  generalize Text.trim ((Lexeme.source rest).dropWhile (!Tag.endsName ·)) = desc at *
  have hy := trim_of_spread_desc hdesc hspread he
  -- the name is the same token as before, and what follows it is cut at the same place
  have hscan : scan [] (b ++ (t.text ++ more ++ y ++ e)) =
      ⟨.tag, t.text, b⟩ :: scan [] (more ++ (y ++ e)) := by
    rw [List.append_assoc (t.text ++ more), List.append_assoc t.text]
    exact scan_name hforms hb (fun c hc => hfront c (hname c hc)) hy.1
  rw [hscan]
  refine ⟨List.forall_mem_cons.mpr ⟨by simp, not_closeDoc_of_map_kind hrest (hkinds hspread he)⟩, ?_⟩
  intro us hus
  obtain ⟨t', rest', rfl, ht', hrest'⟩ := words_eq_cons.mp hus
  have hsame : t'.text = t.text := congrArg Word.text ht'
  have hstands : Stands (words rest') none := by
    obtain ⟨_, -, hstands, -⟩ := Word.exists_scan (more ++ (y ++ e))
    rw [hrest']
    exact hstands.of_last (by simp)
  refine .tag (congrArg Word.kind ht') ?_
  rw [Tag.read_unstructured hstands, ← Word.source_words, hrest', Tag.cut_source_scan, hsame,
    Tag.cut_append hmore hy.1 hy.2]
  rw [hsame]
  -- without surplus the name is no keyword, with surplus something is glued to it
  by_cases hnil : more = []
  · exact .inr (h.resolve_left fun hg => hglued hg hnil)
  · refine .inl (glued_of_scan hrest' (by simp [hnil]) fun c hc => ?_)
    rw [List.head?_append_of_ne_nil _ hnil] at hc
    exact hsolid c (List.mem_append_right _ (List.mem_of_mem_head? hc))

/-! ## Section 4: Tags with a structure -/

/-- A text that begins with a blank has nothing glued to what stands before it. -/
theorem not_glued_of_scan {us : List Lexeme} {x : Text} (hus : words us = scan [] x)
    (hx : ∀ c ∈ x.head?, Text.isBlank c = true) : us.head?.any Lexeme.isGlued = false := by
  cases us with
  | nil => rfl
  | cons u us =>
    obtain ⟨tail, heq, hstands, -⟩ := Word.exists_scan x
    rw [← hus] at heq hstands
    by_contra hglued
    have hgap : u.gap = [] := by simpa [Lexeme.isGlued] using hglued
    have hforms : Token.Forms u.kind u.text := hstands.1.forms
    obtain ⟨c, t, hc⟩ := List.exists_cons_of_ne_nil (Token.forms_ne_nil hforms)
    -- a word without a gap would begin the text
    have hblank := hx c (by rw [heq]; simp [hgap, hc])
    rw [Token.isBlank_head_of_forms hforms hstands.1.solid c (by rw [hc]; rfl)] at hblank
    cases hblank

/-- A description whose first word is a parenthesis begins with one. -/
theorem head_of_lparen {d : Text} (hd : Text.Trimmed d) (hb : Blanks b) (he : Blanks e) {w : Word}
    (hw : w ∈ (scan [] (b ++ (d ++ e))).head?) (hk : w.kind = .lparen) : d.head? = some '(' := by
  cases d with
  | nil =>
    rw [List.nil_append, Word.scan_of_blanks (List.forall_mem_append.mpr ⟨hb, he⟩)] at hw
    cases hw
  -- the first word begins where the description does
  | cons c d =>
    have hhead : ∀ x ∈ (c :: d ++ e).head?, Text.isBlank x = false := by
      intro x hx
      by_contra hblank
      rw [Bool.not_eq_false] at hblank
      have := hd.front x hx
      rw [Text.isSpace_of_isBlank hblank] at this
      cases this
    obtain ⟨v, ws, hv, hgap⟩ := exists_scan_cons (List.cons_ne_nil c (d ++ e)) hhead
    rw [scan_blanks_after hb hhead, List.cons_append, hv] at hw
    obtain rfl : { v with gap := b } = w := by simpa using hw
    obtain ⟨tail, heq, hstands, -⟩ := Word.exists_scan (c :: (d ++ e))
    rw [hv] at heq hstands
    have htext : v.text = ['('] := Token.eq_of_forms_symbol hstands.1.forms (by rw [hk]; rfl)
    rw [Word.source_cons, hgap, htext] at heq
    simpa using congrArg List.head? heq

/-- So does a tag with a structure, unless its description could be read as part of the type. -/
theorem reads_structured {t : Lexeme} {rest : List Lexeme} {keyword : Keyword} {tag : Tag}
    (hts : OnLine (t :: rest)) (hplain : ∀ u ∈ t :: rest, Plain u.text) (ht : t.kind = .tag)
    (hkeyword : Keyword.ofText? t.text.tail = some keyword)
    (hread : Tag.readStructured keyword rest = .ok tag) (hrow : (Line.tag tag).PrintsAs r)
    (hrun : tag.runsOn = false) (hb : Blanks b) (he : Blanks e) :
    ReadBack (scan [] (b ++ (r ++ e))) (.tag tag) := by
  obtain ⟨mk, ws, stop, rest', hpass, hfields, hstop, rfl⟩ := Tag.sound_readStructured hread
  have hrest := hts.tail.passes hpass
  have hplain' : ∀ u ∈ rest', Plain u.text :=
    (hpass.forall_words (P := fun _ x => Plain x)
      fun u hu => hplain u (List.mem_cons_of_mem t hu)).2
  have hgenuine := (hpass.genuine (genuine_of_stands hts.tail.stands)).1
  obtain ⟨cells, parts, stop', hre⟩ := Tag.respell_fields hfields hgenuine
  have hdesc : Text.Trimmed (restOfLine rest') := trimmed_trim _
  obtain ⟨z, rfl, hz⟩ := exists_row_structured hre hdesc hrow
  obtain ⟨y, b', rfl, hy, hb', hne⟩ := spread_fields_desc hz
  obtain ⟨vs, rfl, hphrase, htyped, hspelled⟩ := hre.spelled y hy
  have hforms : Token.Forms .tag t.text := by
    have := hts.stands.1.forms
    rwa [Lexeme.word_kind, ht] at this
  have htext : t.text = '@' :: keyword.text := by
    rw [Keyword.text_of_ofText? hkeyword]
    exact (tag_of_forms hforms).1
  -- the name, the fields and the description are found one after another
  have hblank : ∀ c ∈ (b' ++ (restOfLine rest' ++ e)).head?, Text.isBlank c = true := by
    cases b' with
    | nil =>
      rw [show restOfLine rest' = [] from by_contra fun h => hne h rfl]
      exact he.head
    | cons c b' => exact hb'.head
  have hblank' : ∀ c ∈ (source vs ++ (b' ++ (restOfLine rest' ++ e))).head?,
      Text.isBlank c = true := by
    intro c hc
    rw [List.head?_append, Option.mem_def, Option.or_eq_some_iff] at hc
    rcases hc with hc | ⟨-, hc⟩
    · exact hy.head c hc
    · exact hblank c hc
  have hscan : scan [] (b ++ ('@' :: keyword.text ++ (source vs ++ (b' ++ restOfLine rest')) ++ e)) =
      ⟨.tag, t.text, b⟩ :: (vs ++ scan [] (b' ++ (restOfLine rest' ++ e))) := by
    have hsplit : '@' :: keyword.text ++ (source vs ++ (b' ++ restOfLine rest')) ++ e =
        t.text ++ (source vs ++ (b' ++ (restOfLine rest' ++ e))) := by
      rw [htext]
      simp
    rw [hsplit, Word.scan_word hforms (by decide) hb, Word.scan_source_append]
    · exact hphrase.stands fun c hc => Token.isBreak_of_isBlank (hblank c hc)
    · exact fun c hc => Token.not_isTagPart_of_isBlank (hblank' c hc)
  have hkinds := map_kind_restOfLine hrest hplain' hb' he
  rw [hscan]
  refine ⟨?_, ?_⟩
  · -- no word of the row is the closing delimiter
    refine List.forall_mem_cons.mpr ⟨by simp, List.forall_mem_append.mpr ⟨?_, ?_⟩⟩
    · intro w hw hk
      have := htyped w hw
      rw [hk] at this
      cases this
    · exact not_closeDoc_of_map_kind hrest hkinds
  · intro us hus
    obtain ⟨t', us', rfl, ht', hus'⟩ := words_eq_cons.mp hus
    obtain ⟨pre, rest₂, rfl, hpre, hrest₂⟩ := words_eq_append.mp hus'
    refine .tag (congrArg Word.kind ht') ?_
    have hsame : t'.text = t.text := congrArg Word.text ht'
    -- blanks follow the name, so nothing is glued to it
    have hglued : (pre ++ rest₂).head?.any Lexeme.isGlued = false := by
      refine not_glued_of_scan (x := source vs ++ (b' ++ (restOfLine rest' ++ e))) ?_ hblank'
      rw [hus', Word.scan_source_append]
      exact hphrase.stands fun c hc => Token.isBreak_of_isBlank (hblank c hc)
    -- the description stops the fields as it did before
    have hstop' : stop' (words rest₂) := by
      obtain ⟨xs, xs', a, hold, hnew, halike⟩ := alike_restOfLine hrest hplain' hb' he
      rw [hold] at hstop
      rw [hrest₂, hnew, hre.stops _ (hfields.stop_of_alike halike hstop)]
      -- a parenthesis behind a callable is what the hypothesis excludes
      intro hends w hw hk
      rw [← hnew] at hw
      have hparen := head_of_lparen hdesc hb' he hw hk
      simp [Tag.runsOn, hfields.desc_eq, hfields.endsInCallable_eq, hends, hparen] at hrun
    rw [Tag.read_structured hglued (by rw [hsame]; exact hkeyword),
      Tag.complete_readStructured hspelled hpre hstop', restOfLine_of_scan hdesc hb' he hrest₂]

/-- A line of plain text that was read reads back from its row. -/
theorem reads_row {l : Line} (hts : OnLine ts) (hplain : ∀ t ∈ ts, Plain t.text)
    (hread : ReadsAs ts l) (hrow : l.PrintsAs r) (hrun : l.runsOn = false) (hb : Blanks b)
    (he : Blanks e) : ReadBack (scan [] (b ++ (r ++ e))) l := by
  cases hread with
  | text hfirst => exact reads_text hts hplain hfirst hrow hb he
  | @tag t rest tag ht h =>
    rcases Tag.read_eq_ok hts.tail.stands h with ⟨hun, rfl⟩ | ⟨keyword, hkeyword, h⟩
    · exact reads_unstructured hts hplain ht hun hrow hb he
    · exact reads_structured hts hplain ht hkeyword h hrow hrun hb he

end Docblock
