import Docblock.Proofs.Yaml.Lines

/-!
# Block mappings of sequences

A text that consists of sections, each of them a word with a sequence of quoted scalars below it, is
read as the mapping that it looks like.  The last section has a plain word as its only item, and ends
the text.

- `marks?_sections`: the marks of such a text.
- `ReadsSections`, `readsSections_parse?`: the value that it stands for.
-/

namespace Docblock.Yaml

/-! ## Section 1: Texts -/

/-- A word and the items of its sequence, none of which needs an escape. -/
structure IsSection (word : Text) (items : List Text) : Prop where
  word : IsWord word
  ne_nil : items ≠ []
  verbatim : ∀ t ∈ items, Verbatim t

/-- Lines with one item each. -/
def itemLines (items : List Text) : Text :=
  items.flatMap fun t => "  - \"".toList ++ t ++ "\"\n".toList

/-- A word with its items below it. -/
def sectionText (word : Text) (items : List Text) : Text :=
  word ++ ":\n".toList ++ itemLines items

/-- A word with another word as its only item, at the end of a text. -/
def lastText (word item : Text) : Text :=
  word ++ ":\n".toList ++ ("  - ".toList ++ item ++ ['\n'])

/-- The marks of a word and of its items, each with whether it is plain. -/
def entryMarks (word : Text) (items : List (Text × Bool)) : List Mark :=
  .key :: .scalar word true :: .value :: .blockSeq ::
    (items.flatMap (fun i => [.item, .scalar i.1 i.2]) ++ [.blockEnd])

/-- The value of a word with its items. -/
def entryValue (word : Text) (items : List (Text × Bool)) : Yaml × Yaml :=
  (.scalar word true, .seq (items.map fun i => .scalar i.1 i.2))

namespace Scanner

variable {s : Scanner} {indents : List Nat} {marks between : List Mark}

/-! ## Section 2: Marks -/

/-- Lines of items are scanned one after another. -/
theorem LineStart.itemLines (h : LineStart s [2, 0] marks) {items : List Text}
    (hitems : ∀ t ∈ items, Verbatim t) :
    ∃ s', LineStart s' [2, 0] (marks ++ items.flatMap fun t => [.item, .scalar t false]) ∧
      ∀ rest, s.scan (itemLines items ++ rest) = s'.scan rest := by
  induction items generalizing s marks with
  | nil => exact ⟨s, by simpa using h, fun _ => rfl⟩
  -- the sequence is open already, so every line adds its item only
  | cons t items ih =>
    obtain ⟨ht, hitems⟩ := List.forall_mem_cons.mp hitems
    obtain ⟨s₁, h₁, hscan⟩ := h.itemLine (.inr ⟨rfl, rfl⟩) ht
    obtain ⟨s₂, h₂, hrest⟩ := ih h₁ hitems
    refine ⟨s₂, by simpa using h₂, fun rest => ?_⟩
    rw [Yaml.itemLines, List.flatMap_cons, List.append_assoc, hscan, ← Yaml.itemLines, hrest]

/-- A section is scanned as its key and a sequence of its items. -/
theorem LineStart.section (h : LineStart s indents marks)
    (hindents : indents = [] ∧ between = [.blockMap] ∨ indents = [2, 0] ∧ between = [.blockEnd])
    {word : Text} {items : List Text} (hsection : IsSection word items) :
    ∃ s', LineStart s' [2, 0] (marks ++ between ++ .key :: .scalar word true :: .value :: .blockSeq ::
        items.flatMap fun t => [.item, .scalar t false]) ∧
      ∀ rest, s.scan (sectionText word items ++ rest) = s'.scan rest := by
  obtain ⟨s₁, h₁, hkey⟩ := h.keyLine hindents hsection.word
  obtain ⟨t, items, rfl⟩ := List.exists_cons_of_ne_nil hsection.ne_nil
  obtain ⟨ht, hitems⟩ := List.forall_mem_cons.mp hsection.verbatim
  -- the first item opens the sequence
  obtain ⟨s₂, h₂, hfirst⟩ := h₁.itemLine (.inl ⟨rfl, rfl⟩) ht
  obtain ⟨s₃, h₃, hrest⟩ := h₂.itemLines hitems
  refine ⟨s₃, by simpa using h₃, fun rest => ?_⟩
  rw [sectionText, List.append_assoc, hkey, Yaml.itemLines, List.flatMap_cons, List.append_assoc,
    hfirst, ← Yaml.itemLines, hrest]

/-- The marks of the last section end all blocks. -/
theorem LineStart.last (h : LineStart s indents marks)
    (hindents : indents = [] ∧ between = [.blockMap] ∨ indents = [2, 0] ∧ between = [.blockEnd])
    {word item : Text} (hword : IsWord word) (hitem : IsWord item) :
    s.scan (lastText word item) =
      some (marks ++ between ++ entryMarks word [(item, true)] ++ [.blockEnd]) := by
  obtain ⟨s₁, h₁, hkey⟩ := h.keyLine hindents hword
  rw [lastText, hkey, h₁.lastLine hitem]
  simp [entryMarks]

/-- The marks of sections, one after the other, and of the last one. -/
theorem LineStart.sections (h : LineStart s indents marks)
    (hindents : indents = [] ∧ between = [.blockMap] ∨ indents = [2, 0] ∧ between = [.blockEnd])
    {sections : List (Text × List Text)} (hsections : ∀ e ∈ sections, IsSection e.1 e.2)
    {word item : Text} (hword : IsWord word) (hitem : IsWord item) :
    s.scan (sections.flatMap (fun e => sectionText e.1 e.2) ++ lastText word item) =
      some (marks ++ between ++
        sections.flatMap (fun e => entryMarks e.1 (e.2.map (·, false))) ++
        entryMarks word [(item, true)] ++ [.blockEnd]) := by
  induction sections generalizing s indents marks between with
  -- only the last section is left
  | nil => simpa using h.last hindents hword hitem
  -- behind the first section a sequence is open, which the next key closes
  | cons e sections ih =>
    obtain ⟨he, hsections⟩ := List.forall_mem_cons.mp hsections
    obtain ⟨s₁, h₁, hscan⟩ := h.section hindents he
    rw [List.flatMap_cons, List.append_assoc, hscan, ih h₁ (.inr ⟨rfl, rfl⟩) hsections]
    simp [entryMarks, List.flatMap_map]

end Scanner

/-- Characters that are read as they are. -/
def Literal (s : Text) : Prop :=
  ∀ c ∈ s, isAllowed c = true ∧ c ≠ '\r' ∧ c ≠ '\u0085'

instance (s : Text) : Decidable (Literal s) :=
  List.decidableBAll _ s

theorem literal_append {s t : Text} : Literal (s ++ t) ↔ Literal s ∧ Literal t :=
  List.forall_mem_append

theorem Literal.normaliseBreaks {s : Text} (h : Literal s) : normaliseBreaks s = s := by
  induction s with
  | nil => rfl
  | cons c s ih =>
    obtain ⟨⟨-, hreturn, hnext⟩, hs⟩ := List.forall_mem_cons.mp h
    rw [Yaml.normaliseBreaks.eq_3 _ _ (by simp [hreturn]), ih hs, if_neg (by simp [hreturn, hnext])]

theorem Literal.marks? {s : Text} (h : Literal s) : marks? s = Scanner.start.scan s := by
  have hall : s.all isAllowed = true := List.all_eq_true.mpr fun c hc => (h c hc).1
  rw [Yaml.marks?, if_pos hall, h.normaliseBreaks]

theorem Verbatim.literal {s : Text} (h : Verbatim s) : Literal s :=
  fun c hc => ⟨h.allowed c hc, (h.unbroken c hc).2⟩

theorem isAllowed_of_isLower {c : Char} (h : c.isLower = true) : isAllowed c = true := by
  have hrange : decide (c.val ≥ 'a'.val) && decide (c.val ≤ 'z'.val) := h
  obtain ⟨hfirst, hlast⟩ : 'a' ≤ c ∧ c ≤ 'z' := by
    simpa [Char.le_def] using hrange
  -- letters are printable
  have hspace : ' ' ≤ c := Char.le_trans (by decide) hfirst
  have htilde : c ≤ '~' := Char.le_trans hlast (by decide)
  simp [isAllowed, hspace, htilde]

theorem IsWord.literal {word : Text} (h : IsWord word) : Literal word :=
  fun c hc => ⟨isAllowed_of_isLower (h.lower c hc), Scanner.ne_of_isLower (h.lower c hc) rfl,
    Scanner.ne_of_isLower (h.lower c hc) rfl⟩

/-- So are sections. -/
theorem IsSection.literal {word : Text} {items : List Text} (h : IsSection word items) :
    Literal (sectionText word items) := by
  have hitems : Literal (itemLines items) := by
    intro c hc
    obtain ⟨t, ht, hc⟩ := List.mem_flatMap.mp hc
    -- each line is dashes, quotes and a text that stands for itself
    have hline : Literal ("  - \"".toList ++ t ++ "\"\n".toList) :=
      literal_append.mpr ⟨literal_append.mpr ⟨by decide, (h.verbatim t ht).literal⟩, by decide⟩
    exact hline c hc
  have hword : Literal (word ++ ":\n".toList) := literal_append.mpr ⟨h.word.literal, by decide⟩
  exact literal_append.mpr ⟨hword, hitems⟩

/-! ## Section 3: Values -/

/-- A sequence of scalars is read up to its end. -/
theorem blockItems_scalars (items : List (Text × Bool)) (rest : List Mark) {n : Nat}
    (hn : items.length + 2 ≤ n) :
    blockItems n (items.flatMap (fun i => [.item, .scalar i.1 i.2]) ++ .blockEnd :: rest) =
      some (items.map fun i => .scalar i.1 i.2, rest) := by
  induction items generalizing n with
  | nil =>
    obtain ⟨n, rfl⟩ := Nat.exists_eq_add_of_le' (show 1 ≤ n by omega)
    rfl
  | cons i items ih =>
    rw [List.length_cons] at hn
    obtain ⟨n, rfl⟩ := Nat.exists_eq_add_of_le' (show 3 ≤ n by omega)
    have hrest := ih (n := n + 2) (by omega)
    rw [List.flatMap_cons, List.append_assoc]
    generalize items.flatMap (fun i => [.item, .scalar i.1 i.2]) ++ Mark.blockEnd :: rest = others
      at hrest ⊢
    -- an item is a scalar
    have hnode : optionalNode itemEnds true false (n + 2) (.scalar i.1 i.2 :: others) =
        some (.scalar i.1 i.2, others) := by
      simp [optionalNode, startsWith, itemEnds, node]
    simp only [List.cons_append, List.nil_append]
    rw [blockItems, hnode]
    simp only [Option.bind_eq_bind, Option.bind_some, hrest]
    rfl

/-- So is a mapping of words to such sequences. -/
theorem blockEntries_sections (sections : List (Text × List (Text × Bool))) (rest : List Mark)
    {n : Nat} (hn : (sections.flatMap fun e => entryMarks e.1 e.2).length + 5 ≤ n) :
    blockEntries n ((sections.flatMap fun e => entryMarks e.1 e.2) ++ .blockEnd :: rest) =
      some (sections.map fun e => entryValue e.1 e.2, rest) := by
  -- over the sections; every mark that is read costs the parser one at most
  induction sections generalizing n with
  | nil =>
    obtain ⟨n, rfl⟩ := Nat.exists_eq_add_of_le' (show 1 ≤ n by omega)
    rfl
  | cons e sections ih =>
    have hlength : (entryMarks e.1 e.2).length = 2 * e.2.length + 5 := by
      simp [entryMarks, List.length_flatMap, List.map_const', Nat.mul_comm]
    rw [List.flatMap_cons, List.length_append, hlength] at hn
    obtain ⟨n, rfl⟩ := Nat.exists_eq_add_of_le' (show 4 ≤ n by omega)
    have hrest := ih (n := n + 3) (by omega)
    rw [List.flatMap_cons, List.append_assoc]
    generalize (sections.flatMap fun e => entryMarks e.1 e.2) ++ Mark.blockEnd :: rest = others
      at hrest ⊢
    have hkey (after : List Mark) :
        optionalNode entryEnds true true (n + 3) (.scalar e.1 true :: after) =
          some (.scalar e.1 true, after) := by
      simp [optionalNode, startsWith, entryEnds, node]
    -- and its value is the sequence of its items
    have hvalue : valueOf entryEnds true (n + 3) (.value :: .blockSeq ::
        (e.2.flatMap (fun i => [.item, .scalar i.1 i.2]) ++ .blockEnd :: others)) =
        some (.seq (e.2.map fun i => .scalar i.1 i.2), others) := by
      simp [valueOf, optionalNode, startsWith, entryEnds, node,
        blockItems_scalars e.2 others (n := n) (by omega)]
    have htext : entryMarks e.1 e.2 ++ others = .key :: .scalar e.1 true :: .value :: .blockSeq ::
        (e.2.flatMap (fun i => [.item, .scalar i.1 i.2]) ++ .blockEnd :: others) := by
      simp [entryMarks]
    rw [htext, blockEntries, hkey]
    simp only [Option.bind_eq_bind, Option.bind_some, hvalue, hrest]
    rfl

/-- A reader reads sections, one after the other, as the mapping that they look like.  Between double
quotes it takes all characters for themselves that do not begin an escape or end the scalar. -/
def ReadsSections (read : Reader) : Prop :=
  ∀ (sections : List (Text × List Text)) (word item : Text),
    (∀ e ∈ sections, IsSection e.1 e.2) → IsWord word → IsWord item →
      read (sections.flatMap (fun e => sectionText e.1 e.2) ++ lastText word item) =
        some (.map (sections.map (fun e => entryValue e.1 (e.2.map (·, false))) ++
          [entryValue word [(item, true)]]))

/-- The parser reads the sections of a text, its last word included. -/
theorem readsSections_parse? : ReadsSections parse? := by
  intro sections word item hsections hword hitem
  have hstart : Scanner.LineStart .start [] [] := ⟨rfl, rfl, rfl, by simp [Scanner.start], rfl, rfl⟩
  -- the text is literal, so it is scanned as it stands
  have hliteral : Literal (sections.flatMap (fun e => sectionText e.1 e.2) ++ lastText word item) := by
    have hfront : Literal (sections.flatMap fun e => sectionText e.1 e.2) := by
      intro c hc
      obtain ⟨e, he, hc⟩ := List.mem_flatMap.mp hc
      exact (hsections e he).literal c hc
    have hkey : Literal (word ++ ":\n".toList) := literal_append.mpr ⟨hword.literal, by decide⟩
    have hline : Literal ("  - ".toList ++ item ++ ['\n']) :=
      literal_append.mpr ⟨literal_append.mpr ⟨by decide, hitem.literal⟩, by decide⟩
    exact literal_append.mpr ⟨hfront, literal_append.mpr ⟨hkey, hline⟩⟩
  have hmarks := hstart.sections (.inl ⟨rfl, rfl⟩) hsections hword hitem
  rw [← hliteral.marks?] at hmarks
  -- the last section is one more of them
  generalize hall : sections.map (fun e => (e.1, e.2.map (·, false))) ++ [(word, [(item, true)])] = all
  have hmarks' : marks? (sections.flatMap (fun e => sectionText e.1 e.2) ++ lastText word item) =
      some (.blockMap :: ((all.flatMap fun e => entryMarks e.1 e.2) ++ [.blockEnd])) := by
    rw [hmarks, ← hall]
    simp [List.flatMap_map]
  -- the budget is larger than the number of marks
  have hdocument : document (.blockMap :: ((all.flatMap fun e => entryMarks e.1 e.2) ++ [.blockEnd])) =
      some (.map (all.map fun e => entryValue e.1 e.2), []) := by
    have hentries := blockEntries_sections all []
      (n := 4 * ((all.flatMap fun e => entryMarks e.1 e.2).length + 1 + 1) + 3) (by omega)
    have hnode : document (.blockMap :: ((all.flatMap fun e => entryMarks e.1 e.2) ++ [.blockEnd])) =
        node true false (budget (.blockMap :: ((all.flatMap fun e => entryMarks e.1 e.2) ++
          [.blockEnd]))) (.blockMap :: ((all.flatMap fun e => entryMarks e.1 e.2) ++ [.blockEnd])) :=
      rfl
    rw [hnode, budget, List.length_cons, List.length_append, List.length_singleton, node, if_pos rfl,
      hentries]
    rfl
  rw [parse?, hmarks']
  simp only [Option.bind_eq_bind, Option.bind_some, hdocument]
  simp [← hall]

end Docblock.Yaml
