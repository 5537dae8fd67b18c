import Docblock.Yaml.Parser

/-!
# Lines of a block mapping

A mapping from words to sequences of quoted scalars is written line by line: a line with a word and
a colon, and below it lines with a dash and a scalar.  So it is scanned line by line as well:
`LineStart` is what is known at the beginning of a line, and each kind of line adds its marks.

- `Verbatim.doubleQuoted_append`: texts that stand for themselves between double quotes.
- `LineStart.keyLine` and `LineStart.itemLine`: the two kinds of lines.
-/

namespace Docblock.Yaml

/-! ## Section 1: Scalars -/

/-- A text that double quotes keep as it is. -/
structure Verbatim (s : Text) : Prop where
  allowed : ∀ c ∈ s, isAllowed c = true
  unescaped : ∀ c ∈ s, c ≠ '"' ∧ c ≠ '\\'
  unbroken : ∀ c ∈ s, isBreak c = false ∧ c ≠ '\r' ∧ c ≠ '\u0085'

instance (s : Text) : Decidable (Verbatim s) :=
  have hall : (∀ c ∈ s, isAllowed c = true ∧ (c ≠ '"' ∧ c ≠ '\\') ∧
      isBreak c = false ∧ c ≠ '\r' ∧ c ≠ '\u0085') ↔ Verbatim s :=
    ⟨fun h => ⟨fun c hc => (h c hc).1, fun c hc => (h c hc).2.1, fun c hc => (h c hc).2.2⟩,
      fun h c hc => ⟨h.allowed c hc, h.unescaped c hc, h.unbroken c hc⟩⟩
  @decidable_of_iff _ _ hall (List.decidableBAll _ s)

theorem Verbatim.of_cons {c : Char} {s : Text} (h : Verbatim (c :: s)) : Verbatim s :=
  ⟨fun d hd => h.allowed d (List.mem_cons_of_mem _ hd),
    fun d hd => h.unescaped d (List.mem_cons_of_mem _ hd),
    fun d hd => h.unbroken d (List.mem_cons_of_mem _ hd)⟩

/-- What follows the opening quote is read up to the closing one. -/
theorem Verbatim.doubleQuoted_append {s : Text} (h : Verbatim s) (blanks rest : Text) :
    doubleQuoted (.blanks blanks) (s ++ '"' :: rest) = some (blanks.reverse ++ s, rest) := by
  induction s generalizing blanks with
  | nil => simp [doubleQuoted, Gap.text]
  | cons c s ih =>
    obtain ⟨hquote, hescape⟩ := h.unescaped c List.mem_cons_self
    have hbreak := (h.unbroken c List.mem_cons_self).1
    -- the character is neither the quote nor an escape, nor a break
    rw [List.cons_append, doubleQuoted.eq_4 _ _ _ hquote (by simp [hescape])]
    simp only [hbreak, Bool.false_eq_true, if_false]
    -- a blank is held back until the next word, any other character is taken at once
    split
    · rw [Gap.addBlank, ih h.of_cons]
      simp
    · have hnext := ih h.of_cons []
      rw [show Gap.none = .blanks [] from rfl, hnext]
      rfl

/-- A word that can be a key without quotes. -/
structure IsWord (word : Text) : Prop where
  ne_nil : word ≠ []
  lower : ∀ c ∈ word, c.isLower = true
  short : word.length ≤ Scanner.keyLimit

instance (word : Text) : Decidable (IsWord word) :=
  decidable_of_iff (word ≠ [] ∧ word.all Char.isLower = true ∧ word.length ≤ Scanner.keyLimit)
    ⟨fun h => ⟨h.1, List.all_eq_true.mp h.2.1, h.2.2⟩,
      fun h => ⟨h.ne_nil, List.all_eq_true.mpr h.lower, h.short⟩⟩

namespace Scanner

variable {s s' : Scanner} {indents : List Nat} {marks : List Mark}

/-! ## Section 2: Steps -/

theorem scan_of_step {c : Char} {rest : Text} {n : Nat} (h : s.step c rest = some (s', n)) :
    s.scan (c :: rest) = s'.scan (rest.drop n) := by
  rw [scan, h]

theorem scan_blank (rest : Text) : s.scan (' ' :: rest) = (s.stepOver ' ').scan rest :=
  scan_of_step (n := 0) rfl

theorem scan_break (h : s.outer = []) (rest : Text) :
    s.scan ('\n' :: rest) = { s.stepOver '\n' with keyAllowed := true }.scan rest := by
  apply scan_of_step (n := 0)
  have hspace : s.isSpace '\n' = false := by simp [isSpace]
  have hbreak : isBreak '\n' = true := rfl
  simp only [step, hspace, hbreak, Bool.false_eq_true, if_false, if_true]
  simp [inFlow, h]

/-- What is known at the beginning of a line outside of brackets. What stood on the lines before is
no key any more. -/
structure LineStart (s : Scanner) (indents : List Nat) (marks : List Mark) : Prop where
  column : s.column = 0
  keyAllowed : s.keyAllowed = true
  outer : s.outer = []
  candidate : ∀ c ∈ s.candidate, c.required = false ∧ c.line < s.line
  indents : s.indents = indents
  marks : s.marks = marks

/-- What stands on a line is no key any more when the line is over. -/
theorem exists_lineStart (houter : s.outer = [])
    (hcandidate : ∀ c ∈ s.candidate, c.required = false ∧ c.line ≤ s.line) :
    ∃ s', LineStart s' s.indents s.marks ∧ ∀ rest, s.scan ('\n' :: rest) = s'.scan rest := by
  refine ⟨{ s.stepOver '\n' with keyAllowed := true },
    ⟨rfl, rfl, houter, fun c hc => ?_, rfl, rfl⟩, scan_break houter⟩
  obtain ⟨hrequired, hline⟩ := hcandidate c hc
  exact ⟨hrequired, Nat.lt_succ_of_le hline⟩

/-- A candidate from a line before is forgotten. -/
theorem dropStale_of_line (houter : s.outer = [])
    (hcandidate : ∀ c ∈ s.candidate, c.required = false ∧ c.line < s.line) :
    s.dropStale = some { s with candidate := none } := by
  -- a candidate of an earlier line is given up
  have hrefresh : s.refresh s.candidate = some none := by
    cases h : s.candidate with
    | none => rfl
    | some c =>
      obtain ⟨hrequired, hline⟩ := hcandidate c h
      simp [refresh, isStale, hrequired, hline]
  rw [dropStale, hrefresh, houter]
  rfl

/-- A candidate on the same line is kept, if it is not too far away. -/
theorem dropStale_of_fresh (houter : s.outer = [])
    (hcandidate : ∀ c ∈ s.candidate, c.line = s.line ∧ s.index ≤ c.index + keyLimit) :
    s.dropStale = some s := by
  -- a candidate on this line is kept while it is near enough
  have hrefresh : s.refresh s.candidate = some s.candidate := by
    cases h : s.candidate with
    | none => rfl
    | some c =>
      obtain ⟨hline, hindex⟩ := hcandidate c h
      simp [refresh, isStale, hline, hindex]
  rw [dropStale, hrefresh, houter]
  obtain ⟨_, _, _, _, _, _, outer, _⟩ := s
  subst houter
  rfl

/-- A token is read after the blocks are closed that are indented further. -/
theorem step_of_token {c : Char} (hspace : s.isSpace c = false) (hbreak : isBreak c = false)
    (hhash : c ≠ '#') (hstale : s.dropStale = some s') (rest : Text) :
    s.step c rest = (s'.closeTo s'.column).token c rest := by
  simp only [step, hspace, hbreak, hhash, Bool.false_eq_true, if_false, hstale]
  rfl

/-- Within a line, characters only move the column and the index. -/
theorem advance_of_unbroken {text : Text} (h : ∀ c ∈ text, isBreak c = false) :
    s.advance text = { s with column := s.column + text.length, index := s.index + text.length } := by
  induction text generalizing s with
  | nil => rfl
  | cons c text ih =>
    obtain ⟨hc, htext⟩ := List.forall_mem_cons.mp h
    have hstep : s.stepOver c = { s with column := s.column + 1, index := s.index + 1 } := by
      simp [stepOver, hc]
    rw [advance, List.foldl_cons, hstep, ← advance, ih htext]
    simp only [List.length_cons]
    congr 1 <;> omega

/-- A dash in front of an item begins a sequence if the block around it is further out. -/
theorem step_dash {line index : Nat} {candidate : Option Candidate} {opens : List Mark} {rest : Text}
    (hindents : indents = [0] ∧ opens = [.blockSeq] ∨ indents = [2, 0] ∧ opens = [])
    (hcandidate : ∀ c ∈ candidate, c.required = false ∧ c.line < line) :
    step ⟨line, 2, index, indents, true, candidate, [], marks⟩ '-' (' ' :: rest) =
      some (⟨line, 3, index + 1, [2, 0], true, none, [], marks ++ opens ++ [.item]⟩, 0) := by
  rw [step_of_token rfl rfl (by decide) (dropStale_of_line rfl hcandidate)]
  -- the first item opens the sequence, the others go on with it
  rcases hindents with ⟨rfl, rfl⟩ | ⟨rfl, rfl⟩
  · simp [closeTo, inFlow, token, atSpace, Text.isBlank, dash, openAt, dropCandidate, emit, stepOver,
      isBreak]
  · simp [closeTo, inFlow, token, atSpace, Text.isBlank, dash, openAt, dropCandidate, emit, stepOver,
      isBreak]

/-- A scalar, with the text between its first character and what follows it. -/
theorem scalar_append (hsave : s.saveCandidate = some s') (c : Char) (body after text : Text)
    (isPlain allowed : Bool) :
    s.scalar c (body ++ after) after text isPlain allowed =
      some ({ (s'.emit (.scalar text isPlain)).advance (c :: body) with keyAllowed := allowed },
        body.length) := by
  -- what the scalar has taken is the part before `after`
  have hextra : (body ++ after).length - after.length = body.length := by
    rw [List.length_append]
    omega
  simp only [scalar, hsave, hextra, List.take_left, Option.bind_eq_bind, Option.bind_some]
  rfl

/-- A scalar on one line is added to the marks, and the place moves behind it. -/
theorem scalar_of_unbroken (hsave : s.saveCandidate = some s') {c : Char} {body : Text}
    (hunbroken : ∀ d ∈ c :: body, isBreak d = false) (after text : Text) (isPlain allowed : Bool) :
    s.scalar c (body ++ after) after text isPlain allowed =
      some ({ s' with
        column := s'.column + (body.length + 1)
        index := s'.index + (body.length + 1)
        keyAllowed := allowed
        marks := s'.marks ++ [.scalar text isPlain] }, body.length) := by
  rw [scalar_append hsave, advance_of_unbroken hunbroken]
  rfl

/-- An item could be a key, but it need not be one. -/
theorem saveCandidate_item (line index : Nat) (marks : List Mark) :
    saveCandidate ⟨line, 4, index, [2, 0], true, none, [], marks⟩ =
      some ⟨line, 4, index, [2, 0], true, some ⟨marks.length, line, 4, index, false⟩, [], marks⟩ := rfl

/-- A quoted scalar behind a dash is one step, which adds its text. -/
theorem step_quoted {line index : Nat} {text : Text} (htext : Verbatim text) (rest : Text) :
    step ⟨line, 4, index, [2, 0], true, none, [], marks⟩ '"' (text ++ '"' :: rest) =
      some (⟨line, 4 + (text.length + 2), index + (text.length + 2), [2, 0], false,
        some ⟨marks.length, line, 4, index, false⟩, [], marks ++ [.scalar text false]⟩,
        text.length + 1) := by
  -- the text stands for itself
  have hquoted : doubleQuoted .none (text ++ '"' :: rest) = some (text, rest) :=
    htext.doubleQuoted_append [] rest
  have hunbroken : ∀ c ∈ '"' :: (text ++ ['"']), isBreak c = false := by
    intro c hc
    simp only [List.mem_cons, List.mem_append, List.not_mem_nil, or_false] at hc
    rcases hc with rfl | hc | rfl
    · rfl
    · exact (htext.unbroken c hc).1
    · rfl
  have hscalar := scalar_of_unbroken (saveCandidate_item line index marks) hunbroken rest text false
    false
  rw [List.append_assoc, List.length_append] at hscalar
  rw [step_of_token rfl rfl (by decide) (dropStale_of_line rfl (by simp))]
  simpa [closeTo, inFlow, token, hquoted] using hscalar

/-- A line with a dash and a scalar in quotes, below a key or below a line of the same kind. -/
theorem LineStart.itemLine (h : LineStart s indents marks) {opens : List Mark}
    (hindents : indents = [0] ∧ opens = [.blockSeq] ∨ indents = [2, 0] ∧ opens = [])
    {text : Text} (htext : Verbatim text) :
    ∃ s', LineStart s' [2, 0] (marks ++ opens ++ [.item, .scalar text false]) ∧
      ∀ rest, s.scan ("  - \"".toList ++ text ++ "\"\n".toList ++ rest) = s'.scan rest := by
  obtain ⟨line, column, index, ind, keyAllowed, candidate, outer, ms⟩ := s
  obtain ⟨hcolumn, hkey, houter, hcandidate, hind, hms⟩ := h
  simp only at hcolumn hkey houter hcandidate hind hms
  subst hcolumn hkey houter hind hms
  obtain ⟨s', hs', hbreak⟩ := exists_lineStart
    (s := ⟨line, 4 + (text.length + 2), index + 4 + (text.length + 2), [2, 0], false,
      some ⟨(ms ++ opens ++ [Mark.item]).length, line, 4, index + 4, false⟩, [],
      ms ++ opens ++ [.item] ++ [.scalar text false]⟩) rfl (by simp)
  refine ⟨s', by simpa using hs', fun rest => ?_⟩
  have htext' : "  - \"".toList ++ text ++ "\"\n".toList ++ rest =
      ' ' :: ' ' :: '-' :: ' ' :: '"' :: (text ++ '"' :: '\n' :: rest) := by simp
  have hdrop : (text ++ '"' :: '\n' :: rest).drop (text.length + 1) = '\n' :: rest := by
    simp [List.drop_append]
  -- two blanks, the dash with a blank, and the scalar with the break
  calc
    _ = scan ⟨line, 2, index + 2, ind, true, candidate, [], ms⟩
          ('-' :: ' ' :: '"' :: (text ++ '"' :: '\n' :: rest)) := by
      rw [htext', scan_blank, scan_blank]
      rfl
    _ = scan ⟨line, 4, index + 4, [2, 0], true, none, [], ms ++ opens ++ [.item]⟩
          ('"' :: (text ++ '"' :: '\n' :: rest)) := by
      rw [scan_of_step (step_dash hindents hcandidate), List.drop_zero, scan_blank]
      rfl
    _ = s'.scan rest := by
      rw [scan_of_step (step_quoted htext _), hdrop, ← hbreak]

theorem ne_of_isLower {c d : Char} (h : c.isLower = true) (hd : d.isLower = false) : c ≠ d := by
  rintro rfl
  rw [h] at hd
  cases hd

/-- Letters have no meaning of their own in a text. -/
theorem of_isLower {c : Char} (h : c.isLower = true) :
    isBreak c = false ∧ Text.isBlank c = false ∧ isReserved c = false := by
  have hne : ∀ d : Char, d.isLower = false → c ≠ d := fun d => ne_of_isLower h
  refine ⟨?_, ?_, ?_⟩
  · simp [isBreak, hne]
  · simp [Text.isBlank, hne]
  · simp [isReserved, isFlowMark, hne]

/-- A lower case letter begins a plain scalar. -/
theorem token_of_isLower {c : Char} (h : c.isLower = true) (rest : Text) :
    s.token c rest = s.plain c rest := by
  -- neither three dashes nor three dots stand here
  have hstart : atMarker startMarker (c :: rest) = false := by
    have hdash : c ≠ '-' := ne_of_isLower h rfl
    simp [atMarker, startMarker, hdash.symm]
  have hend : atMarker endMarker (c :: rest) = false := by
    have hdot : c ≠ '.' := ne_of_isLower h rfl
    simp [atMarker, endMarker, hdot.symm]
  rw [token, hstart, hend, Bool.and_false, if_neg Bool.false_ne_true, if_neg Bool.false_ne_true]
  -- `c` is none of the characters that begin something else
  all_goals exact ne_of_isLower h rfl

/-- Letters are taken in by a plain scalar. -/
theorem plainScalar_append {word : Text} (hlower : ∀ c ∈ word, c.isLower = true)
    (indent column : Nat) (rest : Text) :
    plainScalar false indent column .none (word ++ rest) =
      (plainScalar false indent (column + word.length) .none rest).map (.prepend word) := by
  induction word generalizing column with
  | nil =>
    have hprepend : (PlainScalar.prepend [] : PlainScalar → PlainScalar) = id := rfl
    simp [hprepend]
  | cons c word ih =>
    obtain ⟨hc, hword⟩ := List.forall_mem_cons.mp hlower
    -- a letter is no break and no blank, so the word goes on
    obtain ⟨hbreak, hblank, -⟩ := of_isLower hc
    have hcolon : c ≠ ':' := ne_of_isLower hc rfl
    have hend : (Gap.none ≠ .none && endsBeforeWord false indent column c (word ++ rest)) = false := by
      simp
    have hword_end : endsWord false c (word ++ rest) = false := by simp [endsWord, hcolon]
    have hcolumn : column + 1 + word.length = column + (c :: word).length := by
      rw [List.length_cons]
      omega
    rw [List.cons_append, plainScalar, hblank, hbreak, hend, hword_end, ih hword, hcolumn]
    simp only [Bool.false_eq_true, if_false, Bool.false_and, Option.map_map]
    rfl

/-- A word at the margin is one step: it closes the section before and adds itself. -/
theorem step_word {line index : Nat} {candidate : Option Candidate} {closes : List Mark}
    {c : Char} {word : Text} (hword : IsWord (c :: word)) {inner : List Nat}
    (hindents : indents = [] ∧ closes = [] ∧ inner = [] ∨
      indents = [2, 0] ∧ closes = [.blockEnd] ∧ inner = [0])
    (hcandidate : ∀ c ∈ candidate, c.required = false ∧ c.line < line) (rest : Text) :
    step ⟨line, 0, index, indents, true, candidate, [], marks⟩ c (word ++ ':' :: '\n' :: rest) =
      some (⟨line, word.length + 1, index + (word.length + 1), inner, false,
        some ⟨(marks ++ closes).length, line, 0, index, inner.head? = some 0⟩, [],
        marks ++ closes ++ [.scalar (c :: word) true]⟩, word.length) := by
  have hc := hword.lower c List.mem_cons_self
  have hne : ∀ d : Char, d.isLower = false → c ≠ d := fun d => ne_of_isLower hc
  obtain ⟨hbreak, hblank, hreserved⟩ := of_isLower hc
  have hspace : isSpace ⟨line, 0, index, indents, true, candidate, [], marks⟩ c = false := by
    simp [isSpace, hne]
  -- at the margin the items of the section before are closed, if there is one
  have hclose : closeTo ⟨line, 0, index, indents, true, none, [], marks⟩ 0 =
      ⟨line, 0, index, inner, true, none, [], marks ++ closes⟩ := by
    rcases hindents with ⟨rfl, rfl, rfl⟩ | ⟨rfl, rfl, rfl⟩ <;> simp [closeTo, inFlow]
  -- a letter begins a plain scalar
  have hplain : startsPlain false c (word ++ ':' :: '\n' :: rest) = true := by
    simp [startsPlain, hbreak, hblank, hreserved, hne]
  have hsave : saveCandidate ⟨line, 0, index, inner, true, none, [], marks ++ closes⟩ =
      some ⟨line, 0, index, inner, true,
        some ⟨(marks ++ closes).length, line, 0, index, inner.head? = some 0⟩, [], marks ++ closes⟩ := rfl
  have hunbroken : ∀ d ∈ c :: word, isBreak d = false := fun d hd => (of_isLower (hword.lower d hd)).1
  have hscalar := scalar_of_unbroken hsave hunbroken (':' :: '\n' :: rest) (c :: word) true false
  rw [step_of_token hspace hbreak (hne _ rfl) (dropStale_of_line rfl hcandidate), hclose,
    token_of_isLower hc, plain]
  -- the colon with the break behind it ends the word
  have hread (indent : Nat) : plainScalar false indent 0 .none (c :: (word ++ ':' :: '\n' :: rest)) =
      some ⟨c :: word, ':' :: '\n' :: rest, false⟩ := by
    rw [← List.cons_append, plainScalar_append hword.lower]
    simp [plainScalar, Text.isBlank, isBreak, endsWord, atSpace, Gap.none, Gap.isBroken,
      PlainScalar.prepend]
  simp only [inFlow, List.isEmpty_nil, Bool.not_true, hplain, if_true, hread]
  simpa [inFlow] using hscalar

theorem insertIdx_length {α : Type} (xs ys : List α) (a : α) :
    (xs ++ ys).insertIdx xs.length a = xs ++ a :: ys := by
  induction xs with
  | nil => rfl
  | cons x xs ih => simp [ih]

/-- The colon puts in the marks in front of the word. -/
theorem step_colon {line index length : Nat} {between : List Mark} {text : Text} {inner : List Nat}
    {required : Bool} (hlength : 0 < length ∧ length ≤ keyLimit)
    (hinner : inner = [] ∧ between = [.blockMap] ∨ inner = [0] ∧ between = []) (rest : Text) :
    step ⟨line, length, index + length, inner, false,
        some ⟨marks.length, line, 0, index, required⟩, [], marks ++ [.scalar text true]⟩
        ':' ('\n' :: rest) =
      some (⟨line, length + 1, index + length + 1, [0], false, none, [],
        marks ++ between ++ [.key, .scalar text true, .value]⟩, 0) := by
  have hcolumn : length ≠ 0 := Nat.ne_of_gt hlength.1
  -- the candidate for a key is on this line, so it is inserted before its scalar
  rw [step_of_token (by simp [isSpace]) rfl (by decide)
    (dropStale_of_fresh rfl (by simpa using hlength.2))]
  -- the first key opens the mapping, the others go on with it
  rcases hinner with ⟨rfl, rfl⟩ | ⟨rfl, rfl⟩
  · simp [closeTo, inFlow, token, hcolumn, atSpace, isBreak, Text.isBlank, colon, openAt, emit,
      stepOver, insertIdx_length]
  · simp [closeTo, inFlow, token, hcolumn, atSpace, isBreak, Text.isBlank, colon, openAt, emit,
      stepOver, insertIdx_length]

/-- A line with a word and a colon, at the beginning of a text or below a sequence. -/
theorem LineStart.keyLine (h : LineStart s indents marks) {between : List Mark}
    (hindents : indents = [] ∧ between = [.blockMap] ∨ indents = [2, 0] ∧ between = [.blockEnd])
    {word : Text} (hword : IsWord word) :
    ∃ s', LineStart s' [0] (marks ++ between ++ [.key, .scalar word true, .value]) ∧
      ∀ rest, s.scan (word ++ ":\n".toList ++ rest) = s'.scan rest := by
  obtain ⟨line, column, index, ind, keyAllowed, candidate, outer, ms⟩ := s
  obtain ⟨hcolumn, hkey, houter, hcandidate, hind, hms⟩ := h
  simp only at hcolumn hkey houter hcandidate hind hms
  subst hcolumn hkey houter hind hms
  obtain ⟨c, word, rfl⟩ := List.exists_cons_of_ne_nil hword.ne_nil
  -- the word may end the sequence before it, and the colon may begin the mapping
  obtain ⟨closes, opens, inner, hcloses, hopens, rfl⟩ : ∃ closes opens inner,
      (ind = [] ∧ closes = [] ∧ inner = [] ∨ ind = [2, 0] ∧ closes = [.blockEnd] ∧ inner = [0]) ∧
      (inner = [] ∧ opens = [.blockMap] ∨ inner = [0] ∧ opens = []) ∧ between = closes ++ opens := by
    rcases hindents with ⟨rfl, rfl⟩ | ⟨rfl, rfl⟩
    · exact ⟨[], [.blockMap], [], by simp, by simp, rfl⟩
    · exact ⟨[.blockEnd], [], [0], by simp, by simp, rfl⟩
  obtain ⟨s', hs', hbreak⟩ := exists_lineStart
    (s := ⟨line, word.length + 1 + 1, index + (word.length + 1) + 1, [0], false, none, [],
      ms ++ closes ++ opens ++ [.key, .scalar (c :: word) true, .value]⟩) rfl (by simp)
  refine ⟨s', by simpa using hs', fun rest => ?_⟩
  have htext : c :: word ++ ":\n".toList ++ rest = c :: (word ++ ':' :: '\n' :: rest) := by simp
  have hlength : 0 < word.length + 1 ∧ word.length + 1 ≤ keyLimit :=
    ⟨Nat.succ_pos _, by simpa using hword.short⟩
  -- the word, and the colon with the break
  calc
    _ = scan ⟨line, word.length + 1, index + (word.length + 1), inner, false,
          some ⟨(ms ++ closes).length, line, 0, index, inner.head? = some 0⟩, [],
          ms ++ closes ++ [.scalar (c :: word) true]⟩ (':' :: '\n' :: rest) := by
      rw [htext, scan_of_step (step_word hword hcloses hcandidate rest), List.drop_left]
    _ = s'.scan rest := by
      rw [scan_of_step (step_colon hlength hopens rest), List.drop_zero, ← hbreak]

/-- At the end everything open is closed, unless a key is required. -/
theorem finish_of_optional (houter : s.outer = [])
    (hcandidate : ∀ c ∈ s.candidate, c.required = false) :
    s.finish = some (s.marks ++ s.indents.map fun _ => .blockEnd) := by
  obtain ⟨candidate, hrefresh, hoptional⟩ : ∃ candidate, s.refresh s.candidate = some candidate ∧
      candidate.any (·.required) = false := by
    cases h : s.candidate with
    | none => exact ⟨none, rfl, rfl⟩
    | some c =>
      have hc := hcandidate c h
      -- a stale candidate is dropped, which it may be since no key is required
      by_cases hstale : s.isStale c = true
      · exact ⟨none, by simp [refresh, hstale, hc], rfl⟩
      · exact ⟨some c, by simp [refresh, hstale], by simp [hc]⟩
  have hdrop : s.dropStale = some { s with candidate := candidate } := by
    rw [dropStale, hrefresh, houter]
    rfl
  simp [finish, hdrop, closeAll, inFlow, houter, dropCandidate, hoptional]

/-- Moving the place changes nothing else. -/
theorem advance_keeps (text : Text) : (s.advance text).indents = s.indents ∧
    (s.advance text).outer = s.outer ∧ (s.advance text).marks = s.marks ∧
    (s.advance text).candidate = s.candidate := by
  induction text generalizing s with
  | nil => exact ⟨rfl, rfl, rfl, rfl⟩
  | cons c text ih =>
    rw [advance, List.foldl_cons, ← advance]
    have hstep : (s.stepOver c).indents = s.indents ∧ (s.stepOver c).outer = s.outer ∧
        (s.stepOver c).marks = s.marks ∧ (s.stepOver c).candidate = s.candidate := by
      rw [stepOver]
      split <;> exact ⟨rfl, rfl, rfl, rfl⟩
    obtain ⟨hindents, houter, hmarks, hcandidate⟩ := ih (s := s.stepOver c)
    exact ⟨hindents.trans hstep.1, houter.trans hstep.2.1, hmarks.trans hstep.2.2.1,
      hcandidate.trans hstep.2.2.2⟩

/-- A word that is the last item of a text. -/
theorem step_lastWord (line index : Nat) (marks : List Mark) {c : Char} {word : Text}
    (hword : IsWord (c :: word)) :
    ∃ s', step ⟨line, 4, index, [2, 0], true, none, [], marks⟩ c (word ++ ['\n']) =
        some (s', (word ++ ['\n']).length) ∧ s'.outer = [] ∧ s'.indents = [2, 0] ∧
      s'.marks = marks ++ [.scalar (c :: word) true] ∧ ∀ k ∈ s'.candidate, k.required = false := by
  have hc := hword.lower c List.mem_cons_self
  have hne : ∀ d : Char, d.isLower = false → c ≠ d := fun d => ne_of_isLower hc
  obtain ⟨hbreak, hblank, hreserved⟩ := of_isLower hc
  -- a plain scalar reads past the break to see whether it goes on, and here the text ends
  have hread : plainScalar false 3 4 .none (c :: (word ++ ['\n'])) = some ⟨c :: word, [], true⟩ := by
    rw [← List.cons_append, plainScalar_append hword.lower]
    simp [plainScalar, Text.isBlank, isBreak, Gap.none, Gap.addBreak, Gap.isBroken,
      PlainScalar.prepend]
  have hplain : startsPlain false c (word ++ ['\n']) = true := by
    simp [startsPlain, hbreak, hblank, hreserved, hne]
  have hscalar := scalar_append (saveCandidate_item line index marks) c (word ++ ['\n']) [] (c :: word)
    true true
  rw [List.append_nil] at hscalar
  have hclose : closeTo ⟨line, 4, index, [2, 0], true, none, [], marks⟩ 4 =
      ⟨line, 4, index, [2, 0], true, none, [], marks⟩ := by
    simp [closeTo, inFlow]
  -- the step is the one of a plain scalar
  have hstep : step ⟨line, 4, index, [2, 0], true, none, [], marks⟩ c (word ++ ['\n']) =
      scalar ⟨line, 4, index, [2, 0], true, none, [], marks⟩ c (word ++ ['\n']) [] (c :: word)
        true true := by
    rw [step_of_token (by simp [isSpace, hne]) hbreak (hne _ rfl) (dropStale_of_line rfl (by simp)),
      hclose, token_of_isLower hc, plain]
    simp only [inFlow, List.isEmpty_nil, Bool.not_true, hplain, if_true, List.head?_cons, hread,
      Option.bind_eq_bind, Option.bind_some]
  obtain ⟨hindents, houter, hmarks, hcandidate⟩ := advance_keeps (c :: (word ++ ['\n']))
    (s := emit ⟨line, 4, index, [2, 0], true, some ⟨marks.length, line, 4, index, false⟩, [], marks⟩
      (.scalar (c :: word) true))
  refine ⟨_, hstep.trans hscalar, houter, hindents, hmarks, fun k hk => ?_⟩
  obtain rfl := Option.some.inj (hcandidate.symm.trans hk)
  rfl

/-- A line with a dash and a word, below a key and at the end of the text. -/
theorem LineStart.lastLine (h : LineStart s [0] marks) {word : Text} (hword : IsWord word) :
    s.scan ("  - ".toList ++ word ++ ['\n']) =
      some (marks ++ [.blockSeq, .item, .scalar word true, .blockEnd, .blockEnd]) := by
  obtain ⟨line, column, index, ind, keyAllowed, candidate, outer, ms⟩ := s
  obtain ⟨hcolumn, hkey, houter, hcandidate, hind, hms⟩ := h
  simp only at hcolumn hkey houter hcandidate hind hms
  subst hcolumn hkey houter hind hms
  obtain ⟨c, word, rfl⟩ := List.exists_cons_of_ne_nil hword.ne_nil
  obtain ⟨s', hstep, houter, hindents, hmarks, hoptional⟩ :=
    step_lastWord line (index + 4) (ms ++ [.blockSeq] ++ [.item]) hword
  have htext : "  - ".toList ++ c :: word ++ ['\n'] =
      ' ' :: ' ' :: '-' :: ' ' :: c :: (word ++ ['\n']) := by simp
  -- two blanks, the dash with a blank, and the word with the break, where the text ends
  calc
    _ = scan ⟨line, 2, index + 2, [0], true, candidate, [], ms⟩
          ('-' :: ' ' :: c :: (word ++ ['\n'])) := by
      rw [htext, scan_blank, scan_blank]
      rfl
    _ = scan ⟨line, 4, index + 4, [2, 0], true, none, [], ms ++ [.blockSeq] ++ [.item]⟩
          (c :: (word ++ ['\n'])) := by
      rw [scan_of_step (step_dash (.inl ⟨rfl, rfl⟩) hcandidate), List.drop_zero, scan_blank]
      rfl
    _ = s'.finish := by
      rw [scan_of_step hstep, List.drop_length, scan]
    _ = _ := by
      rw [finish_of_optional houter hoptional, hmarks, hindents]
      simp

end Scanner

end Docblock.Yaml
