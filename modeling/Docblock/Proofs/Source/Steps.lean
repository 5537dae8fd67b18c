import Docblock.Proofs.Source.Twins

/-!
# Steps of the scanner before a doc comment

One step of the scanner that ends before the next doc comment is the same in a file and in its
formatted copy, whatever its mode.

1. Steps in markup and in code.
2. `State.Proper`: the quotes and labels of a state come from the code, so none of them begins with
   a `/`.
3. `Twins.reads_eq`: a step in any mode.
4. `codeStep_isDoc`, `Mode.code_of_isDoc`: the steps that read a doc comment.
-/

namespace Docblock.Source

open Token (isVarStart isVarPart runLength)

/-! ## Section 1: Steps in markup and in code -/

/-- Three characters tell whether a doc comment opens. -/
theorem opensDoc_take (x : Text) : opensDoc x = opensDoc (x.take 3) := by
  -- a text of fewer than three characters is all that is looked at
  rcases x with _ | ⟨a, _ | ⟨b, _ | ⟨c, x⟩⟩⟩
  · rfl
  · rfl
  · rfl
  · unfold opensDoc
    split
    · next heq =>
      cases heq
      rfl
    · next hnot =>
      split
      · next heq =>
        cases heq
        exact absurd rfl (hnot _ _)
      · rfl

/-- No other kind of code begins like a word. -/
theorem codeStep_word {c : Char} (hc : isVarStart c = true) (x : Text) :
    codeStep c x = wordStep c x := by
  unfold codeStep
  split
  all_goals first
    | exact absurd hc (by decide)
    | exact if_pos hc

namespace Twins

variable {n : Nat} {x y : Text}

/-- A step in markup. -/
theorem markupStep_eq (h : Twins n x y) {c : Char} (hn : (markupStep c x).extra ≤ n) :
    markupStep c y = markupStep c x := by
  unfold markupStep at hn ⊢
  rw [← h.head?_eq]
  split
  · next htag =>
    -- an opening tag is read to its end, which is before the comment
    rw [Bool.and_eq_true, decide_eq_true_eq, decide_eq_true_eq] at htag
    obtain ⟨z, rfl⟩ := List.head?_eq_some_iff.mp htag.2
    cases h with
    | cons _ h =>
      simp only [List.tail_cons, h.take_three, h.head?_eq]
      rfl
  · next htag =>
    rw [if_neg htag] at hn
    -- the next opening tag is found before the comment, or there is none and the text has ended
    cases hfound : lengthBefore? "<?".toList x with
    | some k =>
      rw [hfound, Option.getD_some] at hn
      have hfound' : lengthBefore? "<?".toList y = some k :=
        h.lengthBefore?_eq (by decide) hfound hn
      rw [hfound']
      rfl
    | none =>
      rw [hfound, Option.getD_none] at hn
      rw [h.eq_of_length_le hn] at hfound ⊢
      rw [hfound]

/-- A word of the code. -/
theorem wordStep_eq (h : Twins n x y) {c : Char} (hn : (wordStep c x).extra ≤ n) :
    wordStep c y = wordStep c x := by
  unfold wordStep at hn ⊢
  simp only [← (h.takeWhile_eq not_isVarPart_slash).1] at hn ⊢
  split
  · next hhalt =>
    rw [if_pos hhalt] at hn
    -- a word that halts the compiler takes the rest of the file with it
    rw [h.eq_of_length_le hn]
  · rfl

theorem opensDoc_eq (h : Twins n x y) : opensDoc x = opensDoc y := by
  rw [opensDoc_take x, opensDoc_take y, h.take_three]

/-- A block comment, which ends at its delimiter or with the text. -/
theorem blockCommentStep_eq (h : Twins n x y) (hn : (blockCommentStep x).extra ≤ n) :
    blockCommentStep y = blockCommentStep x := by
  unfold blockCommentStep at hn ⊢
  cases hfound : lengthBefore? "*/".toList (x.drop 1) with
  | some k =>
    simp only [hfound] at hn
    obtain ⟨-, hrest⟩ := h.drop (show 1 ≤ n by omega)
    have hclose : lengthBefore? "*/".toList (y.drop 1) = some k :=
      hrest.lengthBefore?_eq (by decide) hfound (by omega)
    rw [hclose, h.opensDoc_eq]
  -- an unclosed comment takes the rest of the file with it, so both files have ended
  | none =>
    simp only [hfound] at hn
    rw [h.eq_of_length_le hn] at hfound ⊢
    rw [hfound]

/-- What begins with a slash: a comment of a line, a block comment, or a slash by itself. -/
theorem slashStep_eq (h : Twins n x y) (hn : (codeStep '/' x).extra ≤ n) :
    codeStep '/' y = codeStep '/' x := by
  cases h with
  | nil => rfl
  | doc x y hd hd' =>
    -- `//**` is a comment of a line, and its second character is the comment's first
    have hlength : lineCommentLength ('/' :: '*' :: '*' :: _ :: x) ≤ 0 := hn
    rw [lineCommentLength_cons] at hlength
    simp at hlength
  | @cons n x y c h =>
    by_cases hline : c = '/'
    · subst hline
      show (⟨lineCommentLength ('/' :: y), false, .code⟩ : Step)
        = ⟨lineCommentLength ('/' :: x), false, .code⟩
      rw [(h.cons '/').lineCommentLength_eq hn]
    · by_cases hblock : c = '*'
      · subst hblock
        exact (h.cons '*').blockCommentStep_eq hn
      · simp [codeStep, hline, hblock]

/-- What begins with a double quote: a string, or a template if it holds an expression. -/
theorem quoteStep_eq (h : Twins n x y) (hn : (codeStep '"' x).extra ≤ n)
    (hquote : holdsExpression x = true → quotedRun '"' false x ≤ n) :
    codeStep '"' y = codeStep '"' x := by
  have hstep : ∀ z, codeStep '"' z = if holdsExpression z then ⟨0, false, .template (.quotes '"')⟩
      else ⟨quotedLength '"' z, false, .code⟩ := fun _ => rfl
  rw [hstep] at hn
  rw [hstep, hstep]
  cases hholds : holdsExpression x with
  | true =>
    rw [h.holdsExpression_eq (hquote hholds), hholds]
    rfl
  | false =>
    rw [hholds] at hn
    have hrun : quotedRun '"' false x ≤ n := (quotedRun_le_quotedLength '"' x).trans hn
    rw [h.holdsExpression_eq hrun, hholds, h.quotedLength_eq hn]

/-- A step of code that ends before the comment.  Whether a string in double quotes holds an
expression has to be settled before it, too. -/
theorem codeStep_eq (h : Twins n x y) {c : Char} (hn : (codeStep c x).extra ≤ n)
    (hquote : c = '"' → holdsExpression x = true → quotedRun '"' false x ≤ n) :
    codeStep c y = codeStep c x := by
  unfold codeStep at hn ⊢
  -- one case for each kind of code: it is decided by the first characters, which are shared
  split
  · -- a question mark, which closes the code if `>` follows
    rw [h.head?_eq]
  · exact h.slashStep_eq hn
  · rw [← h.head?_eq]
    split
    · rfl
    · next hattribute =>
      have hn' : (if x.head? = some '[' then (⟨0, false, .code⟩ : Step)
        else ⟨lineCommentLength x, false, .code⟩).extra ≤ n := hn
      rw [if_neg hattribute] at hn'
      rw [h.lineCommentLength_eq hn']
  · rw [h.quotedLength_eq hn]
  · exact h.quoteStep_eq hn (hquote rfl)
  · rfl
  · rw [h.heredocOpening?_eq]
  · rw [(h.runLength_eq not_isVarPart_slash).1]
  · rw [(h.runLength_eq not_isVarPart_slash).1]
  · next hother =>
    split
    · next hword =>
      have hn' : (codeStep c x).extra ≤ n := hn
      rw [codeStep_word hword] at hn'
      exact h.wordStep_eq hn'
    · rfl

end Twins

/-! ## Section 2: Proper states -/

/-- The strings that the code can open. -/
def Enclosure.Proper : Enclosure → Prop
  | .quotes close => close = '"' ∨ close = '\x60'
  | .heredoc label => IsLabel label

/-- The modes that a file can come to. -/
def Mode.Proper : Mode → Prop
  | .template enclosure => enclosure.Proper
  | .verbatim label => IsLabel label
  | .markup | .code | .data => True

/-- A state that a file can come to. -/
structure State.Proper (s : State) : Prop where
  mode : s.mode.Proper
  frames : ∀ frame ∈ s.frames, frame.enclosure.Proper

theorem blockCommentStep_proper (x : Text) : (blockCommentStep x).mode.Proper := by
  unfold blockCommentStep
  split <;> trivial

theorem wordStep_proper (c : Char) (x : Text) : (wordStep c x).mode.Proper := by
  unfold wordStep
  simp only
  split <;> trivial

/-- A step in code leads to a proper mode: its quotes and its label are none that begin with a
slash. -/
theorem codeStep_proper (c : Char) (x : Text) : (codeStep c x).mode.Proper := by
  unfold codeStep
  split
  · split <;> trivial
  · split
    · trivial
    · exact blockCommentStep_proper _
    · trivial
  · split <;> trivial
  · trivial
  · split
    · -- a double quote opens a template only if it holds an expression
      exact .inl rfl
    · trivial
  · exact .inr rfl
  · split
    · next hopening =>
      have hlabel := isLabel_of_heredocOpening? hopening
      simp only
      split
      · exact hlabel
      · exact hlabel
    · trivial
  · trivial
  · trivial
  · split
    · exact wordStep_proper c x
    · trivial

/-- A step in a template stays in its enclosure or leaves it. -/
theorem templateStep?_proper {enclosure : Enclosure} (h : enclosure.Proper) {c : Char} {x : Text}
    {step : Step} (hstep : templateStep? enclosure c x = some step) : step.mode.Proper := by
  unfold templateStep? at hstep
  -- quotes first, then a heredoc; each stays as it is, or closes and goes back to code
  split at hstep
  · split at hstep
    · cases hstep
      trivial
    · split at hstep
      · cases hstep
      · cases hstep
        exact h
  · split at hstep
    · cases hstep
    · cases hstep
      simp only
      split
      · trivial
      · exact h

/-- What is read from a string where nothing of it is left before an expression. -/
theorem opensExpression_of_templateStep? {enclosure : Enclosure} (h : enclosure.Proper) {c : Char}
    {x : Text} (hstep : templateStep? enclosure c x = none) : opensExpression (c :: x) = true := by
  unfold templateStep? at hstep
  split at hstep
  · -- nothing is left before the expression only if the run of text is empty
    next close =>
    split at hstep
    · cases hstep
    · next hclose =>
      split at hstep
      · next hrun =>
        rw [quotedRun] at hrun
        split at hrun
        · cases hrun
        · split at hrun
          · next hopens => simpa [hclose] using hopens
          · cases hrun
      · cases hstep
  · next label =>
    split at hstep
    · next closed hrun =>
      rw [heredocRun_cons] at hrun
      split at hrun
      · cases hrun
      · split at hrun
        · cases hrun
        · split at hrun
          · next hopens => simpa using hopens
          · split at hrun
            · -- a label has a length
              exact absurd (List.length_eq_zero_iff.mp (congrArg Prod.fst hrun)) h.1
            · cases hrun
    · cases hstep

/-- The step at a place of a file, and the string in which an expression begins there. -/
def Mode.reads (mode : Mode) (c : Char) (rest : Text) : Step × Option Enclosure :=
  match mode with
  | .markup => (markupStep c rest, none)
  | .code => (codeStep c rest, none)
  | .verbatim label => (verbatimStep label c rest, none)
  | .data => (⟨rest.length, false, .data⟩, none)
  | .template enclosure =>
    match templateStep? enclosure c rest with
    | some step => (step, none)
    | none => (codeStep c rest, some enclosure)

/-- The frame of an expression that begins at the front of a text. -/
def opened (opening : Option Enclosure) (x : Text) : List Frame :=
  (opening.map fun enclosure => ⟨expressionLength x, enclosure⟩).toList

/-- The step of a state depends on its mode only. -/
theorem State.next_eq_reads (s : State) (c : Char) (x : Text) :
    s.next c x =
      ((s.mode.reads c x).1, opened (s.mode.reads c x).2 (c :: x) ++ s.frames) := by
  obtain ⟨mode, frames⟩ := s
  cases mode with
  | markup | code | verbatim | data => rfl
  | template enclosure =>
    simp only [State.next, Mode.reads]
    cases templateStep? enclosure c x <;> rfl

/-- The state after a step. -/
def State.after (s : State) (c : Char) (x : Text) : State :=
  let (step, opening) := s.mode.reads c x
  State.settle (step.extra + 1) ⟨step.mode, opened opening (c :: x) ++ s.frames⟩

theorem segmentsFrom_cons (s : State) (c : Char) (x : Text) :
    segmentsFrom s (c :: x) =
      ⟨(s.mode.reads c x).1.isDoc, c :: x.take (s.mode.reads c x).1.extra⟩ ::
        segmentsFrom (s.after c x) (x.drop (s.mode.reads c x).1.extra) := by
  rw [segmentsFrom, State.next_eq_reads]
  rfl

/-- From a proper mode every step leads to one, and an expression that begins has a proper enclosure
around it. -/
theorem Mode.Proper.reads {mode : Mode} (h : mode.Proper) (c : Char) (x : Text) :
    (mode.reads c x).1.mode.Proper ∧
      ∀ enclosure ∈ (mode.reads c x).2,
        enclosure.Proper ∧ opensExpression (c :: x) = true := by
  unfold Mode.reads
  split
  · refine ⟨?_, by simp⟩
    simp only [markupStep]
    split <;> trivial
  · exact ⟨codeStep_proper c x, by simp⟩
  · refine ⟨?_, by simp⟩
    simp only [verbatimStep]
    split
    · trivial
    · exact h
  · exact ⟨trivial, by simp⟩
  · split
    · next hstep => exact ⟨templateStep?_proper h hstep, by simp⟩
    · next hstep =>
      refine ⟨codeStep_proper c x, ?_⟩
      rintro _ ⟨⟩
      exact ⟨h, opensExpression_of_templateStep? h hstep⟩

namespace State.Proper

variable {s : State}

/-- Counting the characters of the frames down leaves a state proper. -/
theorem settle (h : s.Proper) (n : Nat) : (s.settle n).Proper := by
  obtain ⟨mode, frames⟩ := s
  obtain ⟨hmode, hframes⟩ := h
  -- the mode changes only to that of the innermost frame, which is proper as well
  cases frames with
  | nil => exact ⟨hmode, hframes⟩
  | cons frame frames =>
    have hleft : ∀ f ∈ (frame :: frames).map fun f => { f with left := f.left - n },
        f.enclosure.Proper := by
      intro f hf
      obtain ⟨g, hg, rfl⟩ := List.mem_map.mp hf
      exact hframes g hg
    obtain ⟨hfirst, hothers⟩ := List.forall_mem_cons.mp hleft
    simp only [State.settle, List.map_cons]
    split
    · exact ⟨hfirst, hothers⟩
    · exact ⟨hmode, hleft⟩

theorem after (h : s.Proper) (c : Char) (x : Text) : (s.after c x).Proper := by
  obtain ⟨hstep, hopening⟩ := h.mode.reads c x
  apply State.Proper.settle
  refine ⟨hstep, List.forall_mem_append.mpr ⟨?_, h.frames⟩⟩
  intro frame hframe
  obtain ⟨enclosure, henclosure, rfl⟩ := Option.map_eq_some_iff.mp (Option.mem_toList.mp hframe)
  exact (hopening enclosure henclosure).1

end State.Proper

/-! ## Section 3: One step before a doc comment -/

namespace Twins

variable {n : Nat} {x y : Text}

/-- A step in a template. -/
theorem templateStep?_eq (h : Twins n x y) {enclosure : Enclosure} (hproper : enclosure.Proper)
    {c : Char} (hn : ∀ step, templateStep? enclosure c x = some step → step.extra ≤ n) :
    templateStep? enclosure c y = templateStep? enclosure c x := by
  unfold templateStep? at hn ⊢
  cases enclosure with
  | quotes close =>
    simp only at hn ⊢
    split
    · rfl
    · next hclose =>
      have hslash : close ≠ '/' := by
        rcases hproper with rfl | rfl
        · decide
        · decide
      rw [if_neg hclose] at hn
      have hrun : quotedRun close false (c :: y) = quotedRun close false (c :: x) := by
        apply (h.cons c).quotedRun_eq hslash
        cases hrun : quotedRun close false (c :: x) with
        | zero => omega
        | succ k =>
          rw [hrun] at hn
          exact Nat.succ_le_succ (hn _ rfl)
      rw [hrun]
  | heredoc label =>
    simp only at hn ⊢
    have hrun : heredocRun label false true false (c :: y) =
        heredocRun label false true false (c :: x) := by
      apply (h.cons c).heredocRun_eq hproper
      rcases hrun : heredocRun label false true false (c :: x) with ⟨_ | k, closed⟩
      · exact Nat.zero_le _
      · rw [hrun] at hn
        exact Nat.succ_le_succ (hn _ rfl)
    rw [hrun]

theorem verbatimStep_eq (h : Twins n x y) {label : Text} (hlabel : IsLabel label) {c : Char}
    (hn : (verbatimStep label c x).extra ≤ n) : verbatimStep label c y = verbatimStep label c x := by
  unfold verbatimStep at hn ⊢
  rw [(h.cons c).heredocRun_eq hlabel (by simp only at hn; omega)]

/-- A step that ends before the comment. -/
theorem reads_eq (h : Twins n x y) {mode : Mode} (hproper : mode.Proper) {c : Char}
    (hn : (mode.reads c x).1.extra ≤ n)
    (hquote : mode = .code → c = '"' → holdsExpression x = true → quotedRun '"' false x ≤ n) :
    mode.reads c y = mode.reads c x := by
  unfold Mode.reads at hn ⊢
  -- one case per mode; a template reads code where an expression begins
  cases mode with
  | markup => exact congrArg (·, none) (h.markupStep_eq hn)
  | code => exact congrArg (·, none) (h.codeStep_eq hn (hquote rfl))
  | verbatim label => exact congrArg (·, none) (h.verbatimStep_eq hproper hn)
  | data => rw [h.eq_of_length_le hn]
  | template enclosure =>
    simp only at hn ⊢
    have hsame : templateStep? enclosure c y = templateStep? enclosure c x := by
      apply h.templateStep?_eq hproper
      intro step hstep
      rw [hstep] at hn
      exact hn
    rw [hsame]
    cases hstep : templateStep? enclosure c x with
    | some step => rfl
    | none =>
      rw [hstep] at hn
      have hcode : codeStep c y = codeStep c x := by
        apply h.codeStep_eq hn
        -- no expression begins with a quote
        rintro rfl
        have hopens := opensExpression_of_templateStep? hproper hstep
        rw [opensExpression_cons] at hopens
        simp at hopens
      exact congrArg (·, some enclosure) hcode

end Twins

/-! ## Section 4: Doc comments -/

theorem markupStep_isDoc (c : Char) (x : Text) : (markupStep c x).isDoc = false := by
  unfold markupStep
  split <;> rfl

theorem wordStep_isDoc (c : Char) (x : Text) : (wordStep c x).isDoc = false := by
  unfold wordStep
  simp only
  split <;> rfl

/-- Nor is the text of a template. -/
theorem templateStep?_isDoc {enclosure : Enclosure} {c : Char} {x : Text} {step : Step}
    (h : templateStep? enclosure c x = some step) : step.isDoc = false := by
  unfold templateStep? at h
  split at h
  · split at h
    · cases h
      rfl
    · split at h
      · cases h
      · cases h
        rfl
  · split at h
    · cases h
    · cases h
      rfl

/-- A doc comment in the code, up to the delimiter that closes it. -/
theorem codeStep_isDoc {c : Char} {x : Text} (h : (codeStep c x).isDoc = true) :
    c = '/' ∧ opensDoc x = true ∧
      ∃ k, lengthBefore? "*/".toList (x.drop 1) = some k ∧ codeStep c x = ⟨k + 3, true, .code⟩ := by
  unfold codeStep at h
  -- of all kinds of code only a block comment can be a doc comment
  split at h
  · split at h <;> cases h
  · split at h
    · cases h
    · next z =>
      have hstep : codeStep '/' ('*' :: z) = blockCommentStep ('*' :: z) := rfl
      rw [hstep]
      unfold blockCommentStep at h ⊢
      split at h
      · next k hk =>
        have hopens : opensDoc ('*' :: z) = true := h
        rw [hk, hopens]
        exact ⟨rfl, rfl, k, rfl, rfl⟩
      · cases h
    · cases h
  · split at h <;> cases h
  · cases h
  · split at h <;> cases h
  · cases h
  · split at h <;> cases h
  · cases h
  · cases h
  · split at h
    · rw [wordStep_isDoc] at h
      cases h
    · cases h

/-- Doc comments are read from the code only. -/
theorem Mode.code_of_isDoc {mode : Mode} (hproper : mode.Proper) {c : Char} {x : Text}
    (h : (mode.reads c x).1.isDoc = true) : mode = .code := by
  unfold Mode.reads at h
  -- a template has a doc comment only where it reads code, and no expression begins with a slash
  cases mode with
  | code => rfl
  | markup => simp [markupStep_isDoc] at h
  | verbatim label => cases h
  | data => cases h
  | template enclosure =>
    simp only at h
    cases hstep : templateStep? enclosure c x with
    | some step => simp [hstep, templateStep?_isDoc hstep] at h
    | none =>
      rw [hstep] at h
      obtain ⟨rfl, -⟩ := codeStep_isDoc h
      have hopens := opensExpression_of_templateStep? hproper hstep
      rw [opensExpression_cons] at hopens
      simp at hopens

end Docblock.Source
