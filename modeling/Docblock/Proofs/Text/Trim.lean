import Docblock.Text.Basic
import Mathlib.Data.List.TakeWhile
import Mathlib.Tactic.Common

/-!
# Texts without white space at their ends

A text is cut into the white space in front, its trimmed part and the white space behind, and the
trimmed part is all that trimming keeps of it.
-/

namespace Docblock.Text

/-! ## Section 1: One end -/

variable {p : Char → Bool} {s d e : Text}

/-- All characters of a text are blanks. -/
def Blanks (b : Text) : Prop :=
  ∀ c ∈ b, isBlank c = true

instance (b : Text) : Decidable (Blanks b) :=
  List.decidableBAll _ b

theorem Blanks.head {b : Text} (h : Blanks b) : ∀ d ∈ b.head?, isBlank d = true :=
  fun d hd => h d (List.mem_of_mem_head? hd)

/-- The last character, if there is one, does not satisfy `p`. -/
def EndsOff (p : Char → Bool) (s : Text) : Prop :=
  ∀ c ∈ s.getLast?, p c = false

/-- What is dropped at the end is of the kind, and what is kept does not end in it. -/
theorem exists_dropEndWhile (p : Char → Bool) (s : Text) :
    ∃ e, s = dropEndWhile p s ++ e ∧ (∀ c ∈ e, p c = true) ∧ EndsOff p (dropEndWhile p s) := by
  refine ⟨(s.reverse.takeWhile p).reverse, ?_, ?_, ?_⟩
  · rw [dropEndWhile, ← List.reverse_append, List.takeWhile_append_dropWhile, List.reverse_reverse]
  · intro c hc
    exact List.mem_takeWhile_imp (List.mem_reverse.mp hc)
  · intro c hc
    rw [dropEndWhile, List.getLast?_reverse] at hc
    have := List.head?_dropWhile_not p s.reverse
    rw [Option.mem_def.mp hc] at this
    simpa using this

/-- Exactly the end that is of the kind is dropped. -/
theorem dropEndWhile_append (hd : EndsOff p d) (he : ∀ c ∈ e, p c = true) :
    dropEndWhile p (d ++ e) = d := by
  have hrev : ∀ c ∈ e.reverse, p c = true := fun c hc => he c (List.mem_reverse.mp hc)
  rw [dropEndWhile, List.reverse_append, List.dropWhile_append_of_pos hrev]
  -- read backwards, nothing of `d` is dropped
  have hhead : d.reverse.dropWhile p = d.reverse := by
    cases hx : d.reverse with
    | nil => rfl
    | cons c x =>
      have hc : p c = false := hd c (by rw [← List.head?_reverse, hx]; rfl)
      rw [List.dropWhile_cons_of_neg (by simp [hc])]
  rw [hhead, List.reverse_reverse]

theorem endsOff_append (hs : s ≠ []) : EndsOff p (d ++ s) ↔ EndsOff p s := by
  unfold EndsOff
  rw [List.getLast?_append, List.getLast?_eq_some_getLast hs, Option.some_or]

theorem isSpace_of_isBlank {c : Char} (h : isBlank c = true) : isSpace c = true := by
  simp only [isBlank, Bool.or_eq_true, beq_iff_eq] at h
  rcases h with rfl | rfl <;> decide

theorem Blanks.isSpace {b : Text} (h : Blanks b) : ∀ c ∈ b, isSpace c = true :=
  fun c hc => isSpace_of_isBlank (h c hc)

theorem endsOff_isBlank (h : EndsOff isSpace s) : EndsOff isBlank s := by
  intro c hc
  by_contra hne
  rw [Bool.not_eq_false] at hne
  have := h c hc
  rw [isSpace_of_isBlank hne] at this
  cases this

theorem trimLine_append (hd : EndsOff isBlank d) (he : Blanks e) :
    trimLine (d ++ e) = d :=
  dropEndWhile_append hd he

theorem trimLine_eq_self (hd : EndsOff isBlank d) : trimLine d = d := by
  have := trimLine_append hd (e := []) (by simp [Blanks])
  rwa [List.append_nil] at this

/-! ## Section 2: Both ends -/

/-- No white space at either end. -/
structure Trimmed (s : Text) : Prop where
  front : ∀ c ∈ s.head?, isSpace c = false
  back : EndsOff isSpace s

theorem trimmed_nil : Trimmed [] :=
  ⟨by simp, by simp [EndsOff]⟩

theorem exists_trim (s : Text) :
    ∃ a e, s = a ++ (trim s ++ e) ∧ (∀ c ∈ a, isSpace c = true) ∧ ∀ c ∈ e, isSpace c = true := by
  obtain ⟨e, hs, he, -⟩ := exists_dropEndWhile isSpace (s.dropWhile isSpace)
  refine ⟨s.takeWhile isSpace, e, ?_, fun c hc => List.mem_takeWhile_imp hc, he⟩
  rw [trim, ← hs, List.takeWhile_append_dropWhile]

/-- What is left is trimmed. -/
theorem trimmed_trim (s : Text) : Trimmed (trim s) := by
  obtain ⟨e, hs, he, hend⟩ := exists_dropEndWhile isSpace (s.dropWhile isSpace)
  refine ⟨?_, hend⟩
  intro c hc
  have hhead := List.head?_dropWhile_not isSpace s
  -- its first character is the first one that is no white space
  have hfirst : (s.dropWhile isSpace).head? = some c := by
    rw [hs, List.head?_append]
    rw [show dropEndWhile isSpace (s.dropWhile isSpace) = trim s from rfl, Option.mem_def.mp hc]
    rfl
  rw [hfirst] at hhead
  simpa using hhead

/-- A trimmed text is what trimming finds between white space. -/
theorem trim_append {a : Text} (ha : ∀ c ∈ a, isSpace c = true) (hd : Trimmed d)
    (he : ∀ c ∈ e, isSpace c = true) : trim (a ++ (d ++ e)) = d := by
  rw [trim, List.dropWhile_append_of_pos ha]
  cases d with
  | nil =>
    have hnil : e.dropWhile isSpace = [] := List.dropWhile_eq_nil_iff.mpr he
    rw [List.nil_append, hnil]
    rfl
  | cons c d =>
    have hc : isSpace c = false := hd.front c rfl
    rw [List.cons_append, List.dropWhile_cons_of_neg (by simp [hc]), ← List.cons_append]
    exact dropEndWhile_append hd.back he

theorem trim_eq_self (hd : Trimmed d) : trim d = d := by
  have := trim_append (a := []) (e := []) (by simp) hd (by simp)
  simpa using this

/-- White space that is added at the ends is trimmed off. -/
theorem trim_append_space {a : Text} (ha : ∀ c ∈ a, isSpace c = true) (s : Text)
    (he : ∀ c ∈ e, isSpace c = true) : trim (a ++ (s ++ e)) = trim s := by
  obtain ⟨a', e', hs, ha', he'⟩ := exists_trim s
  have hsplit : a ++ (s ++ e) = (a ++ a') ++ (trim s ++ (e' ++ e)) := by
    conv_lhs => rw [hs]
    simp
  rw [hsplit]
  exact trim_append (List.forall_mem_append.mpr ⟨ha, ha'⟩) (trimmed_trim s)
    (List.forall_mem_append.mpr ⟨he', he⟩)

/-! ## Section 3: Plain text -/

/-- The only white space of a text are blanks and line breaks. -/
def Plain (s : Text) : Prop :=
  ∀ c ∈ s, isSpace c = true → c = ' ' ∨ c = '\t' ∨ c = '\n'

instance (s : Text) : Decidable (Plain s) :=
  List.decidableBAll _ s

theorem isBlank_of_plain {c : Char} (hs : Plain s) (hbreak : '\n' ∉ s) (hc : c ∈ s)
    (hspace : isSpace c = true) : isBlank c = true := by
  rcases hs c hc hspace with rfl | rfl | rfl
  · rfl
  · rfl
  · exact absurd hc hbreak

/-- On a line of plain text only blanks are trimmed off. -/
theorem exists_trim_of_plain (hs : Plain s) (hbreak : '\n' ∉ s) :
    ∃ a e, s = a ++ (trim s ++ e) ∧ Blanks a ∧ Blanks e := by
  obtain ⟨a, e, heq, ha, he⟩ := exists_trim s
  refine ⟨a, e, heq, ?_, ?_⟩
  · intro c hc
    exact isBlank_of_plain hs hbreak (by rw [heq]; simp [hc]) (ha c hc)
  · intro c hc
    exact isBlank_of_plain hs hbreak (by rw [heq]; simp [hc]) (he c hc)

/-! ## Section 4: Texts without their white space -/

/-- What is left of a text without its white space. -/
def despace (s : Text) : Text :=
  s.filter (!isSpace ·)

@[simp] theorem despace_nil : despace [] = [] := rfl

@[simp] theorem despace_append (s t : Text) : despace (s ++ t) = despace s ++ despace t :=
  List.filter_append s t

theorem despace_of_isSpace (h : ∀ c ∈ s, isSpace c = true) : despace s = [] := by
  apply List.filter_eq_nil_iff.mpr
  intro c hc
  simp [h c hc]

theorem Blanks.despace {b : Text} (h : Blanks b) : despace b = [] :=
  despace_of_isSpace h.isSpace

@[simp] theorem despace_trim (s : Text) : despace (trim s) = despace s := by
  obtain ⟨a, e, hs, ha, he⟩ := exists_trim s
  conv_rhs => rw [hs]
  simp [despace_of_isSpace ha, despace_of_isSpace he]

end Docblock.Text
