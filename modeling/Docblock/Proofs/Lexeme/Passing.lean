import Docblock.Fault
import Docblock.Proofs.Lexeme.Words

/-!
# Passing over lexemes

A reader takes lexemes from the front of a list.  `Passes ts ws rest` says that on the way from
`ts` to `rest` exactly the words `ws` were passed.  It is more than `ts = pre ++ rest`, because an
`&` that is handed back has what follows it drawn up, so a gap may be gone by the time its lexeme
is passed.  No word is ever lost or made up on the way.
-/

namespace Docblock

open Lexeme (words)

/-! ## Section 1: Passing -/

/-- Reading from `ts` to `rest` passes the words `ws`. -/
inductive Passes : List Lexeme → List Word → List Lexeme → Prop where
  | done (ts : List Lexeme) : Passes ts [] ts
  | step {ts rest : List Lexeme} {ws : List Word} (t : Lexeme) (h : Passes ts ws rest) :
      Passes (t :: ts) (t.word :: ws) rest
  | drawUp {ts rest : List Lexeme} {ws : List Word} {t u : Lexeme} (ht : t.kind = .amp)
      (h : Passes (t :: u.closeUp :: ts) ws rest) : Passes (t :: u :: ts) ws rest

namespace Passes

variable {ts us rest : List Lexeme} {ws vs : List Word}

theorem trans (h : Passes ts ws us) (h' : Passes us vs rest) : Passes ts (ws ++ vs) rest := by
  induction h with
  | done => exact h'
  | step t _ ih => exact .step t (ih h')
  | drawUp ht _ ih => exact .drawUp ht (ih h')

theorem of_append (ts rest : List Lexeme) : Passes (ts ++ rest) (words ts) rest := by
  induction ts with
  | nil => exact .done rest
  | cons t ts ih => exact .step t ih

theorem length_eq (h : Passes ts ws rest) : ts.length = ws.length + rest.length := by
  induction h with
  | done => simp
  | step t _ ih => simp only [List.length_cons, ih]; omega
  | drawUp _ _ ih => simpa using ih

/-- The first word that is passed stands at the front. -/
theorem head_eq (h : Passes ts ws rest) {w : Word} (hw : w ∈ ws.head?) :
    ts.head?.map Lexeme.word = some w := by
  induction h with
  | done => cases hw
  | step t _ _ => simpa using hw
  | drawUp _ _ ih => exact ih hw

/-- A property of words that does not look at the gap is passed on. -/
theorem forall_words {P : Kind → Text → Prop} (h : Passes ts ws rest)
    (hts : ∀ t ∈ ts, P t.kind t.text) :
    (∀ w ∈ ws, P w.kind w.text) ∧ ∀ t ∈ rest, P t.kind t.text := by
  induction h with
  | done => exact ⟨by simp, hts⟩
  | step t _ ih =>
    obtain ⟨ht, hts⟩ := List.forall_mem_cons.mp hts
    obtain ⟨hws, hrest⟩ := ih hts
    exact ⟨List.forall_mem_cons.mpr ⟨ht, hws⟩, hrest⟩
  -- drawing up changes a gap, and neither a kind nor a text
  | drawUp _ _ ih =>
    obtain ⟨ht, hts⟩ := List.forall_mem_cons.mp hts
    obtain ⟨hu, hts⟩ := List.forall_mem_cons.mp hts
    exact ih (List.forall_mem_cons.mpr ⟨ht, List.forall_mem_cons.mpr ⟨hu, hts⟩⟩)

/-- What is left of a text that stands, stands. -/
theorem stands (h : Passes ts ws rest) {next : Option Char} (hts : Word.Stands (words ts) next) :
    Word.Stands (words rest) next := by
  induction h with
  | done => exact hts
  | step t _ ih => exact ih hts.2.2
  | @drawUp ts rest ws t u ht _ ih =>
    obtain ⟨h₁, _, h₂, h₃, h₄⟩ := hts
    -- nothing goes on an `&`, so the word behind it may lose its gap
    refine ih ⟨h₁, ?_, ⟨h₂.forms, h₂.solid, by simp [Lexeme.closeUp]⟩, h₃, h₄⟩
    intro d _
    simp [ht, Token.goesOn]

end Passes

/-! ## Section 2: Single lexemes -/

theorem bind_eq_ok {ε α β : Type} {x : Except ε α} {f : α → Except ε β} {b : β} :
    x >>= f = .ok b ↔ ∃ a, x = .ok a ∧ f a = .ok b := by
  cases x with
  | error e => simp [bind, Except.bind]
  | ok a => simp [bind, Except.bind]

theorem ok_bind {ε α β : Type} (a : α) (f : α → Except ε β) : (Except.ok a >>= f) = f a := rfl

namespace Reader

variable {kind : Kind} {t : Lexeme} {ts rest : List Lexeme}

/-- A lexeme of the expected kind is taken, and nothing else is. -/
theorem expect_eq_ok : expect kind ts = .ok (t, rest) ↔ ts = t :: rest ∧ t.kind = kind := by
  unfold expect
  split
  · next u us =>
    split
    · next hu =>
      simp only [Except.ok.injEq, Prod.mk.injEq, List.cons.injEq]
      constructor
      · rintro ⟨rfl, rfl⟩
        exact ⟨⟨rfl, rfl⟩, hu⟩
      · exact fun h => h.1
    · next hu =>
      simp only [Fault.expecting, reduceCtorEq, false_iff, List.cons.injEq, not_and]
      rintro ⟨rfl, -⟩
      exact hu
  · simp [Fault.expecting]

theorem expect_cons (h : t.kind = kind) : expect kind (t :: ts) = .ok (t, ts) :=
  expect_eq_ok.mpr ⟨rfl, h⟩

@[simp] theorem at?_cons : at? kind (t :: ts) = (t.kind == kind) := rfl

@[simp] theorem at?_nil : at? kind [] = false := rfl

theorem skip_eq_true : skip kind ts = (true, rest) ↔ ∃ t, ts = t :: rest ∧ t.kind = kind := by
  unfold skip
  split
  · split
    · next hu => simp [hu]
    · next hu => simp [hu]
  · simp

/-- Nothing is skipped in front of another kind. -/
theorem skip_eq_false : skip kind ts = (false, rest) ↔ rest = ts ∧ at? kind ts = false := by
  unfold skip
  split
  · split
    · next hu => simp [hu]
    · next hu => simpa [hu] using ⟨Eq.symm, Eq.symm⟩
  · simp only [Prod.mk.injEq, true_and, at?_nil, and_true]
    exact ⟨Eq.symm, Eq.symm⟩

theorem skip_cons (h : t.kind = kind) : skip kind (t :: ts) = (true, ts) :=
  skip_eq_true.mpr ⟨t, rfl, h⟩

theorem skip_of_at? (h : at? kind ts = false) : skip kind ts = (false, ts) :=
  skip_eq_false.mpr ⟨rfl, h⟩

theorem at?_eq_true : at? kind ts = true ↔ ∃ t us, ts = t :: us ∧ t.kind = kind := by
  cases ts with
  | nil => simp
  | cons t ts => simp

end Reader

end Docblock
