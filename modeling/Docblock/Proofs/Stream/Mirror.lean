import Docblock.Proofs.Lexeme.Passing
import Docblock.Proofs.Stream.Backup

/-!
# Steps that do what a reader does

A reader takes lexemes from the front of a list.  A run that stands at the first of them, with the
others in front of it, ends where the reader ends: with the same result and with the lexemes in
front of it that the reader leaves, or with a refusal at the same token.  On the way it may step
back, and whenever it does nothing is lost or repeated.

A reader has the lexemes of one line only, or of the whole text, and a run has all that follow.  The
token that ends the line keeps them apart, for no reader of the grammar takes it.

## Contents

1. `Surroundings.Faces`: a run that has some lexemes in front of it.
2. `Surroundings.Faces.next`, `Surroundings.Faces.exists_backup`: its steps.
3. `Surroundings.Ends`: a run and a reader that come to the same end.
4. `Mirrors`: steps that do what a reader does; single tokens and lists.
-/

namespace Docblock

open Lexeme (attachFrom closeFirst)
open Reader (at? skip)

namespace Lexeme

variable {t u : Lexeme} {ts us : List Lexeme}

@[simp] theorem closeFirst_cons (t : Lexeme) (ts : List Lexeme) :
    closeFirst (t :: ts) = t.closeUp :: ts := rfl

end Lexeme

namespace Parse

variable {α β : Type}

variable {x : Parse α} {f : α → Parse β} {r r' : Run} {kind : Kind}

theorem bind_of_ok {a : α} (h : x r = (.ok a, r')) : (x >>= f) r = f a r' := by
  simp only [bind, h]

theorem bind_of_error {e : Stop} (h : x r = (.error e, r')) : (x >>= f) r = (.error e, r') := by
  simp only [bind, h]

theorem peek_bind (f : Token → Parse β) (r : Run) : (peek >>= f) r = f r.place.tok r := rfl

theorem look_bind (l : Stream → α) (f : α → Parse β) (r : Run) :
    (look l >>= f) r = f (l r.place) r := rfl

theorem move_bind (m : Stream → Stream) (f : Unit → Parse β) (r : Run) :
    (move m >>= f) r = f () { r with place := m r.place } := rfl

theorem got_of_kind (h : r.place.tok.kind = kind) :
    got kind r = (.ok true, { r with place := r.place.next }) := by
  unfold got
  rw [peek_bind, if_pos h]
  rfl

theorem got_of_kind_ne (h : r.place.tok.kind ≠ kind) : got kind r = (.ok false, r) := by
  unfold got
  rw [peek_bind, if_neg h]
  rfl

theorem expect_of_kind (h : r.place.tok.kind = kind) :
    expect kind r = (.ok r.place.tok, { r with place := r.place.next }) := by
  unfold expect
  rw [peek_bind, if_pos h]
  rfl

theorem expect_of_kind_ne (h : r.place.tok.kind ≠ kind) :
    expect kind r = refuse (.expecting (.token kind)) r := by
  unfold expect
  rw [peek_bind, if_neg h]

end Parse

/-! ## Section 1: Lexemes in front of a run -/

/-- Nothing of the text was lost or repeated when the run stepped back. -/
def Run.Sound (s : Text) (r : Run) : Prop :=
  ∀ b ∈ r.backups, Stream.StepsBack s b.1 b.2

/-- What is around some lexemes of a text: the token that ends them, and the lexemes behind it. -/
structure Surroundings where
  text : Text
  stop : Token
  later : List Lexeme
  endsLine : stop.kind.endsLine = true

namespace Surroundings

variable {α β : Type} {c : Surroundings} {depth : Nat} {r : Run} {t u : Lexeme}
  {ts rest : List Lexeme} {kind : Kind}

/-- A run has some lexemes in front of it, up to the token that ends them.  The gap of the first
does not count, for the run has stepped over it. -/
structure Faces (c : Surroundings) (depth : Nat) (r : Run) (ts : List Lexeme) : Prop where
  placed : Stream.Placed c.text r.place
  solid : r.place.tok.kind ≠ .blank
  lexemes : ∃ gap, r.place.lexemes = closeFirst (ts ++ ⟨c.stop, gap⟩ :: c.later)
  depth : r.place.depth = depth
  sound : r.Sound c.text

/-- A line ends at a line break, at the closing delimiter or at the end of the text. -/
theorem kind_stop (c : Surroundings) :
    c.stop.kind = .newline ∨ c.stop.kind = .closeDoc ∨ c.stop.kind = .stop := by
  have h := c.endsLine
  unfold Kind.endsLine at h
  split at h
  · next hk => exact .inl hk
  · next hk => exact .inr (.inl hk)
  · next hk => exact .inr (.inr hk)
  · cases h

theorem kind_stop_ne (h : kind.endsLine = false) : c.stop.kind ≠ kind := by
  intro heq
  rw [← heq, c.endsLine] at h
  cases h

namespace Faces

theorem tok_eq (h : c.Faces depth r ts) :
    r.place.tok = (ts.head?.map Lexeme.toToken).getD c.stop := by
  obtain ⟨gap, hlexemes⟩ := h.lexemes
  rw [Stream.lexemes, Stream.tokens, Lexeme.attachFrom_solid h.solid] at hlexemes
  -- if no lexemes are left, the run stands at the token that ends them
  cases ts with
  | nil => exact congrArg Lexeme.toToken (List.cons.inj hlexemes).1
  | cons t ts => exact congrArg Lexeme.toToken (List.cons.inj hlexemes).1

theorem tok_cons (h : c.Faces depth r (t :: ts)) : r.place.tok = t.toToken :=
  h.tok_eq

theorem tok_nil (h : c.Faces depth r []) : r.place.tok = c.stop :=
  h.tok_eq

/-- The token that ends the lexemes is of no kind that a reader looks for. -/
theorem at?_eq (h : c.Faces depth r ts) (hkind : kind.endsLine = false) :
    at? kind ts = (r.place.tok.kind == kind) := by
  cases ts with
  | nil =>
    rw [h.tok_nil, Reader.at?_nil]
    exact (beq_eq_false_iff_ne.mpr (kind_stop_ne hkind)).symm
  | cons t ts => rw [h.tok_cons, Reader.at?_cons]

theorem length_lt_room (h : c.Faces depth r ts) : ts.length < r.place.room := by
  obtain ⟨gap, hlexemes⟩ := h.lexemes
  have hlength := congrArg List.length hlexemes
  have hattach := Lexeme.length_attachFrom_le [] r.place.tokens
  have hroom := r.place.length_tokens_le_room
  rw [Lexeme.length_closeFirst, List.length_append, List.length_cons, Stream.lexemes] at hlength
  -- the token that ends the lexemes takes room as well
  omega

/-- Entering or leaving a type is no step. -/
theorem atDepth (h : c.Faces depth r ts) (n : Nat) : c.Faces n (r.atDepth n) ts := by
  refine ⟨?_, h.solid, h.lexemes, rfl, h.sound⟩
  -- the depth is no part of where a run stands
  cases h.placed with
  | free before hpending hsequence hspaced => exact .free before hpending hsequence hspaced
  | held before gap q hpending hamp hq hsequence hgap hspaced hqspaced =>
    exact .held before gap q hpending hamp hq hsequence hgap hspaced hqspaced

/-! ## Section 2: Steps -/

theorem attachFrom_behind (h : c.Faces depth r (t :: ts)) (hstop : t.kind ≠ .stop) :
    ∃ gap, attachFrom [] r.place.behind = ts ++ ⟨c.stop, gap⟩ :: c.later := by
  obtain ⟨gap, hlexemes⟩ := h.lexemes
  have hnonstop : r.place.tok.kind ≠ .stop := by rwa [h.tok_cons]
  rw [Stream.lexemes_eq h.solid hnonstop] at hlexemes
  exact ⟨gap, (List.cons.inj hlexemes).2⟩

/-- A step leaves the other lexemes in front of the run. -/
theorem next (h : c.Faces depth r (t :: ts)) (hstop : t.kind ≠ .stop) :
    c.Faces depth { r with place := r.place.next } ts := by
  have hnonstop : r.place.tok.kind ≠ .stop := by rwa [h.tok_cons]
  have hsteps := h.placed.next hnonstop
  obtain ⟨gap, hbehind⟩ := h.attachFrom_behind hstop
  refine ⟨hsteps.placed h.solid, ?_, ⟨gap, ?_⟩, ?_, h.sound⟩
  · -- a step passes the blanks, so the run does not stand at one
    obtain ⟨-, -, -, -, -, -, -, -, -, hblank⟩ := hsteps
    exact hblank
  · change r.place.next.lexemes = _
    rw [h.placed.lexemes_next hnonstop, hbehind]
  · exact (Stream.depth_next r.place).trans h.depth

/-- A run notes whether blanks are in front of the next lexeme. -/
theorem spaced_next (h : c.Faces depth r (t :: u :: ts)) (hstop : t.kind ≠ .stop)
    (hamp : t.kind ≠ .amp) : r.place.next.spaced = !u.isGlued := by
  have hnonstop : r.place.tok.kind ≠ .stop := by rwa [h.tok_cons]
  have hnonamp : r.place.tok.kind ≠ .amp := by rwa [h.tok_cons]
  obtain ⟨gap, hattach⟩ := h.attachFrom_behind hstop
  obtain ⟨skipped, hbehind, hskipped, hblank, hnote⟩ := h.placed.exists_behind hnonstop
  -- nothing waits to be read again, so the blanks that were passed decide
  rw [h.placed.pending_eq_none hnonamp] at hnote
  rw [hbehind, Lexeme.attachFrom_blanks hskipped, Stream.tokens,
    Lexeme.attachFrom_solid hblank] at hattach
  have hgap : [] ++ skipped.flatMap (·.text) = u.gap :=
    congrArg Lexeme.gap (List.cons.inj hattach).1
  have htext : (skipped.flatMap (·.text)).isEmpty = skipped.isEmpty :=
    h.placed.isEmpty_skipped hnonstop hbehind hskipped
  rw [hnote, Lexeme.isGlued, ← hgap, List.nil_append, htext]

/-- A run that has stepped from an `&` can step back to it.  The gap behind the `&` is lost, and
nothing else. -/
theorem exists_backup (h : c.Faces depth r (t :: ts)) (hamp : t.kind = .amp) :
    ∃ r', Parse.backup { r with place := r.place.next } = (.ok (), r') ∧
      c.Faces depth r' (t :: closeFirst ts) := by
  have hplace : r.place.tok.kind = .amp := by rw [h.tok_cons, hamp]
  have hnonstop : r.place.tok.kind ≠ .stop := by simp [hplace]
  have hsteps := h.placed.next hnonstop
  obtain ⟨p, hbackup, hplaced, htok, -, hdepth, -, hbehind, -, -⟩ := hsteps.backup hplace
  obtain ⟨gap, hattach⟩ := h.attachFrom_behind (by simp [hamp])
  have hsolid : p.tok.kind ≠ .blank := by simp [htok, hplace]
  have hstop : p.tok.kind ≠ .stop := by simp [htok, hplace]
  have hlexemes : p.lexemes = t.closeUp :: closeFirst (ts ++ ⟨c.stop, gap⟩ :: c.later) := by
    rw [Stream.lexemes_eq hsolid hstop, hbehind, ← Stream.lexemes,
      h.placed.lexemes_next hnonstop, hattach, htok, h.tok_cons]
    rfl
  refine ⟨⟨p, r.backups ++ [(r.place.next, p)]⟩, ?_, hplaced, hsolid, ?_, ?_, ?_⟩
  · unfold Parse.backup
    simp only [hbackup]
  · -- the lexeme behind the `&`, or the token that ends them all, has lost its gap
    cases ts with
    | nil => exact ⟨[], hlexemes⟩
    | cons u ts => exact ⟨gap, hlexemes⟩
  · rw [hdepth, Stream.depth_next, h.depth]
  · exact List.forall_mem_append.mpr
      ⟨h.sound, List.forall_mem_singleton.mpr (hsteps.stepsBack hplace hbackup)⟩

end Faces

/-! ## Section 3: Common ends -/

/-- A run and a reader come to the same end.  Both are done, with no more than `n` lexemes left, or
both refuse the text at the same token. -/
inductive Ends (c : Surroundings) (depth n : Nat) :
    Except Stop α × Run → Except Fault (α × List Lexeme) → Prop where
  | done {r : Run} {rest : List Lexeme} (a : α) (hfaces : c.Faces depth r rest)
      (hlength : rest.length ≤ n) : Ends c depth n (.ok a, r) (.ok (a, rest))
  | refused {r : Run} (fault : Fault) (hsound : r.Sound c.text) :
      Ends c depth n (.error (.refused (fault.toError c.stop)), r) (.error fault)

variable {n : Nat} {x : Parse α} {f : α → Parse β} {y : Except Fault (α × List Lexeme)}
  {g : α × List Lexeme → Except Fault (β × List Lexeme)}

theorem Ends.mono {out : Except Stop α × Run} {m : Nat} (h : c.Ends depth m out y) (hmn : m ≤ n) :
    c.Ends depth n out y := by
  cases h with
  | done a hfaces hlength => exact .done a hfaces (hlength.trans hmn)
  | refused fault hsound => exact .refused fault hsound

/-- Steps one after the other. -/
theorem Ends.bind (h : c.Ends depth n (x r) y)
    (hf : ∀ a r' rest, c.Faces depth r' rest → rest.length ≤ n →
      c.Ends depth rest.length (f a r') (g (a, rest))) :
    c.Ends depth n ((x >>= f) r) (y >>= g) := by
  generalize hrun : x r = out at h
  -- the reader went on, or it refused and the run ended with it
  cases h with
  | done a hfaces hlength =>
    rw [Parse.bind_of_ok hrun]
    exact (hf a _ _ hfaces hlength).mono hlength
  | refused fault hsound =>
    rw [Parse.bind_of_error hrun]
    exact .refused fault hsound

theorem Ends.pure (h : c.Faces depth r ts) (hn : ts.length ≤ n) (a : α) :
    c.Ends depth n ((Pure.pure a : Parse α) r) (Pure.pure (a, ts)) :=
  .done a h hn

theorem Ends.refuse (h : c.Faces depth r ts) (reason : Reason) :
    c.Ends depth n (Parse.refuse (α := α) reason r) (.error ⟨reason, ts.head?⟩) := by
  have htok := h.tok_eq
  unfold Parse.refuse
  rw [htok]
  exact .refused ⟨reason, ts.head?⟩ h.sound

theorem Ends.of_next {f : Unit → Parse β} {y : Except Fault (β × List Lexeme)}
    (hf : c.Ends depth ts.length (f () { r with place := r.place.next }) y) :
    c.Ends depth (t :: ts).length ((Parse.move Stream.next >>= f) r) y :=
  hf.mono (Nat.le_succ _)

theorem Ends.next_bind {f : Unit → Parse β} {y : Except Fault (β × List Lexeme)}
    (h : c.Faces depth r (t :: ts)) (hstop : t.kind ≠ .stop)
    (hf : ∀ r', c.Faces depth r' ts → c.Ends depth ts.length (f () r') y) :
    c.Ends depth (t :: ts).length ((Parse.move Stream.next >>= f) r) y :=
  .of_next (hf _ (h.next hstop))

theorem ne_stop_of_endsLine (h : kind.endsLine = false) : kind ≠ .stop := by
  rintro rfl
  cases h

/-- A run takes a token of some kind exactly when the reader skips one. -/
theorem Ends.got_bind {f : Bool → Parse β} {y : Except Fault (β × List Lexeme)} {found : Bool}
    (h : c.Faces depth r ts) (hkind : kind.endsLine = false) (hskip : skip kind ts = (found, rest))
    (hf : ∀ r', c.Faces depth r' rest → c.Ends depth rest.length (f found r') y) :
    c.Ends depth ts.length ((Parse.got kind >>= f) r) y := by
  cases found with
  -- the reader skips it, and the run steps on
  | true =>
    obtain ⟨t, rfl, ht⟩ := Reader.skip_eq_true.mp hskip
    have htok : r.place.tok.kind = kind := by rw [h.tok_cons, ht]
    rw [Parse.bind_of_ok (Parse.got_of_kind htok)]
    have hstop : t.kind ≠ .stop := by
      rw [ht]
      exact ne_stop_of_endsLine hkind
    exact (hf _ (h.next hstop)).mono (Nat.le_succ _)
  -- neither moves: the kind that stands there is another one, or the lexemes have come to their end
  | false =>
    obtain ⟨rfl, hnot⟩ := Reader.skip_eq_false.mp hskip
    have htok : r.place.tok.kind ≠ kind := by
      rw [h.at?_eq hkind] at hnot
      exact beq_eq_false_iff_ne.mp hnot
    rw [Parse.bind_of_ok (Parse.got_of_kind_ne htok)]
    exact hf r h

/-- A run and a reader take the lexeme that is expected. -/
theorem Ends.expect_cons {f : Token → Parse β} {y : Except Fault (β × List Lexeme)}
    (h : c.Faces depth r (t :: ts)) (hkind : kind.endsLine = false) (ht : t.kind = kind)
    (hf : ∀ r', c.Faces depth r' ts → c.Ends depth ts.length (f t.toToken r') y) :
    c.Ends depth (t :: ts).length ((Parse.expect kind >>= f) r) y := by
  have htok : r.place.tok.kind = kind := by rw [h.tok_cons, ht]
  rw [Parse.bind_of_ok (Parse.expect_of_kind htok), h.tok_cons]
  have hstop : t.kind ≠ .stop := by
    rw [ht]
    exact ne_stop_of_endsLine hkind
  exact (hf _ (h.next hstop)).mono (Nat.le_succ _)

/-- A run and a reader refuse any other. -/
theorem Ends.expect_refuse {f : Token → Parse β} (h : c.Faces depth r ts)
    (hkind : kind.endsLine = false) (hat : at? kind ts = false) :
    c.Ends depth n ((Parse.expect kind >>= f) r) (Fault.expecting (.token kind) ts) := by
  have htok : r.place.tok.kind ≠ kind := by
    rw [h.at?_eq hkind] at hat
    exact beq_eq_false_iff_ne.mp hat
  rw [Parse.bind_of_error (Parse.expect_of_kind_ne htok)]
  exact .refuse h _

/-- Both together: what is expected is taken by the run and the reader, or refused by both. -/
theorem Ends.expect_bind {f : Token → Parse β}
    {g : Lexeme × List Lexeme → Except Fault (β × List Lexeme)} (h : c.Faces depth r ts)
    (hkind : kind.endsLine = false)
    (hf : ∀ t r' rest, ts = t :: rest → c.Faces depth r' rest →
      c.Ends depth rest.length (f t.toToken r') (g (t, rest))) :
    c.Ends depth ts.length ((Parse.expect kind >>= f) r) (Reader.expect kind ts >>= g) := by
  cases hat : at? kind ts with
  | true =>
    obtain ⟨t, rest, rfl, ht⟩ := Reader.at?_eq_true.mp hat
    rw [Reader.expect_cons ht]
    exact .expect_cons h hkind ht fun r' => hf t r' rest rfl
  | false =>
    -- the lexemes may be at their end, where the reader refuses as well
    have hrefuse : Reader.expect kind ts = Fault.expecting (.token kind) ts := by
      cases ts with
      | nil => rfl
      | cons t ts => exact if_neg (beq_eq_false_iff_ne.mp hat)
    rw [hrefuse]
    exact .expect_refuse h hkind hat

/-- Steps inside a type. -/
theorem Ends.inside (h : c.Faces depth r ts)
    (hx : ∀ r', c.Faces (depth + 1) r' ts → c.Ends (depth + 1) ts.length (x r') y) :
    c.Ends depth ts.length (Parse.inside x r) y := by
  have hinner := hx _ (h.atDepth (depth + 1))
  rw [← h.depth] at hinner
  unfold Parse.inside
  generalize x (r.atDepth (r.place.depth + 1)) = out at hinner
  -- the frame is closed again when the type in it is read, and only then
  cases hinner with
  | done a hfaces hlength =>
    refine .done a ?_ hlength
    have hout := hfaces.atDepth depth
    rw [hfaces.depth, h.depth]
    exact hout
  | refused fault hsound => exact .refused fault hsound

end Surroundings

/-! ## Section 5: Steps and readers -/

/-- Steps that do what a reader does, wherever they are taken. -/
def Mirrors {α : Type} (depth : Nat) (x : Parse α) (y : Reader α) : Prop :=
  ∀ ⦃c : Surroundings⦄ ⦃r : Run⦄ ⦃ts : List Lexeme⦄,
    c.Faces depth r ts → c.Ends depth ts.length (x r) (y ts)

namespace Mirrors

open Surroundings

variable {α : Type} {c : Surroundings} {depth : Nat} {item : Parse α} {reader : Reader α}

/-- Items that are divided by commas.  Neither bound on their number is met. -/
theorem items (hitem : Mirrors depth item reader) {close : Kind} (hclose : close.endsLine = false)
    (n m : Nat) {r : Run} {ts : List Lexeme} (h : c.Faces depth r ts) (hn : ts.length < n)
    (hm : ts.length < m) :
    c.Ends depth ts.length (Parse.items item close n r) (Reader.listUpTo reader close m ts) := by
  -- on the bound of the stream parser; each item takes one from both bounds and at least one lexeme
  induction n generalizing m r ts with
  | zero => exact absurd hn (Nat.not_lt_zero _)
  | succ n ih =>
    obtain ⟨m, rfl⟩ := Nat.exists_eq_add_one_of_ne_zero (Nat.ne_zero_of_lt hm)
    unfold Parse.items Reader.listUpTo
    apply (hitem h).bind
    intro first r rest h hrest
    simp only
    cases hskip : skip .comma rest with
    | mk comma rest' =>
      apply Ends.got_bind h rfl hskip
      intro r h'
      rw [Parse.peek_bind]
      cases comma with
      | true =>
        dsimp only
        obtain ⟨t, rfl, -⟩ := Reader.skip_eq_true.mp hskip
        have hat := h'.at?_eq hclose
        by_cases hend : at? close rest' = true
        · -- a list may end with a comma
          obtain ⟨u, us, rfl, hu⟩ := Reader.at?_eq_true.mp hend
          have htok : r.place.tok.kind = close := by rw [h'.tok_cons, hu]
          have hstop : u.kind ≠ .stop := by
            rw [hu]
            exact ne_stop_of_endsLine hclose
          rw [if_neg (by simp [htok]), Parse.bind_of_ok (Parse.expect_of_kind htok), if_pos hend]
          exact .pure (h'.next hstop) (Nat.le_succ _) _
        · have htok : r.place.tok.kind ≠ close := by
            rw [hat] at hend
            simpa using hend
          rw [if_pos (by simp [htok]), if_neg hend]
          rw [List.length_cons] at hrest
          apply (ih m h' (by omega) (by omega)).bind
          intro others r rest h hlength
          exact .pure h le_rfl _
      | false =>
        rw [if_neg (by simp)]
        apply Ends.expect_bind h' hclose
        intro u r rest _ h
        exact .pure h le_rfl _

/-- A list with as many items as there may be. -/
theorem list (hitem : Mirrors depth item reader) {close : Kind} (hclose : close.endsLine = false) :
    Mirrors depth (Parse.look Stream.room >>= Parse.items item close)
      (Reader.list reader close) := by
  intro c r ts h
  rw [Parse.look_bind]
  exact hitem.items hclose _ _ h h.length_lt_room (Nat.lt_succ_self _)

end Mirrors

end Docblock
