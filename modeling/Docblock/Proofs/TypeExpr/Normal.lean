import Docblock.Proofs.TypeExpr.Complete
import Docblock.Proofs.TypeExpr.Derivation
import Docblock.Proofs.TypeExpr.Respelling

/-!
# Every derivable type has a greedy spelling

The productions leave open which callable a following `|`, `&` or `[]` belongs to; a reader gives
it to the innermost one that can take it.  That choice loses nothing: by induction on a derivation,
its words also have the spelling that the reader looks for, up to gaps that do not count.

The step is to add an operator or a pair of brackets to a spelling.  Either the last atomic type
can take it, or that type ends in the result of a callable, and the result takes it.

## Contents

1. `Spells`: a spelling without a bound on the nesting.
2. `Ending`, `Tail`: the last atomic type of a type, and the result in which that one ends.
3. `exists_brackets`, `exists_next`: adding to a spelling.
4. `normal_of_derives`: every phrase has a greedy spelling.
-/

namespace Docblock.TypeExpr

open Word (flush)

/-! ## Section 1: Spellings of any depth -/

/-- A grammar is part of another for spellings shorter than `n`. -/
def Within (n : Nat) (G G' : Grammar TypeExpr) : Prop :=
  ∀ ⦃ty : TypeExpr⦄ ⦃ws : List Word⦄ ⦃js : List Joint⦄, ws.length < n → G ty ws js → G' ty ws js

/-- A list of items is still one when each of its items, shorter than the list, is replaced by
another reading of its words. -/
theorem SpelledItems.imp {α : Type} {Item Item' : Grammar α} {close : Kind} {xs : List α}
    {ws : List Word} (h : SpelledItems Item close xs ws)
    (himp : ∀ ⦃x : α⦄ ⦃vs : List Word⦄ ⦃js : List Joint⦄, vs.length < ws.length → Item x vs js →
      Item' x vs js) : SpelledItems Item' close xs ws := by
  -- induction on the items, so that the words of the whole list bound those of each
  induction h with
  | last h hc => exact .last (himp (by simp) h) hc
  | trailing h hm hc => exact .trailing (himp (by simp) h) hm hc
  | @cons x xs ws vs js m h hm _ ih =>
    refine .cons (himp (by simp) h) hm (ih ?_)
    intro y us ks hlt
    apply himp
    simp only [List.length_append, List.length_cons]
    omega

section Rules

variable {n : Nat} {Inner Inner' : Grammar TypeExpr} (hin : Within n Inner Inner')

include hin

theorem SpelledEntry.within {e : Entry TypeExpr} {ws : List Word} {js : List Joint}
    (h : SpelledEntry Inner e ws js) (hn : ws.length ≤ n) : SpelledEntry Inner' e ws js := by
  cases h with
  | mk hk hq hc hty =>
    simp only [List.length_append, List.length_cons] at hn
    exact .mk hk hq hc (hin (by omega) hty)

/-- So is the parameter of a callable. -/
theorem SpelledParam.within {p : Param TypeExpr} {ws : List Word} {js : List Joint}
    (h : SpelledParam Inner p ws js) (hn : ws.length < n) : SpelledParam Inner' p ws js := by
  cases h with
  | bare hty => exact .bare (hin hn hty)
  | named hty hb hclear =>
    rw [List.length_append] at hn
    exact .named (hin (by omega) hty) hb hclear
  | default hty hb hclear he hd =>
    rw [List.length_append, List.length_append] at hn
    exact .default (hin (by omega) hty) hb hclear he hd

/-- So are the parameters between parentheses. -/
theorem SpelledSignature.within {ps : List (Param TypeExpr)} {ws : List Word}
    (h : SpelledSignature Inner ps ws) (hn : ws.length ≤ n) : SpelledSignature Inner' ps ws := by
  cases h with
  | empty hr => exact .empty hr
  | params hps =>
    refine .params (hps.imp ?_)
    intro p vs js hlt hp
    exact hp.within hin (by omega)

/-- So is what follows the word `callable`. -/
theorem SpelledCallable.within {ty : TypeExpr} {ws : List Word} {js : List Joint}
    (h : SpelledCallable Inner ty ws js) (hn : ws.length ≤ n) : SpelledCallable Inner' ty ws js := by
  cases h with
  | bare => exact .bare
  | plain hl hps =>
    rw [List.length_cons] at hn
    exact .plain hl (hps.within hin (by omega))
  | result hl hps hc hr =>
    simp only [List.length_append, List.length_cons] at hn
    exact .result hl (hps.within hin (by omega)) hc (hin (by omega) hr)

/-- So are the braces of a shape. -/
theorem SpelledEntries.within {es : List (Entry TypeExpr)} {ws : List Word} {js : List Joint}
    (h : SpelledEntries Inner es ws js) (hn : ws.length ≤ n) : SpelledEntries Inner' es ws js := by
  cases h with
  | none => exact .none
  | some hl hes =>
    rw [List.length_cons] at hn
    refine .some hl (hes.imp ?_)
    intro e vs js hlt he
    exact he.within hin (by omega)

/-- So is the word a type begins with and what belongs to it. -/
theorem SpelledHead.within {x : TypeExpr × Bool} {ws : List Word} {js : List Joint}
    (h : SpelledHead Inner x ws js) (hn : ws.length ≤ n) : SpelledHead Inner' x ws js := by
  cases h with
  | array hw hes =>
    rw [List.length_cons] at hn
    exact .array hw (hes.within hin (by omega))
  | object hw hes =>
    rw [List.length_cons] at hn
    exact .object hw (hes.within hin (by omega))
  | callable hw hty =>
    rw [List.length_cons] at hn
    exact .callable hw (hty.within hin (by omega))
  | static hw => exact .static hw
  | named hn => exact .named hn

/-- So is it with its arguments. -/
theorem SpelledApplied.within {ty : TypeExpr} {ws : List Word} {js : List Joint}
    (h : SpelledApplied Inner ty ws js) (hn : ws.length ≤ n) : SpelledApplied Inner' ty ws js := by
  cases h with
  | closed hty => exact .closed (hty.within hin hn)
  | plain hty => exact .plain (hty.within hin hn)
  | generic hty hl hargs =>
    simp only [List.length_append, List.length_cons] at hn
    refine .generic (hty.within hin (by omega)) hl (hargs.imp ?_)
    intro ty vs js hlt hty
    exact hin (by omega) hty

/-- So is it with a constant of the class. -/
theorem SpelledBasic.within {isNullable : Bool} {ty : TypeExpr} {ws : List Word} {js : List Joint}
    (h : SpelledBasic Inner isNullable ty ws js) (hn : ws.length ≤ n) :
    SpelledBasic Inner' isNullable ty ws js := by
  cases h with
  | plain hty => exact .plain (hty.within hin hn)
  | constant hname hnull hc hconst =>
    rw [List.length_append] at hn
    exact .constant (hname.within hin (by omega)) hnull hc hconst

/-- So is a type without the brackets behind it. -/
theorem SpelledPrimary.within {ty : TypeExpr} {ws : List Word} {js : List Joint}
    (h : SpelledPrimary Inner ty ws js) (hn : ws.length ≤ n) : SpelledPrimary Inner' ty ws js := by
  cases h with
  | paren hl hty hr =>
    simp only [List.length_append, List.length_cons] at hn
    exact .paren hl (hin (by omega) hty) hr
  | this hw => exact .this hw
  | literal hw => exact .literal hw
  | nullable hq hty =>
    rw [List.length_cons] at hn
    exact .nullable hq (hty.within hin (by omega))
  | basic hty => exact .basic (hty.within hin hn)

/-- So is a member of a union or an intersection. -/
theorem SpelledAtomic.within {ty : TypeExpr} {ws : List Word} {js : List Joint}
    (h : SpelledAtomic Inner ty ws js) (hn : ws.length ≤ n) : SpelledAtomic Inner' ty ws js := by
  cases h with
  | mk hty =>
    refine .mk ?_
    induction hty with
    | plain hty => exact .plain (hty.within hin hn)
    | array _ hjs hl hr ih =>
      rw [List.length_append] at hn
      exact .array (ih (by omega)) hjs hl hr

/-- So are all members behind the first. -/
theorem SpelledMembers.within {operator : Kind} {joint : Joint} {tys : List TypeExpr}
    {ws : List Word} {js : List Joint} (h : SpelledMembers Inner operator joint tys ws js)
    (hn : ws.length ≤ n) : SpelledMembers Inner' operator joint tys ws js := by
  induction h with
  | last ho hty =>
    rw [List.length_cons] at hn
    exact .last ho (hty.within hin (by omega))
  | cons ho hty hjs _ ih =>
    simp only [List.length_append, List.length_cons] at hn
    exact .cons ho (hty.within hin (by omega)) hjs (ih (by omega))

/-- So is a whole type: its words bound those of every type inside its brackets. -/
theorem SpelledCompound.within {ty : TypeExpr} {ws : List Word} {js : List Joint}
    (h : SpelledCompound Inner ty ws js) (hn : ws.length ≤ n) : SpelledCompound Inner' ty ws js := by
  cases h with
  | single hty => exact .single (hty.within hin hn)
  | union hty hjs htys =>
    rw [List.length_append] at hn
    exact .union (hty.within hin (by omega)) hjs (htys.within hin (by omega))
  | intersection hty hjs htys =>
    rw [List.length_append] at hn
    exact .intersection (hty.within hin (by omega)) hjs (htys.within hin (by omega))

end Rules

/-- A spelling whose depth is bounded by its length only, which is no bound at all. -/
def Spells : Grammar TypeExpr := fun ty ws js => Spelled ws.length ty ws js

/-- Types nest no deeper than they are long. -/
theorem spelled_of_length_le {depth : Nat} {ty : TypeExpr} {ws : List Word} {js : List Joint}
    (h : Spelled depth ty ws js) {n : Nat} (hn : ws.length ≤ n) : Spelled n ty ws js := by
  -- induction on the depth; the words get fewer with every pair of brackets
  induction depth generalizing ty ws js n with
  | zero => exact h.elim
  | succ depth ih =>
    cases n with
    | zero =>
      obtain ⟨w, vs, rfl, -⟩ := (orderly_spelled (depth + 1)).starts h
      simp at hn
    | succ n =>
      refine SpelledCompound.within (fun ty vs js hlt hty => ?_) h (Nat.le_refl _)
      exact ih hty (by omega)

theorem orderly_spells : Orderly Spells where
  starts h := (orderly_spelled _).starts h
  joints h := (orderly_spelled _).joints h
  after {ty ws js} h gap := by
    refine spelled_of_length_le ((orderly_spelled _).after h gap) (Nat.le_refl _)

/-- A spelling of any depth is a rule over spellings of any depth. -/
theorem spells_iff {ty : TypeExpr} {ws : List Word} {js : List Joint} :
    Spells ty ws js ↔ SpelledCompound Spells ty ws js := by
  constructor
  · intro h
    cases hn : ws.length with
    | zero =>
      rw [Spells, hn] at h
      exact h.elim
    | succ n =>
      rw [Spells, hn] at h
      refine SpelledCompound.within (fun ty vs js _ hty => ?_) h (Nat.le_refl _)
      exact spelled_of_length_le hty (Nat.le_refl _)
  · intro h
    obtain ⟨w, us, rfl, -⟩ := (orderly_compound orderly_spells).starts h
    refine SpelledCompound.within (fun ty vs js hlt hty => ?_) h (Nat.le_refl _)
    exact spelled_of_length_le hty (by rw [List.length_cons] at hlt; omega)

/-! ## Section 2: The end of a type -/

/-- The joint at which a type goes on with an operator. -/
def Operator.joint : Operator → Joint
  | .bar => .word .bar
  | .amp => .amp

/-- A type is `pre` followed by the atomic type `vs`: that one may be replaced by another, and
unless it takes in an operator itself, the type can go on with it. -/
structure Ending (Inner : Grammar TypeExpr) (js : List Joint) (pre vs : List Word)
    (ks : List Joint) : Prop where
  replace : ∀ ⦃a : TypeExpr⦄ ⦃us : List Word⦄ ⦃ls : List Joint⦄, SpelledAtomic Inner a us ls →
    ∃ ty js', SpelledCompound Inner ty (pre ++ us) js' ∧ ls ⊆ js'
  extend : ∀ operator : Operator, operator.joint ∈ js → operator.joint ∉ ks → ∀ ⦃o : Word⦄,
    o.kind = operator.kind → ∀ ⦃a : TypeExpr⦄ ⦃us : List Word⦄ ⦃ls : List Joint⦄,
      SpelledAtomic Inner a us ls →
        ∃ ty, SpelledCompound Inner ty (pre ++ vs ++ o :: us) (operator.joint :: ls)

section Ending

variable {Inner : Grammar TypeExpr}

/-- The members of a union or an intersection end in one that may be replaced, and after which there
is room for another. -/
theorem SpelledMembers.exists_ending {operator : Operator} {tys : List TypeExpr} {ws : List Word}
    {js : List Joint} (h : SpelledMembers Inner operator.kind operator.joint tys ws js) :
    ∃ pre vs a ks, ws = pre ++ vs ∧ SpelledAtomic Inner a vs ks ∧ js = operator.joint :: ks ∧
      (∀ ⦃a : TypeExpr⦄ ⦃us : List Word⦄ ⦃ls : List Joint⦄, SpelledAtomic Inner a us ls →
        ∃ tys', SpelledMembers Inner operator.kind operator.joint tys' (pre ++ us)
          (operator.joint :: ls)) ∧
      (operator.joint ∉ ks → ∀ ⦃o : Word⦄, o.kind = operator.kind → ∀ ⦃a : TypeExpr⦄
        ⦃us : List Word⦄ ⦃ls : List Joint⦄, SpelledAtomic Inner a us ls →
          ∃ tys', SpelledMembers Inner operator.kind operator.joint tys' (pre ++ vs ++ o :: us)
            (operator.joint :: ls)) := by
  -- induction on the members: the last one ends them, whatever stands in front
  induction h with
  | @last o ty ws js ho hty =>
    refine ⟨[o], ws, ty, js, rfl, hty, rfl, ?_, ?_⟩
    · intro a us ls ha
      exact ⟨[a], .last ho ha⟩
    · intro hjs o' ho' a us ls ha
      exact ⟨[ty, a], .cons ho hty hjs (.last ho' ha)⟩
  | @cons o ty tys ws vs js ks ho hty hjs _ ih =>
    obtain ⟨pre, us, a, ls, rfl, ha, hks, hreplace, hextend⟩ := ih
    refine ⟨o :: (ws ++ pre), us, a, ls, by simp, ha, hks, ?_, ?_⟩
    · intro b xs ms hb
      obtain ⟨tys', htys⟩ := hreplace hb
      refine ⟨ty :: tys', ?_⟩
      simpa using SpelledMembers.cons ho hty hjs htys
    · intro hls o' ho' b xs ms hb
      obtain ⟨tys', htys⟩ := hextend hls ho' hb
      refine ⟨ty :: tys', ?_⟩
      simpa using SpelledMembers.cons ho hty hjs htys

/-- Every type ends in an atomic type. -/
theorem SpelledCompound.exists_ending {ty : TypeExpr} {ws : List Word} {js : List Joint}
    (h : SpelledCompound Inner ty ws js) :
    ∃ pre vs a ks, ws = pre ++ vs ∧ SpelledAtomic Inner a vs ks ∧ ks ⊆ js ∧
      Ending Inner js pre vs ks := by
  cases h with
  | @single _ _ ks hty =>
    refine ⟨[], ws, ty, ks, rfl, hty, ?_, ?_, ?_⟩
    · intro j hj
      simp [hj]
    · intro a us ls ha
      exact ⟨a, _, .single ha, by intro j hj; simp [hj]⟩
    · intro operator _ hks o ho a us ls ha
      cases operator with
      -- the single type becomes the first of two members
      | bar => exact ⟨_, .union hty hks (.last ho ha)⟩
      | amp => exact ⟨_, .intersection hty hks (.last ho ha)⟩
  -- the last of several members ends the type, and the operator of the others is the only one it
  -- can go on with
  | @union ty tys us xs js' _ hty hjs htys =>
    obtain ⟨pre, vs, a, ks, rfl, ha, rfl, hreplace, hextend⟩ :=
      @SpelledMembers.exists_ending _ .bar _ _ _ htys
    refine ⟨us ++ pre, vs, a, ks, by simp, ha, by simp, ?_, ?_⟩
    · intro b ys ls hb
      obtain ⟨tys', htys'⟩ := hreplace hb
      rw [List.append_assoc]
      exact ⟨_, _, .union hty hjs htys', by simp⟩
    · intro operator hmem hks o ho b ys ls hb
      -- a union goes on with a bar only, unless its last member goes on by itself
      rcases List.mem_cons.mp hmem with hbar | hmem
      · cases operator with
        | bar =>
          obtain ⟨tys', htys'⟩ := hextend hks ho hb
          rw [List.append_assoc, List.append_assoc, ← List.append_assoc pre]
          exact ⟨_, .union hty hjs htys'⟩
        | amp => cases hbar
      · exact absurd hmem hks
  | @intersection ty tys us xs js' _ hty hjs htys =>
    obtain ⟨pre, vs, a, ks, rfl, ha, rfl, hreplace, hextend⟩ :=
      @SpelledMembers.exists_ending _ .amp _ _ _ htys
    refine ⟨us ++ pre, vs, a, ks, by simp, ha, by simp, ?_, ?_⟩
    · intro b ys ls hb
      obtain ⟨tys', htys'⟩ := hreplace hb
      rw [List.append_assoc]
      exact ⟨_, _, .intersection hty hjs htys', by simp⟩
    · intro operator hmem hks o ho b ys ls hb
      -- and an intersection with an `&` only
      rcases List.mem_cons.mp hmem with hamp | hmem
      · cases operator with
        | bar => cases hamp
        | amp =>
          obtain ⟨tys', htys'⟩ := hextend hks ho hb
          rw [List.append_assoc, List.append_assoc, ← List.append_assoc pre]
          exact ⟨_, .intersection hty hjs htys'⟩
      · exact absurd hmem hks

/-- An atomic type is `pre` followed by the result of a callable, which may be replaced. -/
structure Tail (Inner : Grammar TypeExpr) (pre : List Word) : Prop where
  ne_nil : pre ≠ []
  replace : ∀ ⦃r : TypeExpr⦄ ⦃us : List Word⦄ ⦃ls : List Joint⦄, Inner r us ls →
    ∃ ty js, SpelledSuffixed Inner ty (pre ++ us) js ∧ ls ⊆ js

/-- The joints at which the result of a callable goes on with an operator or a bracket. -/
def Resumes (j : Joint) : Prop :=
  j = .word .lbrack ∨ ∃ operator : Operator, j = operator.joint

theorem Operator.joint_resumes (operator : Operator) : Resumes operator.joint :=
  .inr ⟨operator, rfl⟩

theorem Operator.joint_ne_lbrack (operator : Operator) : operator.joint ≠ .word .lbrack := by
  cases operator <;> simp [Operator.joint]

/-- A callable that goes on with an operator or a bracket ends in its result, which can be replaced.
-/
theorem SpelledCallable.exists_tail {j : Joint} (hj : Resumes j) {w : Word}
    (hw : w.kind = .callable) {ty : TypeExpr} {ws : List Word} {js : List Joint}
    (h : SpelledCallable Inner ty ws js) (hmem : j ∈ js) :
    ∃ pre vs r ks, w :: ws = pre ++ vs ∧ Inner r vs ks ∧ j ∈ ks ∧ pre ≠ [] ∧
      ∀ ⦃r : TypeExpr⦄ ⦃us : List Word⦄ ⦃ls : List Joint⦄, Inner r us ls →
        ∃ ty', SpelledHead Inner (ty', false) (pre ++ us) ls := by
  cases h with
  -- without a result it goes on with a parenthesis or a colon only
  | bare | plain =>
    obtain rfl := List.mem_singleton.mp hmem
    rcases hj with hj | ⟨operator, hj⟩
    · cases hj
    · cases operator <;> cases hj
  | @result l c ps r us vs js hl hps hc hr =>
    refine ⟨w :: l :: (us ++ [c]), vs, r, js, by simp, hr, hmem, by simp, ?_⟩
    intro r' xs ls hr'
    refine ⟨.callable ps (some r'), ?_⟩
    simpa using SpelledHead.callable hw (.result hl hps hc hr')

/-- So does a type with arguments or without: only a callable goes on with an operator or a bracket.
-/
theorem SpelledApplied.exists_tail {j : Joint} (hj : Resumes j) {ty : TypeExpr} {ws : List Word}
    {js : List Joint} (h : SpelledApplied Inner ty ws js) (hmem : j ∈ js) :
    ∃ pre vs r ks, ws = pre ++ vs ∧ Inner r vs ks ∧ j ∈ ks ∧ pre ≠ [] ∧
      ∀ ⦃r : TypeExpr⦄ ⦃us : List Word⦄ ⦃ls : List Joint⦄, Inner r us ls →
        ∃ ty', SpelledHead Inner (ty', false) (pre ++ us) ls := by
  cases h with
  | closed hty =>
    cases hty with
    | callable hw hty => exact hty.exists_tail hj hw hmem
  | plain hty =>
    exfalso
    have hcases : j ∈ [Joint.word .lt, .word .lbrace, .word .backslash] :=
      List.cons_subset_cons _ hty.joints_of_open hmem
    rcases hj with rfl | ⟨operator, rfl⟩
    · simp at hcases
    · cases operator <;> simp [Operator.joint] at hcases
  | generic => cases hmem

/-- An atomic type without brackets that goes on with an operator or a bracket ends in the result
of a callable. -/
theorem SpelledPrimary.exists_tail {j : Joint} (hj : Resumes j) {ty : TypeExpr} {ws : List Word}
    {js : List Joint} (h : SpelledPrimary Inner ty ws js) (hmem : j ∈ js) :
    ∃ pre vs r ks, ws = pre ++ vs ∧ Inner r vs ks ∧ j ∈ ks ∧ Tail Inner pre := by
  -- the joint is not one of those that a constant adds
  have hcolons : j ≠ .word .doubleColon ∧ j ≠ .word .asterisk := by
    rcases hj with rfl | ⟨operator, rfl⟩
    · simp
    · cases operator <;> simp [Operator.joint]
  -- a question mark, or nothing, stands in front of the callable
  cases h with
  | paren | this | literal => cases hmem
  | @nullable q _ _ _ hq hty =>
    cases hty with
    | plain hty =>
      obtain ⟨pre, vs, r, ks, rfl, hr, hks, hne, hreplace⟩ :=
        hty.exists_tail hj ((List.mem_cons.mp hmem).resolve_left hcolons.1)
      refine ⟨q :: pre, vs, r, ks, rfl, hr, hks, by simp, ?_⟩
      intro r' us ls hr'
      obtain ⟨ty', hty'⟩ := hreplace hr'
      exact ⟨_, _, .plain (.nullable hq (.plain (.closed hty'))), by simp⟩
    | constant _ hnull => cases hnull
  | basic hty =>
    cases hty with
    | plain hty =>
      obtain ⟨pre, vs, r, ks, rfl, hr, hks, hne, hreplace⟩ :=
        hty.exists_tail hj ((List.mem_cons.mp hmem).resolve_left hcolons.1)
      refine ⟨pre, vs, r, ks, rfl, hr, hks, hne, ?_⟩
      intro r' us ls hr'
      obtain ⟨ty', hty'⟩ := hreplace hr'
      exact ⟨_, _, .plain (.basic (.plain (.closed hty'))), by simp⟩
    | constant _ _ _ hname =>
      cases hname with
      | any | ending => cases hmem
      | exact => exact absurd (List.mem_singleton.mp hmem) hcolons.2

theorem SpelledSuffixed.exists_tail {j : Joint} (hj : Resumes j) {ty : TypeExpr} {ws : List Word}
    {js : List Joint} (h : SpelledSuffixed Inner ty ws js) (hmem : j ∈ js) :
    ∃ pre vs r ks, ws = pre ++ vs ∧ Inner r vs ks ∧ j ∈ ks ∧ Tail Inner pre := by
  cases h with
  | plain hty => exact hty.exists_tail hj hmem
  | array => cases hmem

end Ending

/-! ## Section 3: Adding to a spelling -/

/-- An atomic type can take a pair of brackets. -/
theorem exists_brackets {ty : TypeExpr} {ws : List Word} {js : List Joint}
    (h : SpelledAtomic Spells ty ws js) {l r : Word} (hl : l.kind = .lbrack)
    (hr : r.kind = .rbrack) : ∃ ty' js', SpelledAtomic Spells ty' (ws ++ [l, r]) js' := by
  induction hn : ws.length using Nat.strong_induction_on generalizing ty ws js with
  | _ n ih =>
    cases h with
    | @mk _ _ js hty =>
      by_cases hmem : .word .lbrack ∈ js
      · -- the result of a callable takes them, namely its last atomic type
        obtain ⟨pre, vs, res, ks, rfl, hres, -, htail⟩ := hty.exists_tail (.inl rfl) hmem
        obtain ⟨init, us, a, ls, rfl, ha, -, hending⟩ := (spells_iff.mp hres).exists_ending
        -- the last atomic type of the result is shorter than the whole
        have hlt : us.length < n := by
          have := List.length_pos_of_ne_nil htail.ne_nil
          simp only [List.length_append] at hn
          omega
        obtain ⟨a', ls', ha'⟩ := ih _ hlt ha rfl
        obtain ⟨res', ks', hres', -⟩ := hending.replace ha'
        obtain ⟨ty', js', hty', -⟩ := htail.replace (spells_iff.mpr hres')
        refine ⟨ty', .word .lbrack :: js', ?_⟩
        simpa using SpelledAtomic.mk hty'
      · exact ⟨_, _, .mk (.array hty hmem hl hr)⟩

/-- A type that goes on with an operator can take that operator and another atomic type. -/
theorem exists_next {operator : Operator} {ty : TypeExpr} {ws : List Word} {js : List Joint}
    (h : Spells ty ws js) (hmem : operator.joint ∈ js) {o : Word} (ho : o.kind = operator.kind)
    {a : TypeExpr} {us : List Word} {ls : List Joint} (ha : SpelledAtomic Spells a us ls) :
    ∃ ty' js', Spells ty' (ws ++ o :: us) js' ∧ operator.joint ∈ js' := by
  induction hn : ws.length using Nat.strong_induction_on generalizing ty ws js with
  | _ n ih =>
    obtain ⟨pre, vs, b, ks, rfl, hb, -, hending⟩ := (spells_iff.mp h).exists_ending
    by_cases hks : operator.joint ∈ ks
    · -- the last atomic type ends in the result of a callable, which takes them
      cases hb with
      | mk hb =>
        have hks := (List.mem_cons.mp hks).resolve_left operator.joint_ne_lbrack
        obtain ⟨init, xs, r, ms, rfl, hr, hms, htail⟩ := hb.exists_tail operator.joint_resumes hks
        -- the result is shorter than the whole, and goes on with the same operator
        have hlt : xs.length < n := by
          have := List.length_pos_of_ne_nil htail.ne_nil
          simp only [List.length_append] at hn
          omega
        obtain ⟨r', ms', hr', hms'⟩ := ih _ hlt hr hms rfl
        obtain ⟨b', ks', hb', hsub⟩ := htail.replace hr'
        obtain ⟨ty', js', hty', hsub'⟩ := hending.replace (.mk hb')
        refine ⟨ty', js', spells_iff.mpr ?_, hsub' (List.mem_cons_of_mem _ (hsub hms'))⟩
        simpa using hty'
    · obtain ⟨ty', hty'⟩ := hending.extend operator hmem hks ho ha
      exact ⟨ty', _, spells_iff.mpr hty', List.mem_cons_self⟩

/-! ## Section 4: Phrases have greedy spellings -/

/-- The trees of a kind of phrase. -/
def Category.Tree : Category → Type
  | .type | .chain _ | .atomic | .basic _ | .base => TypeExpr
  | .owner | .name => Name
  | .parts => List Text
  | .constant => Text
  | .entry => Entry TypeExpr
  | .param => Param TypeExpr
  | .binder => Bool × Bool × Text
  | .signature => List (Param TypeExpr)
  | .items item _ => List item.Tree

/-- The spellings of a kind of phrase that a reader looks for. A chain can go on with its operator,
and a binder with no type. -/
def Category.Greedy : (c : Category) → Grammar c.Tree
  | .type => Spells
  | .chain operator => fun ty ws js => Spells ty ws js ∧ operator.joint ∈ js
  | .atomic => SpelledAtomic Spells
  | .basic b => SpelledBasic Spells b
  | .base => fun ty => SpelledHead Spells (ty, true)
  | .owner => fun n => SpelledHead Spells (.named n, true)
  | .name => SpelledName
  | .parts => SpelledParts
  | .constant => SpelledConstant
  | .entry => SpelledEntry Spells
  | .param => SpelledParam Spells
  | .binder => fun b ws _ => SpelledBinder b ws ∧ Clear Joint.ofType ws
  | .signature => fun ps ws _ => SpelledSignature Spells ps ws
  | .items item close => fun xs ws _ => SpelledItems item.Greedy close.kind xs ws

/-- Up to gaps that do not count, the words have a greedy spelling. -/
def Normal (c : Category) (ws : List Word) : Prop :=
  ∃ vs x js, Similar ws vs ∧ c.Greedy x vs js

theorem Mark.map_flush {kind : Kind} {b : Bool} {ws : List Word} (h : Mark kind b ws) :
    Mark kind b (ws.map flush) := by
  cases h with
  | absent => exact .absent
  | present hw => exact .present hw

theorem Mark.not_mem_asterisk {kind : Kind} {b : Bool} {ws : List Word} (h : Mark kind b ws)
    (hkind : kind ≠ .asterisk) : ∀ w ∈ ws, w.kind ≠ .asterisk := by
  cases h with
  | absent => simp
  | present hw => simpa [hw] using hkind

theorem SpelledBinder.not_mem_asterisk {b : Bool × Bool × Text} {ws : List Word}
    (h : SpelledBinder b ws) : ∀ w ∈ ws, w.kind ≠ .asterisk := by
  cases h with
  | mk ha he hv =>
    simp only [List.forall_mem_append, List.forall_mem_singleton]
    exact ⟨⟨ha.not_mem_asterisk (by decide), he.not_mem_asterisk (by decide)⟩, by simp [hv]⟩

/-- A binder is spelled, without its gaps. -/
theorem normal_binder {byRef variadic : Bool} {as es : List Word} {v : Word}
    (ha : Mark .amp byRef as) (he : Mark .ellipsis variadic es) (hv : v.kind = .var) :
    Normal .binder (as ++ es ++ [v]) := by
  have hspelled : SpelledBinder (byRef, variadic, v.text.tail) ((as ++ es ++ [v]).map flush) := by
    simp only [List.map_append, List.map_cons, List.map_nil]
    exact @SpelledBinder.mk byRef variadic _ _ v.flush ha.map_flush he.map_flush hv
  have hclear : Clear Joint.ofType ((as ++ es ++ [v]).map flush) :=
    clear_flush_binder (List.Subset.refl _) (.mk ha he hv)
  have hstar : ∀ w ∈ as ++ es ++ [v], w.kind ≠ .asterisk :=
    (SpelledBinder.mk ha he hv).not_mem_asterisk
  exact ⟨_, (byRef, variadic, v.text.tail), [], .map_flush hstar, hspelled, hclear⟩

/-- The words of a binder may follow a type, whatever their gaps. -/
theorem similar_append_binder {b : Bool × Bool × Text} {ws us vs xs : List Word}
    (hws : Similar ws us) (hvs : Similar vs xs) (hb : SpelledBinder b xs) :
    Similar (ws ++ vs) (us ++ xs) := by
  refine hws.append hvs ?_
  intro w hw hstar v hv
  have hkind := hvs.kind_head hw hv
  exact absurd (hkind.trans hstar) (hb.not_mem_asterisk v (List.mem_of_mem_head? hv))

/-- Every phrase has a greedy spelling, up to gaps that do not count. -/
theorem normal_of_derives {c : Category} {ws : List Word} (h : Derives c ws) : Normal c ws := by
  -- induction on the derivation, one case per production: the parts have spellings, and the rule of
  -- the readers puts them together
  induction h with
  | @first operator _ h ih =>
    obtain ⟨vs, ty, js, hvs, hty⟩ := ih
    refine ⟨vs, ty, .word .bar :: .amp :: js, hvs, spells_iff.mpr (.single hty), ?_⟩
    cases operator <;> simp [Operator.joint]
  | @next operator _ _ _ h ho h' ih ih' =>
    obtain ⟨us, ty, js, hus, hty, hmem⟩ := ih
    obtain ⟨vs, a, ks, hvs, ha⟩ := ih'
    -- the operator goes to the innermost type that can take it
    obtain ⟨ty', js', hty', hmem'⟩ := exists_next hty hmem ho ha
    refine ⟨_, ty', js', hus.append_cons ?_ hvs, hty', hmem'⟩
    rw [ho]
    cases operator <;> decide
  | union h ih | intersection h ih =>
    obtain ⟨vs, ty, js, hvs, hty, -⟩ := ih
    exact ⟨vs, ty, js, hvs, hty⟩
  | paren hl h hr ih =>
    obtain ⟨vs, ty, js, hvs, hty⟩ := ih
    refine ⟨_, _, _, ?_, .mk (.plain (.paren hl hty hr))⟩
    exact (hvs.append_cons (by simp [hr]) .nil).cons_word (by simp [hl])
  | this hw => exact ⟨_, _, _, .refl _, .mk (.plain (.this hw))⟩
  | literal hw => exact ⟨_, _, _, .refl _, .mk (.plain (.literal hw))⟩
  | nullable hq h ih =>
    obtain ⟨vs, ty, js, hvs, hty⟩ := ih
    exact ⟨_, _, _, hvs.cons_word (by simp [hq]), .mk (.plain (.nullable hq hty))⟩
  | basic h ih =>
    obtain ⟨vs, ty, js, hvs, hty⟩ := ih
    exact ⟨_, _, _, hvs, .mk (.plain (.basic hty))⟩
  | brackets h hl hr ih =>
    obtain ⟨vs, ty, js, hvs, hty⟩ := ih
    -- and so do the brackets
    obtain ⟨ty', js', hty'⟩ := exists_brackets hty hl hr
    exact ⟨_, ty', js', hvs.append_cons (by simp [hl]) (.refl _), hty'⟩
  | plain h ih =>
    obtain ⟨vs, ty, js, hvs, hty⟩ := ih
    exact ⟨_, _, _, hvs, .plain (.plain hty)⟩
  | generic h hl h' ih ih' =>
    obtain ⟨us, ty, js, hus, hty⟩ := ih
    obtain ⟨vs, args, ks, hvs, hargs⟩ := ih'
    exact ⟨_, _, _, hus.append_cons (by simp [hl]) hvs, .plain (.generic hty hl hargs)⟩
  | callable hw => exact ⟨_, _, _, .refl _, .plain (.closed (.callable hw .bare))⟩
  | call hw hl h ih =>
    obtain ⟨vs, ps, js, hvs, hps⟩ := ih
    refine ⟨_, _, _, ?_, .plain (.closed (.callable hw (.plain hl hps)))⟩
    exact (hvs.cons_word (by simp [hl])).cons_word (by simp [hw])
  | result hw hl h hc h' ih ih' =>
    obtain ⟨us, ps, js, hus, hps⟩ := ih
    obtain ⟨vs, ty, ks, hvs, hty⟩ := ih'
    refine ⟨_, _, _, ?_, .plain (.closed (.callable hw (.result hl hps hc hty)))⟩
    exact ((hus.append_cons (by simp [hc]) hvs).cons_word (by simp [hl])).cons_word (by simp [hw])
  | constant h hc h' ih ih' =>
    obtain ⟨us, n, js, hus, hn⟩ := ih
    obtain ⟨vs, name, ks, hvs, hname⟩ := ih'
    exact ⟨_, _, _, hus.append_cons (by simp [hc]) hvs, .constant (.plain hn) rfl hc hname⟩
  | container hw =>
    rcases hw with hw | hw
    · exact ⟨_, _, _, .refl _, .array hw .none⟩
    · exact ⟨_, _, _, .refl _, .object hw .none⟩
  | @shape w l _ hw hl h ih =>
    obtain ⟨vs, es, js, hvs, hes⟩ := ih
    have hsimilar : Similar (w :: l :: _) (w :: l :: vs) :=
      (hvs.cons_word (by simp [hl])).cons_head w (by simp [hl])
    rcases hw with hw | hw
    · exact ⟨_, _, _, hsimilar, .array hw (.some hl hes)⟩
    · exact ⟨_, _, _, hsimilar, .object hw (.some hl hes)⟩
  | @entry k c _ qs ws hk hq hc h ih =>
    obtain ⟨vs, ty, js, hvs, hty⟩ := ih
    have hkey : isKey k.kind = true := by
      revert hk
      cases k.kind <;> simp [isKey]
    refine ⟨_, _, _, ?_, .mk hkey hq hc hty⟩
    -- the key may be an identifier
    refine ((Similar.refl qs).append_cons (by simp [hc]) hvs).cons_head k ?_
    cases hq with
    | absent => simp [hc]
    | present hq => simp [hq]
  | noParams hr => exact ⟨_, _, [], .refl _, .empty hr⟩
  | params h ih =>
    obtain ⟨vs, ps, js, hvs, hps⟩ := ih
    exact ⟨_, _, [], hvs, .params hps⟩
  | bare h ih =>
    obtain ⟨vs, ty, js, hvs, hty⟩ := ih
    exact ⟨_, _, _, hvs, .bare hty⟩
  | named h h' ih ih' =>
    obtain ⟨us, ty, js, hus, hty⟩ := ih
    obtain ⟨vs, ⟨byRef, variadic, name⟩, ks, hvs, hb, hclear⟩ := ih'
    -- no type goes on with a binder
    have hbinder : Clear js vs := hclear.mono (orderly_spells.joints hty)
    exact ⟨_, _, _, similar_append_binder hus hvs hb, .named hty hb hbinder⟩
  | @default e d _ _ h h' he hd ih ih' =>
    obtain ⟨us, ty, js, hus, hty⟩ := ih
    obtain ⟨vs, ⟨byRef, variadic, name⟩, ks, hvs, hb, hclear⟩ := ih'
    have hvalue : isDefault d.kind = true := by
      revert hd
      cases d.kind <;> simp [isDefault]
    have hbinder : Clear js vs := hclear.mono (orderly_spells.joints hty)
    have hsimilar := (similar_append_binder hus hvs hb).append_cons (w := e) (by simp [he]) (.refl [d])
    exact ⟨_, _, _, hsimilar, .default hty hb hbinder he hvalue⟩
  | binder ha he hv => exact normal_binder ha he hv
  | @last item _ _ c _ ms h hm hc ih =>
    obtain ⟨vs, x, js, hvs, hx⟩ := ih
    cases hm with
    | absent =>
      refine ⟨vs ++ [c], _, [], hvs.append (.refl [c]) ?_, .last hx hc⟩
      -- nothing stands between the item and the end
      intro w hw _ v hv
      rw [Option.mem_unique hw hv]
    | present hm =>
      exact ⟨_, _, [], hvs.append_cons (by simp [hm]) (.refl [c]), .trailing hx hm hc⟩
  | cons h hm h' ih ih' =>
    obtain ⟨us, x, js, hus, hx⟩ := ih
    obtain ⟨vs, xs, ks, hvs, hxs⟩ := ih'
    exact ⟨_, _, [], hus.append_cons (by simp [hm]) hvs, .cons hx hm hxs⟩
  | owner h ih =>
    obtain ⟨vs, n, js, hvs, hn⟩ := ih
    exact ⟨_, _, _, hvs, hn⟩
  | static hw => exact ⟨_, _, _, .refl _, .static hw⟩
  | name h ih =>
    obtain ⟨vs, n, js, hvs, hn⟩ := ih
    exact ⟨_, _, _, hvs, .named hn⟩
  | relative h ih =>
    obtain ⟨vs, parts, js, hvs, hparts⟩ := ih
    exact ⟨_, _, _, hvs, .relative hparts⟩
  | absolute hb h ih =>
    obtain ⟨vs, parts, js, hvs, hparts⟩ := ih
    exact ⟨_, _, _, hvs.cons_word (by simp [hb]), .absolute hb hparts⟩
  | part hw => exact ⟨_, _, _, .refl _, .last hw⟩
  | @parts w b _ hw hb h ih =>
    obtain ⟨vs, names, js, hvs, hnames⟩ := ih
    refine ⟨_, _, _, ?_, .cons hw hb hnames⟩
    exact (hvs.cons_word (by simp [hb])).cons_head w (by simp [hb])
  | any ha => exact ⟨_, _, _, .refl _, .any ha⟩
  | exact hw => exact ⟨_, _, _, .refl _, .exact hw⟩
  | ending hw ha hgap => exact ⟨_, _, _, .refl _, .ending hw ha hgap⟩

end Docblock.TypeExpr
