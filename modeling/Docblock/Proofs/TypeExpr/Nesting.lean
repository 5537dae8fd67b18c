import Docblock.Proofs.TypeExpr.Agreement
import Docblock.Proofs.TypeExpr.RoundTrip

/-!
# How deep types nest

A type stands in a frame of its own, and so does every type inside its brackets: `frames` counts the
frames around the innermost type.  The reader is given the number of frames that it may open, and
nothing else bounds what it reads: words that spell a type at some depth spell it at every depth
that its frames fit into, and where they do not fit the type is refused for its nesting.

## Contents

1. `bracketed` and `frames`.
2. `Rests`: a rule rests on the types inside brackets alone.
3. `frames_le_of_spelled`, `spelled_of_frames_le`: the depth of a spelling.
4. `reader_of_spelled`: what the reader makes of a spelling, fitting or not.
5. `parse_place`: types inside the brackets of another type.
-/

namespace Docblock

open Lexeme (words)

/-- The nesting of a type is what a reader complains about. -/
def TooDeep {α : Type} (x : Except Fault α) : Prop :=
  ∃ f, x = .error f ∧ f.reason = .nestingTooDeep

theorem TooDeep.bind {α β : Type} {x : Except Fault α} (h : TooDeep x) (g : α → Except Fault β) :
    TooDeep (x >>= g) := by
  obtain ⟨f, rfl, hreason⟩ := h
  exact ⟨f, rfl, hreason⟩

/-- Where a reader with more room succeeds, the nesting is all that another can complain about. -/
theorem Follows.eq_ok_or_deep {α : Type} {x : Except Fault (α × List Lexeme)} {a : α}
    {rest : List Lexeme} (h : Follows x (.ok (a, rest))) :
    (∃ rest', x = .ok (a, rest')) ∨ TooDeep x := by
  cases h with
  | ok => exact .inl ⟨_, rfl⟩
  | deep h => exact .inr ⟨_, rfl, h⟩

namespace TypeExpr

/-! ## Section 1: Frames -/

mutual

/-- The types inside the brackets of a type, or of a member or element of it. -/
def bracketed : TypeExpr → List TypeExpr
  | .union members | .intersection members => bracketedAll members
  | .paren inner => [inner]
  | .array element => bracketed element
  | .nullable inner => bracketed inner
  | .shape _ entries => entries.map (·.ty)
  | .generic base args => bracketed base ++ args
  | .constant owner _ => bracketed owner
  | .callable params result => params.map (·.ty) ++ result.toList
  | .named _ | .literal _ | .this => []

/-- The types inside the brackets of some types. -/
def bracketedAll : List TypeExpr → List TypeExpr
  | [] => []
  | t :: rest => bracketed t ++ bracketedAll rest

end

mutual

/-- A type inside the brackets of another is smaller, so the frames can be counted along them. -/
theorem sizeOf_lt_of_mem_bracketed {u : TypeExpr} :
    ∀ t : TypeExpr, u ∈ t.bracketed → sizeOf u < sizeOf t
  -- members and elements share the frame of the type, so the recursion goes through them
  | .union members, h | .intersection members, h => by
    rw [bracketed] at h
    have := sizeOf_lt_of_mem_bracketedAll members h
    simp
    omega
  | .paren inner, h => by
    rw [bracketed, List.mem_singleton] at h
    simp [h]
  | .array inner, h | .nullable inner, h | .constant inner _, h => by
    rw [bracketed] at h
    have := sizeOf_lt_of_mem_bracketed inner h
    simp
    omega
  | .shape _ entries, h => by
    rw [bracketed, List.mem_map] at h
    obtain ⟨e, he, rfl⟩ := h
    have := List.sizeOf_lt_of_mem he
    cases e
    simp at this ⊢
    omega
  | .generic base args, h => by
    rw [bracketed, List.mem_append] at h
    rcases h with h | h
    · have := sizeOf_lt_of_mem_bracketed base h
      simp
      omega
    · have := List.sizeOf_lt_of_mem h
      simp
      omega
  | .callable params result, h => by
    rw [bracketed, List.mem_append, List.mem_map] at h
    rcases h with ⟨p, hp, rfl⟩ | h
    · have := List.sizeOf_lt_of_mem hp
      cases p
      simp at this ⊢
      omega
    · -- the result, if there is one
      obtain rfl := Option.mem_toList.mp h
      simp
      omega
  | .named _, h | .literal _, h | .this, h => by
    rw [bracketed] at h
    cases h

/-- The same for the types inside the brackets of some types. -/
theorem sizeOf_lt_of_mem_bracketedAll {u : TypeExpr} :
    ∀ ts : List TypeExpr, u ∈ bracketedAll ts → sizeOf u < sizeOf ts
  | [], h => by
    rw [bracketedAll] at h
    cases h
  | t :: rest, h => by
    rw [bracketedAll, List.mem_append] at h
    rcases h with h | h
    · have := sizeOf_lt_of_mem_bracketed t h
      simp
      omega
    · have := sizeOf_lt_of_mem_bracketedAll rest h
      simp
      omega

end

/-- The number of frames of a type: its own, and those of the type with the most frames inside its
brackets. -/
def frames (t : TypeExpr) : Nat :=
  1 + (t.bracketed.attach.map fun u => u.1.frames).foldr max 0
termination_by sizeOf t
decreasing_by exact sizeOf_lt_of_mem_bracketed t u.2

theorem frames_eq (t : TypeExpr) : t.frames = 1 + (t.bracketed.map frames).foldr max 0 := by
  rw [frames, List.attach_map_val]

theorem foldr_max_le_iff {ns : List Nat} {n : Nat} : ns.foldr max 0 ≤ n ↔ ∀ m ∈ ns, m ≤ n := by
  induction ns with
  | nil => simp
  | cons m ns ih => simp [ih]

/-- Frames fit into a depth if those inside brackets fit into one less. -/
theorem frames_le_succ_iff {t : TypeExpr} {n : Nat} :
    t.frames ≤ n + 1 ↔ ∀ u ∈ t.bracketed, u.frames ≤ n := by
  -- the type's own frame takes the one, and the deepest bracket fits into the rest
  have hsucc (m : Nat) : 1 + m ≤ n + 1 ↔ m ≤ n := by omega
  rw [frames_eq, hsucc, foldr_max_le_iff, List.forall_mem_map]

theorem not_frames_le_zero (t : TypeExpr) : ¬t.frames ≤ 0 := by
  rw [frames_eq]
  omega

/-! ## Section 2: What a rule rests on -/

/-- Something that holds of the grammar of the types inside brackets rests on some types: they are
spelled, and any other grammar will do that spells them alike. -/
structure Rests (Inner : Grammar TypeExpr) (types : List TypeExpr) (P : Grammar TypeExpr → Prop) :
    Prop where
  spelled : ∀ u ∈ types, ∃ ws js, Inner u ws js
  holds : ∀ G : Grammar TypeExpr, (∀ u ∈ types, ∀ ws js, Inner u ws js → G u ws js) → P G

namespace Rests

variable {Inner : Grammar TypeExpr} {types others : List TypeExpr} {P Q : Grammar TypeExpr → Prop}

theorem inner {u : TypeExpr} {ws : List Word} {js : List Joint} (h : Inner u ws js) :
    Rests Inner [u] fun G => G u ws js where
  spelled := by simpa using ⟨ws, js, h⟩
  holds G hG := hG u List.mem_cons_self ws js h

theorem free (h : ∀ G, P G) : Rests Inner [] P where
  spelled := by simp
  holds G _ := h G

theorem imp (h : Rests Inner types P) (hPQ : ∀ G, P G → Q G) : Rests Inner types Q where
  spelled := h.spelled
  holds G hG := hPQ G (h.holds G hG)

theorem append (h : Rests Inner types P) (h' : Rests Inner others Q) :
    Rests Inner (types ++ others) fun G => P G ∧ Q G where
  spelled := List.forall_mem_append.mpr ⟨h.spelled, h'.spelled⟩
  holds G hG := ⟨h.holds G fun u hu => hG u (List.mem_append_left others hu),
    h'.holds G fun u hu => hG u (List.mem_append_right types hu)⟩

end Rests

section Rules

variable {Inner : Grammar TypeExpr} {ty : TypeExpr} {ws : List Word} {js : List Joint}

/-- A list of items rests on the types of its items. -/
theorem SpelledItems.rests {α : Type} {Item : Grammar TypeExpr → Grammar α} {tyOf : α → TypeExpr}
    {close : Kind} (hitem : ∀ {x : α} {ws : List Word} {js : List Joint}, Item Inner x ws js →
      Rests Inner [tyOf x] fun G => Item G x ws js)
    {xs : List α} (h : SpelledItems (Item Inner) close xs ws) :
    Rests Inner (xs.map tyOf) fun G => SpelledItems (Item G) close xs ws := by
  -- induction on the items, each of which adds its own type
  induction h with
  | last h hc => exact (hitem h).imp fun G h => .last h hc
  | trailing h hm hc => exact (hitem h).imp fun G h => .trailing h hm hc
  | cons h hm _ ih => exact ((hitem h).append ih).imp fun G h => .cons h.1 hm h.2

theorem SpelledEntry.rests {e : Entry TypeExpr} (h : SpelledEntry Inner e ws js) :
    Rests Inner [e.ty] fun G => SpelledEntry G e ws js := by
  cases h with
  | mk hk hq hc hty => exact (Rests.inner hty).imp fun G h => .mk hk hq hc h

theorem SpelledEntries.rests {es : List (Entry TypeExpr)} (h : SpelledEntries Inner es ws js) :
    Rests Inner (es.map (·.ty)) fun G => SpelledEntries G es ws js := by
  cases h with
  | none => exact .free fun G => .none
  | some hl hes => exact (hes.rests SpelledEntry.rests).imp fun G h => .some hl h

theorem SpelledParam.rests {p : Param TypeExpr} (h : SpelledParam Inner p ws js) :
    Rests Inner [p.ty] fun G => SpelledParam G p ws js := by
  cases h with
  | bare hty => exact (Rests.inner hty).imp fun G h => .bare h
  | named hty hb hclear => exact (Rests.inner hty).imp fun G h => .named h hb hclear
  | default hty hb hclear he hd =>
    exact (Rests.inner hty).imp fun G h => .default h hb hclear he hd

theorem SpelledSignature.rests {ps : List (Param TypeExpr)} (h : SpelledSignature Inner ps ws) :
    Rests Inner (ps.map (·.ty)) fun G => SpelledSignature G ps ws := by
  cases h with
  | empty hr => exact .free fun G => .empty hr
  | params hps => exact (hps.rests SpelledParam.rests).imp fun G h => .params h

/-- A callable rests on the types of its parameters and its result. -/
theorem SpelledCallable.rests (h : SpelledCallable Inner ty ws js) :
    Rests Inner ty.bracketed fun G => SpelledCallable G ty ws js := by
  cases h with
  | bare => exact .free fun G => .bare
  | plain hl hps =>
    rw [bracketed, Option.toList_none, List.append_nil]
    exact hps.rests.imp fun G h => .plain hl h
  | result hl hps hc hr =>
    exact (hps.rests.append (.inner hr)).imp fun G h => .result hl h.1 hc h.2

/-- The word a type begins with rests on what stands in its brackets. -/
theorem SpelledHead.rests {allowed : Bool} (h : SpelledHead Inner (ty, allowed) ws js) :
    Rests Inner ty.bracketed fun G => SpelledHead G (ty, allowed) ws js := by
  cases h with
  | array hw hes => exact hes.rests.imp fun G h => .array hw h
  | object hw hes => exact hes.rests.imp fun G h => .object hw h
  | callable hw hty => exact hty.rests.imp fun G h => .callable hw h
  | static hw => exact .free fun G => .static hw
  | named hn => exact .free fun G => .named hn

/-- With arguments behind it, it rests on the arguments as well. -/
theorem SpelledApplied.rests (h : SpelledApplied Inner ty ws js) :
    Rests Inner ty.bracketed fun G => SpelledApplied G ty ws js := by
  cases h with
  | closed hty => exact hty.rests.imp fun G h => .closed h
  | plain hty => exact hty.rests.imp fun G h => .plain h
  | @generic _ args _ vs _ _ hty hl hargs =>
    -- each argument is a type, which rests on itself
    have hall : Rests Inner (args.map id) fun G => SpelledItems G .gt args vs :=
      hargs.rests Rests.inner
    rw [List.map_id] at hall
    exact (hty.rests.append hall).imp fun G h => .generic h.1 hl h.2

theorem SpelledBasic.rests {isNullable : Bool} (h : SpelledBasic Inner isNullable ty ws js) :
    Rests Inner ty.bracketed fun G => SpelledBasic G isNullable ty ws js := by
  cases h with
  | plain hty => exact hty.rests.imp fun G h => .plain h
  | constant hn hnull hc hname => exact hn.rests.imp fun G h => .constant h hnull hc hname

/-- Parentheses rest on the type between them, a question mark on what the type behind it rests on.
-/
theorem SpelledPrimary.rests (h : SpelledPrimary Inner ty ws js) :
    Rests Inner ty.bracketed fun G => SpelledPrimary G ty ws js := by
  cases h with
  | paren hl hty hr => exact (Rests.inner hty).imp fun G h => .paren hl h hr
  | this hw => exact .free fun G => .this hw
  | literal hw => exact .free fun G => .literal hw
  | nullable hq hty => exact hty.rests.imp fun G h => .nullable hq h
  | basic hty => exact hty.rests.imp fun G h => .basic h

/-- The brackets of an array add nothing. -/
theorem SpelledAtomic.rests (h : SpelledAtomic Inner ty ws js) :
    Rests Inner ty.bracketed fun G => SpelledAtomic G ty ws js := by
  cases h with
  | mk hty =>
    refine Rests.imp ?_ fun G h => .mk h
    -- induction on the pairs of brackets, none of which has a type in it
    induction hty with
    | plain hty => exact hty.rests.imp fun G h => .plain h
    | array _ hjs hl hr ih => exact ih.imp fun G h => .array h hjs hl hr

/-- Members rest on what each of them rests on. -/
theorem SpelledMembers.rests {operator : Kind} {joint : Joint} {tys : List TypeExpr}
    (h : SpelledMembers Inner operator joint tys ws js) :
    Rests Inner (bracketedAll tys) fun G => SpelledMembers G operator joint tys ws js := by
  induction h with
  | last ho hty =>
    rw [bracketedAll, bracketedAll, List.append_nil]
    exact hty.rests.imp fun G h => .last ho h
  | cons ho hty hjs _ ih => exact (hty.rests.append ih).imp fun G h => .cons ho h.1 hjs h.2

theorem SpelledCompound.rests (h : SpelledCompound Inner ty ws js) :
    Rests Inner ty.bracketed fun G => SpelledCompound G ty ws js := by
  cases h with
  | single hty => exact hty.rests.imp fun G h => .single h
  | union hty hjs htys => exact (hty.rests.append htys.rests).imp fun G h => .union h.1 hjs h.2
  | intersection hty hjs htys =>
    exact (hty.rests.append htys.rests).imp fun G h => .intersection h.1 hjs h.2

end Rules

/-! ## Section 3: The depth of a spelling -/

variable {depth depth' : Nat} {ty : TypeExpr} {ws : List Word} {js : List Joint}

/-- What is spelled at some depth has no more frames than that. -/
theorem frames_le_of_spelled (h : Spelled depth ty ws js) : ty.frames ≤ depth := by
  -- induction on the depth: the types inside brackets are spelled one level down
  induction depth generalizing ty ws js with
  | zero => exact h.elim
  | succ depth ih =>
    refine frames_le_succ_iff.mpr fun u hu => ?_
    obtain ⟨ws, js, hu⟩ := (SpelledCompound.rests h).spelled u hu
    exact ih hu

/-- What is spelled at one depth is spelled at every other that its frames fit into. -/
theorem spelled_of_frames_le (h : Spelled depth ty ws js) (hfits : ty.frames ≤ depth') :
    Spelled depth' ty ws js := by
  -- each type inside brackets takes one from either depth
  induction depth generalizing depth' ty ws js with
  | zero => exact h.elim
  | succ depth ih =>
    cases depth' with
    | zero => exact absurd hfits ty.not_frames_le_zero
    | succ depth' =>
      have hinside := frames_le_succ_iff.mp hfits
      exact (SpelledCompound.rests h).holds _ fun u hu ws js hspelled => ih hspelled (hinside u hu)

/-! ## Section 4: Types that do not fit -/

theorem frames_le_of_readerTo {ts rest : List Lexeme} (h : readerTo depth ts = .ok (ty, rest)) :
    ty.frames ≤ depth := by
  obtain ⟨ws, js, -, hspelled, -⟩ := sound_readerTo depth h
  exact frames_le_of_spelled hspelled

/-- The reader reads a spelling whose frames fit, and refuses any other for its nesting. -/
theorem reader_of_spelled (h : Spelled depth ty ws js) {pre rest : List Lexeme}
    (hpre : words pre = ws) (hclear : Clear js (words rest)) :
    (ty.frames ≤ maxDepth → reader (pre ++ rest) = .ok (ty, rest)) ∧
      (maxDepth < ty.frames → TooDeep (reader (pre ++ rest))) := by
  refine ⟨fun hfits => complete_readerTo maxDepth (spelled_of_frames_le h hfits) hpre hclear,
    fun hdeep => ?_⟩
  -- with room for all its frames the type is read, so the reader with less follows or complains
  have hmore : readerTo (max maxDepth ty.frames) (pre ++ rest) = .ok (ty, rest) :=
    complete_readerTo _ (spelled_of_frames_le h (Nat.le_max_right _ _)) hpre hclear
  have hfollows :=
    readerTo_agrees (Nat.le_max_left maxDepth ty.frames) (Similar.refl (words (pre ++ rest)))
  rw [hmore] at hfollows
  rcases hfollows.eq_ok_or_deep with ⟨rest', hread⟩ | hrefused
  · exact absurd (frames_le_of_readerTo hread) (Nat.not_le.mpr hdeep)
  · exact hrefused

/-- The printed form of a type is read if its frames fit. -/
theorem parse_print_of_spelled (h : Spelled depth ty ws js) (hws : Genuine ws) :
    (ty.frames ≤ maxDepth → parse ty.print = .ok ty) ∧
      (maxDepth < ty.frames → ∃ e, parse ty.print = .error e ∧
        e.message = "type nesting too deep".toList) := by
  obtain ⟨vs, ks, hvs, -, hwritten⟩ := reprints_spelled depth h hws
  -- the printed form is read back as the words of the other spelling
  have hwords : words (Lexeme.ofText ty.print) = vs := by
    rw [Word.words_ofText, ← hwritten.source]
    exact Word.scan_source (hwritten.phrase none (by simp))
  have hclear : Clear ks (words []) := clear_nil_right ks
  obtain ⟨hfits, hdeep⟩ := reader_of_spelled hvs hwords hclear
  rw [List.append_nil] at hfits hdeep
  refine ⟨fun h => parse_eq_ok_iff.mpr ⟨[], hfits h, by simp⟩, fun h => ?_⟩
  obtain ⟨f, hread, hreason⟩ := hdeep h
  refine ⟨_, by rw [parse, hread], ?_⟩
  rw [Fault.toError, hreason]
  rfl

/-! ## Section 5: Inside the brackets of another type -/

/-- The places inside brackets where a type can stand. -/
inductive Setting where
  | paren
  | argument (base : Text)
  | entry (key : Text)
  | param
  | result
  deriving DecidableEq, Repr

namespace Setting

/-- The type that has a type in the given place. -/
def place : Setting → TypeExpr → TypeExpr
  | .paren, ty => .paren ty
  | .argument base, ty => .generic (.named (.single base)) [ty]
  | .entry key, ty => .shape .array [⟨key, false, ty⟩]
  | .param, ty => .callable [⟨ty, false, false, none, none⟩] none
  | .result, ty => .callable [] (some ty)

/-- The same in print. -/
def text : Setting → Text → Text
  | .paren, s => '(' :: s ++ [')']
  | .argument base, s => base ++ '<' :: s ++ ['>']
  | .entry key, s => "array".toList ++ '\x7b' :: (key ++ ": ".toList ++ s) ++ ['\x7d']
  | .param, s => "callable".toList ++ '(' :: s ++ [')']
  | .result, s => "callable".toList ++ "(): ".toList ++ s

/-- The names in front of the brackets and in them are identifiers. -/
def Named : Setting → Prop
  | .argument name | .entry name => Token.Forms .ident name
  | .paren | .param | .result => True

instance (w : Setting) : Decidable w.Named := by
  cases w <;> unfold Named <;> infer_instance

/-- In a setting a type is printed with the text of the setting around it. -/
theorem print_place (w : Setting) (ty : TypeExpr) : (w.place ty).print = w.text ty.print := by
  cases w with
  | paren => rfl
  | argument base =>
    have hname : (Name.single base).print = base := by simp [Name.print, Name.single]
    have hprint : (generic (.named (.single base)) [ty]).print =
        (Name.single base).print ++ '<' :: List.intercalate ", ".toList [ty.print] ++ ['>'] := rfl
    rw [place, hprint, hname, List.intercalate_singleton]
    rfl
  | entry key =>
    have hprint : (shape .array [⟨key, false, ty⟩]).print = "array".toList ++ '\x7b' ::
        List.intercalate ", ".toList [key ++ [] ++ ": ".toList ++ ty.print] ++ ['\x7d'] := rfl
    rw [place, hprint, List.intercalate_singleton, List.append_nil]
    rfl
  | param =>
    have hprint : (callable [⟨ty, false, false, none, none⟩] none).print = "callable".toList ++
        '(' :: List.intercalate ", ".toList [ty.print ++ [] ++ []] ++ [')'] := rfl
    rw [place, hprint, List.intercalate_singleton, List.append_nil, List.append_nil]
    rfl
  | result => rfl

theorem bracketed_place (w : Setting) (ty : TypeExpr) : (w.place ty).bracketed = [ty] := by
  cases w <;> simp [place, bracketed]

theorem frames_place (w : Setting) (ty : TypeExpr) : (w.place ty).frames = ty.frames + 1 := by
  -- only the type itself is inside the brackets
  rw [frames_eq, bracketed_place]
  simp [Nat.add_comm]

/-- What spells a type spells it between brackets. -/
theorem exists_spelled_place {w : Setting} (hw : w.Named) (h : Spelled depth ty ws js)
    (hws : Genuine ws) :
    ∃ vs ks, Spelled (depth + 1) (w.place ty) vs ks ∧ Genuine vs ∧
      ∀ v ∈ vs.head?, v.kind ≠ .static := by
  -- the words that a setting adds
  let lparen : Word := ⟨.lparen, ['('], []⟩
  let rparen : Word := ⟨.rparen, [')'], []⟩
  let callable : Word := ⟨.callable, "callable".toList, []⟩
  have hlparen : Token.Forms lparen.kind lparen.text ∧ lparen.kind ≠ .blank := by decide
  have hrparen : Token.Forms rparen.kind rparen.text ∧ rparen.kind ≠ .blank := by decide
  have hcallable : Token.Forms callable.kind callable.text ∧ callable.kind ≠ .blank := by decide
  -- one case per setting, each naming the words around the type
  cases w with
  | paren =>
    refine ⟨lparen :: (ws ++ [rparen]), _, .single (.mk (.plain (.paren rfl h rfl))), ?_,
      by simp [lparen]⟩
    simpa only [genuine_cons, genuine_append, genuine_nil, and_true] using ⟨hlparen, hws, hrparen⟩
  | argument base =>
    let name : Word := ⟨.ident, base, []⟩
    let lt : Word := ⟨.lt, ['<'], []⟩
    let gt : Word := ⟨.gt, ['>'], []⟩
    refine ⟨[name] ++ lt :: (ws ++ [gt]), _, .single (.mk (.plain (.basic (.plain (.generic
      (.named (.relative (.last (w := name) rfl))) rfl (.last h rfl)))))), ?_, by simp [name]⟩
    simp only [genuine_cons, genuine_append, genuine_nil, and_true]
    exact ⟨⟨hw, Kind.noConfusion⟩, by decide, hws, by decide⟩
  | entry key =>
    let array : Word := ⟨.array, "array".toList, []⟩
    let name : Word := ⟨.ident, key, []⟩
    let lbrace : Word := ⟨.lbrace, ['\x7b'], []⟩
    let rbrace : Word := ⟨.rbrace, ['\x7d'], []⟩
    let colon : Word := ⟨.colon, [':'], []⟩
    refine ⟨array :: lbrace :: (name :: ([] ++ colon :: ws) ++ [rbrace]), _,
      .single (.mk (.plain (.basic (.plain (.plain (.array rfl (.some rfl (.last
        (.mk (k := name) rfl .absent rfl h) rfl)))))))), ?_, by simp [array]⟩
    simp only [genuine_cons, genuine_append, genuine_nil, and_true, true_and]
    exact ⟨by decide, by decide, ⟨⟨hw, Kind.noConfusion⟩, by decide, hws⟩, by decide⟩
  | param =>
    refine ⟨callable :: lparen :: (ws ++ [rparen]), _, .single (.mk (.plain (.basic (.plain (.closed
      (.callable rfl (.plain rfl (.params (.last (.bare h) rfl))))))))), ?_, by simp [callable]⟩
    simpa only [genuine_cons, genuine_append, genuine_nil, and_true] using
      ⟨hcallable, hlparen, hws, hrparen⟩
  | result =>
    let colon : Word := ⟨.colon, [':'], []⟩
    refine ⟨callable :: lparen :: ([rparen] ++ colon :: ws), _, .single (.mk (.plain (.basic (.plain
      (.closed (.callable rfl (.result rfl (.empty rfl) rfl h))))))), ?_, by simp [callable]⟩
    simp only [genuine_cons, genuine_append, genuine_nil, and_true]
    exact ⟨hcallable, hlparen, hrparen, by decide, hws⟩

end Setting

/-- What was read as a type nests to the given depth at most. Inside the brackets of another type it
is read again if there is room for one frame more, and else refused for its nesting. -/
theorem parse_place {s : Text} (h : parse s = .ok ty) :
    ty.frames ≤ 128 ∧ ∀ w : Setting, w.Named →
      (ty.frames < 128 → parse (w.text ty.print) = .ok (w.place ty)) ∧
      (128 ≤ ty.frames → ∃ e, parse (w.text ty.print) = .error e ∧
        e.message = "type nesting too deep".toList) := by
  obtain ⟨rest, hread, -⟩ := parse_eq_ok_iff.mp h
  obtain ⟨ws, js, hpass, hspelled, -⟩ := sound_readerTo maxDepth hread
  refine ⟨frames_le_of_spelled hspelled, fun w hw => ?_⟩
  -- the type in its setting is spelled one level deeper, and that spelling decides both halves
  obtain ⟨vs, ks, hvs, hgenuine, -⟩ :=
    w.exists_spelled_place hw hspelled (hpass.genuine (genuine_ofText s)).1
  obtain ⟨hfits, hdeep⟩ := parse_print_of_spelled hvs hgenuine
  rw [w.print_place, w.frames_place, maxDepth] at hfits hdeep
  exact ⟨fun h => hfits (by omega), fun h => hdeep (by omega)⟩

end TypeExpr

end Docblock
