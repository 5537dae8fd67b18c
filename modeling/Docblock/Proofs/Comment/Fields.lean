import Docblock.Proofs.Comment.Lines
import Docblock.Proofs.TypeExpr.Respelling

/-!
# The fields of a tag

What follows the keyword of a structured tag is first its fields, then the description.  As for
types, `SpelledFields` says which words spell the fields and what may follow them, and the reader
of tags is sound and complete for it.

`SpelledFields depth keyword tag ws stop`: after `keyword` the words `ws` spell the fields of `tag`,
with types that nest to the given depth at most.  The tag still waits for its description, which is
whatever comes next, if its words satisfy `stop`.

`FieldsRead keyword ts mk rest`: what the reader of tags can do, form by form.  Whatever is to be
known of the fields that are read, and of what they leave, is proved from it.
-/

namespace Docblock

open Lexeme (words words_eq_nil words_eq_cons words_eq_singleton words_eq_append)
open Reader
open TypeExpr

/-! ## Section 1: The rules -/

/-- One of the words that introduce the bound of a template. -/
def Word.isBound (w : Word) : Bool :=
  w.kind == .ident && (w.text == "of".toList || w.text == "as".toList)

namespace Tag

/-- A method. The word `static` in front is a mark, or the result of a method that has no other. -/
inductive SpelledMethod (depth : Nat) : Method → List Word → Prop where
  | named {isStatic : Bool} {ss ws vs : List Word} {l : Word} {n : Name} {name : Text}
      {js : List Joint} {ps : List (Param TypeExpr)} (hs : Mark .static isStatic ss)
      (hn : Spelled depth (.named n) ws js) (hname : n.single? = some name)
      (hfirst : isStatic = false → ∀ w ∈ ws.head?, w.kind ≠ .static)
      (hjs : .word .lparen ∉ js) (hl : l.kind = .lparen)
      (hps : SpelledSignature (Spelled depth) ps vs) :
      SpelledMethod depth ⟨false, if isStatic then some (.named .static) else none, name, ps⟩
        (ss ++ (ws ++ l :: vs))
  | typed {isStatic : Bool} {ss ws vs : List Word} {n l : Word} {ty : TypeExpr}
      {js : List Joint} {ps : List (Param TypeExpr)} (hs : Mark .static isStatic ss)
      (hty : Spelled depth ty ws js)
      (hfirst : isStatic = false → ∀ w ∈ ws.head?, w.kind ≠ .static)
      (hn : n.kind = .ident) (hl : l.kind = .lparen)
      (hps : SpelledSignature (Spelled depth) ps vs) :
      SpelledMethod depth ⟨isStatic, some ty, n.text, ps⟩ (ss ++ (ws ++ n :: l :: vs))

/-- The fields of a tag. -/
inductive SpelledFields (depth : Nat) :
    Keyword → (Text → Tag) → List Word → (List Word → Prop) → Prop where
  | param {p : Param TypeExpr} {ws : List Word} {js : List Joint}
      (hp : SpelledTagParam (Spelled depth) p ws js) :
      SpelledFields depth .param (.param p) ws (Clear js)
  | typed {k : TypedKeyword} {ty : TypeExpr} {ws : List Word} {js : List Joint}
      (hty : Spelled depth ty ws js) : SpelledFields depth (.typed k) (.typed k ty) ws (Clear js)
  | property {a : Access} {ty : TypeExpr} {ws : List Word} {js : List Joint} {v : Word}
      (hty : Spelled depth ty ws js) (hv : v.kind = .var) :
      SpelledFields depth (.property a) (.property a ty v.text.tail) (ws ++ [v]) fun _ => True
  | method {m : Method} {ws : List Word} (hm : SpelledMethod depth m ws) :
      SpelledFields depth .method (.method m) ws (Clear [.word .colon])
  | var {ty : TypeExpr} {ws : List Word} {js : List Joint} (hty : Spelled depth ty ws js) :
      SpelledFields depth .var (.var ty none) ws (Clear (.word .var :: js))
  | varNamed {ty : TypeExpr} {ws : List Word} {js : List Joint} {v : Word}
      (hty : Spelled depth ty ws js) (hv : v.kind = .var) :
      SpelledFields depth .var (.var ty (some v.text.tail)) (ws ++ [v]) fun _ => True
  | template {n : Word} (hn : n.kind = .ident) :
      SpelledFields depth .template (.template n.text none) [n] fun vs => vs.head?.any Word.isBound = false
  | bound {n b : Word} {ty : TypeExpr} {ws : List Word} {js : List Joint} (hn : n.kind = .ident)
      (hb : b.isBound = true) (hty : Spelled depth ty ws js) :
      SpelledFields depth .template (.template n.text (some ty)) (n :: b :: ws) (Clear js)
  | alias {n : Word} {e : Bool} {es ws : List Word} {ty : TypeExpr} {js : List Joint}
      (hn : n.kind = .ident) (he : Mark .equals e es) (hty : Spelled depth ty ws js) :
      SpelledFields depth .alias (.alias n.text ty) (n :: (es ++ ws)) (Clear js)

namespace SpelledFields

variable {depth : Nat} {keyword : Keyword} {mk : Text → Tag} {ws : List Word}
variable {stop : List Word → Prop}

theorem keyword_eq (h : SpelledFields depth keyword mk ws stop) (d : Text) :
    (mk d).keyword? = some keyword := by
  cases h <;> rfl

theorem desc_eq (h : SpelledFields depth keyword mk ws stop) (d : Text) : (mk d).desc = d := by
  cases h <;> rfl

end SpelledFields

/-! ## Section 2: What is read -/

variable {ts rest : List Lexeme}

/-- A method that is read from the lexemes `ts`, with `rest` left.  The first type is the name where
the parenthesis follows it, and the result otherwise. -/
inductive MethodRead (ts : List Lexeme) : Method → List Lexeme → Prop where
  | named {us vs rest : List Lexeme} {isStatic : Bool} {n : Name} {name : Text} {l : Lexeme}
      {ps : List (Param TypeExpr)} (hs : skip .static ts = (isStatic, us))
      (hn : TypeExpr.reader us = .ok (.named n, l :: vs)) (hname : n.single? = some name)
      (hl : l.kind = .lparen) (hps : TypeExpr.signature TypeExpr.reader vs = .ok (ps, rest))
      (hcolon : at? .colon rest = false) :
      MethodRead ts ⟨false, if isStatic then some (.named .static) else none, name, ps⟩ rest
  | typed {us vs rest : List Lexeme} {isStatic : Bool} {ty : TypeExpr} {n l : Lexeme}
      {ps : List (Param TypeExpr)} (hs : skip .static ts = (isStatic, us))
      (hty : TypeExpr.reader us = .ok (ty, n :: l :: vs)) (hn : n.kind = .ident)
      (hl : l.kind = .lparen) (hps : TypeExpr.signature TypeExpr.reader vs = .ok (ps, rest))
      (hcolon : at? .colon rest = false) : MethodRead ts ⟨isStatic, some ty, n.text, ps⟩ rest

/-- A method that was read is one of the two forms. -/
theorem methodRead_of_ok {m : Method} (h : readMethod ts = .ok (m, rest)) :
    MethodRead ts m rest := by
  unfold readMethod at h
  cases hs : skip .static ts with
  | mk isStatic us =>
    simp only [hs] at h
    rw [bind_eq_ok] at h
    obtain ⟨⟨first, vs⟩, hfirst, h⟩ := h
    rw [bind_eq_ok] at h
    obtain ⟨⟨⟨isStatic', result, name⟩, vs'⟩, hhead, h⟩ := h
    rw [bind_eq_ok] at h
    obtain ⟨⟨l, vs''⟩, hl, h⟩ := h
    rw [expect_eq_ok] at hl
    obtain ⟨rfl, hl⟩ := hl
    rw [bind_eq_ok] at h
    obtain ⟨⟨ps, rest'⟩, hps, h⟩ := h
    -- a colon behind the parameters would have been refused
    simp only at h
    split at h
    · cases h
    · next hskip =>
      obtain ⟨rfl, hcolon⟩ := skip_eq_false.mp hskip
      cases h
      -- a parenthesis behind the first type makes it the name
      unfold methodHead at hhead
      split at hhead
      · cases first with
        | named n =>
          simp only at hhead
          split at hhead
          · next name' hname =>
            cases hhead
            exact .named hs hfirst hname hl hps hcolon
          · cases hhead
        | _ => cases hhead
      · -- otherwise an identifier has to follow the type
        rw [bind_eq_ok] at hhead
        obtain ⟨⟨n, us'⟩, hn, hhead⟩ := hhead
        cases hhead
        rw [expect_eq_ok] at hn
        obtain ⟨rfl, hn⟩ := hn
        exact .typed hs hfirst hn hl hps hcolon

/-- A variable is taken if it comes first. -/
theorem optionalVar_eq {v : Option Text} (h : optionalVar ts = (v, rest)) :
    (v = none ∧ rest = ts ∧ at? .var ts = false) ∨
      ∃ t, ts = t :: rest ∧ t.kind = .var ∧ v = some t.text.tail := by
  unfold optionalVar at h
  split at h
  · next t us =>
    split at h
    · next ht =>
      cases h
      exact .inr ⟨t, rfl, ht, rfl⟩
    · next ht =>
      cases h
      exact .inl ⟨rfl, rfl, by simpa using ht⟩
  · cases h
    exact .inl ⟨rfl, rfl, rfl⟩

/-- The fields of a tag with a structure, and what is left for its description. -/
def fields : Keyword → Reader (Text → Tag)
  | .param, ts => do
    let (p, rest) ← TypeExpr.tagParam TypeExpr.reader ts
    return (.param p, rest)
  | .typed keyword, ts => do
    let (ty, rest) ← TypeExpr.reader ts
    return (.typed keyword ty, rest)
  | .property access, ts => do
    let (ty, rest) ← TypeExpr.reader ts
    let (v, rest) ← expect .var rest
    return (.property access ty v.text.tail, rest)
  | .method, ts => do
    let (m, rest) ← readMethod ts
    return (.method m, rest)
  | .var, ts => do
    let (ty, rest) ← TypeExpr.reader ts
    let (v, rest) := optionalVar rest
    return (.var ty v, rest)
  | .template, ts => do
    let (name, rest) ← expect .ident ts
    if rest.head?.any isBoundWord then
      let (bound, rest) ← TypeExpr.reader rest.tail
      return (.template name.text (some bound), rest)
    else
      return (.template name.text none, rest)
  | .alias, ts => do
    let (name, rest) ← expect .ident ts
    let (_, rest) := skip .equals rest
    let (ty, rest) ← TypeExpr.reader rest
    return (.alias name.text ty, rest)

/-- A tag with a structure is its fields, with what is left as its description. -/
theorem readStructured_eq (keyword : Keyword) (ts : List Lexeme) :
    readStructured keyword ts = (do
      let (mk, rest) ← fields keyword ts
      return mk (restOfLine rest)) := by
  cases keyword with
  -- whether there is a bound is decided before the description is read
  | template =>
    simp only [readStructured, fields, bind_assoc]
    congr 1
    funext x
    split
    · simp only [bind_assoc]
      rfl
    · rfl
  | _ =>
    simp only [readStructured, fields, bind_assoc]
    rfl

/-- The fields that are read from lexemes, and what they leave. -/
inductive FieldsRead : Keyword → List Lexeme → (Text → Tag) → List Lexeme → Prop where
  | param {ts rest : List Lexeme} {p : Param TypeExpr}
      (hp : TypeExpr.tagParam TypeExpr.reader ts = .ok (p, rest)) :
      FieldsRead .param ts (.param p) rest
  | typed {k : TypedKeyword} {ts rest : List Lexeme} {ty : TypeExpr}
      (hty : TypeExpr.reader ts = .ok (ty, rest)) : FieldsRead (.typed k) ts (.typed k ty) rest
  | property {a : Access} {ts rest : List Lexeme} {ty : TypeExpr} {v : Lexeme}
      (hty : TypeExpr.reader ts = .ok (ty, v :: rest)) (hv : v.kind = .var) :
      FieldsRead (.property a) ts (.property a ty v.text.tail) rest
  | method {ts rest : List Lexeme} {m : Method} (hm : MethodRead ts m rest) :
      FieldsRead .method ts (.method m) rest
  | var {ts rest : List Lexeme} {ty : TypeExpr} (hty : TypeExpr.reader ts = .ok (ty, rest))
      (hv : at? .var rest = false) : FieldsRead .var ts (.var ty none) rest
  | varNamed {ts rest : List Lexeme} {ty : TypeExpr} {v : Lexeme}
      (hty : TypeExpr.reader ts = .ok (ty, v :: rest)) (hv : v.kind = .var) :
      FieldsRead .var ts (.var ty (some v.text.tail)) rest
  | template {rest : List Lexeme} {n : Lexeme} (hn : n.kind = .ident)
      (hb : rest.head?.any isBoundWord = false) :
      FieldsRead .template (n :: rest) (.template n.text none) rest
  | bound {ts rest : List Lexeme} {n b : Lexeme} {ty : TypeExpr} (hn : n.kind = .ident)
      (hb : isBoundWord b = true) (hty : TypeExpr.reader ts = .ok (ty, rest)) :
      FieldsRead .template (n :: b :: ts) (.template n.text (some ty)) rest
  | alias {us vs rest : List Lexeme} {n : Lexeme} {e : Bool} {ty : TypeExpr} (hn : n.kind = .ident)
      (he : skip .equals us = (e, vs)) (hty : TypeExpr.reader vs = .ok (ty, rest)) :
      FieldsRead .alias (n :: us) (.alias n.text ty) rest

/-- Fields that were read have the form of their keyword. -/
theorem fieldsRead_of_ok {keyword : Keyword} {mk : Text → Tag}
    (h : fields keyword ts = .ok (mk, rest)) : FieldsRead keyword ts mk rest := by
  cases keyword with
  | param =>
    rw [fields, bind_eq_ok] at h
    obtain ⟨⟨p, rest⟩, hp, h⟩ := h
    cases h
    exact .param hp
  | typed k =>
    rw [fields, bind_eq_ok] at h
    obtain ⟨⟨ty, rest⟩, hty, h⟩ := h
    cases h
    exact .typed hty
  | property a =>
    rw [fields, bind_eq_ok] at h
    obtain ⟨⟨ty, us⟩, hty, h⟩ := h
    rw [bind_eq_ok] at h
    obtain ⟨⟨v, rest⟩, hv, h⟩ := h
    cases h
    rw [expect_eq_ok] at hv
    obtain ⟨rfl, hv⟩ := hv
    exact .property hty hv
  | method =>
    rw [fields, bind_eq_ok] at h
    obtain ⟨⟨m, rest⟩, hm, h⟩ := h
    cases h
    exact .method (methodRead_of_ok hm)
  | var =>
    rw [fields, bind_eq_ok] at h
    obtain ⟨⟨ty, us⟩, hty, h⟩ := h
    cases hv : optionalVar us with
    | mk v rest =>
      simp only [hv] at h
      cases h
      -- without a variable the fields end at a lexeme that is none
      obtain ⟨rfl, rfl, hat⟩ | ⟨t, rfl, ht, rfl⟩ := optionalVar_eq hv
      · exact .var hty hat
      · exact .varNamed hty ht
  | template =>
    rw [fields, bind_eq_ok] at h
    obtain ⟨⟨n, us⟩, hn, h⟩ := h
    rw [expect_eq_ok] at hn
    obtain ⟨rfl, hn⟩ := hn
    -- whether there is a bound shows at the lexeme after the name
    simp only at h
    split at h
    · next hbound =>
      rw [bind_eq_ok] at h
      obtain ⟨⟨ty, rest⟩, hty, h⟩ := h
      cases h
      cases us with
      | nil => cases hbound
      | cons b us => exact .bound hn hbound hty
    · next hbound =>
      cases h
      exact .template hn (by simpa using hbound)
  | «alias» =>
    rw [fields, bind_eq_ok] at h
    obtain ⟨⟨n, us⟩, hn, h⟩ := h
    rw [expect_eq_ok] at hn
    obtain ⟨rfl, hn⟩ := hn
    cases hskip : skip .equals us with
    | mk e vs =>
      simp only [hskip] at h
      rw [bind_eq_ok] at h
      obtain ⟨⟨ty, rest⟩, hty, h⟩ := h
      cases h
      exact .alias hn hskip hty

/-! ## Section 3: Tags obey the rules -/

theorem at?_words {kind : Kind} : at? kind ts = false ↔ ∀ w ∈ (words ts).head?, w.kind ≠ kind := by
  cases ts with
  | nil => simp
  | cons t ts => simp

/-- A type that follows an optional `static` does not begin with it. -/
theorem head_ne_static {us vs : List Lexeme} {ws : List Word} {isStatic : Bool}
    (hs : isStatic = false → at? .static us = false) (hpass : Passes us ws vs)
    (h : isStatic = false) : ∀ w ∈ ws.head?, w.kind ≠ .static := by
  intro w hw
  have hat := at?_words.mp (hs h) w
  rw [words, List.head?_map, hpass.head_eq hw] at hat
  exact hat rfl

/-- A method that was read was spelled by the words it passed. -/
theorem sound_methodRead {m : Method} (h : MethodRead ts m rest) :
    ∃ ws, Passes ts ws rest ∧ SpelledMethod maxDepth m ws ∧ Clear [.word .colon] (words rest) := by
  have hsound := sound_readerTo maxDepth
  cases h with
  | @named us vs _ isStatic n name l ps hs hn hname hl hps hcolon =>
    obtain ⟨ss, rfl, hss, hstatic⟩ := exists_mark hs
    obtain ⟨ws, js, hpass, hws, hclear⟩ := hsound hn
    obtain ⟨xs, hpass', hxs⟩ := sound_signature hsound hps
    -- the parenthesis did not go on with the name, so it is none of its joints
    have hjs := hclear.not_mem (j := .word .lparen) (by simp [Joint.meets, hl])
    refine ⟨words ss ++ (ws ++ l.word :: xs), ?_, ?_, ?_⟩
    · exact (Passes.of_append ss _).trans (hpass.trans (.step l hpass'))
    · exact .named (l := l.word) hss hws hname (head_ne_static hstatic hpass) hjs hl hxs
    · simpa [Joint.meets_words] using hcolon
  | @typed us vs _ isStatic ty n l ps hs hty hn hl hps hcolon =>
    obtain ⟨ss, rfl, hss, hstatic⟩ := exists_mark hs
    obtain ⟨ws, js, hpass, hws, hclear⟩ := hsound hty
    obtain ⟨xs, hpass', hxs⟩ := sound_signature hsound hps
    refine ⟨words ss ++ (ws ++ n.word :: l.word :: xs), ?_, ?_, ?_⟩
    · exact (Passes.of_append ss _).trans (hpass.trans (.step n (.step l hpass')))
    · exact .typed (n := n.word) (l := l.word) hss hws (head_ne_static hstatic hpass) hn hl hxs
    · simpa [Joint.meets_words] using hcolon

theorem any_isBoundWord (ts : List Lexeme) :
    ts.head?.any isBoundWord = (words ts).head?.any Word.isBound := by
  cases ts <;> rfl

/-- What is read as fields spells them. -/
theorem sound_fieldsRead {keyword : Keyword} {mk : Text → Tag} (h : FieldsRead keyword ts mk rest) :
    ∃ ws stop, Passes ts ws rest ∧ SpelledFields maxDepth keyword mk ws stop ∧
      stop (words rest) := by
  have hsound := sound_readerTo maxDepth
  -- one case per tag; the words are those of its parts in order
  cases h with
  | param hp =>
    obtain ⟨ws, js, hpass, hws, hclear⟩ := sound_tagParam hsound hp
    exact ⟨ws, _, hpass, .param hws, hclear⟩
  | typed hty =>
    obtain ⟨ws, js, hpass, hws, hclear⟩ := hsound hty
    exact ⟨ws, _, hpass, .typed hws, hclear⟩
  | @property _ _ _ _ v hty hv =>
    obtain ⟨ws, js, hpass, hws, -⟩ := hsound hty
    exact ⟨_, _, hpass.trans (.step v (.done _)), .property (v := v.word) hws hv, trivial⟩
  | method hm =>
    obtain ⟨ws, hpass, hws, hclear⟩ := sound_methodRead hm
    exact ⟨ws, _, hpass, .method hws, hclear⟩
  | var hty hv =>
    obtain ⟨ws, js, hpass, hws, hclear⟩ := hsound hty
    refine ⟨ws, _, hpass, .var hws, ?_⟩
    rw [clear_cons_left, Joint.meets_words]
    exact ⟨hv, hclear⟩
  | @varNamed _ _ _ v hty hv =>
    obtain ⟨ws, js, hpass, hws, -⟩ := hsound hty
    exact ⟨_, _, hpass.trans (.step v (.done _)), .varNamed (v := v.word) hws hv, trivial⟩
  | @template _ n hn hb =>
    refine ⟨_, _, .step n (.done _), .template (n := n.word) hn, ?_⟩
    rwa [← any_isBoundWord]
  | @bound _ _ n b _ hn hb hty =>
    obtain ⟨ws, js, hpass, hws, hclear⟩ := hsound hty
    exact ⟨_, _, .step n (.step b hpass), .bound (n := n.word) (b := b.word) hn hb hws, hclear⟩
  | @«alias» _ _ _ n _ _ hn he hty =>
    obtain ⟨es, rfl, hes, -⟩ := exists_mark he
    obtain ⟨ws, js, hpass, hws, hclear⟩ := hsound hty
    exact ⟨_, _, .step n ((Passes.of_append es _).trans hpass), .alias (n := n.word) hn hes hws,
      hclear⟩

/-- What a structured tag reads are fields of its keyword, and the rest is its description. -/
theorem sound_readStructured {keyword : Keyword} {tag : Tag}
    (h : readStructured keyword ts = .ok tag) :
    ∃ mk ws stop rest, Passes ts ws rest ∧ SpelledFields maxDepth keyword mk ws stop ∧
      stop (words rest) ∧ tag = mk (restOfLine rest) := by
  rw [readStructured_eq, bind_eq_ok] at h
  obtain ⟨⟨mk, rest⟩, hread, h⟩ := h
  cases h
  obtain ⟨ws, stop, hpass, hfields, hstop⟩ := sound_fieldsRead (fieldsRead_of_ok hread)
  exact ⟨mk, ws, stop, rest, hpass, hfields, hstop, rfl⟩

/-! ## Section 4: Fields are read as such -/

variable {pre : List Lexeme} {ws : List Word}

/-- The mark `static` is found, and a type that follows is not taken for it. -/
theorem skip_static {isStatic : Bool} {us : List Lexeme} (hs : Mark .static isStatic ws)
    (hpre : words pre = ws) {vs : List Word} (hus : words us = vs) (hne : vs ≠ [])
    (hfirst : isStatic = false → ∀ w ∈ vs.head?, w.kind ≠ .static) (rest : List Lexeme) :
    skip .static (pre ++ (us ++ rest)) = (isStatic, us ++ rest) := by
  refine skip_mark hs hpre fun hmark => at?_words.mpr ?_
  intro w hw
  apply hfirst hmark w
  -- the first word behind the modifier's place
  rw [Lexeme.words_append, hus] at hw
  cases vs with
  | nil => exact absurd rfl hne
  | cons v vs => exact hw

/-- The parameters of a method, after its opening parenthesis, and no colon. -/
theorem readMethod_end {ps : List (Param TypeExpr)} {vs : List Word}
    (hps : SpelledSignature (Spelled maxDepth) ps vs) {us : List Lexeme} (hus : words us = vs)
    (hclear : Clear [.word .colon] (words rest)) :
    TypeExpr.signature TypeExpr.reader (us ++ rest) = .ok (ps, rest) ∧
      skip .colon rest = (false, rest) := by
  refine ⟨signature_of_spelled (complete_readerTo maxDepth) (orderly_spelled maxDepth) hps hus rest,
    skip_of_at? ?_⟩
  simpa [Joint.meets_words] using hclear

/-- Behind the name of a method stands the parenthesis, -/
theorem methodHead_named {n : Name} {name : Text} (hname : n.single? = some name) {l : Lexeme}
    (hl : l.kind = .lparen) (isStatic : Bool) (us : List Lexeme) :
    methodHead isStatic (.named n) (l :: us) =
      .ok ((false, if isStatic then some (.named .static) else none, name), l :: us) := by
  simp [methodHead, hl, hname]

/-- and behind its result an identifier. -/
theorem methodHead_typed {n : Lexeme} (hn : n.kind = .ident) (isStatic : Bool) (ty : TypeExpr)
    (us : List Lexeme) :
    methodHead isStatic ty (n :: us) = .ok ((isStatic, some ty, n.text), us) := by
  have hat : at? .lparen (n :: us) = false := by simp [hn]
  unfold methodHead
  rw [hat, if_neg Bool.false_ne_true, expect_cons hn]
  rfl

/-- A spelled method is read, if no colon follows it. -/
theorem complete_readMethod {m : Method} (h : SpelledMethod maxDepth m ws) (hpre : words pre = ws)
    (hclear : Clear [.word .colon] (words rest)) : readMethod (pre ++ rest) = .ok (m, rest) := by
  have hcomplete := complete_readerTo maxDepth
  have horderly := orderly_spelled maxDepth
  cases h with
  | @named isStatic _ _ _ _ n name js ps hs hn hname hfirst hjs hl hps =>
    obtain ⟨ss, us, rfl, hss, hus⟩ := words_eq_append.mp hpre
    obtain ⟨ws', vs, rfl, hws', hvs⟩ := words_eq_append.mp hus
    obtain ⟨l, vs', rfl, rfl, hvs'⟩ := words_eq_cons.mp hvs
    have hl : l.kind = .lparen := hl
    -- the parenthesis behind the first type makes that type the name
    have hskip := skip_static hs hss hws' (ne_nil_of_starts (horderly.starts hn)) hfirst
      (l :: (vs' ++ rest))
    have hrest : Clear js (words (l :: (vs' ++ rest))) :=
      clear_cons_of_not_mem _ (by simpa [hl] using hjs) (by simp [hl])
    have hread : TypeExpr.reader (ws' ++ (l :: (vs' ++ rest))) = .ok (.named n, l :: (vs' ++ rest)) :=
      hcomplete hn hws' hrest
    obtain ⟨hsignature, hcolon⟩ := readMethod_end hps hvs' hclear
    rw [List.append_assoc, List.append_assoc, List.cons_append]
    simp only [readMethod, hskip, hread, ok_bind, methodHead_named hname hl, expect_cons hl,
      hsignature, hcolon]
  | @typed isStatic _ _ _ _ _ ty js ps hs hty hfirst hn hl hps =>
    obtain ⟨ss, us, rfl, hss, hus⟩ := words_eq_append.mp hpre
    obtain ⟨ws', vs, rfl, hws', hvs⟩ := words_eq_append.mp hus
    obtain ⟨n, vs', rfl, rfl, hvs'⟩ := words_eq_cons.mp hvs
    obtain ⟨l, vs'', rfl, rfl, hvs''⟩ := words_eq_cons.mp hvs'
    have hl : l.kind = .lparen := hl
    have hn : n.kind = .ident := hn
    -- an identifier stands behind the first type, so that type is the result
    have hskip := skip_static hs hss hws' (ne_nil_of_starts (horderly.starts hty)) hfirst
      (n :: l :: (vs'' ++ rest))
    have hrest : Clear js (words (n :: l :: (vs'' ++ rest))) :=
      clear_cons (horderly.joints hty) _ (by simp [hn, Joint.ofType]) (by simp [hn])
    have hread : TypeExpr.reader (ws' ++ (n :: l :: (vs'' ++ rest))) =
        .ok (ty, n :: l :: (vs'' ++ rest)) := hcomplete hty hws' hrest
    obtain ⟨hsignature, hcolon⟩ := readMethod_end hps hvs'' hclear
    rw [List.append_assoc, List.append_assoc, List.cons_append, List.cons_append]
    simp only [readMethod, hskip, hread, ok_bind, methodHead_typed hn, expect_cons hl, hsignature,
      hcolon]
    rfl

/-- Words that spell the fields of a tag are read as these fields, and the rest as the
description. -/
theorem complete_readStructured {keyword : Keyword} {mk : Text → Tag} {stop : List Word → Prop}
    (h : SpelledFields maxDepth keyword mk ws stop) (hpre : words pre = ws)
    (hstop : stop (words rest)) :
    readStructured keyword (pre ++ rest) = .ok (mk (restOfLine rest)) := by
  have hcomplete := complete_readerTo maxDepth
  have horderly := orderly_spelled maxDepth
  -- a variable goes on with no type
  have hvar {ty : TypeExpr} {vs : List Word} {js : List Joint} (hty : Spelled maxDepth ty vs js)
      {v : Lexeme} (hv : v.kind = .var) : Clear js (words (v :: rest)) :=
    clear_cons (horderly.joints hty) _ (by simp [hv, Joint.ofType]) (by simp [hv])
  -- one case per tag, along its fields
  cases h with
  | param hp =>
    have hread := complete_tagParam hcomplete hp hpre hstop
    simp only [readStructured]
    rw [show TypeExpr.reader = readerTo maxDepth from rfl, hread]
    rfl
  | typed hty =>
    have hread : TypeExpr.reader (pre ++ rest) = _ := hcomplete hty hpre hstop
    simp only [readStructured, hread]
    rfl
  | @property a ty _ _ _ hty hv =>
    obtain ⟨us, vs, rfl, hus, hvs⟩ := words_eq_append.mp hpre
    obtain ⟨v, rfl, rfl⟩ := words_eq_singleton.mp hvs
    have hv : v.kind = .var := hv
    have hread : TypeExpr.reader (us ++ v :: rest) = .ok (ty, v :: rest) :=
      hcomplete hty hus (hvar hty hv)
    rw [List.append_assoc]
    simp only [List.cons_append, List.nil_append, readStructured, hread, ok_bind, expect_cons hv]
    rfl
  | method hm =>
    simp only [readStructured, complete_readMethod hm hpre hstop]
    rfl
  | @var ty _ js hty =>
    rw [clear_cons_left, Joint.meets_words] at hstop
    have hread : TypeExpr.reader (pre ++ rest) = .ok (ty, rest) := hcomplete hty hpre hstop.2
    -- the word that stops the fields is no variable
    have hnone : optionalVar rest = (none, rest) := by
      unfold optionalVar
      cases rest with
      | nil => rfl
      | cons t rest =>
        have ht : t.kind ≠ .var := by simpa using hstop.1
        simp [ht]
    simp only [readStructured, hread, ok_bind, hnone]
    rfl
  -- the variable stops the type
  | @varNamed ty _ _ _ hty hv =>
    obtain ⟨us, vs, rfl, hus, hvs⟩ := words_eq_append.mp hpre
    obtain ⟨v, rfl, rfl⟩ := words_eq_singleton.mp hvs
    have hv : v.kind = .var := hv
    have hread : TypeExpr.reader (us ++ v :: rest) = .ok (ty, v :: rest) :=
      hcomplete hty hus (hvar hty hv)
    have hsome : optionalVar (v :: rest) = (some v.text.tail, rest) := by
      simp [optionalVar, hv]
    rw [List.append_assoc]
    simp only [List.cons_append, List.nil_append, readStructured, hread, ok_bind, hsome]
    rfl
  -- no word for a bound follows
  | template hn =>
    obtain ⟨n, rfl, rfl⟩ := words_eq_singleton.mp hpre
    rw [← any_isBoundWord] at hstop
    simp only [List.cons_append, List.nil_append, readStructured,
      expect_cons (show n.kind = .ident from hn), ok_bind, hstop]
    rfl
  -- the word for the bound is followed by a type
  | @bound _ _ ty _ js hn hb hty =>
    obtain ⟨n, us, rfl, rfl, hus⟩ := words_eq_cons.mp hpre
    obtain ⟨b, us', rfl, rfl, hus'⟩ := words_eq_cons.mp hus
    have hread : TypeExpr.reader (us' ++ rest) = .ok (ty, rest) := hcomplete hty hus' hstop
    have hbound : isBoundWord b = true := hb
    simp only [List.cons_append, readStructured, expect_cons (show n.kind = .ident from hn), ok_bind,
      List.head?_cons, Option.any_some, hbound, if_true, List.tail_cons, hread]
    rfl
  | @«alias» _ e _ _ ty js hn he hty =>
    obtain ⟨n, us, rfl, rfl, hus⟩ := words_eq_cons.mp hpre
    obtain ⟨es, us', rfl, hes, hus'⟩ := words_eq_append.mp hus
    have hread : TypeExpr.reader (us' ++ rest) = .ok (ty, rest) := hcomplete hty hus' hstop
    have hskip : skip .equals (es ++ (us' ++ rest)) = (e, us' ++ rest) := by
      refine skip_mark he hes fun _ => ?_
      -- a type does not begin with `=`
      obtain ⟨w, vs, rfl, hw⟩ := horderly.starts hty
      obtain ⟨t, us'', rfl, rfl, -⟩ := words_eq_cons.mp hus'
      have ht : t.kind ≠ .equals := by
        intro h
        simp [h, Kind.startsType] at hw
      simpa using ht
    rw [List.cons_append, List.append_assoc]
    simp only [readStructured, expect_cons (show n.kind = .ident from hn), ok_bind, hskip, hread]
    rfl

end Tag

end Docblock
