import Docblock.Proofs.Comment.Content
import Docblock.Proofs.Comment.Displacement
import Docblock.Proofs.Token.Placement

/-!
# Where reading stops

An error has a position and a message, and both of them come from one token: the one at which
reading stopped.  It is a token of the text that was read, or the end of that text.

## Contents

1. `Tag.mem_of_read`: the lexeme that a refusal names is one of the line.
2. `Line.token_mem`, `Line.readAll_eq_error_iff`: the token at which a line is refused, and the first
   line that is.
3. `Comment.StopsAt`: the places at which the reading of a comment can stop.
4. `Comment.exists_standsAt_of_parse`: such a place in the text.
-/

namespace Docblock

/-! ## Section 1: Lexemes that are named -/

/-- A lexeme that stays where it is under every move that leaves `ts` alone is one of `ts`. -/
theorem Lexeme.mem_of_moved_eq {ts : List Lexeme} {u : Lexeme}
    (h : ∀ f, ts.map (Lexeme.moved f) = ts → u.moved f = u) :
    u.toToken ∈ ts.map (·.toToken) := by
  -- the move that takes all other tokens one line down
  let f : Token → Position := fun t => if t ∈ ts.map (·.toToken) then t.pos else t.pos.down 1
  -- this move leaves the lexemes of the list alone
  have hstay : ∀ t ∈ ts, t.moved f = t := by
    intro t ht
    have hmem : t.toToken ∈ ts.map (·.toToken) := List.mem_map_of_mem ht
    have hpos : f t.toToken = t.pos := if_pos hmem
    rw [Lexeme.moved, hpos]
  have hts : ts.map (Lexeme.moved f) = ts := (List.map_congr_left hstay).trans (List.map_id' ts)
  by_contra hu
  have hpos : f u.toToken = u.pos := congrArg (fun t : Lexeme => t.pos) (h f hts)
  have hdown : f u.toToken = u.pos.down 1 := if_neg hu
  rw [hdown] at hpos
  have hline : u.pos.line + 1 = u.pos.line := congrArg Position.line hpos
  omega

/-- The reader of a tag can name no lexeme but one of the tag. -/
theorem Tag.mem_of_read {t : Lexeme} {rest : List Lexeme} {fault : Fault}
    (h : read t rest = .error fault) :
    ∀ u ∈ fault.found, u.toToken ∈ (t :: rest).map (·.toToken) := by
  intro u hu
  apply Lexeme.mem_of_moved_eq
  intro f hmoved
  obtain ⟨ht, hrest⟩ := List.cons.inj hmoved
  have hread := read_moved (f := f) t rest
  rw [ht, hrest, h] at hread
  -- a move that changes nothing in the tag changes nothing in its refusal
  have hfound : fault.found.map (Lexeme.moved f) = fault.found :=
    congrArg Fault.found (Except.error.inj hread).symm
  rw [Option.mem_def.mp hu] at hfound
  exact Option.some.inj hfound

/-! ## Section 2: Lines that are refused -/

/-- The tokens of a line, with the one that ends it. -/
def SourceLine.tokens (line : SourceLine) : List Token :=
  line.words.map (·.toToken) ++ [line.stop]

/-- The token that a refusal is about stands on the line, or ends it. -/
theorem Line.token_mem {line : SourceLine} {t : Lexeme} {rest : List Lexeme} {fault : Fault}
    (hwords : dropMarker line.words = t :: rest) (hread : Tag.read t rest = .error fault) :
    fault.token line.stop ∈ line.tokens := by
  unfold SourceLine.tokens
  cases hfound : fault.found with
  | none =>
    -- the reader ran out of lexemes: the refusal is about the end of the line
    have htoken : fault.token line.stop = line.stop := by
      rw [Fault.token, hfound]
      rfl
    rw [htoken]
    exact List.mem_append_right _ List.mem_cons_self
  | some u =>
    have htoken : fault.token line.stop = u.toToken := by
      rw [Fault.token, hfound]
      rfl
    have hmem : u.toToken ∈ (dropMarker line.words).map (·.toToken) := by
      rw [hwords]
      exact Tag.mem_of_read hread u hfound
    rw [htoken]
    apply List.mem_append_left
    exact List.map_subset _ (Comment.dropMarker_suffix line.words).subset hmem

theorem Line.readAll_cons {line : SourceLine} {l : Line} (h : read line = .ok l)
    (lines : List SourceLine) : readAll (line :: lines) = (readAll lines).map (l :: ·) := by
  rw [readAll, h, ok_bind]
  cases readAll lines <;> rfl

/-- The error of some lines is that of the first one that is refused. -/
theorem Line.readAll_eq_error_iff {lines : List SourceLine} {e : SyntaxError} :
    readAll lines = .error e ↔ ∃ pre line post, lines = pre ++ line :: post ∧
      (∃ ls, readAll pre = .ok ls) ∧ read line = .error e := by
  induction lines with
  | nil => simp [readAll]
  | cons line lines ih =>
    cases hread : read line with
    | error e' =>
      -- the first line is refused already, and no other one can be meant
      have hall : readAll (line :: lines) = .error e' := by
        rw [readAll, hread]
        rfl
      rw [hall]
      constructor
      · intro h
        obtain rfl := Except.error.inj h
        exact ⟨[], line, lines, rfl, ⟨[], rfl⟩, hread⟩
      · rintro ⟨pre, line', post, hsplit, ⟨ls, hpre⟩, hline'⟩
        cases pre with
        | nil =>
          obtain ⟨rfl, -⟩ := List.cons.inj hsplit
          exact congrArg Except.error (Except.error.inj (hread.symm.trans hline'))
        | cons a pre =>
          obtain ⟨rfl, -⟩ := List.cons.inj hsplit
          rw [readAll, hread] at hpre
          cases hpre
    | ok l =>
      -- the first line is one of those that are read before
      have hall : readAll (line :: lines) = .error e ↔ readAll lines = .error e := by
        rw [readAll_cons hread]
        cases readAll lines <;> simp [Except.map]
      rw [hall, ih]
      constructor
      · rintro ⟨pre, line', post, rfl, ⟨ls, hpre⟩, hline'⟩
        refine ⟨line :: pre, line', post, rfl, ⟨l :: ls, ?_⟩, hline'⟩
        rw [readAll_cons hread, hpre]
        rfl
      · rintro ⟨pre, line', post, hsplit, ⟨ls, hpre⟩, hline'⟩
        cases pre with
        | nil =>
          obtain ⟨rfl, -⟩ := List.cons.inj hsplit
          rw [hread] at hline'
          cases hline'
        | cons a pre =>
          obtain ⟨rfl, rfl⟩ := List.cons.inj hsplit
          rw [readAll_cons hread] at hpre
          cases hothers : readAll pre with
          | error e' =>
            rw [hothers] at hpre
            cases hpre
          | ok others => exact ⟨pre, line', post, rfl, ⟨others, hothers⟩, hline'⟩

/-! ## Section 3: Comments that are refused -/

namespace SourceLine

variable {stop : Token}

/-- Cutting into lines makes up no tokens. -/
theorem tokens_subset_of_mem_split {ts : List Lexeme} :
    ∀ line ∈ (split stop ts).1 :: (split stop ts).2,
      line.tokens ⊆ ts.map (·.toToken) ++ [stop] := by
  induction ts with
  | nil => simp [split, tokens]
  | cons t ts ih =>
    obtain ⟨hfirst, hothers⟩ := List.forall_mem_cons.mp ih
    -- what holds of the tail holds of the whole
    have hmore : ts.map (·.toToken) ++ [stop] ⊆ (t :: ts).map (·.toToken) ++ [stop] :=
      List.subset_cons_self _ _
    have hthis : t.toToken ∈ (t :: ts).map (·.toToken) ++ [stop] := List.mem_cons_self
    simp only [split]
    split
    · -- a line break ends a line that has nothing on it
      refine List.forall_mem_cons.mpr ⟨?_, ?_⟩
      · exact List.cons_subset.mpr ⟨hthis, List.nil_subset _⟩
      · intro line hline
        exact List.Subset.trans (ih line hline) hmore
    · -- any other lexeme belongs to the first line
      refine List.forall_mem_cons.mpr ⟨?_, ?_⟩
      · exact List.cons_subset.mpr ⟨hthis, List.Subset.trans hfirst hmore⟩
      · intro line hline
        exact List.Subset.trans (hothers line hline) hmore

theorem tokens_subset_of_mem_content {ts : List Lexeme} {line : SourceLine}
    (h : line ∈ (content stop ts).2) : line.tokens ⊆ ts.map (·.toToken) ++ [stop] :=
  tokens_subset_of_mem_split line (content_subset ts h)

end SourceLine

namespace Comment

/-- The delimiter that closes a comment, among the lexemes behind its opening, or the end `stop` of
the text. -/
def closingOf (stop : Token) (body : List Lexeme) : Token :=
  ((body.dropWhile (·.kind ≠ .closeDoc)).head?.map Lexeme.toToken).getD stop

/-- The lines between the delimiters. -/
def sourceLines (stop : Token) (body : List Lexeme) : List SourceLine :=
  (SourceLine.content (closingOf stop body) (body.takeWhile (·.kind ≠ .closeDoc))).2

/-- Where reading stops in a comment that is refused, given the lexemes behind its opening: on the
first line whose tag cannot be read, at the lexeme at which that was given up; at the end, if nothing
closes the comment; or at the first lexeme that stands behind the comment. -/
inductive StopsAt (stop : Token) (body : List Lexeme) : Reason → Token → Prop where
  | line {pre post : List SourceLine} {line : SourceLine} {t : Lexeme} {rest : List Lexeme}
      {fault : Fault} (hlines : sourceLines stop body = pre ++ line :: post)
      (hpre : ∃ ls, Line.readAll pre = .ok ls) (hwords : Line.dropMarker line.words = t :: rest)
      (ht : t.kind = .tag) (hread : Tag.read t rest = .error fault) :
      StopsAt stop body fault.reason (fault.token line.stop)
  | unclosed (hlines : ∃ ls, Line.readAll (sourceLines stop body) = .ok ls)
      (hopen : ∀ t ∈ body, t.kind ≠ .closeDoc) :
      StopsAt stop body (.expecting (.token .closeDoc)) stop
  | behind {t : Lexeme} {more : List Lexeme}
      (hlines : ∃ ls, Line.readAll (sourceLines stop body) = .ok ls)
      (hbehind : (body.dropWhile (·.kind ≠ .closeDoc)).tail.dropWhile (·.kind = .newline) =
        t :: more) :
      StopsAt stop body (.expecting (.token .stop)) t.toToken

variable {stop : Token} {body : List Lexeme}

/-- What closes the comment is one of its tokens, or the end. -/
theorem closingOf_mem (stop : Token) (body : List Lexeme) :
    closingOf stop body ∈ body.map (·.toToken) ++ [stop] := by
  unfold closingOf
  cases hafter : body.dropWhile (·.kind ≠ .closeDoc) with
  | nil => exact List.mem_append_right _ List.mem_cons_self
  | cons t rest =>
    apply List.mem_append_left
    apply List.mem_map_of_mem
    apply (List.dropWhile_suffix (·.kind ≠ .closeDoc)).subset
    rw [hafter]
    exact List.mem_cons_self

/-- Reading stops at a token of the comment, or at the end. -/
theorem StopsAt.mem {reason : Reason} {t : Token} (h : StopsAt stop body reason t) :
    t ∈ body.map (·.toToken) ++ [stop] := by
  cases h with
  | @line pre post line t rest fault hlines _ hwords _ hread =>
    have hline : line ∈ sourceLines stop body := by
      rw [hlines]
      exact List.mem_append_right _ List.mem_cons_self
    have htokens := SourceLine.tokens_subset_of_mem_content hline (Line.token_mem hwords hread)
    -- the last line is ended by the delimiter, which is no part of it
    rcases List.mem_append.mp htokens with hinside | hclosing
    · apply List.mem_append_left
      exact List.map_subset _ (List.takeWhile_prefix _).subset hinside
    · rw [List.mem_singleton.mp hclosing]
      exact closingOf_mem stop body
  | unclosed => exact List.mem_append_right _ List.mem_cons_self
  -- it stands behind the delimiter
  | @behind t more _ hbehind =>
    apply List.mem_append_left
    apply List.mem_map_of_mem
    apply (List.dropWhile_suffix (·.kind ≠ .closeDoc)).subset
    apply List.mem_of_mem_tail
    apply (List.dropWhile_suffix (·.kind = .newline)).subset
    rw [hbehind]
    exact List.mem_cons_self

/-- A text without a closing delimiter ends before it is closed. -/
theorem closingOf_eq_stop (h : (closingOf stop body).kind ≠ .closeDoc) :
    (∀ t ∈ body, t.kind ≠ .closeDoc) ∧ closingOf stop body = stop := by
  cases hafter : body.dropWhile (·.kind ≠ .closeDoc) with
  | nil =>
    refine ⟨by simpa [List.dropWhile_eq_nil_iff] using hafter, ?_⟩
    rw [closingOf, hafter]
    rfl
  -- a delimiter was found
  | cons t rest =>
    have hkind := List.head?_dropWhile_not (·.kind ≠ .closeDoc) body
    rw [hafter] at hkind
    rw [closingOf, hafter] at h
    exact absurd (by simpa using hkind) h

/-- A text that opens a comment: its lines are read first, and the delimiter is looked at only if
none of them is refused. -/
theorem parse_of_opening {s : Text} {opening : Lexeme} (hs : Lexeme.ofText s = opening :: body)
    (hopen : opening.kind = .openDoc) :
    parse s = (do
      let lines ← Line.readAll (sourceLines (Token.stopOf s) body)
      if (closingOf (Token.stopOf s) body).kind = .closeDoc then
        expectEnd (body.dropWhile (·.kind ≠ .closeDoc)).tail
        return ⟨lines, lastGap [opening], (SourceLine.content (closingOf (Token.stopOf s) body)
          (body.takeWhile (·.kind ≠ .closeDoc))).1⟩
      else refuse .closeDoc (closingOf (Token.stopOf s) body)) := by
  -- no line break stands before the opening
  have hlead : (Lexeme.ofText s).takeWhile (·.kind = .newline) = [] := by
    rw [hs, List.takeWhile_cons_of_neg (by simp [hopen])]
  have hdrop : (Lexeme.ofText s).dropWhile (·.kind = .newline) = opening :: body := by
    rw [hs, List.dropWhile_cons_of_neg (by simp [hopen])]
  unfold parse
  simp only [hlead, hdrop, hopen, if_true]
  rfl

/-- A text of which the delimiters are known: only its lines can be refused. -/
theorem parse_of_parts {s : Text} {opening closing : Lexeme} {inside : List Lexeme}
    (hs : Lexeme.ofText s = opening :: (inside ++ [closing])) (hopen : opening.kind = .openDoc)
    (hclose : closing.kind = .closeDoc) (hinside : ∀ t ∈ inside, t.kind ≠ .closeDoc) :
    parse s = (Line.readAll (SourceLine.content closing.toToken inside).2).map fun lines =>
      ⟨lines, lastGap [opening], (SourceLine.content closing.toToken inside).1⟩ := by
  obtain ⟨htake, hdrop⟩ := span_append_cons (p := fun t : Lexeme => t.kind ≠ .closeDoc)
    (a := inside) (x := closing) (by simpa using hinside) (by simp [hclose]) []
  rw [parse_of_opening hs hopen, sourceLines, closingOf, htake, hdrop, List.head?_cons,
    Option.map_some, Option.getD_some]
  simp only [hclose, if_true]
  cases Line.readAll (SourceLine.content closing.toToken inside).2 <;> rfl

/-- The error of a text that opens a comment is about the token at which reading stopped. -/
theorem exists_stopsAt_of_parse {s : Text} {opening : Lexeme} {e : SyntaxError}
    (hs : Lexeme.ofText s = opening :: body) (hopen : opening.kind = .openDoc)
    (h : parse s = .error e) :
    ∃ reason t, StopsAt (Token.stopOf s) body reason t ∧ e = ⟨t.pos, reason.message t⟩ := by
  rw [parse_of_opening hs hopen] at h
  cases hlines : Line.readAll (sourceLines (Token.stopOf s) body) with
  | error e' =>
    rw [hlines] at h
    cases h
    obtain ⟨pre, line, post, hsplit, hpre, hline⟩ := Line.readAll_eq_error_iff.mp hlines
    obtain ⟨t, rest, fault, hwords, ht, hread, rfl⟩ := Line.read_eq_error_iff.mp hline
    exact ⟨_, _, .line hsplit hpre hwords ht hread, rfl⟩
  | ok lines =>
    rw [hlines, ok_bind] at h
    split at h
    · -- only what stands behind the comment is left to refuse
      unfold expectEnd at h
      split at h
      · cases h
      · next t more hbehind =>
        cases h
        exact ⟨_, _, .behind ⟨lines, hlines⟩ hbehind, rfl⟩
    · -- the delimiter is missing
      next hclosing =>
      obtain ⟨hbody, hstop⟩ := closingOf_eq_stop hclosing
      refine ⟨_, _, .unclosed ⟨lines, hlines⟩ hbody, ?_⟩
      rw [← hstop]
      exact (Except.error.inj h).symm

/-! ## Section 4: The place of the token -/

/-- The opening delimiter is a token by itself. -/
theorem tokenize_opening (rest : Text) :
    Token.tokenize ("/**".toList ++ rest) =
      ⟨.openDoc, "/**".toList, .start⟩ :: Token.tokensFrom ⟨1, 4⟩ rest :=
  Token.tokensFrom_append (k := .openDoc) (by decide) (by simp [Token.goesOn]) .start

theorem ofText_opening (rest : Text) :
    Lexeme.ofText ("/**".toList ++ rest) = ⟨⟨.openDoc, "/**".toList, .start⟩, []⟩ ::
      Lexeme.attachFrom [] (Token.tokensFrom ⟨1, 4⟩ rest) := by
  rw [Lexeme.ofText, tokenize_opening]
  rfl

/-- A text that opens a comment is refused at a place behind its opening: at one of its tokens, or
at its end. -/
theorem exists_standsAt_of_parse {rest : Text} {e : SyntaxError}
    (h : parse ("/**".toList ++ rest) = .error e) :
    ∃ (reason : Reason) (k : Nat) (t : Token), Token.StandsAt ("/**".toList ++ rest) k t ∧ 0 < k ∧
      StopsAt (Token.stopOf ("/**".toList ++ rest)) (Lexeme.ofText ("/**".toList ++ rest)).tail
        reason t ∧
      e = ⟨t.pos, reason.message t⟩ := by
  obtain ⟨reason, t, hstops, rfl⟩ := exists_stopsAt_of_parse (ofText_opening rest) rfl h
  -- the refusal names a token behind the opening, or the end
  have hmem : t ∈ Token.tokensFrom ⟨1, 4⟩ rest ++ [Token.stopOf ("/**".toList ++ rest)] := by
    have ht := hstops.mem
    rw [Lexeme.map_toToken_attachFrom, Token.solid] at ht
    rcases List.mem_append.mp ht with ht | ht
    · exact List.mem_append_left _ (List.mem_of_mem_filter ht)
    · exact List.mem_append_right _ ht
  obtain ⟨pre, post, hsplit⟩ := List.append_of_mem hmem
  refine ⟨reason, _, t, ⟨⟨.openDoc, "/**".toList, .start⟩ :: pre, post, ?_, rfl⟩, ?_, ?_, rfl⟩
  · rw [tokenize_opening, List.cons_append, hsplit]
    rfl
  · -- the three bytes of the opening delimiter
    rw [List.flatMap_cons, Text.byteSize_append]
    exact Nat.lt_of_lt_of_le (by decide) (Nat.le_add_right _ _)
  · rw [ofText_opening]
    exact hstops

end Comment

end Docblock
