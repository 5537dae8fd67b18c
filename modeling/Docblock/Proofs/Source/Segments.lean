import Docblock.Proofs.Source.Locator
import Docblock.Proofs.Source.Steps

/-!
# The scanner as a lexer

The scanner divides a file at its doc comments, and these may be replaced by others without any
change to what the rest of the file is read as.  For the second, the scanner is run on both files at
once: it is in the same mode at the same segments, and the expressions around them end at the same
segments.  They need not end after the same number of characters, for the comments in them may
differ in length; but comments that have the same braces end an expression or leave it open
together.

1. `IsDocComment.codeStep_eq`, `IsDocComment.of_codeStep`: the texts that are read as one comment.
2. `twins_joined`, `braces_joined`: what files with other comments have in common.
3. `Synced`: counts of characters that run out at the same segment.
4. `Alongside`: the states of the two runs.
5. `sound_segments`, `steady_segments`: the scanner is a lexer as it is assumed.
-/

namespace Docblock.Source

open Text (NoClose braces)

/-! ## Section 1: Texts of doc comments -/

/-- A delimiter that is the first of its text is found where it stands. -/
theorem lengthBefore?_of_noClose {u : Text} (h : NoClose (u ++ ['*'])) (y : Text) :
    lengthBefore? "*/".toList (u ++ "*/".toList ++ y) = some u.length := by
  -- along the text before the delimiter, which does not begin with one anywhere
  induction u with
  | nil => rfl
  | cons c u ih =>
    have hrest : NoClose (u ++ ['*']) := List.IsChain.tail h
    -- not here: a `*` of `u` is followed by another character of `u`, or by the closing `*`
    have hfirst : "*/".toList.isPrefixOf (c :: (u ++ "*/".toList ++ y)) = false := by
      rw [show "*/".toList = ['*', '/'] from rfl, isPrefixOf_pair, Bool.and_eq_false_imp]
      intro hc
      obtain rfl : '*' = c := by simpa using hc
      cases u with
      | nil => rfl
      | cons d u =>
        have hd : d ≠ '/' := (List.isChain_cons_cons.mp h).1 rfl
        simpa using hd
    rw [List.cons_append, List.cons_append, lengthBefore?_cons, hfirst, ih hrest]
    rfl

/-- Where the first delimiter of a text stands. -/
theorem exists_of_lengthBefore? {x : Text} {k : Nat}
    (h : lengthBefore? "*/".toList x = some k) :
    ∃ u y, x = u ++ "*/".toList ++ y ∧ u.length = k ∧ NoClose (u ++ ['*']) := by
  induction x generalizing k with
  | nil => cases h
  | cons c x ih =>
    rw [lengthBefore?_cons] at h
    split at h
    · -- the delimiter stands here
      next hfound =>
      cases h
      obtain ⟨y, hy⟩ := List.isPrefixOf_iff_prefix.mp hfound
      exact ⟨[], y, hy.symm, rfl, List.isChain_singleton _⟩
    · next hfirst =>
      obtain ⟨k, hk, rfl⟩ := Option.map_eq_some_iff.mp h
      obtain ⟨u, y, rfl, rfl, hno⟩ := ih hk
      refine ⟨c :: u, y, rfl, rfl, ?_⟩
      cases u with
      | nil => exact List.isChain_pair.mpr fun _ => by decide
      | cons d u =>
        refine List.isChain_cons_cons.mpr ⟨?_, hno⟩
        rintro rfl rfl
        exact hfirst rfl

namespace IsDocComment

variable {t : Text}

/-- A doc comment is read as one, whatever comes after it. -/
theorem codeStep_eq {c : Char} {r : Text} (h : IsDocComment (c :: r)) (y : Text) :
    codeStep c (r ++ y) = ⟨r.length, true, .code⟩ := by
  obtain ⟨d, z, hopen, hclose, ht⟩ := h
  obtain ⟨rfl, rfl⟩ := List.cons.inj ht
  have hfound := lengthBefore?_of_noClose hclose y
  have hstep : codeStep '/' ('*' :: ('*' :: d :: z ++ "*/".toList) ++ y) =
      blockCommentStep ('*' :: ('*' :: d :: z ++ "*/".toList ++ y)) := rfl
  have hdoc : opensDoc ('*' :: ('*' :: d :: z ++ "*/".toList ++ y)) = isDocSpace d := rfl
  rw [hstep, blockCommentStep, List.drop_one, List.tail_cons, hfound, hdoc, hopen]
  simp

/-- What is read as a doc comment is one. -/
theorem of_codeStep {c : Char} {x : Text} (h : (codeStep c x).isDoc = true) :
    IsDocComment (c :: x.take (codeStep c x).extra) := by
  obtain ⟨rfl, hopens, k, hk, hstep⟩ := codeStep_isDoc h
  rw [hstep]
  clear h hstep
  unfold opensDoc at hopens
  split at hopens
  · next d x =>
    obtain ⟨u, y, hx, rfl, hno⟩ := exists_of_lengthBefore? hk
    rw [List.drop_one, List.tail_cons] at hx
    -- neither the `*` nor the white space after it begins the delimiter
    rcases u with _ | ⟨a, _ | ⟨b, z⟩⟩
    · obtain ⟨-, hx⟩ := List.cons.inj hx
      obtain ⟨rfl, -⟩ := List.cons.inj hx
      cases hopens
    · obtain ⟨-, hx⟩ := List.cons.inj hx
      obtain ⟨rfl, -⟩ := List.cons.inj hx
      cases hopens
    · rw [hx]
      obtain ⟨ha, hx⟩ := List.cons.inj hx
      obtain ⟨hb, -⟩ := List.cons.inj hx
      rw [← ha, ← hb] at hno ⊢
      refine ⟨d, z, hopens, hno, ?_⟩
      have htake : ('*' :: ('*' :: d :: z ++ "*/".toList) ++ y).take (('*' :: d :: z).length + 3) =
          '*' :: ('*' :: d :: z ++ "*/".toList) := List.take_left' (by simp)
      exact congrArg ('/' :: ·) htake
  · cases hopens

end IsDocComment

/-! ## Section 2: Replaced segments -/

/-- A file may be cut between any two segments. -/
theorem joined_take_append_drop (xs : List Segment) (k : Nat) :
    joined (xs.take k) ++ joined (xs.drop k) = joined xs := by
  rw [joined, joined, ← List.flatMap_append, List.take_append_drop, joined]

/-- The segments of a text put together are the text. -/
theorem joined_segmentsFrom (s : State) (x : Text) : joined (segmentsFrom s x) = x := by
  fun_induction segmentsFrom s x with
  | case1 => rfl
  | case2 s c x step frames hnext ih =>
    rw [joined_cons, ih, List.cons_append, List.take_append_drop]

/-- The number of characters before the first doc comment. Up to there, files with other comments are
alike. -/
def quietLength : List Segment → Nat
  | [] => 0
  | a :: xs => if a.isDoc then 0 else a.text.length + quietLength xs

variable {xs ys : List Segment}

/-- Files with other comments are alike up to the first comment and three characters into it. -/
theorem twins_joined (h : List.Forall₂ Replaces xs ys) :
    Twins (quietLength xs) (joined xs) (joined ys) := by
  induction h with
  | nil => exact .nil
  | cons hab _ ih =>
    cases hab with
    -- a segment that stays
    | same t => exact ih.append t
    | doc ht hu _ =>
      obtain ⟨d, z, hd, -, rfl⟩ := ht
      obtain ⟨d', z', hd', -, rfl⟩ := hu
      exact .doc _ _ hd hd'

/-- Files with other comments have the same braces, in the same order. -/
theorem braces_joined (h : List.Forall₂ Replaces xs ys) :
    braces (joined xs) = braces (joined ys) := by
  induction h with
  | nil => rfl
  | cons hab _ ih =>
    rw [joined_cons, joined_cons, Text.braces_append, Text.braces_append, ih]
    cases hab with
    -- comments may take the place of each other only if they have the same braces
    | same t => rfl
    | doc _ _ hbraces => rw [hbraces]

/-! ## Section 3: Counts that run out together -/

/-- Two counts of characters that are used up by the same number of segments. -/
def Synced (xs ys : List Segment) (n m : Nat) : Prop :=
  ∀ k, n ≤ (joined (xs.take k)).length ↔ m ≤ (joined (ys.take k)).length

namespace Synced

variable {a b : Segment} {n m : Nat}

/-- One segment further on, each count has lost the length of its own segment. -/
theorem of_cons (h : Synced (a :: xs) (b :: ys) n m) :
    Synced xs ys (n - a.text.length) (m - b.text.length) := by
  intro k
  have := h (k + 1)
  simp only [List.take_succ_cons, joined_cons, List.length_append] at this
  omega

/-- The first segment uses up both counts or neither. -/
theorem sub_eq_zero_iff (h : Synced (a :: xs) (b :: ys) n m) :
    n - a.text.length = 0 ↔ m - b.text.length = 0 := by
  have := h 1
  simp only [List.take_succ_cons, List.take_zero, joined_cons, joined_nil, List.append_nil] at this
  omega

/-- A count that is used up by the opening of the first doc comment at the latest. -/
theorem of_le_quietLength (h : List.Forall₂ Replaces xs ys) (hn : n ≤ quietLength xs + 3) :
    Synced xs ys n n := by
  induction h generalizing n with
  | nil => exact fun _ => by simp
  | cons hab _ ih =>
    intro k
    cases k with
    | zero => simp
    | succ k =>
      simp only [List.take_succ_cons, joined_cons, List.length_append]
      cases hab with
      -- a segment that stays uses up as much of both counts
      | same t =>
        simp only [quietLength, Bool.false_eq_true, if_false] at hn
        have := @ih (n - t.length) (by omega) k
        simp only at this ⊢
        omega
      -- what is left of the count is no more than the opening, which both comments have
      | doc ht hu _ =>
        simp only [quietLength, if_true] at hn
        have := ht.three_le_length
        have := hu.three_le_length
        simp only
        omega

end Synced

/-- Do the braces of a text close an expression that is open at a depth? -/
def closesBrace (depth : Nat) : Text → Bool
  | [] => false
  | '\x7d' :: rest =>
    match depth with
    | 0 => true
    | depth + 1 => closesBrace depth rest
  | '\x7b' :: rest => closesBrace (depth + 1) rest
  | _ :: rest => closesBrace depth rest

/-- Only the braces of a text matter for what they close. -/
theorem closesBrace_braces (depth : Nat) (x : Text) :
    closesBrace depth x = closesBrace depth (braces x) := by
  fun_induction closesBrace depth x with
  | case1 => rfl
  | case2 => rfl
  | case3 x depth ih => exact ih
  | case4 depth x ih => exact ih
  | case5 depth c x hclose hopen ih =>
    have hother : Text.isBrace c = false := by
      simp only [Text.isBrace, Bool.or_eq_false_iff, beq_eq_false_iff_ne]
      exact ⟨hopen, hclose⟩
    rw [ih, braces, braces, List.filter_cons_of_neg (by simp [hother])]

theorem bracedLength_pos (depth : Nat) (c : Char) (x : Text) : 0 < bracedLength depth (c :: x) := by
  unfold bracedLength
  split
  · next heq => cases heq
  · split <;> omega
  · omega
  · omega

/-- An expression ends in the first part of a text if its braces close it, or if there is no other
part. -/
theorem bracedLength_le_iff (depth : Nat) (p q : Text) :
    bracedLength depth (p ++ q) ≤ p.length ↔ closesBrace depth p = true ∨ q = [] := by
  -- along the braces of the first part; what follows counts only if none closes
  fun_induction closesBrace depth p with
  | case1 depth =>
    cases q with
    | nil => simp [bracedLength]
    | cons c q =>
      have := bracedLength_pos depth c q
      simp
      omega
  | case2 x => simp [bracedLength]
  | case3 x depth ih => simpa [bracedLength] using ih
  | case4 depth x ih => simpa [bracedLength] using ih
  | case5 depth c x hclose hopen ih =>
    rw [List.cons_append, bracedLength]
    · simpa using ih
    · exact hclose
    · exact hopen

/-- All expressions but those that begin with `$` alone are in braces. -/
theorem expressionLength_braced {c : Char} {x : Text} (hopens : opensExpression (c :: x) = true)
    (hbraced : c = '$' → x.head? = some '\x7b') :
    expressionLength (c :: x) = bracedLength 0 ((c :: x).drop 2) + 2 := by
  rw [opensExpression_cons] at hopens
  cases x with
  | nil => simp at hopens
  | cons d x =>
    rcases (Bool.or_eq_true _ _).mp hopens with hdollar | hbrace
    · obtain ⟨hc, -⟩ := (Bool.and_eq_true _ _).mp hdollar
      obtain rfl : c = '$' := by simpa using hc
      obtain rfl : d = '\x7b' := by simpa using hbraced rfl
      rfl
    · obtain ⟨hc, -⟩ := (Bool.and_eq_true _ _).mp hbrace
      obtain rfl : c = '\x7b' := by simpa using hc
      rfl

/-- An expression in braces ends at the same segment. -/
theorem synced_bracedLength (h : List.Forall₂ Replaces xs ys) :
    Synced xs ys (bracedLength 0 ((joined xs).drop 2) + 2)
      (bracedLength 0 ((joined ys).drop 2) + 2) := by
  -- an expression ends within the first segments if their braces close it, or if nothing follows
  have hends (p q : Text) : bracedLength 0 ((p ++ q).drop 2) + 2 ≤ p.length ↔
      2 ≤ p.length ∧ (closesBrace 0 (p.drop 2) = true ∨ q = []) := by
    rw [← bracedLength_le_iff, List.length_drop]
    constructor
    · intro hle
      have htwo : 2 ≤ p.length := by omega
      rw [List.drop_append_of_le_length htwo] at hle
      exact ⟨htwo, by omega⟩
    · rintro ⟨htwo, hle⟩
      rw [List.drop_append_of_le_length htwo]
      omega
  intro k
  rw [← joined_take_append_drop xs k, ← joined_take_append_drop ys k, hends, hends]
  have hp : List.Forall₂ Replaces (xs.take k) (ys.take k) := List.forall₂_take k h
  have hq : List.Forall₂ Replaces (xs.drop k) (ys.drop k) := List.forall₂_drop k h
  -- the two characters that open the expression are shared
  have htake : (joined (xs.take k)).take 2 = (joined (ys.take k)).take 2 := by
    have := congrArg (List.take 2) (twins_joined hp).take_three
    simpa [List.take_take] using this
  have hlength : 2 ≤ (joined (xs.take k)).length ↔ 2 ≤ (joined (ys.take k)).length := by
    have := congrArg List.length htake
    rw [List.length_take, List.length_take] at this
    omega
  have hdrop : braces ((joined (xs.take k)).drop 2) = braces ((joined (ys.take k)).drop 2) := by
    have := braces_joined hp
    rw [← List.take_append_drop 2 (joined (xs.take k)), ← List.take_append_drop 2
      (joined (ys.take k)), Text.braces_append, Text.braces_append, htake] at this
    exact List.append_cancel_left this
  rw [hlength, closesBrace_braces, hdrop, ← closesBrace_braces, (twins_joined hq).eq_nil_iff]

/-- The expression at the front of a text ends at the same segment. -/
theorem synced_expressionLength (h : List.Forall₂ Replaces xs ys)
    (hopens : opensExpression (joined xs) = true) :
    Synced xs ys (expressionLength (joined xs)) (expressionLength (joined ys)) := by
  have hbraced := synced_bracedLength h
  have hsimple := @Synced.of_le_quietLength xs ys (expressionLength (joined xs)) h
  have htwins := twins_joined h
  generalize joined xs = x at *
  generalize joined ys = y at *
  generalize quietLength xs = n at *
  cases htwins with
  | nil => cases hopens
  | doc => cases hopens
  | @cons n x y c htwins =>
    -- a variable ends before any comment; all other expressions are in braces
    by_cases hc : c = '$' ∧ x.head? ≠ some '\x7b'
    · obtain ⟨rfl, hx⟩ := hc
      obtain ⟨heq, hle⟩ := htwins.expressionLength_eq hx
      rw [heq]
      exact hsimple hle
    · have hx : c = '$' → x.head? = some '\x7b' := fun heq => by_contra fun hx => hc ⟨heq, hx⟩
      have hy : c = '$' → y.head? = some '\x7b' := by rwa [← htwins.head?_eq]
      rw [expressionLength_braced hopens hx,
        expressionLength_braced (by rwa [← htwins.opensExpression_eq]) hy]
      exact hbraced

/-! ## Section 4: Two runs -/

/-- The states of two runs at segments that replace each other. -/
structure Alongside (xs ys : List Segment) (s t : State) : Prop where
  mode : s.mode = t.mode
  frames : List.Forall₂
    (fun f g : Frame => f.enclosure = g.enclosure ∧ Synced xs ys f.left g.left) s.frames t.frames

/-- Both runs leave an expression after the same segment, or neither does. -/
theorem Alongside.settle {a b : Segment} {s t : State} (h : Alongside (a :: xs) (b :: ys) s t) :
    Alongside xs ys (s.settle a.text.length) (t.settle b.text.length) := by
  obtain ⟨mode, frames⟩ := s
  obtain ⟨mode', frames'⟩ := t
  obtain ⟨hmode, hframes⟩ := h
  -- the innermost expression decides whether the mode changes
  cases hframes with
  | nil => exact ⟨hmode, .nil⟩
  | @cons f g fs gs hfg hrest =>
    have hothers : List.Forall₂
        (fun f g : Frame => f.enclosure = g.enclosure ∧ Synced xs ys f.left g.left)
        (fs.map fun f => { f with left := f.left - a.text.length })
        (gs.map fun g => { g with left := g.left - b.text.length }) := by
      rw [List.forall₂_map_left_iff, List.forall₂_map_right_iff]
      exact hrest.imp fun f g hfg => ⟨hfg.1, hfg.2.of_cons⟩
    simp only [State.settle, List.map_cons, hfg.2.sub_eq_zero_iff]
    split
    · exact ⟨congrArg Mode.template hfg.1, hothers⟩
    · exact ⟨hmode, .cons ⟨hfg.1, hfg.2.of_cons⟩ hothers⟩

/-- An expression that begins at a segment is closed at the same segment in both runs. -/
theorem Alongside.open {s t : State} (h : Alongside xs ys s t)
    (hreplaces : List.Forall₂ Replaces xs ys) (mode : Mode) {opening : Option Enclosure}
    (hopens : ∀ enclosure ∈ opening, opensExpression (joined xs) = true) :
    Alongside xs ys ⟨mode, opened opening (joined xs) ++ s.frames⟩
      ⟨mode, opened opening (joined ys) ++ t.frames⟩ := by
  refine ⟨rfl, ?_⟩
  cases opening with
  | none => exact h.frames
  | some enclosure =>
    exact .cons ⟨rfl, synced_expressionLength hreplaces (hopens enclosure rfl)⟩ h.frames

/-- Does looking ahead from here go into a doc comment?  Whether a string in double quotes holds an
expression is settled when it is opened, by looking for one up to the end of the string.  What is
looked at is read next, and has no comment in it, unless the quote is the last character of an
expression in another string: that takes an index that is broken off by white space after a quote,
as in `$v[" `. -/
def State.peeks (s : State) (c : Char) (rest : Text) : Bool :=
  s.mode == .code && c == '"' && holdsExpression rest &&
    quietLength (segmentsFrom (s.after c rest) rest) < quotedRun '"' false rest

/-- Does looking ahead ever go into a doc comment, from a place on? -/
def peeksFrom (s : State) : Text → Bool
  | [] => false
  | c :: rest =>
    s.peeks c rest || peeksFrom (s.after c rest) (rest.drop (s.mode.reads c rest).1.extra)
termination_by s => s.length
decreasing_by simp only [List.length_cons, List.length_drop]; omega

/-- A quote that opens a string with an expression is a segment of its own. -/
theorem reads_quote {s : State} {x : Text} (hmode : s.mode = .code)
    (hholds : holdsExpression x = true) :
    s.mode.reads '"' x = (⟨0, false, .template (.quotes '"')⟩, none) := by
  rw [hmode, Mode.reads, codeStep, if_pos hholds]

/-- Strings in double quotes are the only ones that are looked into. -/
theorem peeksFrom_of_not_mem (s : State) {x : Text} (h : '"' ∉ x) : peeksFrom s x = false := by
  fun_induction peeksFrom s x with
  | case1 => rfl
  | case2 s c x ih =>
    obtain ⟨hc, hx⟩ : '"' ≠ c ∧ '"' ∉ x := by simpa using h
    rw [Bool.or_eq_false_iff]
    refine ⟨?_, ih fun hmem => hx (List.mem_of_mem_drop hmem)⟩
    simp [State.peeks, hc.symm]

/-- A step that reads no doc comment is the same in both runs. -/
theorem reads_of_replaces {s : State} (hs : s.Proper) {c : Char} {x : Text} {k : Nat}
    (hk : (s.mode.reads c x).1.extra = k) (hlt : k < x.length) (hpeeks : s.peeks c x = false)
    (h : List.Forall₂ Replaces (segmentsFrom (s.after c x) (x.drop k)) ys) :
    s.mode.reads c (x.take k ++ joined ys) = s.mode.reads c x := by
  have htwins := (twins_joined h).append (x.take k)
  rw [joined_segmentsFrom, List.take_append_drop] at htwins
  apply htwins.reads_eq hs.mode
  · -- the step ends before the comment, and so does what it looks at
    rw [hk, List.length_take]
    omega
  · rintro hmode rfl hholds
    rw [reads_quote hmode hholds] at hk
    obtain rfl : 0 = k := hk
    simpa [State.peeks, hmode, hholds] using hpeeks

/-- A step that reads a doc comment: another is read in its place. -/
theorem reads_of_isDoc {mode : Mode} (hproper : mode.Proper) {c d : Char} {x u : Text}
    (hdoc : (mode.reads c x).1.isDoc = true) (hu : IsDocComment (d :: u)) (y : Text) :
    (x.take (mode.reads c x).1.extra).length = (mode.reads c x).1.extra ∧
      mode.reads d (u ++ y) = (⟨u.length, true, (mode.reads c x).1.mode⟩, (mode.reads c x).2) := by
  obtain rfl : mode = .code := Mode.code_of_isDoc hproper hdoc
  have hreads (c : Char) (x : Text) : Mode.code.reads c x = (codeStep c x, none) := rfl
  rw [hreads] at hdoc ⊢
  have hstep := (IsDocComment.of_codeStep hdoc).codeStep_eq (x.drop (codeStep c x).extra)
  rw [List.take_append_drop] at hstep
  rw [hreads, hu.codeStep_eq]
  exact ⟨(congrArg Step.extra hstep).symm, by rw [hstep]⟩

/-- The step lemma: over segments that replace each other, both runs go on alongside. -/
theorem Alongside.step {s t : State} {isDoc : Bool} {c d : Char} {p q x y : Text} (hs : s.Proper)
    (h : Alongside (⟨isDoc, c :: p⟩ :: xs) (⟨isDoc, d :: q⟩ :: ys) s t)
    (hreplaces : List.Forall₂ Replaces (⟨isDoc, c :: p⟩ :: xs) (⟨isDoc, d :: q⟩ :: ys))
    (hx : p ++ joined xs = x) (hy : q ++ joined ys = y)
    (hp : p.length = (s.mode.reads c x).1.extra)
    (hreads : t.mode.reads d y =
      (⟨q.length, isDoc, (s.mode.reads c x).1.mode⟩, (s.mode.reads c x).2)) :
    Alongside xs ys (s.after c x) (t.after d y) ∧
      segmentsFrom t (d :: y) = ⟨isDoc, d :: q⟩ :: segmentsFrom (t.after d y) (joined ys) := by
  have hjoined : joined (⟨isDoc, c :: p⟩ :: xs) = c :: x := by rw [← hx]; rfl
  have hjoined' : joined (⟨isDoc, d :: q⟩ :: ys) = d :: y := by rw [← hy]; rfl
  constructor
  · have hopens : ∀ enclosure ∈ (s.mode.reads c x).2,
        opensExpression (joined (⟨isDoc, c :: p⟩ :: xs)) = true := by
      intro enclosure henclosure
      rw [hjoined]
      exact ((hs.mode.reads c x).2 enclosure henclosure).2
    have hsettled := (h.open hreplaces (s.mode.reads c x).1.mode hopens).settle
    rw [hjoined, hjoined', List.length_cons, List.length_cons, hp] at hsettled
    simp only [State.after, hreads]
    exact hsettled
  · rw [segmentsFrom_cons, hreads, ← hy, List.take_left, List.drop_left]

/-- The run lemma: wherever the scanner is in the one file, it is alongside in the other. -/
theorem segmentsFrom_of_replaces {s t : State} {x : Text} (hs : s.Proper)
    (hpeeks : peeksFrom s x = false) (hreplaces : List.Forall₂ Replaces (segmentsFrom s x) ys)
    (halong : Alongside (segmentsFrom s x) ys s t) : segmentsFrom t (joined ys) = ys := by
  generalize hxs : segmentsFrom s x = xs at hreplaces halong
  -- over the segments; `halong` relates the states in front of each pair of them
  induction hreplaces generalizing s t x with
  | nil => rw [joined_nil, segmentsFrom]
  | @cons a b xs ys hab hrest ih =>
    cases x with
    | nil =>
      rw [segmentsFrom] at hxs
      cases hxs
    | cons c x =>
      rw [peeksFrom, Bool.or_eq_false_iff] at hpeeks
      obtain ⟨hpeeks, hpeeksRest⟩ := hpeeks
      rw [segmentsFrom_cons] at hxs
      obtain ⟨ha, rfl⟩ := List.cons.inj hxs
      have hx : x.take (s.mode.reads c x).1.extra ++ joined (segmentsFrom (s.after c x)
          (x.drop (s.mode.reads c x).1.extra)) = x := by
        rw [joined_segmentsFrom, List.take_append_drop]
      have hmode := halong.mode
      have hproper := hs.after c x
      cases hab with
      | same text =>
        obtain ⟨hdoc, rfl⟩ := Segment.mk.inj ha
        rw [joined_cons, List.cons_append]
        -- unless it ends the file, what a step looks at is alike in both
        by_cases hlt : (s.mode.reads c x).1.extra < x.length
        · have hlength := List.length_take_of_le hlt.le
          have hreads := reads_of_replaces hs rfl hlt hpeeks hrest
          obtain ⟨halong, hsegments⟩ := halong.step hs (.cons (.same _) hrest) hx rfl hlength (by
            rw [← hmode, hreads, hlength, ← hdoc])
          rw [hsegments, ih hproper hpeeksRest rfl halong]
        · -- a step that takes all of the file with it
          have htake := List.take_of_length_le (Nat.le_of_not_lt hlt)
          have hdrop := List.drop_eq_nil_iff.mpr (Nat.le_of_not_lt hlt)
          rw [hdrop, segmentsFrom, List.forall₂_nil_left_iff] at hrest
          rw [hrest, joined_nil, List.append_nil, htake, segmentsFrom_cons, ← hmode, hdoc, htake,
            hdrop, segmentsFrom]
      | @doc text u ht hu hbraces =>
        obtain ⟨hdoc, rfl⟩ := Segment.mk.inj ha
        obtain ⟨d, u, rfl⟩ := List.exists_cons_of_length_pos (Nat.zero_lt_of_lt hu.three_le_length)
        obtain ⟨hlength, hreads⟩ := reads_of_isDoc hs.mode hdoc hu (joined ys)
        obtain ⟨halong, hsegments⟩ := halong.step hs (.cons (.doc ht hu hbraces) hrest) hx rfl
          hlength (by rw [← hmode, hreads])
        rw [joined_cons, List.cons_append, hsegments, ih hproper hpeeksRest rfl halong]

/-- What the scanner takes for a doc comment is one, wherever it begins to read. -/
theorem isDocComment_of_mem_segmentsFrom {s : State} (hs : s.Proper) {x : Text} {a : Segment}
    (ha : a ∈ segmentsFrom s x) (hdoc : a.isDoc = true) : IsDocComment a.text := by
  -- over the length of what is left, which a step makes shorter
  induction hlen : x.length using Nat.strong_induction_on generalizing s x with
  | _ len ih =>
    cases x with
    | nil =>
      rw [segmentsFrom] at ha
      cases ha
    | cons c x =>
      rw [segmentsFrom_cons] at ha
      rcases List.mem_cons.mp ha with rfl | ha
      · obtain hcode := Mode.code_of_isDoc hs.mode hdoc
        rw [hcode] at hdoc ⊢
        exact IsDocComment.of_codeStep hdoc
      · refine ih _ ?_ (hs.after c x) ha rfl
        rw [← hlen, List.length_cons, List.length_drop]
        omega

/-! ## Section 5: Whole files -/

/-- The length of the line that names an interpreter. -/
def interpreterLength (s : Text) : Nat :=
  if "#!".toList.isPrefixOf s then (lengthBefore? ['\n'] s).getD s.length else 0

/-- Does looking ahead in a file ever go into a doc comment? -/
def peeksIntoComments (s : Text) : Bool :=
  peeksFrom ⟨.markup, []⟩ (s.drop (interpreterLength s))

/-- A file without double quotes, as a condition that is easily checked. -/
theorem peeksIntoComments_of_not_mem {s : Text} (h : '"' ∉ s) : peeksIntoComments s = false :=
  peeksFrom_of_not_mem _ fun hmem => h (List.mem_of_mem_drop hmem)

/-- The line that names an interpreter is a segment of its own, and markup is read after it. -/
theorem segments_eq (s : Text) :
    segments s = (if "#!".toList.isPrefixOf s then [⟨false, s.take (interpreterLength s)⟩] else []) ++
      segmentsFrom ⟨.markup, []⟩ (s.drop (interpreterLength s)) := by
  unfold segments interpreterLength
  split
  · rfl
  · rfl

theorem joined_segments (s : Text) : joined (segments s) = s := by
  rw [segments_eq]
  split
  · rw [List.singleton_append, joined_cons, joined_segmentsFrom, List.take_append_drop]
  · next hline =>
    rw [List.nil_append, joined_segmentsFrom, interpreterLength, if_neg hline, List.drop_zero]

theorem isDocComment_of_mem_segments {s : Text} {a : Segment} (ha : a ∈ segments s)
    (hdoc : a.isDoc = true) : IsDocComment a.text := by
  rw [segments_eq] at ha
  rcases List.mem_append.mp ha with ha | ha
  · -- the line of the interpreter is no comment
    split at ha
    · obtain rfl := List.mem_singleton.mp ha
      cases hdoc
    · cases ha
  · exact isDocComment_of_mem_segmentsFrom (s := ⟨.markup, []⟩) ⟨trivial, by simp⟩ ha hdoc

/-- What the scanner divides and finds is as it is assumed of a lexer, whatever the file. -/
theorem sound_segments (s : Text) : Locator.Sound segments s where
  joined := joined_segments s
  isDocComment := fun _ ha hdoc => isDocComment_of_mem_segments ha hdoc

/-- What comes before an occurrence is a part of the text. -/
theorem lengthBefore?_le_length {p x : Text} {k : Nat} (h : lengthBefore? p x = some k) :
    k ≤ x.length := by
  induction x generalizing k with
  | nil =>
    unfold lengthBefore? Text.breakOn at h
    split at h
    · cases h
      exact Nat.le_refl 0
    · cases h
  | cons c x ih =>
    rw [lengthBefore?_cons] at h
    split at h
    · cases h
      exact Nat.zero_le _
    · obtain ⟨m, hm, rfl⟩ := Option.map_eq_some_iff.mp h
      exact Nat.succ_le_succ (ih hm)

/-- The line that names an interpreter is as long as before. -/
theorem interpreterLength_append {s : Text} (h : List.Forall₂ Replaces
    (segmentsFrom ⟨.markup, []⟩ (s.drop (interpreterLength s))) ys) :
    interpreterLength (s.take (interpreterLength s) ++ joined ys) = interpreterLength s ∧
      interpreterLength s ≤ s.length := by
  have htwins := (twins_joined h).append (s.take (interpreterLength s))
  rw [joined_segmentsFrom, List.take_append_drop] at htwins
  have hline := htwins.isPrefixOf_eq (p := "#!".toList) (by decide)
  generalize hy : s.take (interpreterLength s) ++ joined ys = y at *
  generalize hn : interpreterLength s = n at *
  unfold interpreterLength at hn ⊢
  rw [← hline]
  split at hn
  · next hline =>
    rw [if_pos hline]
    cases hfound : lengthBefore? ['\n'] s with
    | some k =>
      rw [hfound, Option.getD_some] at hn
      subst hn
      have hk := lengthBefore?_le_length hfound
      rw [List.length_take_of_le hk] at htwins
      rw [htwins.lengthBefore?_eq (by decide) hfound (Nat.le_add_right _ _)]
      exact ⟨rfl, hk⟩
    | none =>
      -- the line is all of the file
      rw [hfound, Option.getD_none] at hn
      subst hn
      rw [List.length_take_of_le (Nat.le_refl _)] at htwins
      rw [← htwins.eq_of_length_le (Nat.le_add_right _ _), hfound]
      exact ⟨rfl, Nat.le_refl _⟩
  · next hline =>
    rw [if_neg hline, hn]
    exact ⟨rfl, by omega⟩

/-- A file is divided as before when its comments are replaced, unless the scanner looks ahead into
one of them. -/
theorem steady_segments {s : Text} (hpeeks : peeksIntoComments s = false) :
    Locator.Steady segments s := by
  intro ys h
  have hproper : State.Proper ⟨.markup, []⟩ := ⟨trivial, by simp⟩
  have hfrom {ys : List Segment} (h : List.Forall₂ Replaces
      (segmentsFrom ⟨.markup, []⟩ (s.drop (interpreterLength s))) ys) :
      segmentsFrom ⟨.markup, []⟩ (joined ys) = ys :=
    segmentsFrom_of_replaces hproper hpeeks h ⟨rfl, .nil⟩
  have htwins := twins_joined h
  rw [joined_segments] at htwins
  have hline := htwins.isPrefixOf_eq (p := "#!".toList) (by decide)
  rw [segments_eq] at h ⊢
  rw [← hline]
  split at h
  · next hfound =>
    -- the first segment is the line, which no comment takes the place of
    cases h with
    | cons hab hrest =>
      cases hab
      obtain ⟨hlength, hle⟩ := interpreterLength_append hrest
      rw [if_pos hfound, joined_cons, hlength, List.take_left' (List.length_take_of_le hle),
        List.drop_left' (List.length_take_of_le hle), hfrom hrest, List.singleton_append]
  · next hfound =>
    have hnone : interpreterLength (joined ys) = 0 := by
      rw [interpreterLength, if_neg (by rwa [← hline])]
    rw [if_neg hfound, hnone, List.drop_zero, List.nil_append]
    exact hfrom h

end Docblock.Source
