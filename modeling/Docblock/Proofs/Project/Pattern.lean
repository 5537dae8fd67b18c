import Mathlib.Data.List.Infix
import Docblock.Project.Manifest
import Docblock.Proofs.Project.Path

/-!
# Patterns for directories

A pattern for everything inside a directory is compared with a path as text: the path begins with
the directory and a slash, or the directory stands in it between two slashes.  Since slashes divide
a path into its names, this comes to the same as comparing name by name, and no name is taken for a
part of another one.

- `Path.eq_of_unsplit_eq`: a slash in a path divides its names.
- `leavesOut_inside_iff`: the names of the directory among those of the path.
- `leavesOut_directory`: the two ways to write the pattern.
-/

namespace Docblock

/-! ## Section 1: Texts inside a text -/

theorem Text.contains_eq_true_iff {needle s : Text} : contains needle s = true ↔ needle <:+: s := by
  induction s with
  | nil => simp [contains]
  | cons c s ih =>
    rw [contains, Bool.or_eq_true, List.isPrefixOf_iff_prefix, ih, List.infix_cons_iff]

namespace Path

variable {p q : Text} {front back parts : List Text}

/-- The path of names is the path of their front, a slash, and the path of the rest. -/
theorem unsplit_append (hfront : front ≠ []) (hback : back ≠ []) :
    unsplit (front ++ back) = unsplit front ++ '/' :: unsplit back := by
  induction front with
  | nil => exact absurd rfl hfront
  | cons first front ih =>
    -- with one name in front, or more
    by_cases hnil : front = []
    · subst hnil
      rw [List.singleton_append, unsplit_cons first hback]
      simp [unsplit]
    · rw [List.cons_append, unsplit_cons first (by simp [hnil]), unsplit_cons first hnil, ih hnil,
        List.append_assoc, List.cons_append]

/-- A slash in a path stands between two of its names. -/
theorem eq_of_unsplit_eq (hne : parts ≠ []) (hslash : ∀ part ∈ parts, '/' ∉ part)
    (h : unsplit parts = p ++ '/' :: q) : parts = split p ++ split q := by
  rw [← split_append_slash, ← h, split_unsplit hne hslash]

end Path

namespace Pattern

open Docblock.Path (split unsplit split_ne_nil split_unsplit split_append_slash unsplit_append)

variable {dir path more : List Text}

/-! ## Section 2: Everything inside a directory -/

/-- What is inside a directory has the names of the directory one after another among its own, and
another name after them. -/
theorem leavesOut_inside_iff (hdir : dir ≠ []) (hdirs : ∀ part ∈ dir, '/' ∉ part) (hpath : path ≠ [])
    (hparts : ∀ part ∈ path, '/' ∉ part) :
    (Pattern.inside (unsplit dir)).leavesOut (unsplit path) = true ↔
      ∃ front back, back ≠ [] ∧ path = front ++ dir ++ back := by
  have hnames : split (unsplit dir) = dir := split_unsplit hdir hdirs
  rw [leavesOut, Bool.or_eq_true, List.isPrefixOf_iff_prefix, Text.contains_eq_true_iff]
  constructor
  · rintro (⟨q, hq⟩ | ⟨p, q, hpq⟩)
    · -- the directory is the beginning of the path
      have hcut : unsplit path = unsplit dir ++ '/' :: q := by simpa using hq.symm
      refine ⟨[], split q, split_ne_nil q, ?_⟩
      rw [Path.eq_of_unsplit_eq hpath hparts hcut, hnames, List.nil_append]
    · -- it stands behind other names
      have hcut : unsplit path = p ++ '/' :: (unsplit dir ++ '/' :: q) := by simpa using hpq.symm
      refine ⟨split p, split q, split_ne_nil q, ?_⟩
      rw [Path.eq_of_unsplit_eq hpath hparts hcut, split_append_slash, hnames, List.append_assoc]
  · -- the names stand at the front or further on
    rintro ⟨front, back, hback, rfl⟩
    have hbelow : unsplit (dir ++ back) = unsplit dir ++ '/' :: unsplit back :=
      unsplit_append hdir hback
    by_cases hfront : front = []
    · subst hfront
      refine .inl ⟨unsplit back, ?_⟩
      rw [List.nil_append, hbelow, List.append_assoc, List.singleton_append]
    · refine .inr ⟨unsplit front, unsplit back, ?_⟩
      rw [List.append_assoc front, unsplit_append hfront (by simp [hdir]), hbelow]
      simp

/-- What stands below something that is inside a directory is inside it as well. -/
theorem leavesOut_inside_append (hdir : dir ≠ []) (hdirs : ∀ part ∈ dir, '/' ∉ part)
    (hpath : path ≠ []) (hparts : ∀ part ∈ path ++ more, '/' ∉ part)
    (h : (Pattern.inside (unsplit dir)).leavesOut (unsplit path) = true) :
    (Pattern.inside (unsplit dir)).leavesOut (unsplit (path ++ more)) = true := by
  obtain ⟨hfirst, -⟩ := List.forall_mem_append.mp hparts
  obtain ⟨front, back, hback, rfl⟩ := (leavesOut_inside_iff hdir hdirs hpath hfirst).mp h
  refine (leavesOut_inside_iff hdir hdirs (by simp [hdir]) hparts).mpr
    ⟨front, back ++ more, by simp [hback], ?_⟩
  rw [List.append_assoc]

/-! ## Section 3: How the pattern is written -/

theorem ofPlain_inside (d : Text) : ofPlain (d ++ "/*".toList) = .inside d := by
  have hsuffix : "/*".toList.isSuffixOf? (d ++ "/*".toList) = some d := by
    simp [List.isSuffixOf?, List.isPrefixOf?]
  rw [ofPlain, hsuffix]

/-- `**/` in front changes nothing. -/
theorem ofText_anywhere (d : Text) : ofText ("**/".toList ++ d ++ "/*".toList) = .inside d :=
  ofPlain_inside d

/-- So it does without the two stars in front. -/
theorem ofText_inside {d : Text} (h : ∀ c ∈ d.head?, c ≠ '*') (hne : d ≠ []) :
    ofText (d ++ "/*".toList) = .inside d := by
  obtain ⟨c, d, rfl⟩ := List.exists_cons_of_ne_nil hne
  have hc : c ≠ '*' := h c rfl
  -- the text does not begin with two stars
  have hnone : "**/".toList.isPrefixOf? (c :: d ++ "/*".toList) = none := by
    simp [List.isPrefixOf?, hc.symm]
  unfold ofText
  simp only [hnone]
  split
  · next rest heq => exact absurd (List.cons.inj heq).1 hc
  · exact ofPlain_inside (c :: d)

/-- The names of a directory without stars, as a text, do not begin with one. -/
theorem unsplit_front (hdir : dir ≠ [])
    (hplain : ∀ part ∈ dir, part ≠ [] ∧ '/' ∉ part ∧ '*' ∉ part) :
    unsplit dir ≠ [] ∧ ∀ c ∈ (unsplit dir).head?, c ≠ '*' := by
  obtain ⟨first, dir, rfl⟩ := List.exists_cons_of_ne_nil hdir
  obtain ⟨hne, -, hstar⟩ := hplain first List.mem_cons_self
  obtain ⟨d, first, rfl⟩ := List.exists_cons_of_ne_nil hne
  obtain ⟨rest, hrest⟩ : ∃ rest, unsplit ((d :: first) :: dir) = d :: rest := by
    -- the path begins with the first name either way
    by_cases hnil : dir = []
    · exact ⟨first, by simp [hnil, unsplit]⟩
    · exact ⟨_, Path.unsplit_cons (d :: first) hnil⟩
  rw [hrest]
  refine ⟨List.cons_ne_nil d rest, ?_⟩
  rintro c hc rfl
  obtain rfl : d = '*' := Option.some.inj hc
  exact hstar List.mem_cons_self

/-- A directory may be written with `**/` in front or without: the pattern for what is inside it
leaves out the paths that have its names one after another among their own, and another name after
them.  So what stands below a path that is left out is left out as well. -/
theorem leavesOut_directory (hdir : dir ≠ [])
    (hplain : ∀ part ∈ dir, part ≠ [] ∧ '/' ∉ part ∧ '*' ∉ part) (hpath : path ≠ [])
    (hparts : ∀ part ∈ path, part ≠ [] ∧ '/' ∉ part) :
    ((ofText (unsplit dir ++ "/*".toList)).leavesOut (unsplit path) = true ↔
        (ofText ("**/".toList ++ unsplit dir ++ "/*".toList)).leavesOut (unsplit path) = true) ∧
      ((ofText (unsplit dir ++ "/*".toList)).leavesOut (unsplit path) = true ↔
        ∃ front back, back ≠ [] ∧ path = front ++ dir ++ back) ∧
      ∀ pattern ∈ [unsplit dir ++ "/*".toList, "**/".toList ++ unsplit dir ++ "/*".toList],
        (ofText pattern).leavesOut (unsplit path) = true →
          ∀ more : List Text, (∀ part ∈ more, part ≠ [] ∧ '/' ∉ part) →
            (ofText pattern).leavesOut (unsplit (path ++ more)) = true ∧
              ∀ m : Manifest, pattern ∈ m.excludes → m.isExcluded (unsplit (path ++ more)) = true := by
  obtain ⟨hne, hfront⟩ := unsplit_front hdir hplain
  have hdirs : ∀ part ∈ dir, '/' ∉ part := fun part h => (hplain part h).2.1
  have hnames : ∀ part ∈ path, '/' ∉ part := fun part h => (hparts part h).2
  rw [ofText_inside hfront hne, ofText_anywhere]
  refine ⟨Iff.rfl, leavesOut_inside_iff hdir hdirs hpath hnames, ?_⟩
  intro pattern hpattern
  -- both patterns are read as the same
  obtain hinside : ofText pattern = .inside (unsplit dir) := by
    rcases List.mem_pair.mp hpattern with rfl | rfl
    · exact ofText_inside hfront hne
    · exact ofText_anywhere _
  intro h more hmore
  rw [hinside] at h
  have hall : ∀ part ∈ path ++ more, '/' ∉ part :=
    List.forall_mem_append.mpr ⟨hnames, fun part h => (hmore part h).2⟩
  have hbelow : (ofText pattern).leavesOut (unsplit (path ++ more)) = true := by
    rw [hinside]
    exact leavesOut_inside_append hdir hdirs hpath hall h
  refine ⟨hbelow, fun m hm => ?_⟩
  exact List.any_eq_true.mpr ⟨pattern, hm, hbelow⟩

/-- A directory of two names, the first of which also stands in the path by itself and as a part of
another name. -/
theorem leavesOut_directory_twice :
    (ofText "lib/a/*".toList).leavesOut "mylib/lib/lib/a/x".toList = true ∧
      (⟨[], ["**/lib/a/*".toList], []⟩ : Manifest).isExcluded "mylib/lib/lib/a/x/y.php".toList = true ∧
      (ofText "lib/a/*".toList).leavesOut "mylib/a/lib/ab/x.php".toList = false := by
  have hdir : ["lib".toList, ['a']] ≠ [] := by decide
  have hplain : ∀ part ∈ ["lib".toList, ['a']], part ≠ [] ∧ '/' ∉ part ∧ '*' ∉ part := by decide
  have hpath : ∀ part ∈ ["mylib".toList, "lib".toList, "lib".toList, ['a'], ['x']],
      part ≠ [] ∧ '/' ∉ part := by decide
  obtain ⟨hsame, hblock, hmore⟩ := leavesOut_directory hdir hplain (by decide) hpath
  have hfirst := hblock.mpr ⟨["mylib".toList, "lib".toList], [['x']], by decide, rfl⟩
  refine ⟨hfirst, ?_, ?_⟩
  · exact (hmore _ (List.mem_cons_of_mem _ List.mem_cons_self) (hsame.mp hfirst) ["y.php".toList]
      (by decide)).2 _ List.mem_cons_self
  · have hpath' : ∀ part ∈ ["mylib".toList, ['a'], "lib".toList, "ab".toList, "x.php".toList],
        part ≠ [] ∧ '/' ∉ part := by decide
    have hother := leavesOut_directory hdir hplain (by decide) hpath'
    -- the two names do not follow one another anywhere
    refine Bool.eq_false_iff.mpr (mt hother.2.1.mp ?_)
    rintro ⟨front, back, -, h⟩
    have hpart : ["lib".toList, ['a']] <:+:
        ["mylib".toList, ['a'], "lib".toList, "ab".toList, "x.php".toList] := ⟨front, back, h.symm⟩
    revert hpart
    decide

end Pattern

end Docblock
