import Mathlib.Data.List.TakeWhile
import Docblock.Project.Path

/-!
# Paths below a path

Joining names to a path adds parts at its end, and what is said of a path is said of its parts.  So
the names that are joined to a path can be read off again: `Leads root path names` says that they
lead from the one path to the other.

- `Leads.join`: one step further.
- `Leads.relativeTo`, `Leads.components` and `Leads.fileName?`: what the names say of the path.
-/

namespace Docblock.Path

variable {root path p q name : Text} {parts names idle : List Text}

/-! ## Section 1: Parts -/

/-- A name that an entry of a directory can have. -/
structure IsName (name : Text) : Prop where
  ne_nil : name ≠ []
  no_slash : '/' ∉ name
  ne_dot : name ≠ ['.']
  ne_dots : name ≠ "..".toList

instance (name : Text) : Decidable (IsName name) :=
  decidable_of_iff (name ≠ [] ∧ '/' ∉ name ∧ name ≠ ['.'] ∧ name ≠ "..".toList)
    ⟨fun h => ⟨h.1, h.2.1, h.2.2.1, h.2.2.2⟩, fun h => ⟨h.ne_nil, h.no_slash, h.ne_dot, h.ne_dots⟩⟩

theorem IsName.not_isIdle (h : IsName name) : isIdle name = false := by
  simp [isIdle, h.ne_nil, h.ne_dot]

/-- A path has at least one part, if only an empty one. -/
theorem split_ne_nil (p : Text) : split p ≠ [] := by
  cases p with
  | nil => simp [split]
  | cons c p =>
    rw [split]
    split
    · simp
    · split <;> simp

/-- The parts on the two sides of a slash stand next to each other. -/
theorem split_append_slash (p q : Text) : split (p ++ '/' :: q) = split p ++ split q := by
  induction p with
  | nil => simp [split]
  | cons c p ih =>
    rw [List.cons_append, split, split, ih]
    split
    · rfl
    · obtain ⟨part, parts, hparts⟩ := List.exists_cons_of_ne_nil (split_ne_nil p)
      rw [hparts]
      rfl

theorem split_of_no_slash (h : '/' ∉ p) : split p = [p] := by
  induction p with
  | nil => rfl
  | cons c p ih =>
    obtain ⟨hc, hp⟩ : '/' ≠ c ∧ '/' ∉ p := by simpa using h
    rw [split, if_neg hc.symm, ih hp]

/-- No part of a path has a slash. -/
theorem no_slash_of_mem_split {part : Text} (h : part ∈ split p) : '/' ∉ part := by
  -- induction on the path; only the first part grows with a character
  induction p generalizing part with
  | nil => simp_all [split]
  | cons c p ih =>
    rw [split] at h
    split at h
    · rcases List.mem_cons.mp h with rfl | h
      · simp
      · exact ih h
    · next hc =>
      split at h
      · next first others hsplit =>
        rw [hsplit] at ih
        rcases List.mem_cons.mp h with rfl | h
        · simpa [Ne.symm hc] using ih List.mem_cons_self
        · exact ih (List.mem_cons_of_mem _ h)
      · next hsplit => exact absurd hsplit (split_ne_nil p)

theorem unsplit_cons (first : Text) (h : parts ≠ []) :
    unsplit (first :: parts) = first ++ '/' :: unsplit parts := by
  obtain ⟨second, parts, rfl⟩ := List.exists_cons_of_ne_nil h
  simp [unsplit, List.intercalate]

/-- Parts that are written as a path are read off again. -/
theorem split_unsplit (hne : parts ≠ []) (h : ∀ part ∈ parts, '/' ∉ part) :
    split (unsplit parts) = parts := by
  induction parts with
  | nil => exact absurd rfl hne
  | cons first parts ih =>
    obtain ⟨hfirst, hparts⟩ := List.forall_mem_cons.mp h
    by_cases hnil : parts = []
    · subst hnil
      simpa [unsplit, List.intercalate] using split_of_no_slash hfirst
    · rw [unsplit_cons first hnil, split_append_slash, ih hnil hparts, split_of_no_slash hfirst]
      rfl

/-! ## Section 2: Joining -/

/-- The parts of a path in front of what is joined to it. -/
def stem (p : Text) : List Text :=
  if p.getLast? = some '/' then (split p).dropLast else split p

/-- The stem of a path is all of it, up to a slash at the end. -/
theorem exists_split_eq_stem (p : Text) :
    ∃ idle, (∀ part ∈ idle, isIdle part = true) ∧ split p = stem p ++ idle := by
  rw [stem]
  split
  · next h =>
    obtain ⟨p, rfl⟩ := List.getLast?_eq_some_iff.mp h
    refine ⟨[[]], by simp [isIdle], ?_⟩
    rw [split_append_slash]
    simp [split]
  · exact ⟨[], by simp, by simp⟩

/-- A path that is not empty has a stem. -/
theorem stem_ne_nil (h : p ≠ []) : stem p ≠ [] := by
  rw [stem]
  split
  · next hlast =>
    obtain ⟨p, rfl⟩ := List.getLast?_eq_some_iff.mp hlast
    rw [split_append_slash]
    simpa [split] using split_ne_nil p
  · exact split_ne_nil p

theorem stem_of_isName (h : IsName name) : stem name = [name] := by
  have hlast : name.getLast? ≠ some '/' :=
    fun hlast => h.no_slash (List.mem_of_getLast? hlast)
  rw [stem, if_neg hlast, split_of_no_slash h.no_slash]

theorem stem_append_slash (p : Text) : stem (p ++ ['/']) = split p := by
  rw [stem, if_pos (by simp), split_append_slash]
  simp [split]

theorem join_ne_nil (h : p ≠ []) : join p q ≠ [] := by
  rw [join]
  split
  · next hq =>
    rintro rfl
    simp [isAbsolute, h] at hq
  · split <;> simp [h]

/-- A relative path adds its parts to the stem of the path that it is joined to. -/
theorem split_join (h : p ≠ []) (hq : isAbsolute q = false) : split (join p q) = stem p ++ split q := by
  have hempty : p.isEmpty = false := by simpa using h
  rw [join, hq, hempty, if_neg (by simp), stem]
  split
  · next hlast =>
    obtain ⟨p, rfl⟩ := List.getLast?_eq_some_iff.mp hlast
    rw [List.append_assoc, List.singleton_append, split_append_slash, split_append_slash]
    simp [split]
  · exact split_append_slash p q

/-- The stem of a joined path has the parts of both. -/
theorem stem_join (h : p ≠ []) (hq : isAbsolute q = false) (hne : q ≠ []) :
    stem (join p q) = stem p ++ stem q := by
  -- whether a slash stands at the end is told by `q`
  have hlast : (join p q).getLast? = q.getLast? := by
    obtain ⟨c, hc⟩ := Option.ne_none_iff_exists'.mp (mt List.getLast?_eq_none_iff.mp hne)
    have hempty : p.isEmpty = false := by simpa using h
    rw [join, hq, hempty, if_neg (by simp)]
    split
    · rw [List.getLast?_append, hc]
      rfl
    · rw [List.getLast?_append, List.getLast?_cons, hc]
      rfl
  rw [stem, stem.eq_1 q, hlast, split_join h hq]
  split
  · rw [List.dropLast_append_of_ne_nil (split_ne_nil q)]
  · rfl

theorem isAbsolute_join (h : p ≠ []) (hq : isAbsolute q = false) :
    isAbsolute (join p q) = isAbsolute p := by
  obtain ⟨c, p, rfl⟩ := List.exists_cons_of_ne_nil h
  rw [join, hq, if_neg (by simp)]
  split <;> rfl

theorem IsName.isAbsolute (h : IsName name) : isAbsolute name = false := by
  have hhead : name.head? ≠ some '/' := fun hhead => h.no_slash (List.mem_of_mem_head? hhead)
  simpa [Path.isAbsolute] using hhead

/-! ## Section 3: Names that lead from one path to another -/

/-- The names lead from `root` to `path`, with nothing that counts between them. -/
structure Leads (root path : Text) (names : List Text) : Prop where
  ne_nil : path ≠ []
  isAbsolute : isAbsolute path = isAbsolute root
  isName : ∀ name ∈ names, IsName name
  parts : ∃ idle, (∀ part ∈ idle, isIdle part = true) ∧ stem path = stem root ++ idle ++ names

namespace Leads

theorem refl (h : root ≠ []) : Leads root root [] :=
  ⟨h, rfl, by simp, [], by simp, by simp⟩

/-- One name more leads one step further. -/
theorem join (h : Leads root path names) (hname : IsName name) :
    Leads root (join path name) (names ++ [name]) := by
  obtain ⟨idle, hidle, hstem⟩ := h.parts
  refine ⟨join_ne_nil h.ne_nil, (isAbsolute_join h.ne_nil hname.isAbsolute).trans h.isAbsolute,
    ?_, idle, hidle, ?_⟩
  · simpa [or_imp, forall_and] using ⟨h.isName, hname⟩
  · rw [stem_join h.ne_nil hname.isAbsolute hname.ne_nil, hstem, stem_of_isName hname,
      List.append_assoc]

theorem join_dot (h : root ≠ []) : Leads root (Path.join root ['.']) [] :=
  ⟨join_ne_nil h, isAbsolute_join h rfl, by simp, [['.']], by simp [isIdle],
    by rw [stem_join h rfl (by simp), List.append_nil]; rfl⟩

/-- A name with a slash behind it leads where the name leads. -/
theorem join_slash (h : root ≠ []) (hname : IsName name) :
    Leads root (Path.join root (name ++ ['/'])) [name] := by
  have habsolute : Path.isAbsolute (name ++ ['/']) = false := by
    obtain ⟨c, rest, rfl⟩ := List.exists_cons_of_ne_nil hname.ne_nil
    exact hname.isAbsolute
  refine ⟨join_ne_nil h, isAbsolute_join h habsolute, by simpa using hname, [], by simp, ?_⟩
  rw [stem_join h habsolute (by simp), stem_append_slash, split_of_no_slash hname.no_slash]
  simp

/-- All parts of the path. -/
theorem exists_split (h : Leads root path names) : ∃ idle trailing,
    (∀ part ∈ idle, isIdle part = true) ∧ (∀ part ∈ trailing, isIdle part = true) ∧
      split path = stem root ++ (idle ++ names ++ trailing) := by
  obtain ⟨idle, hidle, hstem⟩ := h.parts
  obtain ⟨trailing, htrailing, hsplit⟩ := exists_split_eq_stem path
  exact ⟨idle, trailing, hidle, htrailing, by rw [hsplit, hstem]; simp⟩

end Leads

/-! ## Section 4: What names say of a path -/

/-- What a path has in front of its parts. -/
def front (p : Text) : List Text :=
  if isAbsolute p then [['/']] else if (split p).head? = some ['.'] then [['.']] else []

/-- The parts of a path that count. -/
def counting (parts : List Text) : List Text :=
  parts.filter (!isIdle ·)

theorem front_cases (p : Text) : front p = [['/']] ∨ front p = [['.']] ∨ front p = [] := by
  rw [front]
  split
  · exact .inl rfl
  · split
    · exact .inr (.inl rfl)
    · exact .inr (.inr rfl)

theorem components_eq (p : Text) : components p = front p ++ counting (split p) := rfl

theorem counting_append (ps qs : List Text) : counting (ps ++ qs) = counting ps ++ counting qs :=
  List.filter_append ps qs

theorem counting_of_isIdle (h : ∀ part ∈ idle, isIdle part = true) : counting idle = [] :=
  List.filter_eq_nil_iff.mpr fun part hpart => by simp [h part hpart]

theorem counting_of_isName (h : ∀ name ∈ names, IsName name) : counting names = names :=
  List.filter_eq_self.mpr fun name hname => by simp [(h name hname).not_isIdle]

theorem counting_stem (p : Text) : counting (stem p) = counting (split p) := by
  obtain ⟨idle, hidle, hsplit⟩ := exists_split_eq_stem p
  rw [hsplit, counting_append, counting_of_isIdle hidle, List.append_nil]

@[simp] theorem stripNames_nil (parts : List Text) : stripNames [] parts = some parts := by
  rw [stripNames]

/-- What is left of a path after the parts that count have been stepped over. -/
theorem stripNames_append (front back : List Text) :
    ∃ rest, stripNames (counting front) (front ++ back) = some rest ∧
      rest.dropWhile isIdle = back.dropWhile isIdle := by
  -- induction on the parts in front; an idle one is passed over, unless it stands where no name is
  -- left
  induction front with
  | nil => exact ⟨back, stripNames_nil back, rfl⟩
  | cons part front ih =>
    obtain ⟨rest, hrest, hback⟩ := ih
    by_cases hidle : isIdle part = true
    · have hcounting : counting (part :: front) = counting front := by simp [counting, hidle]
      rw [hcounting]
      cases hfront : counting front with
      | nil =>
        rw [hfront, stripNames_nil] at hrest
        obtain rfl := Option.some.inj hrest
        exact ⟨_, stripNames_nil _, by rw [List.cons_append, List.dropWhile_cons_of_pos hidle, hback]⟩
      | cons name names =>
        rw [hfront] at hrest
        exact ⟨rest, by rw [List.cons_append, stripNames, if_pos hidle, hrest], hback⟩
    · have hcounting : counting (part :: front) = part :: counting front := by simp [counting, hidle]
      exact ⟨rest, by rw [hcounting, List.cons_append, stripNames, if_neg hidle, if_pos rfl, hrest],
        hback⟩

/-- A relative path that does not begin with a dot begins with a part that counts. -/
theorem exists_counting_of_front (h : p ≠ []) (hfront : front p = []) :
    ∃ first others, counting (split p) = first :: others ∧ (split p).head? = some first ∧
      first ≠ ['/'] ∧ first ≠ ['.'] := by
  obtain ⟨first, others, hsplit⟩ := List.exists_cons_of_ne_nil (split_ne_nil p)
  rw [front, hsplit] at hfront
  obtain ⟨habsolute, hdot⟩ : isAbsolute p = false ∧ first ≠ ['.'] := by
    split at hfront
    · cases hfront
    · next habsolute =>
      split at hfront
      · cases hfront
      · next hdot => exact ⟨by simpa using habsolute, by simpa using hdot⟩
  have hslash : first ≠ ['/'] := by
    rintro rfl
    exact no_slash_of_mem_split (p := p) (by rw [hsplit]; exact List.mem_cons_self) (by simp)
  -- an empty first part would begin an absolute path
  have hnil : first ≠ [] := by
    rintro rfl
    obtain ⟨c, p, rfl⟩ := List.exists_cons_of_ne_nil h
    have hc : c ≠ '/' := by simpa [isAbsolute] using habsolute
    rw [split, if_neg hc] at hsplit
    split at hsplit <;> cases hsplit
  exact ⟨first, counting others, by simp [hsplit, counting, isIdle, hnil, hdot], by simp [hsplit],
    hslash, hdot⟩

/-- Names are the components of the path that they make up. -/
theorem components_unsplit (h : ∀ name ∈ names, IsName name) : components (unsplit names) = names := by
  cases hnames : names with
  | nil => rfl
  | cons first others =>
    rw [← hnames]
    have hsplit : split (unsplit names) = names :=
      split_unsplit (by simp [hnames]) fun name hname => (h name hname).no_slash
    -- the first name decides that nothing stands in front
    have hhead : (split (unsplit names)).head? = some first := by rw [hsplit, hnames]; rfl
    have hfirst : IsName first := h first (by simp [hnames])
    have hrelative : isAbsolute (unsplit names) = false := by
      cases hpath : unsplit names with
      | nil => rfl
      | cons c rest =>
        rw [hpath, split] at hhead
        split at hhead
        · exact absurd (Option.some.inj hhead).symm hfirst.ne_nil
        · next hc => simpa [isAbsolute] using hc
    have hfront : front (unsplit names) = [] := by
      simp [front, hrelative, hhead, hfirst.ne_dot]
    rw [components_eq, hfront, hsplit, counting_of_isName h, List.nil_append]

/-- Idle parts behind names are dropped, and no name is. -/
theorem dropIdleEnd_append (hnames : ∀ name ∈ names, IsName name)
    (hidle : ∀ part ∈ idle, isIdle part = true) : dropIdleEnd (names ++ idle) = names := by
  rw [dropIdleEnd, List.reverse_append, List.dropWhile_append_of_pos (by simpa using hidle)]
  cases hreverse : names.reverse with
  | nil => rw [← List.reverse_reverse names, hreverse]; rfl
  | cons last others =>
    have hlast : isIdle last = false :=
      (hnames last (by rw [← List.mem_reverse, hreverse]; exact List.mem_cons_self)).not_isIdle
    rw [List.dropWhile_cons_of_neg (by simp [hlast]), ← hreverse, List.reverse_reverse]

/-- Two paths that begin with the same parts have the same in front. -/
theorem front_of_split (hroot : root ≠ []) (habsolute : isAbsolute path = isAbsolute root)
    (hsplit : split path = stem root ++ parts) : front path = front root := by
  have hhead : (split path).head? = (split root).head? := by
    obtain ⟨idle, -, hroot_split⟩ := exists_split_eq_stem root
    obtain ⟨first, others, hstem⟩ := List.exists_cons_of_ne_nil (stem_ne_nil hroot)
    rw [hsplit, hroot_split, hstem]
    rfl
  rw [front, front, habsolute, hhead]

/-- A path that goes on from the stem of another is seen from there as what it goes on with. -/
theorem relativeTo_of_split (hroot : root ≠ []) (habsolute : isAbsolute path = isAbsolute root)
    (hsplit : split path = stem root ++ parts) :
    relativeTo root path = unsplit (dropIdleEnd (parts.dropWhile isIdle)) := by
  obtain ⟨rest, hrest, hback⟩ := stripNames_append (stem root) parts
  rw [counting_stem, ← hsplit] at hrest
  have hfront := front_of_split hroot habsolute hsplit
  have hrelative : relativeTo? root path = some (unsplit (dropIdleEnd (rest.dropWhile isIdle))) := by
    have hbind : relativeTo? root path = (stripNames (counting (split root)) (split path)).bind
        fun rest => some (unsplit (dropIdleEnd (rest.dropWhile isIdle))) := by
      rw [relativeTo?, components_eq, components_eq, hfront]
      rcases front_cases root with h | h | h
      · rw [h]
        rfl
      · rw [h]
        rfl
      · -- both paths begin with the same part, and it is none of the two special ones
        obtain ⟨first, others, hfirst, -, hslash, hdot⟩ := exists_counting_of_front hroot h
        have hpath : counting (split path) = first :: (others ++ counting parts) := by
          rw [hsplit, counting_append, counting_stem, hfirst, List.cons_append]
        rw [h, hpath, hfirst]
        simp [hslash, hdot]
    rw [hbind, hrest]
    rfl
  rw [relativeTo, hrelative, hback]
  rfl

namespace Leads

theorem counting_split (h : Leads root path names) :
    counting (split path) = counting (split root) ++ names := by
  obtain ⟨idle, trailing, hidle, htrailing, hsplit⟩ := h.exists_split
  rw [hsplit, counting_append, counting_append, counting_append, counting_stem,
    counting_of_isIdle hidle, counting_of_isIdle htrailing, counting_of_isName h.isName]
  simp

theorem components (h : Leads root path names) (hroot : root ≠ []) :
    components path = Path.components root ++ names := by
  obtain ⟨idle, trailing, -, -, hsplit⟩ := h.exists_split
  rw [components_eq, components_eq, front_of_split hroot h.isAbsolute hsplit, h.counting_split,
    List.append_assoc]

/-- Relative to the root, the path is the names. -/
theorem relativeTo (h : Leads root path names) (hroot : root ≠ []) :
    relativeTo root path = unsplit names := by
  obtain ⟨idle, trailing, hidle, htrailing, hsplit⟩ := h.exists_split
  rw [relativeTo_of_split hroot h.isAbsolute hsplit, List.append_assoc,
    List.dropWhile_append_of_pos hidle]
  -- without names there are only idle parts behind the root
  cases hnames : names with
  | nil =>
    rw [List.nil_append, List.dropWhile_eq_nil_iff.mpr htrailing]
    rfl
  | cons first others =>
    have hfirst : isIdle first = false := (h.isName first (by simp [hnames])).not_isIdle
    rw [List.cons_append, List.dropWhile_cons_of_neg (by simp [hfirst]), ← List.cons_append, ← hnames,
      dropIdleEnd_append h.isName htrailing]

/-- The last name is the file name of the path. -/
theorem fileName? (h : Leads root path names) (hne : names ≠ []) :
    fileName? path = names.getLast? := by
  have hlast := List.getLast?_eq_some_getLast hne
  have hdots : names.getLast hne ≠ "..".toList := (h.isName _ (List.getLast_mem _)).ne_dots
  have hcounting : ((split path).filter (!isIdle ·)).getLast? = names.getLast? := by
    have hpath := congrArg List.getLast? h.counting_split
    rw [List.getLast?_append, hlast] at hpath
    rw [hlast]
    exact hpath
  rw [Path.fileName?, hcounting, hlast]
  exact if_neg hdots

end Leads

end Docblock.Path
