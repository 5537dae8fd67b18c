import Docblock.Proofs.Command.Session
import Docblock.Proofs.Project.Workspace
import Docblock.Proofs.Source.Ranges

/-!
# Formatting files in place

The command goes through a list of files, and a file may stand in the list several times, under
different paths.  So a run is described step by step: `Settles` is what one step leaves behind, from
the content that the file has when it is reached, and `Rewrites` is a run of such steps.

- `Session.perform_formatFile`: one file.
- `Session.perform_formatFiles`: files, one after the other, up to one that cannot be read.
- `Session.runFormat_inPlace`: the whole command.
-/

namespace Docblock

open Command

namespace Workspace

variable {w w' w'' : Workspace} {path content : Text} {reached : List (Text × Text)}

/-! ## Section 1: What a run does to the files -/

/-- The file at a path, which had this content when it was reached, has been formatted: it is left
alone if a comment of it is refused, and holds the formatted text otherwise. -/
structure Settles (w : Workspace) (path content : Text) (w' : Workspace) : Prop where
  reached : w.read path = .ok content
  kept : (Source.format content).errors ≠ [] → w' = w
  written : (Source.format content).errors = [] → w'.read path = .ok (Source.format content).output
  others : ∀ names, w.resolve path ≠ .ok names → w'.tree.content? names = w.tree.content? names
  places : SamePlaces w w'

/-- Files have been formatted one after the other. `reached` has their paths and the content that
each of them had when it was reached. -/
inductive Rewrites : Workspace → List (Text × Text) → Workspace → Prop where
  | nil (w : Workspace) : Rewrites w [] w
  | cons {w w' w'' : Workspace} {path content : Text} {reached : List (Text × Text)}
      (first : Settles w path content w') (rest : Rewrites w' reached w'') :
      Rewrites w ((path, content) :: reached) w''

/-- Paths to one place read the same. -/
theorem read_of_resolve_eq {other : Text} (h : w.resolve other = w.resolve path) :
    w.read other = w.read path := by
  rw [read, read, readBytes, readBytes, h]

theorem Settles.read_of_ne (h : Settles w path content w') {other : Text}
    (hne : w.resolve other ≠ w.resolve path) : w'.read other = w.read other := by
  apply h.places.read
  intro names hnames
  apply h.others
  rw [← hnames]
  exact hne.symm

/-- What can be read can be read afterwards, and the other way round. -/
theorem Settles.readable_iff (h : Settles w path content w') (other : Text) :
    (∃ c, w'.read other = .ok c) ↔ ∃ c, w.read other = .ok c := by
  -- the file itself could be read before, and can be after
  by_cases hplace : w.resolve other = w.resolve path
  · have hplace' : w'.resolve other = w'.resolve path := by
      rw [h.places.resolve, h.places.resolve, hplace]
    rw [read_of_resolve_eq hplace, read_of_resolve_eq hplace', h.reached]
    -- it holds its content, or the formatted text
    refine iff_of_true ?_ ⟨content, rfl⟩
    by_cases herrors : (Source.format content).errors = []
    · exact ⟨_, h.written herrors⟩
    · rw [h.kept herrors]
      exact ⟨content, h.reached⟩
  · rw [h.read_of_ne hplace]

namespace Rewrites

theorem places (h : Rewrites w reached w') : SamePlaces w w' := by
  induction h with
  | nil w => exact .refl w
  | cons first _ ih => exact first.places.trans ih

/-- Where no reached file stands, nothing changes. -/
theorem others (h : Rewrites w reached w') {names : List Text}
    (hnames : ∀ r ∈ reached, w.resolve r.1 ≠ .ok names) :
    w'.tree.content? names = w.tree.content? names := by
  induction h with
  | nil w => rfl
  | cons first _ ih =>
    obtain ⟨hfirst, hrest⟩ := List.forall_mem_cons.mp hnames
    rw [ih, first.others names hfirst]
    intro r hr
    rw [first.places.resolve]
    exact hrest r hr

theorem readable_iff (h : Rewrites w reached w') (path : Text) :
    (∃ c, w'.read path = .ok c) ↔ ∃ c, w.read path = .ok c := by
  induction h with
  | nil w => rfl
  | cons first _ ih => rw [ih, first.readable_iff]

/-- Files that stand in the list once are reached with the content that they have at first. -/
theorem read_of_nodup (h : Rewrites w reached w')
    (hnodup : (reached.map fun r => w.resolve r.1).Nodup) :
    ∀ r ∈ reached, w.read r.1 = .ok r.2 := by
  induction h with
  | nil w => simp
  | @cons w w' w'' path content reached first _ ih =>
    rw [List.map_cons, List.nodup_cons] at hnodup
    obtain ⟨hfirst, hrest⟩ := hnodup
    refine List.forall_mem_cons.mpr ⟨first.reached, fun r hr => ?_⟩
    -- it stands at another place than the first
    have hne : w.resolve r.1 ≠ w.resolve path := by
      intro heq
      exact hfirst (heq ▸ List.mem_map_of_mem (f := fun r => w.resolve r.1) hr)
    rw [← first.read_of_ne hne]
    apply ih _ r hr
    simpa only [first.places.resolve] using hrest

/-- Every file that is reached is reached for the first time with the content that it has at
first. -/
theorem exists_first (h : Rewrites w reached w') :
    ∀ r ∈ reached, ∃ f ∈ reached, w.resolve f.1 = w.resolve r.1 ∧ w.read f.1 = .ok f.2 := by
  induction h with
  | nil w => simp
  | @cons w w' w'' path content reached first _ ih =>
    refine List.forall_mem_cons.mpr ⟨⟨_, List.mem_cons_self, rfl, first.reached⟩, fun r hr => ?_⟩
    -- a file at the same place was reached first, with what stood there
    by_cases hplace : w.resolve r.1 = w.resolve path
    · exact ⟨_, List.mem_cons_self, hplace.symm, first.reached⟩
    · obtain ⟨f, hf, hresolve, hread⟩ := ih r hr
      rw [first.places.resolve, first.places.resolve] at hresolve
      rw [first.read_of_ne (hresolve ▸ hplace)] at hread
      exact ⟨f, List.mem_cons_of_mem _ hf, hresolve, hread⟩

theorem readable (h : Rewrites w reached w') {r : Text × Text} (hr : r ∈ reached) :
    ∃ c, w.read r.1 = .ok c := by
  obtain ⟨f, -, hplace, hread⟩ := h.exists_first r hr
  rw [read_of_resolve_eq hplace.symm]
  exact ⟨f.2, hread⟩

end Rewrites

end Workspace

namespace Session

open Workspace (Settles Rewrites SamePlaces)

variable {s : Session} {path content : Text}

/-! ## Section 2: One file -/

/-- Formatting a file that can be read settles it. -/
theorem perform_formatFile (console : Console) (ht : s.workspace.tree.Ordered)
    (h : s.workspace.read path = .ok content) :
    ∃ written s', s.perform (formatFile console true path) =
        (.ok ⟨(Source.format content).errors.length, written⟩, s') ∧
      Settles s.workspace path content s'.workspace ∧ s'.workspace.tree.Ordered := by
  -- reporting touches no file
  obtain ⟨s', hreport, hworkspace⟩ := perform_reportAll (s := s) console
    (Console.showPath s.workspace.locationPath path)
    ((Source.format content).errors.map .ofError)
  rw [formatFile, perform_bind_of_ok (perform_readSource_of_ok h),
    perform_bind_of_ok perform_showPath, perform_bind_of_ok hreport]
  simp only [Bool.not_true, Bool.false_eq_true, if_false]
  by_cases hwrite : ((Source.format content).errors.isEmpty &&
      decide ((Source.format content).changed ≠ 0)) = true
  · -- the file gets the formatted text
    obtain ⟨herrors, -⟩ := Bool.and_eq_true_iff.mp hwrite
    rw [List.isEmpty_iff] at herrors
    obtain ⟨w, hw, hplaces, hordered, hread, hothers⟩ :=
      Workspace.write_of_read ht h (Source.format content).output
    rw [← hworkspace] at hw
    rw [if_pos hwrite, perform_bind_of_ok (perform_writeFile_of_ok hw .writeSource),
      perform_bind_of_ok (perform_tell _), herrors]
    exact ⟨1, _, rfl, ⟨h, fun hne => absurd herrors hne, fun _ => hread, hothers, hplaces⟩, hordered⟩
  · -- nothing is written, either because a comment is refused or because there is no change
    rw [if_neg hwrite]
    refine ⟨0, s', rfl, ⟨h, fun _ => hworkspace, fun herrors => ?_, ?_, ?_⟩, ?_⟩
    · have hchanged : (Source.format content).changed = 0 := by simpa [herrors] using hwrite
      have houtput : (Source.format content).output = content :=
        (Source.sound_segments content).output_format_eq_self_iff_changed.mpr hchanged
      rw [hworkspace, houtput]
      exact h
    · intro names _
      rw [hworkspace]
    · rw [hworkspace]
      exact .refl _
    · rwa [hworkspace]

/-! ## Section 3: All files -/

/-- The number of comments that are refused in the files of a run. -/
def refusals (reached : List (Text × Text)) : Nat :=
  (reached.map fun r => (Source.format r.2).errors.length).sum

theorem refusals_eq_zero_iff {reached : List (Text × Text)} :
    refusals reached = 0 ↔ ∀ r ∈ reached, (Source.format r.2).errors = [] := by
  rw [refusals, List.sum_eq_zero_iff, List.forall_mem_map]
  simp only [List.length_eq_zero_iff]

/-- A run comes to the end of the list, or to a file that cannot be read. -/
theorem perform_formatFiles (console : Console) (ht : s.workspace.tree.Ordered)
    (files : List Text) :
    ∃ reached s', Rewrites s.workspace reached s'.workspace ∧
      ((reached.map Prod.fst = files ∧ ∃ written,
          s.perform (formatFiles console true files) = (.ok ⟨refusals reached, written⟩, s')) ∨
        ∃ path cause rest, files = reached.map Prod.fst ++ path :: rest ∧
          s'.workspace.read path = .error cause ∧
          s.perform (formatFiles console true files) =
            (.error (.file path .readSource cause), s')) := by
  -- over the files, each in the state that the one before has left
  induction files generalizing s with
  | nil => exact ⟨[], s, .nil _, .inl ⟨rfl, 0, rfl⟩⟩
  | cons path files ih =>
    cases hread : s.workspace.read path with
    | error cause =>
      refine ⟨[], s, .nil _, .inr ⟨path, cause, files, rfl, hread, ?_⟩⟩
      have hfile : s.perform (formatFile console true path) =
          (.error (.file path .readSource cause), s) :=
        perform_bind_of_error (perform_readSource_of_error hread) _
      rw [formatFiles, perform_bind_of_error hfile]
    | ok content =>
      obtain ⟨written, s₁, hfile, hsettles, ht₁⟩ := perform_formatFile console ht hread
      obtain ⟨reached, s', hrewrites, hend⟩ := ih ht₁
      refine ⟨(path, content) :: reached, s', .cons hsettles hrewrites, ?_⟩
      rw [formatFiles, perform_bind_of_ok hfile]
      rcases hend with ⟨hfiles, more, hperform⟩ | ⟨stopped, cause, rest, hfiles, hstopped, hperform⟩
      · refine .inl ⟨congrArg (path :: ·) hfiles, written + more, ?_⟩
        rw [perform_bind_of_ok hperform]
        rfl
      · refine .inr ⟨stopped, cause, rest, congrArg (path :: ·) hfiles, hstopped, ?_⟩
        rw [perform_bind_of_error hperform]

theorem perform_finishFormat (errors : Nat) : s.perform (finishFormat errors) =
    (if errors = 0 then .ok () else .error (.unformattable errors), s) := by
  rw [finishFormat]
  split <;> rfl

/-- The files that some paths stand for. -/
def filesFor (s : Session) (manifest : Manifest) (paths : List Text) : List Text :=
  (s.step (Project.expandPaths manifest paths)).1

/-- Formatting paths in place comes to the end of their files and fails if a comment has been
refused, or it stops at a file that cannot be read. -/
theorem perform_formatPaths (console : Console) (ht : s.workspace.tree.Ordered)
    {paths : List Text} {manifest : Manifest}
    (hmanifest : s.perform (Manifest.loadOrDefault ['.']) = (.ok manifest, s)) :
    ∃ result s' reached, s.perform (formatPaths console true paths) = (result, s') ∧
      Rewrites s.workspace reached s'.workspace ∧
      ((reached.map Prod.fst = s.filesFor manifest paths ∧
          result = if refusals reached = 0 then .ok () else .error (.unformattable (refusals reached))) ∨
        ∃ path cause rest, s.filesFor manifest paths = reached.map Prod.fst ++ path :: rest ∧
          s'.workspace.read path = .error cause ∧
          result = .error (.file path .readSource cause)) := by
  -- expanding paths only looks
  have hexpand : s.perform (Project.expandPaths manifest paths : StateM Session (List Text)) =
      (.ok (s.filesFor manifest paths), s) := by
    have hlift := perform_lift (s := s) (Project.expandPaths manifest paths)
    rw [step_expandPaths] at hlift
    exact hlift
  rw [formatPaths, perform_bind_of_ok hmanifest, perform_bind_of_ok hexpand]
  -- without a file nothing is done
  by_cases hempty : (s.filesFor manifest paths).isEmpty = true
  · rw [if_pos hempty]
    exact ⟨.ok (), _, [], rfl, .nil _, .inl ⟨(List.isEmpty_iff.mp hempty).symm, rfl⟩⟩
  · rw [if_neg hempty]
    obtain ⟨reached, s', hrewrites, hend⟩ :=
      perform_formatFiles console ht (s.filesFor manifest paths)
    rcases hend with ⟨hfiles, written, hperform⟩ | ⟨path, cause, rest, hfiles, hpath, hperform⟩
    · rw [perform_bind_of_ok hperform, if_pos rfl, perform_bind_of_ok (perform_tell _),
        perform_finishFormat]
      exact ⟨_, _, reached, rfl, hrewrites, .inl ⟨hfiles, rfl⟩⟩
    · rw [perform_bind_of_error hperform]
      exact ⟨_, s', reached, rfl, hrewrites, .inr ⟨path, cause, rest, hfiles, hpath, rfl⟩⟩

/-- Formatting in place, with `files` for the files that the paths stand for.  Without a manifest
that can be loaded nothing happens.  Otherwise the files are formatted one after the other, each from
the content that it has when it is reached, up to the end or to one that cannot be read, and every
other place stays as it is.  The command succeeds if all files can be read and no comment is refused
in what is reached; where no file stands in the list twice, that is what the files hold at first. -/
theorem runFormat_inPlace (console : Console) {paths : List Text} (hpaths : paths ≠ [])
    (ht : s.workspace.tree.Ordered) :
    (∀ e, (s.perform (Manifest.loadOrDefault ['.'])).1 = .error e →
      s.perform (runFormat console paths true) = (.error e, s)) ∧
    ∀ manifest files, (s.perform (Manifest.loadOrDefault ['.'])).1 = .ok manifest →
      s.filesFor manifest paths = files →
      ∃ result s' reached, s.perform (runFormat console paths true) = (result, s') ∧
        Rewrites s.workspace reached s'.workspace ∧
        (reached.map Prod.fst = files ∨
          ∃ path cause rest, files = reached.map Prod.fst ++ path :: rest ∧
            s'.workspace.read path = .error cause ∧
            result = .error (.file path .readSource cause)) ∧
        SamePlaces s.workspace s'.workspace ∧
        (∀ names, (∀ r ∈ reached, s.workspace.resolve r.1 ≠ .ok names) →
          s'.workspace.tree.content? names = s.workspace.tree.content? names) ∧
        (result = .ok () ↔ (∀ path ∈ files, ∃ c, s.workspace.read path = .ok c) ∧
          ∀ r ∈ reached, (Source.format r.2).errors = []) ∧
        (result = .ok () → ∀ path ∈ files, ∃ c, s.workspace.read path = .ok c ∧
          (Source.format c).errors = []) ∧
        ((files.map s.workspace.resolve).Nodup → (∀ path ∈ files, ∃ c,
          s.workspace.read path = .ok c ∧ (Source.format c).errors = []) → result = .ok ()) := by
  have hrun : runFormat (m := StateM Session) console paths true = formatPaths console true paths := by
    obtain ⟨path, rest, rfl⟩ := List.exists_cons_of_ne_nil hpaths
    rfl
  have hload : (s.perform (Manifest.loadOrDefault ['.'])).2 = s := perform_loadOrDefault ['.']
  rw [hrun]
  constructor
  · -- without a manifest nothing is done
    intro e he
    have hmanifest : s.perform (Manifest.loadOrDefault ['.']) = (.error e, s) := Prod.ext he hload
    rw [formatPaths, perform_bind_of_error hmanifest]
  · rintro manifest files hmanifest rfl
    obtain ⟨result, s', reached, hperform, hrewrites, hend⟩ :=
      perform_formatPaths console ht (Prod.ext hmanifest hload)
    refine ⟨result, s', reached, hperform, hrewrites, ?_, hrewrites.places,
      fun names => hrewrites.others, ?_⟩
    · rcases hend with ⟨hfiles, -⟩ | hstopped
      · exact .inl hfiles
      · exact .inr hstopped
    rcases hend with ⟨hfiles, rfl⟩ | ⟨path, cause, rest, hfiles, hpath, rfl⟩
    · -- the run has come to the end, so every file has been reached
      rw [← hfiles, List.forall_mem_map, List.forall_mem_map, List.map_map,
        ← refusals_eq_zero_iff]
      refine ⟨?_, ?_, ?_⟩
      · split <;> simp_all [hrewrites.readable]
      · -- a file that is reached twice has no refusals the second time if it had none at first
        intro hok
        have hclean : refusals reached = 0 := by
          by_contra hne
          rw [if_neg hne] at hok
          cases hok
        intro r hr
        obtain ⟨f, hf, hplace, hread⟩ := hrewrites.exists_first r hr
        rw [Workspace.read_of_resolve_eq hplace.symm]
        exact ⟨f.2, hread, refusals_eq_zero_iff.mp hclean f hf⟩
      · -- a file that is reached only once still has its first content then
        intro hnodup hclean
        apply if_pos
        rw [refusals_eq_zero_iff]
        intro r hr
        obtain ⟨c, hread, herrors⟩ := hclean r hr
        rw [hrewrites.read_of_nodup hnodup r hr] at hread
        obtain rfl := Except.ok.inj hread
        exact herrors
    · -- the file at which the run has stopped could not be read before either
      have hunreadable : ¬∃ c, s.workspace.read path = .ok c := by
        rintro hreadable
        obtain ⟨c, hc⟩ := (hrewrites.readable_iff path).mpr hreadable
        rw [hpath] at hc
        cases hc
      have hmem : path ∈ s.filesFor manifest paths := by simp [hfiles]
      refine ⟨⟨nofun, fun h => absurd (h.1 path hmem) hunreadable⟩, nofun, fun _ h => ?_⟩
      obtain ⟨c, hread, -⟩ := h path hmem
      exact absurd ⟨c, hread⟩ hunreadable

/-- A file with one comment, which gets another text. -/
theorem runFormat_inPlace_file :
    ∃ s', perform ⟨⟨.dir [("a.php".toList, .file (Text.encode "<?php /**  b */".toList))], []⟩,
        .empty, [], []⟩ (runFormat ⟨false⟩ ["a.php".toList] true) = (.ok (), s') ∧
      s'.workspace.read "a.php".toList = .ok "<?php /** b */".toList := by
  -- what formatting does to the text of the file
  have hdocs : Source.docComments "<?php /**  b */".toList =
      [⟨"/**  b */".toList, 6, ⟨1, 7⟩, []⟩] := by
    cbv
  have htext : Lexeme.ofText "/**  b */".toList =
      [⟨⟨.openDoc, "/**".toList, ⟨1, 1⟩⟩, []⟩, ⟨⟨.ident, ['b'], ⟨1, 6⟩⟩, "  ".toList⟩,
       ⟨⟨.closeDoc, "*/".toList, ⟨1, 8⟩⟩, [' ']⟩] := by
    cbv
  have hprinted : Source.formatComment [] "/**  b */".toList = .ok "/** b */".toList := by
    rw [Source.formatComment, Comment.parse, htext]
    rfl
  have herrors : (Source.format "<?php /**  b */".toList).errors = [] := by
    refine Source.Locator.errors_format_eq_nil_iff.mpr ?_
    change ∀ c ∈ Source.docComments _, _
    rw [hdocs]
    simpa using ⟨_, hprinted⟩
  have houtput : (Source.format "<?php /**  b */".toList).output = "<?php /** b */".toList := by
    refine (Source.sound_segments _).output_format_eq_splice.trans ?_
    change Source.spliceFrom _ _ 0 (Source.docComments _) = _
    rw [hdocs]
    simp only [Source.spliceFrom, Source.DocComment.spliced, hprinted]
    cbv
  generalize hs : (⟨⟨.dir [("a.php".toList, .file (Text.encode "<?php /**  b */".toList))], []⟩,
    .empty, [], []⟩ : Session) = s
  have hread : s.workspace.read "a.php".toList = .ok "<?php /**  b */".toList := by
    rw [Workspace.read_eq_ok_iff, ← hs]
    exact ⟨["a.php".toList], rfl, rfl⟩
  -- one entry is in order
  have hordered : s.workspace.tree.Ordered := by
    rw [← hs]
    exact .dir (by simp) (by simpa using .file _)
  have hmanifest : (s.perform (Manifest.loadOrDefault ['.'])).1 = .ok .default := by
    rw [← hs]
    rfl
  have hfiles : s.filesFor .default ["a.php".toList] = ["a.php".toList] := by
    rw [← hs]
    rfl
  obtain ⟨result, s', reached, hperform, hrewrites, hend, -, -, -, -, hok⟩ :=
    (runFormat_inPlace ⟨false⟩ (by simp) hordered).2 _ _ hmanifest hfiles
  obtain rfl := hok (by simp) (by simpa using ⟨_, hread, herrors⟩)
  refine ⟨s', hperform, ?_⟩
  rcases hend with hreached | ⟨_, _, _, _, _, hstopped⟩
  · generalize s'.workspace = w' at hrewrites ⊢
    generalize s.workspace = w at hrewrites hread
    cases hrewrites with
    | nil => cases hreached
    | cons first rest =>
      rw [List.map_cons, List.cons.injEq, List.map_eq_nil_iff] at hreached
      obtain ⟨rfl, rfl⟩ := hreached
      cases rest
      obtain rfl := Except.ok.inj (first.reached.symm.trans hread)
      rw [first.written herrors, houtput]
  · cases hstopped

end Session

end Docblock
