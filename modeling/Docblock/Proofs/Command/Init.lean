import Docblock.Proofs.Command.ManifestText
import Docblock.Proofs.Command.Session
import Docblock.Proofs.Command.TopLevel
import Docblock.Proofs.Project.Workspace

/-!
# Making a manifest

The command scans a project, writes a manifest that names the top-level directories of the files it
has found, and tells how many these are.  From then on the project is scanned with the manifest:
from its sources, one after the other, or from `.` if it names none.  `Session.runInit_discoverBy`
says that this finds the same files, if the names of the directories need no escapes between double
quotes, for every reader of YAML that reads what has none; `Session.runInit_discover` is about the
reader of this library.  The condition cannot be left out, as `Session.runInit_discover_quote` shows.

Both scans are compared by the names that lead to the files from the root of the project, as given by
`Project.listedEntries`, because the paths themselves are written in different ways.
-/

namespace Docblock

open Command
open Docblock.Path (Leads IsName)
open Workspace (IsAt)
open Yaml (Verbatim)

namespace Session

variable {s s' : Session} {root : Text} {overwrite : Bool} {console : Console}

/-! ## Section 1: What the command does -/

/-- The manifest with which a project is scanned that gets one. -/
def firstManifest (s : Session) (root : Text) : Manifest :=
  initialManifest (((s.workspace.look? (Path.join root "vendor".toList)).map Tree.shape).any Tree.isDir)

/-- The files of a project that gets a manifest. -/
def firstFiles (s : Session) (root : Text) : List Text :=
  (s.step (Project.scanDirectory (s.firstManifest root) root)).1

/-- The line that tells of a new manifest. -/
def createdLine (console : Console) (files : List Text) : Text :=
  console.status "Created" (Manifest.fileName ++ " (".toList ++
    Text.plural files.length "PHP file".toList "PHP files".toList ++ " found)".toList)

/-- Telling the user something does not change what is found. -/
theorem perform_firstFiles {message : Text} :
    (s.reported message).perform
        (Project.scanDirectory (s.firstManifest root) root : StateM Session (List Text)) =
      (.ok (s.firstFiles root), s.reported message) := by
  -- a scan looks at the files only, and these are the same after a message
  have hlift := perform_lift (s := s.reported message)
    (Project.scanDirectory (s.firstManifest root) root)
  rw [Project.scanDirectory, step_scanFrom] at hlift
  rw [firstFiles, Project.scanDirectory, step_scanFrom]
  exact hlift

/-- If the command succeeds, it has written the manifest and told of it. -/
theorem perform_runInit (h : s.perform (runInit console root overwrite) = (.ok (), s')) :
    s.workspace.write (Path.join root Manifest.fileName)
        (manifestText (sourceDirs root (s.firstFiles root)) (s.firstManifest root)) =
      .ok s'.workspace ∧
    ∃ front, s'.report = front ++ createdLine console (s.firstFiles root) := by
  have hlook (path : Text) : s.perform (Host.look path : StateM Session (Option (Tree Unit))) =
      (.ok ((s.workspace.look? path).map Tree.shape), s) := rfl
  rw [runInit, perform_bind_of_ok (hlook _)] at h
  split at h
  · -- a manifest that is there already is not overwritten unasked
    rw [perform_bind_of_error (perform_throw _)] at h
    cases h
  · dsimp only at h
    rw [perform_bind_of_ok (hlook _), perform_bind_of_ok perform_showPath,
      perform_bind_of_ok (perform_tell _), ← firstManifest, perform_bind_of_ok perform_firstFiles] at h
    -- the manifest is there once it could be written; the rest is telling the user
    cases hwrite : s.workspace.write (Path.join root Manifest.fileName)
        (manifestText (sourceDirs root (s.firstFiles root)) (s.firstManifest root)) with
    | error cause =>
      rw [perform_bind_of_error (perform_writeFile_of_error (s := s.reported _) hwrite _)] at h
      cases h
    | ok w =>
      rw [perform_bind_of_ok (perform_writeFile_of_ok (s := s.reported _) hwrite _)] at h
      split at h
      · rw [perform_bind_of_ok (perform_tell _), perform_tell] at h
        obtain rfl := congrArg Prod.snd h
        exact ⟨rfl, _, rfl⟩
      · rw [perform_tell] at h
        obtain rfl := congrArg Prod.snd h
        exact ⟨rfl, _, rfl⟩

theorem isName_fileName : IsName Manifest.fileName := by
  decide

/-- The directory of a project before and after a manifest has been written into it. -/
theorem exists_isAt_runInit (hroot : root ≠ []) (ht : s.workspace.tree.Ordered)
    (h : s.perform (runInit console root overwrite) = (.ok (), s')) :
    ∃ place entries, IsAt s.workspace root place entries ∧
      IsAt s'.workspace root place (Tree.upsert Manifest.fileName (fun _ => .file (Text.encode
        (manifestText (sourceDirs root (s.firstFiles root)) (s.firstManifest root)))) entries) ∧
      s'.workspace.read (Path.join root Manifest.fileName) =
        .ok (manifestText (sourceDirs root (s.firstFiles root)) (s.firstManifest root)) ∧
      ∀ below, (Manifest.fileName, .dir below) ∉ entries := by
  obtain ⟨hwrite, -⟩ := perform_runInit h
  obtain ⟨names, hresolve, -, -⟩ := Workspace.hasRoom_of_write hwrite
  obtain ⟨place, entries, hat, -⟩ := IsAt.of_resolve_join hroot isName_fileName hresolve
  exact ⟨place, entries, hat, hat.of_write ht isName_fileName hwrite⟩

/-! ## Section 2: The manifest is read back -/

section Reading

variable (read : Yaml.Reader) {path text : Text}

/-- What comes of loading the manifest at a path. -/
theorem perform_loadBy (hread : s.workspace.read path = .ok text) :
    s.perform (Manifest.loadBy read path) =
      ((Manifest.readBy read text).elim (.error .badManifest) .ok, s) := by
  rw [Manifest.loadBy, perform_bind_of_ok (perform_read s path), hread]
  cases hmanifest : Manifest.readBy read text with
  | none => simp only [hmanifest, perform_throw, Option.elim_none]
  | some m => simp only [hmanifest, perform_pure, Option.elim_some]

variable (hread : s.workspace.read (Path.join root Manifest.fileName) = .ok text)
include hread

/-- A manifest that is there is loaded. -/
theorem perform_findBy? :
    s.perform (Manifest.findBy? read root) =
      ((Manifest.readBy read text).elim (.error .badManifest) fun m => .ok (some m), s) := by
  obtain ⟨names, hresolve, hcontent⟩ := Workspace.read_eq_ok_iff.mp hread
  -- what can be read is a file, so the command sees one there
  have hlook : s.perform (Host.look (Path.join root Manifest.fileName) :
      StateM Session (Option (Tree Unit))) = (.ok (some (.file ())), s) := by
    have hlift := perform_lift (s := s) (Host.look (Path.join root Manifest.fileName))
    rw [step_look, Workspace.look?, hresolve] at hlift
    simp only [Tree.content?_eq_some_iff.mp hcontent] at hlift
    exact hlift
  have hload := perform_loadBy read hread
  rw [Manifest.findBy?, perform_bind_of_ok hlook]
  cases hmanifest : Manifest.readBy read text with
  | none =>
    rw [hmanifest] at hload
    exact perform_bind_of_error hload _
  | some m =>
    rw [hmanifest] at hload
    exact perform_bind_of_ok hload _

/-- A project with a manifest is scanned from its sources. -/
theorem perform_discoverBy {m : Manifest} (hmanifest : Manifest.readBy read text = some m) :
    s.perform (Project.discoverBy read root) =
      (.ok ⟨true, m.effectiveSources.flatMap fun source =>
        (s.step (Project.scanFrom m root (Path.join root source))).1⟩, s) := by
  have hfind := perform_findBy? read hread
  rw [hmanifest] at hfind
  -- the sources are scanned one after the other, and no scan changes a file
  have hscan := perform_lift (s := s) (Project.scanSources m root m.effectiveSources)
  rw [step_scanSources] at hscan
  rw [Project.discoverBy, perform_bind_of_ok hfind]
  exact (perform_bind_of_ok hscan _).trans rfl

/-- A project with a manifest that cannot be read is not scanned at all. -/
theorem perform_discoverBy_of_none (hmanifest : Manifest.readBy read text = none) :
    s.perform (Project.discoverBy read root) = (.error .badManifest, s) := by
  have hfind := perform_findBy? read hread
  rw [hmanifest] at hfind
  exact perform_bind_of_error hfind _

end Reading

/-! ## Section 3: The same files are found -/

theorem step_scanFrom_of_look {m : Manifest} {base dir : Text} {t : Tree ByteArray}
    (h : s.workspace.look? dir = some t) :
    (s.step (Project.scanFrom m base dir)).1 = Project.walk (.ofManifest m base) dir t := by
  rw [step_scanFrom, h]
  exact Project.walk_shape _ dir t

/-- However the path to the root of a project is written, a scan finds the same files. -/
theorem scanFrom_leads {m : Manifest} {dir : Text} {entries : List (Text × Tree ByteArray)}
    (hroot : root ≠ []) (hdir : Leads root dir []) (hlook : s.workspace.look? dir = some (.dir entries))
    (hnamed : (Tree.dir entries).Named) (hexcluded : m.isExcluded [] = false) :
    List.Forall₂ (Leads root) (s.step (Project.scanFrom m root dir)).1
      (Project.listedEntries m [] entries) := by
  have henter := Project.enter_of_leads (m := m) hroot hdir
  rw [step_scanFrom_of_look hlook, Project.walk, henter]
  -- the root itself is not excluded, so its entries are walked
  cases hnamed with
  | dir isName below =>
    simpa [Path.unsplit, hexcluded] using Project.walkEntries_leads hroot hdir entries isName below

theorem firstManifest_spec (s : Session) (root : Text) :
    (s.firstManifest root).extensions = ["php".toList] ∧
      (∀ p ∈ (s.firstManifest root).excludes, Verbatim p) ∧
      (s.firstManifest root).isExcluded [] = false ∧
      (s.firstManifest root).hasExtension Manifest.fileName = false := by
  rw [firstManifest]
  cases Option.any Tree.isDir _
  · exact ⟨rfl, by decide, rfl, rfl⟩
  · exact ⟨rfl, by decide, rfl, rfl⟩

/-- The places of the found files, scanned one after the other, have these files. -/
theorem scanFrom_place {m : Manifest} {place found : List Text}
    {entries : List (Text × Tree ByteArray)} (hat : IsAt s.workspace root place entries)
    (hordered : (Tree.dir entries).Ordered) (hnamed : (Tree.dir entries).Named)
    (hplaces : ∀ found ∈ Project.listedEntries m [] entries, placeOf found ≠ ['.'])
    (hfound : found ∈ Project.listedEntries m [] entries) :
    List.Forall₂ (Leads root)
      (s.step (Project.scanFrom m root (Path.join root (placeOf found)))).1
      ((Project.listedEntries m [] entries).filter (placeOf · = placeOf found)) := by
  obtain ⟨sorted, -⟩ := hordered.of_dir
  obtain ⟨isName, below⟩ := hnamed.of_dir
  have hplace := hplaces found hfound
  rw [Project.listedEntries_eq_flatMap] at hfound
  obtain ⟨⟨name, t⟩, hmem, hfound⟩ := List.mem_flatMap.mp hfound
  rw [Project.listedEntry, List.nil_append] at hfound
  rw [placeOf_of_first (Project.prefix_of_mem_listed t hfound) hplace,
    filter_placeOf sorted hplaces hmem]
  cases t with
  | file content =>
    -- a file among the entries would stand in the root
    rw [Project.listed] at hfound
    split at hfound
    · rw [List.mem_singleton.mp hfound] at hplace
      exact absurd rfl hplace
    · cases hfound
  | dir inside =>
    have hname : IsName name := isName _ hmem
    have hlook := hat.look?_slash hname (Tree.lookup_of_mem sorted hmem)
    rw [step_scanFrom_of_look hlook]
    exact Project.walk_leads hat.ne_nil (Leads.join_slash hat.ne_nil hname) (by simp) _
      (below _ hmem)

/-- The directory of the project after its manifest has been written has the same files. -/
theorem upsert_manifest {m : Manifest} {entries : List (Text × Tree ByteArray)} (bytes : ByteArray)
    (hordered : (Tree.dir entries).Ordered) (hnamed : (Tree.dir entries).Named)
    (hmanifest : m.hasExtension Manifest.fileName = false)
    (hnodir : ∀ below, (Manifest.fileName, .dir below) ∉ entries) :
    (Tree.dir (Tree.upsert Manifest.fileName (fun _ => .file bytes) entries)).Ordered ∧
      (Tree.dir (Tree.upsert Manifest.fileName (fun _ => .file bytes) entries)).Named ∧
      Project.listedEntries m [] (Tree.upsert Manifest.fileName (fun _ => .file bytes) entries) =
        Project.listedEntries m [] entries := by
  obtain ⟨sorted, ordered⟩ := hordered.of_dir
  obtain ⟨isName, below⟩ := hnamed.of_dir
  -- the manifest has no extension of a PHP file, so it is not listed itself
  have hfile (content : ByteArray) :
      Project.listed m ([] ++ [Manifest.fileName]) (.file content) = [] := by
    have hpath : Path.unsplit ([] ++ [Manifest.fileName]) = Manifest.fileName := rfl
    rw [Project.listed, hpath, hmanifest, Bool.and_false]
    rfl
  refine ⟨.dir (Tree.sorted_upsert sorted) ?_, .dir ?_ ?_, ?_⟩
  · exact Tree.forall_mem_upsert ordered fun _ => .file bytes
  · exact Tree.forall_mem_upsert isName fun _ => isName_fileName
  · exact Tree.forall_mem_upsert below fun _ => .file bytes
  · -- what stood there before can only have been a file, and it was not listed either
    refine Project.listedEntries_upsert (fun _ => hfile bytes) fun t ht => ?_
    cases t with
    | file content => exact hfile content
    | dir inside => exact absurd ht (hnodir inside)

/-- The sources of a new manifest, whether they are scanned one by one or all at once, have its files. -/
theorem scanSources_leads {m : Manifest} {place files : List Text}
    {entries : List (Text × Tree ByteArray)} (hat : IsAt s.workspace root place entries)
    (hordered : (Tree.dir entries).Ordered) (hnamed : (Tree.dir entries).Named)
    (hexcluded : m.isExcluded [] = false)
    (hfiles : List.Forall₂ (Leads root) files (Project.listedEntries m [] entries)) :
    ∃ found, found.Perm (Project.listedEntries m [] entries) ∧
      List.Forall₂ (Leads root)
        (({ m with sources := namedSources (sourceDirs root files) } : Manifest).effectiveSources.flatMap
          fun source => (s.step (Project.scanFrom m root (Path.join root source))).1) found := by
  by_cases hempty : namedSources (sourceDirs root files) = []
  · -- nothing is named, so the whole project is scanned
    rw [Manifest.effectiveSources, hempty, List.isEmpty_nil, if_pos rfl, List.flatMap_singleton]
    exact ⟨_, .refl _, scanFrom_leads hat.ne_nil (.join_dot hat.ne_nil) hat.look?_dot hnamed hexcluded⟩
  · obtain ⟨-, hroot⟩ := not_or.mp (mt namedSources_eq_nil_iff.mpr hempty)
    -- no file stands in the root, so the sources are the top-level directories
    have hself := namedSources_eq_self hroot
    have hplaces : ∀ found ∈ Project.listedEntries m [] entries, placeOf found ≠ ['.'] := by
      intro found hfound hplace
      exact hroot ((mem_sourceDirs_of_leads hat.ne_nil hfiles).mpr ⟨found, hfound, hplace⟩)
    rw [hself] at hempty ⊢
    rw [Manifest.effectiveSources, if_neg (by simpa using hempty)]
    -- grouped by directory, in the order of the sources, these are the same files
    refine ⟨(sourceDirs root files).flatMap fun d =>
      (Project.listedEntries m [] entries).filter (placeOf · = d), ?_, ?_⟩
    · exact perm_flatMap_filter placeOf (nodup_sourceDirs root files) fun found hfound =>
        (mem_sourceDirs_of_leads hat.ne_nil hfiles).mpr ⟨found, hfound, rfl⟩
    · refine forall₂_flatMap fun d hd => ?_
      obtain ⟨found, hfound, rfl⟩ := (mem_sourceDirs_of_leads hat.ne_nil hfiles).mp hd
      exact scanFrom_place hat hordered hnamed hplaces hfound

/-- Making a manifest for the project at `root`.  If the directories that the new manifest names need
no escapes, it can be loaded.  It names no sources if nothing was found or a file stands right in the
root, and otherwise the top-level directories of the found files, each once.  With it, the same files
are found that were found without it, and as many as were told: paths with the same components are
the same path.  Of what reads the manifest, nothing is asked but that it reads sections. -/
theorem runInit_discoverBy {read : Yaml.Reader} (hreads : Yaml.ReadsSections read)
    (hroot : root ≠ []) (ht : s.workspace.tree.Ordered)
    (hnamed : s.workspace.tree.Named)
    (h : s.perform (runInit console root overwrite) = (.ok (), s'))
    (hverbatim : ∀ d ∈ namedSources (sourceDirs root (s.firstFiles root)), Verbatim d) :
    ∃ manifest found,
      s'.perform (Manifest.loadBy read (Path.join root Manifest.fileName)) = (.ok manifest, s') ∧
      (manifest.sources = [] ↔ s.firstFiles root = [] ∨
        ∃ f ∈ s.firstFiles root, ∃ name, Path.components f = Path.components root ++ [name]) ∧
      (manifest.sources ≠ [] → manifest.sources.Nodup ∧
        ∀ d, d ∈ manifest.sources ↔ IsTopLevel root (s.firstFiles root) d) ∧
      s'.perform (Project.discoverBy read root) = (.ok ⟨true, found⟩, s') ∧
      (found.map Path.components).Perm ((s.firstFiles root).map Path.components) ∧
      ∃ front, s'.report = front ++ createdLine console (s.firstFiles root) := by
  obtain ⟨-, hreport⟩ := perform_runInit h
  obtain ⟨place, entries, hat, hat', hread, hnodir⟩ := exists_isAt_runInit hroot ht h
  obtain ⟨hextension, hexcludes, hexcluded, hmanifest⟩ := s.firstManifest_spec root
  generalize hm : s.firstManifest root = m at hat' hread hextension hexcludes hexcluded hmanifest
  have hordered := ht.of_get? hat.get?
  have hentries := hnamed.of_get? hat.get?
  obtain ⟨hordered', hentries', hlisted⟩ := upsert_manifest
    (manifestText (sourceDirs root (s.firstFiles root)) m).encode hordered hentries hmanifest hnodir
  have hfiles : List.Forall₂ (Leads root) (s.firstFiles root) (Project.listedEntries m [] entries) := by
    rw [firstFiles, hm]
    exact scanFrom_leads hroot (.refl hroot) hat.look?_self hentries hexcluded
  have hmanifestText :=
    readBy_manifestText hreads hextension (by decide) hexcludes hverbatim
  rw [← hlisted] at hfiles
  obtain ⟨found, hperm, hfound⟩ := scanSources_leads hat' hordered' hentries' hexcluded hfiles
  have hload := perform_loadBy read hread
  rw [hmanifestText] at hload
  have hdiscover : s'.perform (Project.discoverBy read root) = (.ok ⟨true,
      ({ m with sources := namedSources (sourceDirs root (s.firstFiles root)) } :
        Manifest).effectiveSources.flatMap
          fun source => (s'.step (Project.scanFrom m root (Path.join root source))).1⟩, s') :=
    perform_discoverBy read hread hmanifestText
  have hne : ∀ found ∈ Project.listedEntries m [] entries, found ≠ [] := by
    rintro found hfound rfl
    obtain ⟨name, t, -, hprefix⟩ := Project.prefix_of_mem_listedEntries entries hfound
    simpa using hprefix.length_le
  rw [hlisted] at hfiles hperm
  -- `hfound` and `hfiles` list the names of both scans, and they are the same up to their order
  refine ⟨_, _, hload, ?_, fun hsources => ?_, hdiscover, ?_, hreport⟩
  · rw [namedSources_eq_nil_iff, sourceDirs_eq_nil_iff, root_mem_sourceDirs_iff hroot hfiles hne]
  · obtain ⟨-, hplaces⟩ := not_or.mp (mt namedSources_eq_nil_iff.mpr hsources)
    rw [namedSources_eq_self hplaces]
    refine ⟨nodup_sourceDirs _ _, fun d => mem_sourceDirs_iff_isTopLevel hroot hfiles ?_⟩
    intro found hfound hplace
    exact hplaces ((mem_sourceDirs_of_leads hroot hfiles).mpr ⟨found, hfound, hplace⟩)
  · rw [map_components hroot hfound, map_components hroot hfiles]
    exact hperm.map _

/-- Making a manifest for the project at `root`.  If the directories that the new manifest names need
no escapes, it can be loaded.  It names no sources if nothing was found or a file stands right in the
root, and otherwise the top-level directories of the found files, each once.  With it, the same files
are found that were found without it, and as many as were told: paths with the same components are
the same path. -/
theorem runInit_discover (hroot : root ≠ []) (ht : s.workspace.tree.Ordered)
    (hnamed : s.workspace.tree.Named)
    (h : s.perform (runInit console root overwrite) = (.ok (), s'))
    (hverbatim : ∀ d ∈ namedSources (sourceDirs root (s.firstFiles root)), Verbatim d) :
    ∃ manifest found,
      s'.perform (Manifest.load (Path.join root Manifest.fileName)) = (.ok manifest, s') ∧
      (manifest.sources = [] ↔ s.firstFiles root = [] ∨
        ∃ f ∈ s.firstFiles root, ∃ name, Path.components f = Path.components root ++ [name]) ∧
      (manifest.sources ≠ [] → manifest.sources.Nodup ∧
        ∀ d, d ∈ manifest.sources ↔ IsTopLevel root (s.firstFiles root) d) ∧
      s'.perform (Project.discover root) = (.ok ⟨true, found⟩, s') ∧
      (found.map Path.components).Perm ((s.firstFiles root).map Path.components) ∧
      ∃ front, s'.report = front ++ createdLine console (s.firstFiles root) :=
  runInit_discoverBy Yaml.readsSections_parse? hroot ht hnamed h hverbatim

/-- A project with one source, whose dependencies are left out. -/
theorem runInit_discover_vendor :
    ∃ s' found, perform ⟨⟨.dir [("src".toList, .dir [("a.php".toList, .file .empty)]),
        ("vendor".toList, .dir [("b.php".toList, .file .empty)])], []⟩, .empty, [], []⟩
        (runInit ⟨false⟩ ['.'] false) = (.ok (), s') ∧
      s'.perform (Project.discover ['.']) = (.ok ⟨true, found⟩, s') ∧
      found.map Path.components = [[['.'], "src".toList, "a.php".toList]] := by
  generalize hs : (⟨⟨.dir [("src".toList, .dir [("a.php".toList, .file .empty)]),
    ("vendor".toList, .dir [("b.php".toList, .file .empty)])], []⟩, .empty, [], []⟩ : Session) = s
  have hordered : s.workspace.tree.Ordered := by
    rw [← hs]
    exact .dir (by decide) (by simpa using ⟨.dir (by simp) (by simpa using .file _),
      .dir (by simp) (by simpa using .file _)⟩)
  have hnamed : s.workspace.tree.Named := by
    rw [← hs]
    exact .dir (by decide) (by simpa using ⟨.dir (by decide) (by simpa using .file _),
      .dir (by decide) (by simpa using .file _)⟩)
  have hfiles : s.firstFiles ['.'] = ["./src/a.php".toList] := by
    rw [← hs]
    rfl
  have hverbatim : ∀ d ∈ namedSources (sourceDirs ['.'] (s.firstFiles ['.'])), Verbatim d := by
    rw [hfiles]
    decide
  have hinit : (s.perform (runInit ⟨false⟩ ['.'] false)).1 = .ok () := by
    rw [← hs]
    rfl
  obtain ⟨manifest, found, -, -, -, hdiscover, hperm, -⟩ :=
    runInit_discover (by simp) hordered hnamed (Prod.ext hinit rfl) hverbatim
  rw [hfiles] at hperm
  exact ⟨_, found, Prod.ext hinit rfl, hdiscover, List.perm_singleton.mp hperm⟩

/-- The name of a directory may have a quote, and a new manifest with such a name is none. -/
theorem runInit_discover_quote :
    ∃ s', perform ⟨⟨.dir [("a\"b".toList, .dir [("x.php".toList, .file .empty)])], []⟩, .empty, [], []⟩
        (runInit ⟨false⟩ ['.'] false) = (.ok (), s') ∧
      (s'.perform (Manifest.load "./phpdocfmt.yaml".toList)).1 = .error .badManifest ∧
      (s'.perform (Project.discover ['.'])).1 = .error .badManifest := by
  generalize hs : (⟨⟨.dir [("a\"b".toList, .dir [("x.php".toList, .file .empty)])], []⟩,
    .empty, [], []⟩ : Session) = s
  have hordered : s.workspace.tree.Ordered := by
    rw [← hs]
    exact .dir (by simp) (by simpa using .dir (by simp) (by simpa using .file _))
  have hinit : (s.perform (runInit ⟨false⟩ ['.'] false)).1 = .ok () := by
    rw [← hs]
    rfl
  obtain ⟨-, -, -, -, hread, -⟩ := exists_isAt_runInit (by simp) hordered (Prod.ext hinit rfl)
  have htext : manifestText (sourceDirs ['.'] (s.firstFiles ['.'])) (s.firstManifest ['.']) =
      "sources:\n  - \"a\"b/\"\nextensions:\n  - php\n".toList := by
    rw [← hs]
    rfl
  have hparse : Manifest.parse? "sources:\n  - \"a\"b/\"\nextensions:\n  - php\n".toList = none := by
    cbv
  rw [htext] at hread
  have hload := perform_loadBy Yaml.parse? hread
  rw [← Manifest.parse?, hparse] at hload
  exact ⟨_, Prod.ext hinit rfl, congrArg Prod.fst hload,
    congrArg Prod.fst (perform_discoverBy_of_none Yaml.parse? hread hparse)⟩

end Session

end Docblock
