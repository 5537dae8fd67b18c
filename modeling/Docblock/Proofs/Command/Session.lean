import Docblock.Command.Run

/-!
# Carrying out actions in a session

`Session.perform` runs an action on a state.  The lemmas below say what the steps do that the
commands share, so that what a command does is known from the order of its steps.
-/

namespace Docblock

open Command

namespace Session

variable {α β : Type} {s s' : Session} {path text : Text}

/-- What comes of an action, and the session after it. -/
def perform (s : Session) (act : Action (StateM Session) α) : Except Failure α × Session :=
  act.run s

/-- What comes of a step that cannot fail, and the session after it. -/
def step (s : Session) (act : StateM Session α) : α × Session :=
  act s

/-! ## Section 1: Sequences -/

@[simp] theorem perform_pure (a : α) : s.perform (pure a) = (.ok a, s) := rfl

@[simp] theorem perform_throw (e : Failure) :
    s.perform (throw e : Action (StateM Session) α) = (.error e, s) := rfl

@[simp] theorem perform_lift (act : StateM Session α) :
    s.perform (ExceptT.lift act) = (.ok (s.step act).1, (s.step act).2) := rfl

/-- A sequence goes on with the session its first action leaves, unless that one fails. -/
theorem perform_bind (act : Action (StateM Session) α) (next : α → Action (StateM Session) β) :
    s.perform (act >>= next) = match s.perform act with
      | (.ok a, s') => s'.perform (next a)
      | (.error e, s') => (.error e, s') := by
  have hbind : s.perform (act >>= next) =
      (ExceptT.bindCont next (s.perform act).1) (s.perform act).2 := rfl
  rw [hbind]
  rcases s.perform act with ⟨_ | _, _⟩ <;> rfl

theorem perform_bind_of_ok {act : Action (StateM Session) α} {a : α}
    (h : s.perform act = (.ok a, s')) (next : α → Action (StateM Session) β) :
    s.perform (act >>= next) = s'.perform (next a) := by
  rw [perform_bind, h]

theorem perform_bind_of_error {act : Action (StateM Session) α} {e : Failure}
    (h : s.perform act = (.error e, s')) (next : α → Action (StateM Session) β) :
    s.perform (act >>= next) = (.error e, s') := by
  rw [perform_bind, h]

/-! ## Section 2: Shared steps -/

/-- The session after something has been reported. -/
def reported (s : Session) (message : Text) : Session :=
  { s with report := s.report ++ message }

@[simp] theorem workspace_reported (message : Text) : (s.reported message).workspace = s.workspace :=
  rfl

@[simp] theorem perform_tell (message : Text) :
    s.perform (tell message) = (.ok (), s.reported message) := rfl

@[simp] theorem perform_showPath :
    s.perform (showPath path) = (.ok (Console.showPath s.workspace.locationPath path), s) := rfl

theorem perform_read (s : Session) (path : Text) :
    s.perform (Host.read path : StateM Session (Except Cause Text)) =
      (.ok (s.workspace.read path), s) := rfl

theorem perform_readSource_of_ok (h : s.workspace.read path = .ok text) :
    s.perform (readSource path) = (.ok text, s) := by
  rw [readSource, perform_bind_of_ok (perform_read s path), h]
  rfl

theorem perform_readSource_of_error {cause : Cause} (h : s.workspace.read path = .error cause) :
    s.perform (readSource path) = (.error (.file path .readSource cause), s) := by
  rw [readSource, perform_bind_of_ok (perform_read s path), h]
  rfl

/-- Writing a file changes the files if it succeeds and nothing if it does not. -/
theorem step_write (s : Session) (path text : Text) :
    s.step (Host.write path text) = match s.workspace.write path text with
      | .ok w => (.ok (), { s with workspace := w })
      | .error cause => (.error cause, s) := by
  have hwrite : s.step (Host.write path text) = s.step (match s.workspace.write path text with
      | .ok w => (do set { s with workspace := w }; return .ok ())
      | .error cause => return .error cause) := rfl
  rw [hwrite]
  cases s.workspace.write path text <;> rfl

/-- The same, as one step of a sequence. -/
theorem perform_write (s : Session) (path text : Text) :
    s.perform (Host.write path text : StateM Session (Except Cause Unit)) =
      (.ok (s.step (Host.write path text)).1, (s.step (Host.write path text)).2) := rfl

/-- A file that can be written is written. -/
theorem perform_writeFile_of_ok {w : Workspace} (h : s.workspace.write path text = .ok w)
    (task : FileTask) :
    s.perform (writeFile task path text) = (.ok (), { s with workspace := w }) := by
  have hwrite := perform_write s path text
  rw [step_write, h] at hwrite
  rw [writeFile, perform_bind_of_ok hwrite]
  rfl

/-- A file that cannot be written is a failure, and nothing has changed. -/
theorem perform_writeFile_of_error {cause : Cause} (h : s.workspace.write path text = .error cause)
    (task : FileTask) :
    s.perform (writeFile task path text) = (.error (.file path task cause), s) := by
  have hwrite := perform_write s path text
  rw [step_write, h] at hwrite
  rw [writeFile, perform_bind_of_ok hwrite]
  rfl

theorem perform_reportAll (console : Console) (shown : Text) (ds : List Diagnostic) :
    ∃ s', s.perform (reportAll console shown ds) = (.ok (), s') ∧ s'.workspace = s.workspace := by
  -- one line at a time, none of which touches a file
  induction ds generalizing s with
  | nil => exact ⟨s, rfl, rfl⟩
  | cons d ds ih =>
    obtain ⟨s', hs', hworkspace⟩ := ih (s := s.reported (console.diagnostic shown d))
    exact ⟨s', (perform_bind_of_ok (perform_tell _) _).trans hs', hworkspace⟩

/-! ## Section 3: Finding files -/

theorem step_bind (act : StateM Session α) (next : α → StateM Session β) :
    s.step (act >>= next) = (s.step act).2.step (next (s.step act).1) := rfl

@[simp] theorem step_pure (a : α) : s.step (pure a) = (a, s) := rfl

@[simp] theorem step_look :
    s.step (Host.look path) = ((s.workspace.look? path).map Tree.shape, s) := rfl

theorem step_scanFrom (manifest : Manifest) (base dir : Text) :
    s.step (Project.scanFrom manifest base dir) = (match s.workspace.look? dir with
      | none => []
      | some tree => Project.walk (.ofManifest manifest base) dir tree.shape, s) := by
  rw [Project.scanFrom, step_bind, step_look]
  cases s.workspace.look? dir <;> rfl

/-- So does scanning several sources, each from its own directory. -/
theorem step_scanSources (manifest : Manifest) (base : Text) (sources : List Text) :
    s.step (Project.scanSources manifest base sources) =
      (sources.flatMap fun source =>
        (s.step (Project.scanFrom manifest base (Path.join base source))).1, s) := by
  -- one source at a time; a scan leaves the session as it was for the next
  induction sources with
  | nil => rfl
  | cons source sources ih =>
    rw [Project.scanSources, step_bind, step_scanFrom, step_bind, ih]
    simp only [List.flatMap_cons, step_scanFrom, step_pure]

/-- Looking for files changes nothing. -/
theorem step_expandPaths (manifest : Manifest) (paths : List Text) :
    (s.step (Project.expandPaths manifest paths)).2 = s := by
  induction paths with
  | nil => rfl
  | cons path paths ih =>
    rw [Project.expandPaths, step_bind, step_look]
    have hrest (files : List Text) : (s.step (do
        let others ← Project.expandPaths manifest paths
        return files ++ others)).2 = s := by
      rw [step_bind, ih]
      rfl
    -- nothing, a file or a directory stands there, and none of the three is changed
    cases (s.workspace.look? path).map Tree.shape with
    | none => exact hrest _
    | some tree =>
      cases tree with
      | file _ => exact hrest _
      | dir entries =>
        simp only [Project.scanDirectory, step_bind, step_scanFrom]
        exact hrest _

/-- A sequence leaves the session alone if its actions do. -/
theorem perform_bind_snd {act : Action (StateM Session) α} {next : α → Action (StateM Session) β}
    (hact : (s.perform act).2 = s) (hnext : ∀ a, (s.perform (next a)).2 = s) :
    (s.perform (act >>= next)).2 = s := by
  rw [perform_bind]
  -- the second action is carried out only if the first has succeeded
  split
  · next a s' h =>
    rw [h] at hact
    rw [show s' = s from hact]
    exact hnext a
  · next e s' h =>
    rw [h] at hact
    exact hact

/-- Loading a manifest changes nothing. -/
theorem perform_loadOrDefault (root : Text) :
    (s.perform (Manifest.loadOrDefault root)).2 = s := by
  -- reading a manifest, in front of looking for it upwards
  have hload (path : Text) : (s.perform (Manifest.loadBy Yaml.parse? path)).2 = s := by
    refine perform_bind_snd rfl fun found => ?_
    split
    · rfl
    · split <;> rfl
  have hfind : (s.perform (Manifest.findBy? Yaml.parse? root)).2 = s := by
    refine perform_bind_snd rfl fun found => ?_
    split
    · rfl
    · exact perform_bind_snd (hload _) fun _ => rfl
  exact perform_bind_snd hfind fun _ => rfl

end Session

end Docblock
