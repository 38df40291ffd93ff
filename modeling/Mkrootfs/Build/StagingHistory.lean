import Mkrootfs.Build.RecordedLists
import Mkrootfs.Build.StagingRun

/-
  The recorded list over a history of staging runs: which
  files earlier installations have left behind, and when the
  list is the one of the last installation alone.

  Main declarations:
    * `PackageDir.next`
    * `wrote`, `leftBehind`
    * `mem_leftBehind_iff`
    * `StagingHistory`, `StagingHistory.RecordsOwnInstall`
    * `StagingHistory.recordsOwnInstall_iff`
-/

------------------------------------------------------------
-- One Run After The Other
------------------------------------------------------------

namespace Mkrootfs

open BuildScript (command block each)

/- The paths that a command may turn into a directory. -/
def BuildAct.Makes (path : Path) : BuildAct → Prop
| .mkdir other => other = path
| .putDir other => other = path
| .copyRootfs _ other .dir => rootfsName :: other = path
| _ => False

theorem BuildAct.touches_of_makes
    {act : BuildAct}
    {path : Path}
    (hMakes : act.Makes path) :
    act.Touches path := by
  cases act with
  | mkdir other => exact hMakes
  | putDir other => exact hMakes
  | copyRootfs p other node =>
      cases node with
      | dir => exact hMakes
      | file text => cases hMakes
  | write other text => cases hMakes
  | rm other => cases hMakes
  | rmListed other => cases hMakes
  | rmdir other => cases hMakes
  | mv source target => cases hMakes

/- Other commands make no directory there. -/
theorem isDir_apply_of_not_makes
    {act : BuildAct}
    {path : Path}
    (hMakes : ¬ act.Makes path)
    {dir : BuildDir}
    (hDir : dir.isDir path = false) :
    (BuildAct.apply dir act).isDir path = false := by
  cases act with
  | write other text =>
      rw [← hDir]
      exact FileTree.isDir_write dir other path text
  | mkdir other =>
      rw [← hDir]
      exact FileTree.isDir_mkdir_of_ne dir
        (fun h => hMakes h.symm)
  | putDir other =>
      rw [← hDir]
      exact (FileTree.isDir_putDir dir other path).trans
        (if_neg (fun h => hMakes h.symm))
  | rm other =>
      rw [← hDir]
      exact FileTree.isDir_remove dir other path
  | rmListed other =>
      rw [← hDir]
      exact FileTree.isDir_remove dir other path
  | rmdir other =>
      by_contra hNot
      rw [Bool.not_eq_false] at hNot
      rw [FileTree.isDir_of_isDir_removeDir hNot] at hDir
      cases hDir
  | mv source target =>
      by_contra hNot
      rw [Bool.not_eq_false] at hNot
      rw [FileTree.isDir_of_isDir_move hNot] at hDir
      cases hDir
  | copyRootfs p other node =>
      cases node with
      | dir =>
          rw [← hDir]
          exact (FileTree.isDir_putDir dir
            (rootfsName :: other) path).trans
              (if_neg (fun h => hMakes h.symm))
      | file text =>
          rw [← hDir]
          exact FileTree.isDir_write dir
            (rootfsName :: other) path text

theorem only_buildBlock
    {allowed : BuildAct → Prop}
    {scripts : List BuildScript}
    (hScripts : ∀ script ∈ scripts,
      Script.Only allowed script) :
    Script.Only allowed (block scripts) :=
  Script.only_block hScripts

/- The recipe makes no directory in place of a list. -/
theorem only_stagingRecipe
    (p : Package)
    (choice : StagingChoice)
    {path : Path}
    (hTrees : OutsideTrees path)
    (hInst : OutsideInst p path) :
    Script.Only (fun act => ¬ act.Makes path)
      (stagingRecipe p choice) := by
  have hOutside : ∀ {script : BuildScript},
      Leaves OutsideTrees script →
      Script.Only (fun act => ¬ act.Makes path) script :=
    fun hLeaves state act hMem hMakes =>
      hLeaves state act hMem path hTrees
        (BuildAct.touches_of_makes hMakes)
  have hInside : ∀ {script : BuildScript},
      Leaves (OutsideInst p) script →
      Script.Only (fun act => ¬ act.Makes path) script :=
    fun hLeaves state act hMem hMakes =>
      hLeaves state act hMem path hInst
        (BuildAct.touches_of_makes hMakes)
  have hRemove : ∀ (filelists dirlists : List Path),
      Script.Only (fun act => ¬ act.Makes path)
        (removeFromTrees [] filelists dirlists) := by
    intro filelists dirlists
    apply only_buildBlock
    intro script hMem
    simp only [List.mem_cons, List.not_mem_nil, or_false]
      at hMem
    rcases hMem with rfl | rfl | rfl | rfl
    · exact Script.only_each (fun _ =>
        Script.only_act (fun _ h => h))
    · exact Script.only_each (fun _ =>
        Script.only_act (fun _ h => h))
    · exact Script.only_each (fun _ =>
        Script.only_act (fun _ h => h))
    · exact Script.only_each (fun _ =>
        Script.only_act (fun _ h => h))
  unfold stagingRecipe
  apply only_buildBlock
  intro script hMem
  simp only [List.mem_cons, List.not_mem_nil, or_false]
    at hMem
  rcases hMem with rfl | rfl | rfl | rfl | rfl | rfl | rfl |
    rfl | rfl | rfl | rfl
  · apply Script.only_act
    intro _ h
    have hRoot := hInst []
    rw [List.append_nil] at hRoot
    exact hRoot h
  · exact hInside (leaves_installPackage p choice)
  · exact Script.only_act (fun _ h => h)
  · exact Script.only_act (fun _ h => h)
  · exact hOutside (leaves_dropFiles p)
  · exact hOutside (leaves_dropDirs p)
  · exact Script.only_act (fun _ h => h)
  · exact Script.only_act (fun _ h => h)
  · exact hOutside (leaves_rsyncStaging p choice)
  · refine Script.only_cond Script.only_skip
      (only_buildBlock ?_)
    intro script hMem
    simp only [List.mem_cons, List.not_mem_nil, or_false]
      at hMem
    rcases hMem with rfl | rfl
    · exact Script.only_act (fun _ h => h)
    · exact hRemove _ _
  · exact hInside (leaves_removeTree p)

theorem isDir_run_stagingRecipe
    (p : Package)
    (choice : StagingChoice)
    {path : Path}
    (hTrees : OutsideTrees path)
    (hInst : OutsideInst p path)
    {dir : BuildDir}
    (hDir : dir.isDir path = false) :
    ((stagingRecipe p choice).run dir).isDir path =
      false := by
  have hKept : ∀ (state : BuildDir) (act : BuildAct),
      ¬ act.Makes path → state.isDir path = false →
      (BuildAct.apply state act).isDir path = false :=
    fun _ _ hMakes hState =>
      isDir_apply_of_not_makes hMakes hState
  exact Script.run_keeps hKept
    (only_stagingRecipe p choice hTrees hInst) hDir

/- The package directory after one more run. -/
def PackageDir.next
    {p : Package}
    (start : PackageDir p)
    (choice : StagingChoice) : PackageDir p where
  dir := (stagingRecipe p choice).run start.dir
  filelist := isDir_run_stagingRecipe p choice
    (outsideTrees_package p _) outsideInst_filelist
    start.filelist
  newfilelist := isDir_run_stagingRecipe p choice
    (outsideTrees_package p _) outsideInst_newfilelist
    start.newfilelist

------------------------------------------------------------
-- What Installations Write
------------------------------------------------------------

/- The files that one `make staging` has written. -/
def wrote
    (p : Package)
    (choice : StagingChoice)
    (dir : BuildDir) : Set Path :=
  fun path =>
    (∃ text, (path, .file text) ∈ choice.installed) ∧
      ((afterInstall p choice dir).read
        (p.pkginst ++ path)).isSome = true

/- One node of an installation. -/
def installAct
    (p : Package)
    (entry : Path × FileNode Text) : BuildAct :=
  match entry.2 with
  | .dir => .mkdir (p.pkginst ++ entry.1)
  | .file text => .write (p.pkginst ++ entry.1) text

theorem afterInstall_eq
    (p : Package)
    (choice : StagingChoice)
    (dir : BuildDir) :
    afterInstall p choice dir =
      choice.installed.foldl
        (fun current entry =>
          BuildAct.apply current (installAct p entry))
        (dir.mkdir p.pkginst) := by
  have hEnd : ∀ state : BuildDir,
      (block
        [Script.cond (fun _ => choice.installOk)
          Script.skip Script.exit]).run state = state := by
    intro state
    unfold BuildScript.run BuildScript.block
    simp only [Script.block]
    rw [Script.run_seq, Script.run_cond, Script.run_skip,
      Script.run_exit]
    simp
  unfold afterInstall installPackage
  rw [run_block_cons _ (stopped_each_command _ _ _), hEnd,
    run_each_command]
  rfl

/- A file that is there stays there, and others are new. -/
theorem isSome_read_installAct
    (p : Package)
    (entry : Path × FileNode Text)
    (dir : BuildDir)
    (path : Path) :
    ((dir.read path).isSome = true →
      ((BuildAct.apply dir (installAct p entry)).read
        path).isSome = true) ∧
      (((BuildAct.apply dir (installAct p entry)).read
          path).isSome = true →
        (dir.read path).isSome = true ∨
          ∃ text, entry.2 = .file text ∧
            path = p.pkginst ++ entry.1) := by
  rcases entry with ⟨rest, node⟩
  cases node with
  | dir =>
      simp only [installAct, BuildAct.apply,
        FileTree.read_mkdir]
      exact ⟨id, Or.inl⟩
  | file text =>
      simp only [installAct, BuildAct.apply,
        FileTree.read_write]
      constructor
      · intro hSome
        split
        · rfl
        · exact hSome
      · intro hSome
        split at hSome
        · next hSame => exact Or.inr ⟨text, rfl, hSame.1⟩
        · exact Or.inl hSome

theorem isSome_read_foldl
    (p : Package)
    (entries : List (Path × FileNode Text))
    (dir : BuildDir)
    (path : Path) :
    ((dir.read (p.pkginst ++ path)).isSome = true →
      FileTree.read
        (entries.foldl
          (fun current entry =>
            BuildAct.apply current (installAct p entry))
          dir) (p.pkginst ++ path) ≠ none) ∧
      (FileTree.read
          (entries.foldl
            (fun current entry =>
              BuildAct.apply current (installAct p entry))
            dir) (p.pkginst ++ path) ≠ none →
        (dir.read (p.pkginst ++ path)).isSome = true ∨
          ∃ text, (path, .file text) ∈ entries) := by
  induction entries generalizing dir with
  | nil =>
      exact ⟨Option.isSome_iff_ne_none.mp,
        fun h => Or.inl (Option.isSome_iff_ne_none.mpr h)⟩
  | cons entry entries ih =>
      have hStep :=
        isSome_read_installAct p entry dir (p.pkginst ++ path)
      have hRest := ih (BuildAct.apply dir (installAct p entry))
      rw [List.foldl_cons]
      refine ⟨fun hSome => hRest.1 (hStep.1 hSome), ?_⟩
      intro hSome
      rcases hRest.2 hSome with hNext | ⟨text, hMem⟩
      · rcases hStep.2 hNext with hOld | ⟨text, hFile, hPath⟩
        · exact Or.inl hOld
        · right
          have hSame := List.append_cancel_left hPath
          refine ⟨text, ?_⟩
          rw [hSame, ← hFile]
          exact List.mem_cons_self
      · exact Or.inr ⟨text, List.mem_cons_of_mem entry hMem⟩

/- The installed files: the old ones, and what was written. -/
theorem isSome_read_afterInstall
    (p : Package)
    (choice : StagingChoice)
    (dir : BuildDir)
    (path : Path) :
    ((afterInstall p choice dir).read
        (p.pkginst ++ path)).isSome = true ↔
      (dir.read (p.pkginst ++ path)).isSome = true ∨
        path ∈ wrote p choice dir := by
  have hFold := isSome_read_foldl p choice.installed
    (dir.mkdir p.pkginst) path
  rw [← afterInstall_eq, FileTree.read_mkdir] at hFold
  constructor
  · intro hSome
    rcases hFold.2 (Option.isSome_iff_ne_none.mp hSome) with
      hOld | hNew
    · exact Or.inl hOld
    · exact Or.inr ⟨hNew, hSome⟩
  · rintro (hOld | hNew)
    · exact Option.isSome_iff_ne_none.mpr (hFold.1 hOld)
    · exact hNew.2

/-
  What the installations of a history have left, on top of
  what was left before: a run that does not fail removes it.
-/
def leftBehind
    {p : Package} :
    PackageDir p →
    Set Path →
    List StagingChoice →
    Set Path
| _, left, [] => left
| start, left, choice :: choices =>
    leftBehind (start.next choice)
      (if choice.installOk then
        ∅
      else
        left ∪ wrote p choice start.dir)
      choices

/- What one run leaves. -/
theorem isSome_read_next
    {p : Package}
    (start : PackageDir p)
    (choice : StagingChoice)
    (path : Path) :
    ((start.next choice).dir.read
        (p.pkginst ++ path)).isSome = true ↔
      choice.installOk = false ∧
        ((start.dir.read (p.pkginst ++ path)).isSome = true ∨
          path ∈ wrote p choice start.dir) := by
  have hDir : (start.next choice).dir =
      (stagingRecipe p choice).run start.dir :=
    rfl
  rw [hDir]
  cases hInstall : choice.installOk with
  | false =>
      rw [run_stagingRecipe_of_failed hInstall,
        isSome_read_afterInstall]
      simp
  | true =>
      rw [run_stagingRecipe hInstall, run_finishStaging,
        read_run_removeTree]
      simp

/- The files below `$(pkginst)` after a history. -/
theorem mem_leftBehind_iff
    {p : Package}
    (choices : List StagingChoice)
    (start : PackageDir p)
    (left : Set Path)
    (hLeft : ∀ path, path ∈ left ↔
      (start.dir.read (p.pkginst ++ path)).isSome = true)
    (path : Path) :
    path ∈ leftBehind start left choices ↔
      ((choices.foldl PackageDir.next start).dir.read
        (p.pkginst ++ path)).isSome = true := by
  induction choices generalizing start left with
  | nil => exact hLeft path
  | cons choice choices ih =>
      rw [leftBehind, List.foldl_cons]
      apply ih
      intro other
      rw [isSome_read_next]
      cases choice.installOk with
      | true => simp
      | false => simp [hLeft other]

------------------------------------------------------------
-- The Last Installation
------------------------------------------------------------

/-
  Runs of `%/staging` for one package: the earlier ones, as
  they turned out, and the last one, which succeeds. Nothing
  is installed before the first.
-/
structure StagingHistory where
  p : Package
  start : PackageDir p
  fresh : ∀ path,
    start.dir.read (p.pkginst ++ path) = none
  earlier : List StagingChoice
  last : StagingChoice
  succeeded : last.installOk = true

namespace StagingHistory

variable (history : StagingHistory)

/- The package directory before the last run. -/
def before : PackageDir history.p :=
  history.earlier.foldl PackageDir.next history.start

/- What the last installation has written. -/
def own : Set Path :=
  wrote history.p history.last history.before.dir

/- What the earlier installations have left. -/
def stale : Set Path :=
  leftBehind history.start ∅ history.earlier

/- The state that the last `rsync` leaves. -/
def copied : BuildDir :=
  afterRsync history.p history.last history.before.dir

/- The list after the last run. -/
def recorded : Option Text :=
  (history.before.next history.last).dir.read
    history.p.filelist

/-
  The list names the files that the last installation wrote,
  each one once, and nothing else.
-/
def RecordsOwnInstall : Prop :=
  ∃ paths : List Path,
    paths.Nodup ∧
      (∀ path, path ∈ paths ↔ path ∈ history.own) ∧
      history.recorded = some (listText paths)

variable {history}

/- The files that the list is made from. -/
theorem mem_filesBelow_installed
    (path : Path) :
    path ∈ (afterInstall history.p history.last
        history.before.dir).filesBelow history.p.pkginst ↔
      path ∈ history.stale ∨ path ∈ history.own := by
  have hFresh : ∀ path, path ∈ (∅ : Set Path) ↔
      (history.start.dir.read
        (history.p.pkginst ++ path)).isSome = true := by
    intro path
    rw [history.fresh path]
    simp
  have hStale := mem_leftBehind_iff history.earlier
    history.start ∅ hFresh path
  rw [FileTree.mem_filesBelow, isSome_read_afterInstall]
  exact or_congr_left hStale.symm

/- The list is not removed behind its own back. -/
def Kept (history : StagingHistory) : Prop :=
  rsyncSucceeds history.p history.last history.copied =
      true ∨
    Spared history.p history.copied history.p.filelist

/- What is recorded, if the list is not removed again. -/
theorem recorded_eq_some_iff
    (text : Text) :
    history.recorded = some text ↔
      history.Kept ∧
        listText
          ((afterInstall history.p history.last
            history.before.dir).filesBelow
              history.p.pkginst) = text := by
  have hCopied : history.copied.read history.p.filelist =
      some (newFilelist history.p
        (afterInstall history.p history.last
          history.before.dir)) :=
    read_filelist_afterRsync history.before
  have hRecorded : history.recorded =
      ((BuildScript.block
        (finishStaging history.p history.last)).run
          history.copied).read history.p.filelist := by
    have hDir : history.recorded =
        ((stagingRecipe history.p history.last).run
          history.before.dir).read history.p.filelist :=
      rfl
    rw [hDir, run_stagingRecipe history.succeeded]
    rfl
  have hSome : history.Kept →
      history.recorded =
        some (newFilelist history.p
          (afterInstall history.p history.last
            history.before.dir)) := by
    intro hKept
    rw [hRecorded, ← hCopied]
    cases hRsync : rsyncSucceeds history.p history.last
        history.copied with
    | true =>
        exact read_run_finishStaging_of_succeeds hRsync
          outsideInst_filelist
    | false =>
        have hSpared := hKept.resolve_left
          (by simp [hRsync])
        have hFinish := read_run_finishStaging_of_failed
          hRsync (outsideInst_filelist (p := history.p))
          (by simp [Package.filelist, Package.fakeroot])
        exact hFinish.1 hSpared hSpared
  by_cases hKept : history.Kept
  · rw [hSome hKept, newFilelist_eq, Option.some.injEq]
    exact (and_iff_right hKept).symm
  · have hNot := not_or.mp hKept
    have hFinish := read_run_finishStaging_of_failed
      (Bool.eq_false_iff.mpr hNot.1)
      (outsideInst_filelist (p := history.p))
      (by simp [Package.filelist, Package.fakeroot])
    rw [hRecorded, hFinish.2.2 rfl hNot.2]
    exact iff_of_false (by simp) (fun h => hKept h.1)

/- What is left from before must have been written again. -/
theorem stale_subset_of_recordsOwnInstall
    (hRecords : history.RecordsOwnInstall) :
    history.stale ⊆ history.own ∧ history.Kept := by
  rcases hRecords with ⟨paths, hPaths, hOwn, hList⟩
  rcases (recorded_eq_some_iff _).mp hList with
    ⟨hKept, hText⟩
  have hSubset : paths ⊆
      (afterInstall history.p history.last
        history.before.dir).filesBelow history.p.pkginst := by
    intro path hMem
    exact (mem_filesBelow_installed path).mpr
      (Or.inr ((hOwn path).mp hMem))
  have hPerm := perm_of_listText_eq hPaths hSubset hText.symm
  refine ⟨?_, hKept⟩
  intro path hStale
  exact (hOwn path).mp (hPerm.mem_iff.mpr
    ((mem_filesBelow_installed path).mpr (Or.inl hStale)))

/-
  The list is the one of the last installation exactly when
  all that the earlier ones have left is written again, and
  a failed `rsync` does not remove the list itself.
-/
theorem recordsOwnInstall_iff
    (history : StagingHistory) :
    history.RecordsOwnInstall ↔
      history.stale ⊆ history.own ∧ history.Kept := by
  refine ⟨stale_subset_of_recordsOwnInstall, ?_⟩
  rintro ⟨hStale, hKept⟩
  have hNodup := FileTree.nodup_filesBelow
    (afterInstall history.p history.last history.before.dir)
    history.p.pkginst
  refine ⟨_, hNodup, ?_,
    (recorded_eq_some_iff _).mpr ⟨hKept, rfl⟩⟩
  intro path
  rw [mem_filesBelow_installed]
  exact or_iff_right_of_imp (fun h => hStale h)

end StagingHistory

------------------------------------------------------------
-- A Failed Installation
------------------------------------------------------------

/-
  A package that installs `a` and fails, and installs `b`
  after a change.
-/
def renamedHistory : StagingHistory where
  p := samplePackage
  start := emptyPackageDir
  fresh := fun _ => FileTree.read_empty _
  earlier :=
    [{ installed := [([['a']], .file [])]
       installOk := false
       started := false
       copied := []
       rsyncOk := false }]
  last :=
    { installed := [([['b']], .file [])]
      installOk := true
      started := true
      copied := []
      rsyncOk := true }
  succeeded := rfl

/- Both names are recorded. -/
theorem renamedHistory_not_recordsOwnInstall :
    ¬ ∀ history : StagingHistory,
      history.RecordsOwnInstall := by
  intro hAll
  have hRead : ((afterInstall renamedHistory.p
      { installed := [([['a']], .file [])]
        installOk := false
        started := false
        copied := []
        rsyncOk := false } ∅).read
        (renamedHistory.p.pkginst ++ [['a']])).isSome =
      true := by
    decide +kernel
  have hStale : [['a']] ∈ renamedHistory.stale :=
    Or.inr ⟨⟨[], List.mem_singleton_self _⟩, hRead⟩
  have hSubset := StagingHistory.stale_subset_of_recordsOwnInstall
    (hAll renamedHistory)
  rcases (hSubset.1 hStale).1 with ⟨text, hMem⟩
  cases List.mem_singleton.mp hMem

end Mkrootfs
