import Mkrootfs.Build.StagingRun

/-
  The exit status of `%/staging`, and what make finds behind
  it: the list, and the files of the list in `staging`.

  Main declarations:
    * `StagingRun`, `StagingRun.Delivered`
    * `StagingRun.ReportsFailure`
    * `StagingRun.reportsFailure_iff`
-/

------------------------------------------------------------
-- What The Status Promises
------------------------------------------------------------

namespace Mkrootfs

/- One run of `%/staging`, from any state of the lists. -/
structure StagingRun where
  p : Package
  start : PackageDir p
  choice : StagingChoice

namespace StagingRun

variable (run : StagingRun)

/- The states after `make staging` and after `rsync`. -/
def installed : BuildDir :=
  afterInstall run.p run.choice run.start.dir

def copied : BuildDir :=
  afterRsync run.p run.choice run.start.dir

/- The state that the recipe leaves, and its failure. -/
def final : BuildDir :=
  (stagingRecipe run.p run.choice).run run.start.dir

def stopped : Bool :=
  (stagingRecipe run.p run.choice run.start.dir).stopped

/-
  The list is the one of the installed files, and each of
  them is in `staging` as it was installed.
-/
structure Delivered : Prop where
  list : run.final.read run.p.filelist =
    some (newFilelist run.p run.installed)
  files : ∀ path text,
    run.installed.read (run.p.pkginst ++ path) =
      some text →
    run.final.read (stagingName :: path) = some text

/-
  A recipe that does not fail has delivered its files, and
  make executes no rule behind one that does fail.
-/
structure ReportsFailure : Prop where
  delivered : run.stopped = false → run.Delivered
  blocked : run.stopped = true → ∀ rule : BuildScript,
    Script.seq BuildAct.apply
        (stagingRecipe run.p run.choice) rule
        run.start.dir =
      stagingRecipe run.p run.choice run.start.dir

/-
  All files had been copied when `rsync` failed, and `xargs`
  reads neither their names nor the one of the list.
-/
structure CopiedAndSpared : Prop where
  list : Spared run.p run.copied run.p.filelist
  files : ∀ path text,
    run.installed.read (run.p.pkginst ++ path) =
      some text →
    run.copied.read (stagingName :: path) = some text ∧
      Spared run.p run.copied (stagingName :: path)

------------------------------------------------------------
-- When The Promise Is Kept
------------------------------------------------------------

theorem outsideInst_staging
    (p : Package)
    (path : Path) :
    OutsideInst p (stagingName :: path) :=
  fun _ h =>
    tree_ne_package (Or.inl rfl) path p _ h.symm

variable {run}

theorem final_eq
    (hInstall : run.choice.installOk = true) :
    run.final =
      (BuildScript.block
        (finishStaging run.p run.choice)).run run.copied :=
  run_stagingRecipe hInstall run.start.dir

theorem read_filelist_copied :
    run.copied.read run.p.filelist =
      some (newFilelist run.p run.installed) :=
  read_filelist_afterRsync run.start

/- A successful `rsync` has copied every installed file. -/
theorem read_copied_of_succeeds
    (hSucceeds : rsyncSucceeds run.p run.choice run.copied =
      true)
    {path : Path}
    {text : Text}
    (hRead : run.installed.read (run.p.pkginst ++ path) =
      some text) :
    run.copied.read (stagingName :: path) = some text := by
  have hLookup : run.copied.lookup (run.p.pkginst ++ path) =
      some (.file text) := by
    rw [← FileTree.lookup_of_read hRead]
    exact lookup_inst_afterRsync run.start.dir path
  have hNode := (FileTree.mem_nodesBelow _ _ _ _).mpr hLookup
  unfold rsyncSucceeds at hSucceeds
  rw [Bool.and_eq_true, List.all_eq_true] at hSucceeds
  have hCopy := hSucceeds.2 _ hNode
  rw [decide_eq_true_eq] at hCopy
  simp [FileTree.read, hCopy]

theorem delivered_of_succeeds
    (hInstall : run.choice.installOk = true)
    (hSucceeds : rsyncSucceeds run.p run.choice run.copied =
      true) :
    run.Delivered where
  list := by
    rw [final_eq hInstall,
      read_run_finishStaging_of_succeeds hSucceeds
        outsideInst_filelist]
    exact read_filelist_copied
  files path text hRead := by
    rw [final_eq hInstall,
      read_run_finishStaging_of_succeeds hSucceeds
        (outsideInst_staging run.p path)]
    exact read_copied_of_succeeds hSucceeds hRead

/- After a failed `rsync`, only what is spared is left. -/
theorem delivered_iff_of_failed
    (hInstall : run.choice.installOk = true)
    (hFailed : rsyncSucceeds run.p run.choice run.copied =
      false) :
    run.Delivered ↔ run.CopiedAndSpared := by
  have hFinal := final_eq hInstall
  have hList := read_run_finishStaging_of_failed hFailed
    (outsideInst_filelist (p := run.p))
    (by simp [Package.filelist, Package.fakeroot])
  have hFile := fun path => read_run_finishStaging_of_failed
    hFailed (outsideInst_staging run.p path)
    (tree_ne_package (Or.inl rfl) path run.p _)
  rw [← hFinal] at hList
  simp only [← hFinal] at hFile
  constructor
  · intro hDelivered
    have hSpared : Spared run.p run.copied
        run.p.filelist := by
      by_contra hNot
      have hNone := hList.2.2 rfl hNot
      rw [hDelivered.list] at hNone
      cases hNone
    refine ⟨hSpared, ?_⟩
    intro path text hRead
    have hThere := hDelivered.files path text hRead
    have hSparedFile : Spared run.p run.copied
        (stagingName :: path) := by
      by_contra hNot
      rw [(hFile path).2.1 hSpared hNot] at hThere
      cases hThere
    refine ⟨?_, hSparedFile⟩
    rw [← (hFile path).1 hSparedFile hSpared]
    exact hThere
  · intro hSpared
    refine ⟨?_, ?_⟩
    · rw [hList.1 hSpared.list hSpared.list]
      exact read_filelist_copied
    · intro path text hRead
      have hCopied := hSpared.files path text hRead
      rw [(hFile path).1 hCopied.2 hSpared.list]
      exact hCopied.1

/-
  The status can be relied on exactly when it is the one of
  a failed installation, `rsync` succeeds, or its failure
  happens to leave everything in place.
-/
theorem reportsFailure_iff
    (run : StagingRun) :
    run.ReportsFailure ↔
      run.choice.installOk = false ∨
        rsyncSucceeds run.p run.choice run.copied = true ∨
        run.CopiedAndSpared := by
  have hStopped : run.stopped = !run.choice.installOk :=
    stopped_stagingRecipe run.p run.choice run.start.dir
  have hBlocked : run.stopped = true →
      ∀ rule : BuildScript,
        Script.seq BuildAct.apply
            (stagingRecipe run.p run.choice) rule
            run.start.dir =
          stagingRecipe run.p run.choice run.start.dir := by
    intro hStop rule
    unfold StagingRun.stopped at hStop
    simp only [Script.seq, hStop, if_true]
  cases hInstall : run.choice.installOk with
  | false =>
      rw [hInstall] at hStopped
      refine ⟨fun _ => Or.inl rfl, fun _ => ⟨?_, hBlocked⟩⟩
      intro hNot
      rw [hStopped] at hNot
      cases hNot
  | true =>
      rw [hInstall] at hStopped
      have hDelivered :
          run.ReportsFailure ↔ run.Delivered :=
        ⟨fun hReports => hReports.delivered hStopped,
          fun hDone => ⟨fun _ => hDone, hBlocked⟩⟩
      rw [hDelivered]
      cases hRsync :
          rsyncSucceeds run.p run.choice run.copied with
      | true =>
          have hDone := delivered_of_succeeds hInstall hRsync
          exact ⟨fun _ => Or.inr (Or.inl rfl),
            fun _ => hDone⟩
      | false =>
          rw [delivered_iff_of_failed hInstall hRsync]
          simp

end StagingRun

------------------------------------------------------------
-- A Failed Copy
------------------------------------------------------------

/- A package that installs `a`, and `rsync` cannot start. -/
def failedCopyRun : StagingRun where
  p := samplePackage
  start := emptyPackageDir
  choice :=
    { installed := [([['a']], .file [])]
      installOk := true
      started := false
      copied := []
      rsyncOk := false }

theorem failedCopyRun_not_reportsFailure :
    ¬ ∀ run : StagingRun, run.ReportsFailure := by
  intro hAll
  have hDelivered := (hAll failedCopyRun).delivered rfl
  have hRead : failedCopyRun.installed.read
      (failedCopyRun.p.pkginst ++ [['a']]) = some [] := by
    decide +kernel
  have hThere := hDelivered.files [['a']] [] hRead
  revert hThere
  decide +kernel

end Mkrootfs
