import Mkrootfs.Build.RecipeRuns

/-
  A run of `%/staging` from one end to the other: the state
  after the installation, after the lists, after `rsync`,
  and the state that it leads to.

  Main declarations:
    * `PackageDir`
    * `afterInstall`, `afterRsync`, `finishStaging`
    * `stopped_stagingRecipe`, `run_stagingRecipe`
    * `read_filelist_afterRsync`
    * `read_run_finishStaging_of_succeeds`
-/

------------------------------------------------------------
-- The Parts Of The Recipe
------------------------------------------------------------

namespace Mkrootfs

open BuildScript (command block each)

/- No directory is in place of a list of the package. -/
structure PackageDir (p : Package) where
  dir : BuildDir
  filelist : dir.isDir p.filelist = false
  newfilelist : dir.isDir p.newfilelist = false

/- Before the first build. -/
def emptyPackageDir : PackageDir samplePackage where
  dir := ∅
  filelist := rfl
  newfilelist := rfl

/- The state after `make staging`. -/
def afterInstall
    (p : Package)
    (choice : StagingChoice)
    (dir : BuildDir) : BuildDir :=
  (installPackage p choice).run (dir.mkdir p.pkginst)

/- From the new lists to the renamings. -/
def recordLists (p : Package) : List BuildScript :=
  [Script.act (fun dir =>
      .write p.newfilelist (newFilelist p dir)),
    Script.act (fun dir =>
      .write p.newdirlist (newDirlist p dir)),
    Script.cond (fileExists p.filelist)
      (removeDropped p) Script.skip,
    Script.cond (fileExists p.dirlist)
      (removeDroppedDirs p) Script.skip,
    command (.mv p.newfilelist p.filelist),
    command (.mv p.newdirlist p.dirlist)]

/- The state after `rsync`, with or without success. -/
def afterRsync
    (p : Package)
    (choice : StagingChoice)
    (dir : BuildDir) : BuildDir :=
  (rsyncStaging p choice).run
    ((block (recordLists p)).run (afterInstall p choice dir))

/- The branch for a failed `rsync`, and the end. -/
def finishStaging
    (p : Package)
    (choice : StagingChoice) : List BuildScript :=
  [Script.cond (rsyncSucceeds p choice) Script.skip
      (block
        [command (.rm p.fakeroot),
          removeFromTrees [] [p.filelist] [p.dirlist]]),
    removeTree p.pkginst]

------------------------------------------------------------
-- Where The Recipe Stops
------------------------------------------------------------

/- Only a failed installation stops the recipe. -/
theorem stopped_installPackage
    (p : Package)
    (choice : StagingChoice)
    (dir : BuildDir) :
    (installPackage p choice dir).stopped =
      !choice.installOk := by
  unfold installPackage BuildScript.block BuildScript.each
  simp only [Script.block, Script.stopped_seq,
    Script.stopped_cond]
  rw [Script.stopped_each (fun _ _ _ => rfl)]
  cases choice.installOk with
  | true => rfl
  | false => rfl

theorem stopped_removeDropped
    (p : Package)
    (dir : BuildDir) :
    (removeDropped p dir).stopped = false := by
  apply Script.stopped_block
  intro script hMem state
  simp only [List.mem_cons, List.not_mem_nil, or_false]
    at hMem
  rcases hMem with rfl | rfl
  · rfl
  · exact Script.stopped_each (fun _ _ _ => rfl)

theorem stopped_removeDroppedDirs
    (p : Package)
    (dir : BuildDir) :
    (removeDroppedDirs p dir).stopped = false := by
  apply Script.stopped_block
  intro script hMem state
  simp only [List.mem_cons, List.not_mem_nil, or_false]
    at hMem
  rcases hMem with rfl | rfl
  · rfl
  · exact Script.stopped_each (fun _ _ _ => rfl)

theorem stopped_recordLists
    (p : Package) :
    ∀ script ∈ recordLists p, ∀ dir,
      (script dir).stopped = false := by
  intro script hMem dir
  simp only [recordLists, List.mem_cons, List.not_mem_nil,
    or_false] at hMem
  rcases hMem with rfl | rfl | rfl | rfl | rfl | rfl
  · rfl
  · rfl
  · rw [Script.stopped_cond, stopped_removeDropped]
    simp
  · rw [Script.stopped_cond, stopped_removeDroppedDirs]
    simp
  · rfl
  · rfl

theorem stopped_copyStaging
    (entry : Path × FileNode Text)
    (dir : BuildDir) :
    (copyStaging entry dir).stopped = false := by
  rcases entry with ⟨path, node⟩
  apply Script.stopped_block
  intro script hMem state
  simp only [List.mem_cons, List.not_mem_nil, or_false]
    at hMem
  rcases hMem with rfl | rfl
  · exact Script.stopped_each (fun _ _ _ => rfl)
  · cases node with
    | dir => rfl
    | file text => rfl

theorem stopped_rsyncStaging
    (p : Package)
    (choice : StagingChoice)
    (dir : BuildDir) :
    (rsyncStaging p choice dir).stopped = false := by
  have hCopy : (block
      [command (.mkdir [stagingName]),
        each (rsyncNodes p choice) copyStaging]
      dir).stopped = false := by
    apply Script.stopped_block
    intro script hMem state
    simp only [List.mem_cons, List.not_mem_nil, or_false]
      at hMem
    rcases hMem with rfl | rfl
    · rfl
    · exact Script.stopped_each (fun entry _ dir =>
        stopped_copyStaging entry dir)
  unfold rsyncStaging
  rw [Script.stopped_cond, hCopy]
  simp

theorem stopped_removeTree
    (path : Path)
    (dir : BuildDir) :
    (removeTree path dir).stopped = false := by
  apply Script.stopped_block
  intro script hMem state
  simp only [List.mem_cons, List.not_mem_nil, or_false]
    at hMem
  rcases hMem with rfl | rfl
  · exact Script.stopped_each (fun _ _ _ => rfl)
  · exact Script.stopped_each (fun _ _ _ => rfl)

theorem stopped_finishStaging
    (p : Package)
    (choice : StagingChoice) :
    ∀ script ∈ finishStaging p choice, ∀ dir,
      (script dir).stopped = false := by
  intro script hMem dir
  simp only [finishStaging, List.mem_cons,
    List.not_mem_nil, or_false] at hMem
  rcases hMem with rfl | rfl
  · have hClean : (block
        [command (.rm p.fakeroot),
          removeFromTrees [] [p.filelist] [p.dirlist]]
        dir).stopped = false := by
      apply Script.stopped_block
      intro script hMem state
      simp only [List.mem_cons, List.not_mem_nil, or_false]
        at hMem
      rcases hMem with rfl | rfl
      · rfl
      · exact stopped_removeFromTrees _ _ _ _
    rw [Script.stopped_cond, hClean]
    simp
  · exact stopped_removeTree _ _

/- The recipe, cut behind its parts. -/
theorem stagingRecipe_eq
    (p : Package)
    (choice : StagingChoice) :
    stagingRecipe p choice =
      block
        ([command (.mkdir p.pkginst),
            installPackage p choice] ++
          (recordLists p ++
            ([rsyncStaging p choice] ++
              finishStaging p choice))) :=
  rfl

/- The status of the recipe is the one of `make staging`. -/
theorem stopped_stagingRecipe
    (p : Package)
    (choice : StagingChoice)
    (dir : BuildDir) :
    (stagingRecipe p choice dir).stopped =
      !choice.installOk := by
  have hRest : ∀ state, (block
      (recordLists p ++
        ([rsyncStaging p choice] ++
          finishStaging p choice)) state).stopped =
      false := by
    apply Script.stopped_block
    intro script hMem state
    rcases List.mem_append.mp hMem with hMem | hMem
    · exact stopped_recordLists p script hMem state
    · rcases List.mem_append.mp hMem with hMem | hMem
      · rw [List.mem_singleton.mp hMem]
        exact stopped_rsyncStaging p choice state
      · exact stopped_finishStaging p choice script hMem
          state
  have hShape : stagingRecipe p choice =
      Script.seq BuildAct.apply (command (.mkdir p.pkginst))
        (Script.seq BuildAct.apply (installPackage p choice)
          (block
            (recordLists p ++
              ([rsyncStaging p choice] ++
                finishStaging p choice)))) :=
    rfl
  have hMkdir : (command (.mkdir p.pkginst) dir).stopped =
      false :=
    rfl
  rw [hShape, Script.stopped_seq, Script.stopped_seq,
    stopped_installPackage, hRest, hMkdir]
  simp

/- Where a recipe that is not stopped leads to. -/
theorem run_stagingRecipe
    {p : Package}
    {choice : StagingChoice}
    (hInstall : choice.installOk = true)
    (dir : BuildDir) :
    (stagingRecipe p choice).run dir =
      (block (finishStaging p choice)).run
        (afterRsync p choice dir) := by
  have hFirst : ∀ script ∈
      [command (.mkdir p.pkginst), installPackage p choice],
      ∀ state, (script state).stopped = false := by
    intro script hMem state
    simp only [List.mem_cons, List.not_mem_nil, or_false]
      at hMem
    rcases hMem with rfl | rfl
    · rfl
    · rw [stopped_installPackage, hInstall]
      rfl
  have hRsync : ∀ script ∈ [rsyncStaging p choice],
      ∀ state, (script state).stopped = false := by
    intro script hMem state
    rw [List.mem_singleton.mp hMem]
    exact stopped_rsyncStaging p choice state
  have hOne : ∀ (script : BuildScript) state,
      (script state).stopped = false →
      (block [script]).run state = script.run state := by
    intro script state hNot
    unfold BuildScript.run BuildScript.block
    simp only [Script.block]
    rw [Script.run_seq_of_not_stopped _ hNot,
      Script.run_skip]
  have hStart : (block
      [command (.mkdir p.pkginst),
        installPackage p choice]).run dir =
      afterInstall p choice dir := by
    have hNot : (installPackage p choice
        (dir.mkdir p.pkginst)).stopped = false := by
      rw [stopped_installPackage, hInstall]
      rfl
    unfold afterInstall
    rw [← hOne _ _ hNot]
    rfl
  rw [stagingRecipe_eq]
  unfold BuildScript.run BuildScript.block at *
  rw [Script.run_block_append hFirst,
    Script.run_block_append (stopped_recordLists p),
    Script.run_block_append hRsync, hStart,
    hOne _ _ (stopped_rsyncStaging p choice _)]
  rfl

/- A failed installation leaves everything as it is then. -/
theorem run_stagingRecipe_of_failed
    {p : Package}
    {choice : StagingChoice}
    (hInstall : choice.installOk = false)
    (dir : BuildDir) :
    (stagingRecipe p choice).run dir =
      afterInstall p choice dir := by
  have hStopped : (installPackage p choice
      (dir.mkdir p.pkginst)).stopped = true := by
    rw [stopped_installPackage, hInstall]
    rfl
  have hShape : (stagingRecipe p choice).run dir =
      Script.run BuildAct.apply
        (Script.seq BuildAct.apply (installPackage p choice)
          (block
            (recordLists p ++
              ([rsyncStaging p choice] ++
                finishStaging p choice))))
        (dir.mkdir p.pkginst) := by
    unfold BuildScript.run
    rw [stagingRecipe_eq]
    exact Script.run_seq_of_not_stopped _ rfl
  rw [hShape, Script.run_seq, hStopped]
  rfl

------------------------------------------------------------
-- What The Parts Leave Alone
------------------------------------------------------------

/- A path in none of the two trees. -/
def OutsideTrees (path : Path) : Prop :=
  ∀ root rest, IsTree root → root :: rest ≠ path

/- A path that is not installed by the package. -/
def OutsideInst
    (p : Package)
    (path : Path) : Prop :=
  ∀ rest, p.pkginst ++ rest ≠ path

theorem outsideTrees_package
    (p : Package)
    (rest : Path) :
    OutsideTrees (p.name :: rest) :=
  fun _ _ hRoot => tree_ne_package hRoot _ p rest

theorem leaves_installPackage
    (p : Package)
    (choice : StagingChoice) :
    Leaves (OutsideInst p) (installPackage p choice) := by
  apply leaves_block
  intro script hMem
  simp only [List.mem_cons, List.not_mem_nil, or_false]
    at hMem
  rcases hMem with rfl | rfl
  · apply leaves_each
    rintro ⟨rest, node⟩
    apply leaves_command
    intro path hPath
    cases node with
    | dir => exact hPath rest
    | file text => exact hPath rest
  · exact Script.only_cond Script.only_skip Script.only_exit

/- Commands below a tree. -/
theorem leaves_tree
    {root : Text}
    (hRoot : IsTree root)
    {act : BuildAct}
    (hAct : ∀ path, act.Touches path →
      ∃ rest, root :: rest = path) :
    Leaves OutsideTrees (command act) := by
  apply leaves_command
  intro path hPath hTouches
  rcases hAct path hTouches with ⟨rest, hSame⟩
  exact hPath root rest hRoot hSame

/- A directory, and a command in both trees for each name. -/
theorem leaves_bothTrees
    {items : BuildDir → List Text}
    {act : Path → BuildAct}
    (hAct : ∀ root name path,
      (act (root :: pathOf name)).Touches path →
        ∃ rest, root :: rest = path) :
    Leaves OutsideTrees
      (block
        [command (.mkdir [stagingName]),
          each items (fun name => block
            [command (act (stagingName :: pathOf name)),
              command (act (rootfsName :: pathOf name))])]) := by
  apply leaves_block
  intro script hMem
  simp only [List.mem_cons, List.not_mem_nil, or_false]
    at hMem
  rcases hMem with rfl | rfl
  · exact leaves_tree (Or.inl rfl) (fun _ h => ⟨[], h⟩)
  · apply leaves_each
    intro name
    apply leaves_block
    intro script hMem
    simp only [List.mem_cons, List.not_mem_nil, or_false]
      at hMem
    rcases hMem with rfl | rfl
    · exact leaves_tree (Or.inl rfl)
        (hAct stagingName name)
    · exact leaves_tree (Or.inr rfl)
        (hAct rootfsName name)

theorem leaves_removeDropped (p : Package) :
    Leaves OutsideTrees (removeDropped p) :=
  leaves_bothTrees (fun _ _ _ h => ⟨_, h⟩)

theorem leaves_removeDroppedDirs (p : Package) :
    Leaves OutsideTrees (removeDroppedDirs p) :=
  leaves_bothTrees (fun _ _ _ h => ⟨_, h⟩)

theorem leaves_copyStaging
    (entry : Path × FileNode Text) :
    Leaves OutsideTrees (copyStaging entry) := by
  rcases entry with ⟨rest, node⟩
  apply leaves_block
  intro script hMem
  simp only [List.mem_cons, List.not_mem_nil, or_false]
    at hMem
  rcases hMem with rfl | rfl
  · apply leaves_each
    intro parent
    exact leaves_tree (Or.inl rfl) (fun _ h => ⟨_, h⟩)
  · cases node with
    | dir =>
        exact leaves_tree (Or.inl rfl) (fun _ h => ⟨_, h⟩)
    | file text =>
        apply leaves_block
        intro script hMem
        simp only [List.mem_cons, List.not_mem_nil,
          or_false] at hMem
        rcases hMem with rfl | rfl
        · exact leaves_tree (Or.inl rfl)
            (fun _ h => ⟨_, h⟩)
        · exact leaves_tree (Or.inl rfl)
            (fun _ h => ⟨_, h⟩)

theorem leaves_rsyncStaging
    (p : Package)
    (choice : StagingChoice) :
    Leaves OutsideTrees (rsyncStaging p choice) := by
  apply Script.only_cond
  · apply leaves_block
    intro script hMem
    simp only [List.mem_cons, List.not_mem_nil, or_false]
      at hMem
    rcases hMem with rfl | rfl
    · exact leaves_tree (Or.inl rfl) (fun _ h => ⟨[], h⟩)
    · exact leaves_each leaves_copyStaging
  · exact Script.only_skip

theorem leaves_removeTree (p : Package) :
    Leaves (OutsideInst p) (removeTree p.pkginst) := by
  apply leaves_block
  intro script hMem
  simp only [List.mem_cons, List.not_mem_nil, or_false]
    at hMem
  rcases hMem with rfl | rfl
  · apply leaves_each
    intro rest
    apply leaves_command
    intro path hPath
    exact hPath rest
  · apply leaves_each
    intro rest
    apply leaves_command
    intro path hPath
    exact hPath rest

------------------------------------------------------------
-- The Recorded List
------------------------------------------------------------

section Recorded

variable {p : Package} {choice : StagingChoice}

/- What is no longer installed, if there are lists. -/
def dropFiles (p : Package) : BuildScript :=
  Script.cond (fileExists p.filelist) (removeDropped p)
    Script.skip

def dropDirs (p : Package) : BuildScript :=
  Script.cond (fileExists p.dirlist) (removeDroppedDirs p)
    Script.skip

theorem leaves_dropFiles (p : Package) :
    Leaves OutsideTrees (dropFiles p) :=
  Script.only_cond (leaves_removeDropped p) Script.only_skip

theorem leaves_dropDirs (p : Package) :
    Leaves OutsideTrees (dropDirs p) :=
  Script.only_cond (leaves_removeDroppedDirs p)
    Script.only_skip

/- Both new lists, next to the old ones. -/
def writeLists
    (p : Package)
    (dir : BuildDir) : BuildDir :=
  let written := dir.write p.newfilelist (newFilelist p dir)
  written.write p.newdirlist (newDirlist p written)

/- The state before the renamings. -/
def beforeMove
    (p : Package)
    (dir : BuildDir) : BuildDir :=
  (dropDirs p).run ((dropFiles p).run (writeLists p dir))

theorem run_recordLists
    (p : Package)
    (dir : BuildDir) :
    (block (recordLists p)).run dir =
      ((beforeMove p dir).move p.newfilelist
        p.filelist).move p.newdirlist p.dirlist := by
  have hNot := stopped_recordLists p
  have hDropFiles : ∀ state,
      (dropFiles p state).stopped = false := by
    intro state
    apply hNot
    simp [recordLists, dropFiles]
  have hDropDirs : ∀ state,
      (dropDirs p state).stopped = false := by
    intro state
    apply hNot
    simp [recordLists, dropDirs]
  have hSplit : recordLists p =
      [Script.act (fun dir =>
          .write p.newfilelist (newFilelist p dir)),
        Script.act (fun dir =>
          .write p.newdirlist (newDirlist p dir)),
        dropFiles p, dropDirs p,
        command (.mv p.newfilelist p.filelist),
        command (.mv p.newdirlist p.dirlist)] :=
    rfl
  rw [hSplit]
  rw [run_block_cons _ (Script.stopped_act _ _),
    run_block_cons _ (Script.stopped_act _ _),
    run_block_cons _ (hDropFiles _),
    run_block_cons _ (hDropDirs _),
    run_block_cons _ (stopped_command _ _),
    run_block_cons _ (stopped_command _ _), run_block_nil,
    run_command, run_command, run_act, run_act]
  rfl

/- Only the two trees and the new lists have changed. -/
theorem lookup_beforeMove
    (dir : BuildDir)
    {path : Path}
    (hTrees : OutsideTrees path)
    (hFiles : path ≠ p.newfilelist)
    (hDirs : path ≠ p.newdirlist) :
    (beforeMove p dir).lookup path = dir.lookup path := by
  unfold beforeMove writeLists
  rw [run_of_leaves (leaves_dropDirs p) hTrees,
    run_of_leaves (leaves_dropFiles p) hTrees,
    FileTree.lookup_write_of_ne _ _ hDirs,
    FileTree.lookup_write_of_ne _ _ hFiles]

/- The new list holds what is installed. -/
theorem read_newfilelist_beforeMove
    {dir : BuildDir}
    (hDir : dir.isDir p.newfilelist = false) :
    (beforeMove p dir).read p.newfilelist =
      some (newFilelist p dir) := by
  have hNe : p.newfilelist ≠ p.newdirlist := by
    simp [Package.newfilelist, Package.newdirlist]
  have hOutside : OutsideTrees p.newfilelist :=
    outsideTrees_package p _
  unfold beforeMove writeLists
  rw [read_run_of_leaves (leaves_dropDirs p) hOutside,
    read_run_of_leaves (leaves_dropFiles p) hOutside,
    FileTree.read_write, if_neg (fun h => hNe h.1),
    FileTree.read_write, if_pos ⟨rfl, hDir⟩]

/- What is installed is not changed before the end. -/
theorem lookup_inst_afterRsync
    (dir : BuildDir)
    (rest : Path) :
    (afterRsync p choice dir).lookup (p.pkginst ++ rest) =
      (afterInstall p choice dir).lookup
        (p.pkginst ++ rest) := by
  have hOutside : OutsideTrees (p.pkginst ++ rest) :=
    outsideTrees_package p _
  unfold afterRsync
  rw [run_of_leaves (leaves_rsyncStaging p choice) hOutside,
    run_recordLists,
    FileTree.lookup_move_of_ne _
      (by simp [Package.pkginst, Package.newdirlist])
      (by simp [Package.pkginst, Package.dirlist]),
    FileTree.lookup_move_of_ne _
      (by simp [Package.pkginst, Package.newfilelist])
      (by simp [Package.pkginst, Package.filelist])]
  apply lookup_beforeMove _ hOutside
  · simp [Package.pkginst, Package.newfilelist]
  · simp [Package.pkginst, Package.newdirlist]

/- A list is no directory after `make staging` either. -/
theorem lookup_afterInstall
    (dir : BuildDir)
    {path : Path}
    (hInst : OutsideInst p path) :
    (afterInstall p choice dir).lookup path =
      dir.lookup path := by
  have hNe : path ≠ p.pkginst := by
    have hRoot := hInst []
    rw [List.append_nil] at hRoot
    exact hRoot.symm
  unfold afterInstall
  rw [run_of_leaves (leaves_installPackage p choice) hInst,
    FileTree.lookup_mkdir_of_ne _ hNe]

theorem outsideInst_filelist :
    OutsideInst p p.filelist := by
  intro rest
  simp [Package.pkginst, Package.filelist]

theorem outsideInst_newfilelist :
    OutsideInst p p.newfilelist := by
  intro rest
  simp [Package.pkginst, Package.newfilelist]

/- The list that `rsync` finds is the one of this run. -/
theorem read_filelist_afterRsync
    (start : PackageDir p) :
    (afterRsync p choice start.dir).read p.filelist =
      some (newFilelist p
        (afterInstall p choice start.dir)) := by
  have hIsDir : ∀ {path : Path}, OutsideInst p path →
      (afterInstall p choice start.dir).isDir path =
        start.dir.isDir path := by
    intro path hInst
    unfold FileTree.isDir
    rw [lookup_afterInstall _ hInst]
  have hOutside : OutsideTrees p.filelist :=
    outsideTrees_package p _
  have hNewDir :
      (afterInstall p choice start.dir).isDir
        p.newfilelist = false := by
    rw [hIsDir outsideInst_newfilelist]
    exact start.newfilelist
  have hListDir : FileTree.isDir
      (beforeMove p (afterInstall p choice start.dir))
      p.filelist = false := by
    unfold FileTree.isDir
    rw [lookup_beforeMove _ hOutside
      (by simp [Package.filelist, Package.newfilelist])
      (by simp [Package.filelist, Package.newdirlist])]
    have hDir := start.filelist
    rw [← hIsDir outsideInst_filelist] at hDir
    exact hDir
  unfold afterRsync
  rw [read_run_of_leaves (leaves_rsyncStaging p choice)
      hOutside, run_recordLists,
    FileTree.read_move_of_ne
      (by simp [Package.filelist, Package.newdirlist])
      (by simp [Package.filelist, Package.dirlist]),
    FileTree.read_move
      (read_newfilelist_beforeMove hNewDir) hListDir,
    if_pos rfl]

end Recorded

------------------------------------------------------------
-- The End Of The Recipe
------------------------------------------------------------

section Finish

variable {p : Package} {choice : StagingChoice}

/- Nothing that was installed is left. -/
theorem read_run_removeTree
    (dir : BuildDir)
    (rest : Path) :
    ((removeTree p.pkginst).run dir).read
        (p.pkginst ++ rest) = none := by
  have hFiles : dir.removeAll ((dir.filesBelow
        p.pkginst).map (fun rest => p.pkginst ++ rest)) =
      (dir.filesBelow p.pkginst).foldl
        (fun current rest => BuildAct.apply current
          (.rm (p.pkginst ++ rest))) dir := by
    unfold FileTree.removeAll
    rw [List.foldl_map]
    rfl
  have hDirs : ∀ (paths : List Path) (state : BuildDir),
      FileTree.read
          (paths.foldl
            (fun current rest => BuildAct.apply current
              (.rmdir (p.pkginst ++ rest))) state)
          (p.pkginst ++ rest) =
        state.read (p.pkginst ++ rest) := by
    intro paths state
    have hSame := state.read_removeDirs
      (paths.map (fun rest => p.pkginst ++ rest))
      (p.pkginst ++ rest)
    unfold FileTree.removeDirs at hSame
    rw [List.foldl_map] at hSame
    exact hSame
  unfold removeTree
  rw [run_block_cons _ (stopped_each_command _ _ _),
    run_block_cons _ (stopped_each_command _ _ _),
    run_block_nil, run_each_command, run_each_command,
    hDirs, ← hFiles, FileTree.read_removeAll]
  split
  · rfl
  · next hNot =>
      by_contra hRead
      apply hNot
      apply List.mem_map_of_mem
      rw [FileTree.mem_filesBelow]
      exact Option.isSome_iff_ne_none.mpr hRead

/- Neither loop of the error branch is given the path. -/
def Spared
    (p : Package)
    (dir : BuildDir)
    (path : Path) : Prop :=
  path ∉ dir.xargsPaths [] stagingName [p.filelist] ∧
    path ∉ dir.xargsPaths [] rootfsName [p.filelist]

/- What `xargs` reads depends on the lists and the `cd`. -/
theorem xargsPaths_congr
    {dir dir' : BuildDir}
    {base : Path}
    {name : Text}
    {lists : List Path}
    (hLists : ∀ list ∈ lists, dir'.read list = dir.read list)
    (hDir : dir'.isDir (base ++ [name]) =
      dir.isDir (base ++ [name])) :
    dir'.xargsPaths base name lists =
      dir.xargsPaths base name lists := by
  have hCat : lists.flatMap dir'.cat =
      lists.flatMap dir.cat := by
    apply List.flatMap_congr
    intro list hMem
    unfold BuildDir.cat
    rw [hLists list hMem]
  unfold BuildDir.xargsPaths BuildDir.listedItems
    BuildDir.enter
  rw [hCat, hDir]

theorem run_finishStaging
    (dir : BuildDir) :
    (block (finishStaging p choice)).run dir =
      (removeTree p.pkginst).run
        (if rsyncSucceeds p choice dir then
          dir
        else
          (removeFromTrees [] [p.filelist] [p.dirlist]).run
            (dir.remove p.fakeroot)) := by
  have hNot := stopped_finishStaging p choice
  have hBranch :
      (block
        [command (.rm p.fakeroot),
          removeFromTrees [] [p.filelist]
            [p.dirlist]]).run dir =
        (removeFromTrees [] [p.filelist] [p.dirlist]).run
          (dir.remove p.fakeroot) := by
    rw [run_block_cons _ (stopped_command _ _),
      run_block_cons _ (stopped_removeFromTrees _ _ _ _),
      run_block_nil]
    rfl
  unfold finishStaging at hNot ⊢
  simp only [List.forall_mem_cons] at hNot
  rw [run_block_cons _ (hNot.1 _),
    run_block_cons _ (hNot.2.1 _), run_block_nil, ← hBranch]
  unfold BuildScript.run
  rw [Script.run_cond, Script.run_skip]

/- The files that a successful `rsync` leaves behind. -/
theorem read_run_finishStaging_of_succeeds
    {dir : BuildDir}
    (hSucceeds : rsyncSucceeds p choice dir = true)
    {path : Path}
    (hInst : OutsideInst p path) :
    ((block (finishStaging p choice)).run dir).read path =
      dir.read path := by
  rw [run_finishStaging, if_pos hSucceeds,
    read_run_of_leaves (leaves_removeTree p) hInst]

/- What the error branch does to a file, and to the list. -/
theorem read_run_finishStaging_of_failed
    {dir : BuildDir}
    (hFailed : rsyncSucceeds p choice dir = false)
    {path : Path}
    (hInst : OutsideInst p path)
    (hFakeroot : path ≠ p.fakeroot) :
    (Spared p dir path → Spared p dir p.filelist →
      ((block (finishStaging p choice)).run dir).read path =
        dir.read path) ∧
      (Spared p dir p.filelist → ¬ Spared p dir path →
        ((block (finishStaging p choice)).run dir).read
          path = none) ∧
      (path = p.filelist → ¬ Spared p dir path →
        ((block (finishStaging p choice)).run dir).read
          path = none) := by
  have hList : p.filelist ≠ p.fakeroot := by
    simp [Package.filelist, Package.fakeroot]
  have hRemove : ∀ name,
      BuildDir.xargsPaths (dir.remove p.fakeroot) [] name
          [p.filelist] =
        dir.xargsPaths [] name [p.filelist] := by
    intro name
    apply xargsPaths_congr
    · intro list hMem
      rw [List.mem_singleton.mp hMem, FileTree.read_remove,
        if_neg hList]
    · exact FileTree.isDir_remove _ _ _
  have hRead :
      ((block (finishStaging p choice)).run dir).read path =
        ((removeFromTrees [] [p.filelist] [p.dirlist]).run
          (dir.remove p.fakeroot)).read path := by
    rw [run_finishStaging, if_neg (by simp [hFailed]),
      read_run_of_leaves (leaves_removeTree p) hInst]
  -- The second loop reads the list that the first one left.
  have hCleaned : p.filelist ∉
        dir.xargsPaths [] stagingName [p.filelist] →
      BuildDir.xargsPaths
        ((removeListed [] stagingName [p.filelist]).run
          (dir.remove p.fakeroot)) [] rootfsName
          [p.filelist] =
        dir.xargsPaths [] rootfsName [p.filelist] := by
    intro hKept
    rw [← hRemove rootfsName, run_removeListed]
    apply xargsPaths_congr
    · intro list hMem
      rw [List.mem_singleton.mp hMem,
        FileTree.read_removeAll, hRemove, if_neg hKept]
    · exact FileTree.isDir_removeAll _ _ _
  rw [read_run_removeFromTrees, hRemove] at hRead
  simp only [FileTree.read_remove, if_neg hFakeroot] at hRead
  rw [hRead]
  refine ⟨?_, ?_, ?_⟩
  · intro hPath hSpared
    rw [hCleaned hSpared.1, if_neg]
    exact not_or.mpr hPath
  · intro hSpared hPath
    rw [hCleaned hSpared.1, if_pos]
    by_contra hNone
    exact hPath (not_or.mp hNone)
  · intro hSame hPath
    subst hSame
    by_cases hFirst : p.filelist ∈
        dir.xargsPaths [] stagingName [p.filelist]
    · rw [if_pos (Or.inl hFirst)]
    · rw [hCleaned hFirst, if_pos]
      by_contra hNone
      exact hPath (not_or.mp hNone)

end Finish

end Mkrootfs
