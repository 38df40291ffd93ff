import Mkrootfs.Build.LedgerRecipes

/-
  The ledger of `%/staging`, and of the recipes of a whole
  run of `make all` that change `staging`.

  Main declarations:
    * `Ledger.Stages`
    * `Ledger.describes_stagingRecipe`
    * `LedgerRun.RunsTo`, `LedgerRun.KeptIn`
    * `LedgerRun.keptIn_iff`
-/

------------------------------------------------------------
-- Files That Are No Longer Installed
------------------------------------------------------------

namespace Mkrootfs

open BuildScript (command block each)

/- The loop over directories changes no file. -/
theorem read_run_dropDirs
    (p : Package)
    (dir : BuildDir)
    (path : Path) :
    ((dropDirs p).run dir).read path = dir.read path := by
  have hOnly : Script.Only
      (fun act => ∃ other,
        act = BuildAct.mkdir other ∨ act = .rmdir other)
      (dropDirs p) := by
    apply Script.only_cond
    · apply Script.only_block
      intro script hMem
      simp only [List.mem_cons, List.not_mem_nil, or_false]
        at hMem
      rcases hMem with rfl | rfl
      · exact Script.only_act (fun _ => ⟨_, Or.inl rfl⟩)
      · apply Script.only_each
        intro name
        apply Script.only_block
        intro script hMem
        simp only [List.mem_cons, List.not_mem_nil,
          or_false] at hMem
        rcases hMem with rfl | rfl
        · exact Script.only_act (fun _ => ⟨_, Or.inr rfl⟩)
        · exact Script.only_act (fun _ => ⟨_, Or.inr rfl⟩)
    · exact Script.only_skip
  apply Script.run_of_only
    (fun dir : BuildDir => dir.read path) ?_ hOnly
  rintro state act ⟨other, rfl | rfl⟩
  · exact FileTree.read_mkdir state other path
  · exact FileTree.read_removeDir state other path

/- The loop over files removes each name from both trees. -/
theorem run_removeDropped
    (p : Package)
    (dir : BuildDir) :
    (removeDropped p).run dir =
      FileTree.removeAll
        ((droppedNames p.filelist p.newfilelist
          (dir.mkdir [stagingName])).flatMap (fun name =>
            [stagingName :: pathOf name,
              rootfsName :: pathOf name]))
        (dir.mkdir [stagingName]) := by
  have hLoop : ∀ (listed : List Text) (state : BuildDir),
      listed.foldl
          (fun current name => Script.run BuildAct.apply
            (block
              [command (.rm (stagingName :: pathOf name)),
                command (.rm (rootfsName :: pathOf name))])
            current)
          state =
        state.removeAll (listed.flatMap (fun name =>
          [stagingName :: pathOf name,
            rootfsName :: pathOf name])) := by
    intro listed
    induction listed with
    | nil => exact fun _ => rfl
    | cons name listed ih =>
        intro state
        rw [List.foldl_cons, ih, List.flatMap_cons,
          FileTree.removeAll_append]
        rfl
  have hMkdir : (command (.mkdir [stagingName])).run dir =
      dir.mkdir [stagingName] := rfl
  have hEach : (each (droppedNames p.filelist p.newfilelist)
      (fun name => block
        [command (.rm (stagingName :: pathOf name)),
          command (.rm (rootfsName :: pathOf name))])
      (dir.mkdir [stagingName])).stopped = false :=
    Script.stopped_each (fun _ _ _ => rfl)
  unfold removeDropped
  rw [run_block_cons _ (stopped_command _ _), hMkdir,
    run_block_cons _ hEach, run_block_nil]
  exact (Script.run_forEach (fun _ _ _ => rfl) _).trans
    (hLoop _ _)

/- A file of a tree, before the lists are renamed. -/
theorem read_run_removeDropped
    (p : Package)
    (dir : BuildDir)
    {root : Text}
    (hRoot : IsTree root)
    (path : Path) :
    ((removeDropped p).run dir).read (root :: path) =
      if path ∈ (droppedNames p.filelist p.newfilelist
          (dir.mkdir [stagingName])).map pathOf then
        none
      else
        dir.read (root :: path) := by
  have hMem : ∀ listed : List Text,
      root :: path ∈ listed.flatMap (fun name =>
        [stagingName :: pathOf name,
          rootfsName :: pathOf name]) ↔
      path ∈ listed.map pathOf := by
    intro listed
    rw [List.mem_flatMap, List.mem_map]
    apply exists_congr
    intro name
    apply and_congr_right
    intro _
    have hApart : stagingName ≠ rootfsName := by decide
    rcases hRoot with rfl | rfl
    · simp [hApart, eq_comm]
    · simp [hApart.symm, eq_comm]
  rw [run_removeDropped, FileTree.read_removeAll,
    FileTree.read_mkdir]
  by_cases hDropped : path ∈
      (droppedNames p.filelist p.newfilelist
        (dir.mkdir [stagingName])).map pathOf
  · rw [if_pos hDropped, if_pos ((hMem _).mpr hDropped)]
  · rw [if_neg hDropped, if_neg (mt (hMem _).mp hDropped)]

/- The renamings are outside the trees. -/
theorem read_run_recordLists
    (p : Package)
    (dir : BuildDir)
    {root : Text}
    (hRoot : IsTree root)
    (path : Path) :
    ((block (recordLists p)).run dir).read (root :: path) =
      ((dropFiles p).run (writeLists p dir)).read
        (root :: path) := by
  have hFiles : root :: path ≠ p.newfilelist ∧
      root :: path ≠ p.filelist :=
    ⟨tree_ne_package hRoot path p _,
      tree_ne_package hRoot path p _⟩
  have hDirs : root :: path ≠ p.newdirlist ∧
      root :: path ≠ p.dirlist :=
    ⟨tree_ne_package hRoot path p _,
      tree_ne_package hRoot path p _⟩
  rw [run_recordLists,
    FileTree.read_move_of_ne hDirs.1 hDirs.2,
    FileTree.read_move_of_ne hFiles.1 hFiles.2]
  exact read_run_dropDirs p _ _

/- What a loop does not change, by what it loops over. -/
theorem read_run_each_of_leaves
    {B : Type}
    {items : BuildDir → List B}
    {body : B → BuildScript}
    {paths : Path → Prop}
    {dir : BuildDir}
    (hBody : ∀ item ∈ items dir, Leaves paths (body item))
    {path : Path}
    (hPath : paths path) :
    ((each items body).run dir).read path = dir.read path :=
  @read_run_of_leaves paths
    (Script.forEach BuildAct.apply body (items dir))
    (Script.only_forEach hBody) path hPath dir

namespace Ledger

variable {names : FileNames}

/-
  A run of `%/staging` in which nothing fails: what it
  installs are the given files, and no directory is in place
  of a file or below one.
-/
structure Stages
    (run : StagingRun)
    (tree : Finset names.File) : Prop where
  installOk : run.choice.installOk = true
  files : ∀ path,
    (run.installed.read (run.p.pkginst ++ path)).isSome =
        true ↔
      ∃ f ∈ tree, f.1 = path
  dirs : ∀ path,
    run.installed.isDir (run.p.pkginst ++ path) = true →
    ∀ f : names.File, ¬ f.1 <+: path
  rsync : rsyncSucceeds run.p run.choice run.copied = true

variable {ledger : Ledger Package names} {run : StagingRun}
variable {tree : Finset names.File}

/- The new list names the installed files. -/
theorem Stages.listOf
    (hStages : Stages run tree) :
    ListOf tree (newFilelist run.p run.installed) := by
  refine ⟨run.installed.filesBelow run.p.pkginst,
    FileTree.nodup_filesBelow _ _, ?_, newFilelist_eq _ _⟩
  intro path
  rw [FileTree.mem_filesBelow, hStages.files]

/- Both lists, while the new one is still beside the old. -/
theorem cat_writeLists
    (run : StagingRun) :
    (writeLists run.p run.installed).cat run.p.filelist =
        run.start.dir.cat run.p.filelist ∧
      (writeLists run.p run.installed).cat run.p.newfilelist =
        newFilelist run.p run.installed := by
  have hInstalled : ∀ {path : Path}, OutsideInst run.p path →
      run.installed.lookup path =
        run.start.dir.lookup path :=
    fun hInst => lookup_afterInstall _ hInst
  have hNewDir :
      run.installed.isDir run.p.newfilelist = false := by
    have hStart := run.start.newfilelist
    unfold FileTree.isDir at hStart ⊢
    rwa [hInstalled outsideInst_newfilelist]
  unfold BuildDir.cat writeLists
  constructor
  · rw [FileTree.read_write, if_neg (fun h => by
        simp [Package.filelist, Package.newdirlist] at h),
      FileTree.read_write, if_neg (fun h => by
        simp [Package.filelist, Package.newfilelist] at h)]
    unfold FileTree.read
    rw [hInstalled outsideInst_filelist]
  · rw [FileTree.read_write, if_neg (fun h => by
        simp [Package.newfilelist, Package.newdirlist] at h),
      FileTree.read_write, if_pos ⟨rfl, hNewDir⟩,
      Option.getD_some]

/- `comm` and `xargs` find the files that were dropped. -/
theorem Describes.mem_droppedNames_iff
    (hDescribes : ledger.Describes run.start.dir)
    (hStages : Stages run tree)
    (f : names.File) :
    f.1 ∈ (droppedNames run.p.filelist run.p.newfilelist
        ((writeLists run.p run.installed).mkdir
          [stagingName])).map pathOf ↔
      f ∈ ledger.files run.p \ tree := by
  rcases hDescribes.exists_lines run.p with ⟨old, hOld⟩
  rcases hStages.listOf.exists_lines with ⟨new, hNew⟩
  have hCat := cat_writeLists run
  have hMkdir : ∀ path, BuildDir.cat
      ((writeLists run.p run.installed).mkdir [stagingName])
      path =
        (writeLists run.p run.installed).cat path := by
    intro path
    unfold BuildDir.cat
    rw [FileTree.read_mkdir]
  have hDiff := mem_commFirst_ascending hOld.ascending
    (hNew.ascending.imp le_of_lt)
  have hTaken : ∀ name ∈ commFirst old new,
      TakenItem isNewline name := fun name hMem =>
    takenItem_of_plain separators_isNewline
      (hOld.plain name ((hDiff name).mp hMem).1)
  unfold droppedNames
  rw [hMkdir, hMkdir, hCat.1, hCat.2, hOld.lines_eq,
    hNew.lines_eq, xargsItems_unlines separators_isNewline
      hTaken, List.mem_map, Finset.mem_sdiff]
  constructor
  · rintro ⟨name, hMem, hSame⟩
    rcases (hDiff name).mp hMem with ⟨hIn, hNot⟩
    rcases (hOld.mem name).mp hIn with ⟨g, hFile, rfl⟩
    rw [pathOf_findName (names.plain g.1 g.2)] at hSame
    rw [← Subtype.ext hSame]
    exact ⟨hFile, fun hTree =>
      hNot ((hNew.mem _).mpr ⟨g, hTree, rfl⟩)⟩
  · rintro ⟨hFile, hNot⟩
    refine ⟨findName f.1, (hDiff _).mpr
      ⟨(hOld.mem _).mpr ⟨f, hFile, rfl⟩, ?_⟩,
      pathOf_findName (names.plain f.1 f.2)⟩
    intro hIn
    rcases (hNew.mem _).mp hIn with ⟨g, hTree, hSame⟩
    rw [findName_inj hSame] at hTree
    exact hNot hTree

/- What is left of a file, before `rsync` copies. -/
theorem Describes.isSome_read_recorded_iff
    (hDescribes : ledger.Describes run.start.dir)
    (hStages : Stages run tree)
    {root : Text}
    (hRoot : IsTree root)
    (f : names.File) :
    (((block (recordLists run.p)).run run.installed).read
        (root :: f.1)).isSome = true ↔
      (run.start.dir.read (root :: f.1)).isSome = true ∧
        f ∉ ledger.files run.p \ tree := by
  have hOutside : OutsideInst run.p (root :: f.1) :=
    fun rest h => tree_ne_package hRoot f.1 run.p _ h.symm
  have hWritten :
      (writeLists run.p run.installed).read (root :: f.1) =
        run.start.dir.read (root :: f.1) := by
    unfold writeLists
    rw [FileTree.read_write, if_neg (fun h =>
        tree_ne_package hRoot f.1 run.p _ h.1),
      FileTree.read_write, if_neg (fun h =>
        tree_ne_package hRoot f.1 run.p _ h.1)]
    unfold FileTree.read
    rw [StagingRun.installed, lookup_afterInstall _ hOutside]
  have hExists : fileExists run.p.filelist
        (writeLists run.p run.installed) = false →
      f ∉ ledger.files run.p := by
    intro hNone hFile
    rcases hDescribes.exists_lines run.p with ⟨old, hOld⟩
    unfold fileExists at hNone
    rw [Option.isSome_eq_false_iff, Option.isNone_iff_eq_none,
      FileTree.lookup_eq_none_iff] at hNone
    have hEmpty : run.start.dir.cat run.p.filelist = [] := by
      rw [← (cat_writeLists run).1]
      unfold BuildDir.cat
      rw [hNone.1]
      rfl
    have hIn := (hOld.mem _).mpr ⟨f, hFile, rfl⟩
    rw [← hOld.lines_eq, hEmpty] at hIn
    cases hIn
  rw [read_run_recordLists run.p _ hRoot]
  unfold dropFiles BuildScript.run
  rw [Script.run_cond]
  split
  · have hDropped := read_run_removeDropped run.p
      (writeLists run.p run.installed) hRoot f.1
    unfold BuildScript.run at hDropped
    rw [hDropped, hWritten]
    have hMem := hDescribes.mem_droppedNames_iff hStages f
    split
    · next hGone => simp [hMem.mp hGone]
    · next hKept =>
        exact ⟨fun hSome => ⟨hSome, mt hMem.mpr hKept⟩,
          fun h => h.1⟩
  · next hNone =>
      rw [Script.run_skip, hWritten]
      refine ⟨fun hSome => ⟨hSome, ?_⟩, fun h => h.1⟩
      intro hMem
      exact hExists (by simpa using hNone)
        (Finset.mem_sdiff.mp hMem).1

/- What `rsync` is about to copy is no file of another. -/
theorem Stages.not_prefix_of_mem
    (hStages : Stages run tree)
    {dir : BuildDir}
    (hInst : ∀ path,
      dir.lookup (run.p.pkginst ++ path) =
        run.installed.lookup (run.p.pkginst ++ path))
    {f : names.File}
    (hTree : f ∉ tree)
    {entry : Path × FileNode Text}
    (hMem : entry ∈ rsyncNodes run.p run.choice dir) :
    ¬ f.1 <+: entry.1 := by
  have hLookup : dir.lookup (run.p.pkginst ++ entry.1) =
      some entry.2 := by
    unfold rsyncNodes at hMem
    rcases List.mem_append.mp hMem with hMem | hMem
    · rcases List.mem_filterMap.mp hMem with
        ⟨path, _, hEntry⟩
      rw [Option.map_eq_some_iff] at hEntry
      rcases hEntry with ⟨node, hNode, rfl⟩
      exact hNode
    · split at hMem
      · exact (FileTree.mem_nodesBelow _ _ _ _).mp hMem
      · cases hMem
  rw [hInst] at hLookup
  intro hPrefix
  cases hNode : entry.2 with
  | dir =>
      rw [hNode] at hLookup
      exact hStages.dirs entry.1
        (by simp [FileTree.isDir, hLookup]) f hPrefix
  | file text =>
      rw [hNode] at hLookup
      rcases (hStages.files entry.1).mp
          (by simp [FileTree.read, hLookup]) with
        ⟨g, hFile, hSame⟩
      rw [← hSame] at hPrefix
      have hEq := names.apart f.1 f.2 g.1 g.2 hPrefix
      rw [← Subtype.ext hEq] at hFile
      exact hTree hFile

end Ledger

/- What `rsync` copies is at one path, or above it. -/
theorem leaves_copyStaging_entry
    (entry : Path × FileNode Text) :
    Leaves
      (fun other => ∀ target, target <+: entry.1 →
        stagingName :: target ≠ other)
      (copyStaging entry) := by
  rcases entry with ⟨target, node⟩
  have hSelf : target <+: target := List.prefix_rfl
  apply leaves_block
  intro script hMem
  simp only [List.mem_cons, List.not_mem_nil, or_false]
    at hMem
  rcases hMem with rfl | rfl
  · exact leaves_putParents stagingName target
  · cases node with
    | dir => exact leaves_command_upTo (fun _ h => h) hSelf
    | file text =>
        apply leaves_block
        intro script hMem
        simp only [List.mem_cons, List.not_mem_nil,
          or_false] at hMem
        rcases hMem with rfl | rfl
        · exact leaves_command_upTo (fun _ h => h) hSelf
        · exact leaves_command_upTo (fun _ h => h) hSelf

/- A path that `rsync` neither copies nor needs as a parent. -/
theorem read_run_rsyncStaging
    {p : Package}
    {choice : StagingChoice}
    {dir : BuildDir}
    {path : Path}
    (hApart : ∀ entry ∈
        rsyncNodes p choice (dir.mkdir [stagingName]),
      ∀ target, target <+: entry.1 →
        stagingName :: target ≠ path) :
    ((rsyncStaging p choice).run dir).read path =
      dir.read path := by
  have hMkdir : (command (.mkdir [stagingName])).run dir =
      dir.mkdir [stagingName] := rfl
  have hLoop : (each (rsyncNodes p choice) copyStaging
      (dir.mkdir [stagingName])).stopped = false :=
    Script.stopped_each (fun entry _ state =>
      stopped_copyStaging entry state)
  have hCopied : ((block
      [command (.mkdir [stagingName]),
        each (rsyncNodes p choice) copyStaging]).run
          dir).read path = dir.read path := by
    rw [run_block_cons _ (stopped_command _ _), hMkdir,
      run_block_cons _ hLoop, run_block_nil,
      ← FileTree.read_mkdir dir [stagingName] path]
    refine @read_run_each_of_leaves _ _ _
      (fun other => other = path) _ ?_ path rfl
    intro entry hMem state act hAct other hOther
    exact leaves_copyStaging_entry entry state act hAct
      other (hOther ▸ hApart entry hMem)
  unfold rsyncStaging BuildScript.run
  rw [Script.run_cond]
  split
  · exact hCopied
  · rfl

/- What is installed, when the lists are recorded. -/
theorem lookup_inst_recorded
    (run : StagingRun)
    (path : Path) :
    ((block (recordLists run.p)).run run.installed).lookup
        (run.p.pkginst ++ path) =
      run.installed.lookup (run.p.pkginst ++ path) := by
  rw [run_recordLists,
    FileTree.lookup_move_of_ne _
      (by simp [Package.pkginst, Package.newdirlist])
      (by simp [Package.pkginst, Package.dirlist]),
    FileTree.lookup_move_of_ne _
      (by simp [Package.pkginst, Package.newfilelist])
      (by simp [Package.pkginst, Package.filelist])]
  apply lookup_beforeMove _ (outsideTrees_package run.p _)
  · simp [Package.newfilelist]
  · simp [Package.newdirlist]

namespace Ledger

variable {names : FileNames} {run : StagingRun}
variable {tree : Finset names.File}

/- `rsync` leaves the other files of the trees alone. -/
theorem Stages.read_copied_of_not_mem
    (hStages : Stages run tree)
    {f : names.File}
    (hTree : f ∉ tree) :
    run.copied.read (stagingName :: f.1) =
      ((block (recordLists run.p)).run run.installed).read
        (stagingName :: f.1) := by
  apply read_run_rsyncStaging
  intro entry hMem target hPrefix hSame
  rw [(List.cons.inj hSame).2] at hPrefix
  refine hStages.not_prefix_of_mem ?_ hTree hMem hPrefix
  intro path
  have hNe : run.p.pkginst ++ path ≠ [stagingName] :=
    fun h => tree_ne_package (Or.inl rfl) [] run.p _ h.symm
  rw [FileTree.lookup_mkdir_of_ne _ hNe]
  exact lookup_inst_recorded run path

theorem read_rootfs_copied
    (run : StagingRun)
    (path : Path) :
    run.copied.read (rootfsName :: path) =
      ((block (recordLists run.p)).run run.installed).read
        (rootfsName :: path) := by
  apply read_run_rsyncStaging
  intro entry _ target _ hSame
  exact absurd (List.cons.inj hSame).1 (by decide)

/- The lists of the other packages stay as they are. -/
theorem read_filelist_copied_of_ne
    (run : StagingRun)
    {p : Package}
    (hNe : p ≠ run.p) :
    run.copied.read p.filelist =
      run.start.dir.read p.filelist := by
  have hFilelist : p.filelist ≠ run.p.filelist :=
    fun hSame => hNe (filelist_injective hSame)
  have hOutside : OutsideTrees p.filelist :=
    outsideTrees_package p _
  have hMoved : ((block (recordLists run.p)).run
        run.installed).lookup p.filelist =
      run.installed.lookup p.filelist := by
    rw [run_recordLists,
      FileTree.lookup_move_of_ne _
        (by simp [Package.filelist, Package.newdirlist])
        (by simp [Package.filelist, Package.dirlist]),
      FileTree.lookup_move_of_ne _
        (by simp [Package.filelist, Package.newfilelist])
        hFilelist]
    apply lookup_beforeMove _ hOutside
    · simp [Package.filelist, Package.newfilelist]
    · simp [Package.filelist, Package.newdirlist]
  have hInstalled : run.installed.lookup p.filelist =
      run.start.dir.lookup p.filelist := by
    apply lookup_afterInstall
    intro rest
    simp [Package.pkginst, Package.filelist]
  unfold StagingRun.copied afterRsync
  rw [read_run_of_leaves
    (leaves_rsyncStaging run.p run.choice) hOutside]
  unfold FileTree.read
  rw [← hInstalled, ← hMoved]
  rfl

variable {ledger : Ledger Package names}

/- `%/staging` leads to the ledger with the new list. -/
theorem describes_stagingRecipe
    (hDescribes : ledger.Describes run.start.dir)
    (hStages : Stages run tree) :
    (ledger.stage run.p tree).Describes run.final where
  staging f := by
    have hFinal : run.final.read (stagingName :: f.1) =
        run.copied.read (stagingName :: f.1) := by
      rw [StagingRun.final_eq hStages.installOk,
        read_run_finishStaging_of_succeeds hStages.rsync
          (StagingRun.outsideInst_staging run.p f.1)]
    unfold stage
    rw [Finset.mem_union, Finset.mem_sdiff, hFinal,
      hDescribes.staging f]
    by_cases hTree : f ∈ tree
    · have hRead := (hStages.files f.1).mpr ⟨f, hTree, rfl⟩
      rcases Option.isSome_iff_exists.mp hRead with
        ⟨text, hText⟩
      rw [StagingRun.read_copied_of_succeeds hStages.rsync
        hText]
      simp [hTree]
    · rw [hStages.read_copied_of_not_mem hTree,
        hDescribes.isSome_read_recorded_iff hStages
          (Or.inl rfl), or_iff_left hTree]
  rootfs f := by
    have hOutside : OutsideInst run.p (rootfsName :: f.1) :=
      fun rest h =>
        tree_ne_package (Or.inr rfl) f.1 run.p _ h.symm
    rw [StagingRun.final_eq hStages.installOk,
      read_run_finishStaging_of_succeeds hStages.rsync
        hOutside,
      read_rootfs_copied, hDescribes.isSome_read_recorded_iff
        hStages (Or.inr rfl), ← hDescribes.rootfs f]
    exact Finset.mem_sdiff
  listed p := by
    have hOutside : OutsideInst run.p p.filelist := by
      intro rest
      simp [Package.pkginst, Package.filelist]
    rw [StagingRun.final_eq hStages.installOk,
      read_run_finishStaging_of_succeeds hStages.rsync
        hOutside]
    change Option.Rel ListOf
      (Function.update ledger.listed run.p (some tree) p) _
    by_cases hSame : p = run.p
    · subst hSame
      rw [Function.update_self,
        StagingRun.read_filelist_copied]
      exact Option.Rel.some hStages.listOf
    · rw [Function.update_of_ne hSame,
        read_filelist_copied_of_ne run hSame]
      exact hDescribes.listed p

end Ledger

------------------------------------------------------------
-- Whole Runs
------------------------------------------------------------

namespace LedgerRun

variable {names : FileNames}

/- The recipes of a run, on the build directory. -/
inductive RunsTo (run : LedgerRun Package names) :
    List (LedgerTask Package) → BuildDir → BuildDir → Prop
| nil (dir : BuildDir) : RunsTo run [] dir dir
| stage
    {tasks : List (LedgerTask Package)}
    {last : BuildDir}
    (staging : StagingRun)
    (stages : Ledger.Stages staging (run.tree staging.p))
    (rest : RunsTo run tasks staging.final last) :
    RunsTo run (.stage staging.p :: tasks)
      staging.start.dir last
| clean
    {tasks : List (LedgerTask Package)}
    {dir last : BuildDir}
    (disabled : List Package)
    (mem : ∀ p, p ∈ disabled ↔ p ∈ run.disabled)
    (trees : ∀ root, IsTree root → dir.isDir [root] = true)
    (rest : RunsTo run tasks
      ((cleanRemovedPackages disabled).run dir) last) :
    RunsTo run (.clean :: tasks) dir last

variable {run : LedgerRun Package names}
variable {ledger : Ledger Package names}

/- The ledger follows the build directory. -/
theorem describes_foldl
    {tasks : List (LedgerTask Package)}
    {dir last : BuildDir}
    (hRuns : run.RunsTo tasks dir last)
    (hDescribes : ledger.Describes dir) :
    (tasks.foldl run.step ledger).Describes last := by
  induction hRuns generalizing ledger with
  | nil dir => exact hDescribes
  | stage staging hStages _ ih =>
      exact ih (Ledger.describes_stagingRecipe hDescribes
        hStages)
  | clean disabled hMem hTrees _ ih =>
      have hSame : disabled.toFinset = run.disabled := by
        ext p
        rw [List.mem_toFinset, hMem]
      apply ih
      unfold step
      rw [← hSame]
      exact Ledger.describes_cleanRemovedPackages hDescribes
        hTrees disabled

/-
  Each file in the list of an enabled package is staged, in
  the build directory itself.
-/
def KeptIn
    (run : LedgerRun Package names)
    (dir : BuildDir) : Prop :=
  ∀ p ∈ run.enabled, ∀ f : names.File,
    findName f.1 ∈ Text.lines (dir.cat p.filelist) →
    (dir.read (stagingName :: f.1)).isSome = true

theorem kept_iff_keptIn
    {dir : BuildDir}
    (hDescribes : ledger.Describes dir) :
    run.Kept ledger ↔ run.KeptIn dir := by
  have hListed : ∀ p (f : names.File),
      findName f.1 ∈ Text.lines (dir.cat p.filelist) ↔
        f ∈ ledger.files p := by
    intro p f
    rcases hDescribes.exists_lines p with ⟨lines, hLines⟩
    rw [hLines.lines_eq, hLines.mem]
    constructor
    · rintro ⟨g, hFile, hSame⟩
      rwa [← Ledger.findName_inj hSame]
    · exact fun hFile => ⟨f, hFile, rfl⟩
  unfold Kept KeptIn
  simp only [hListed, hDescribes.staging]

/-
  The recipes keep the files of the enabled packages exactly
  when the files move safely.
-/
theorem keptIn_iff
    {dir last : BuildDir}
    (hRuns : run.RunsTo run.order dir last)
    (hDescribes : ledger.Describes dir) :
    run.KeptIn last ↔ run.MovesSafely ledger.files := by
  have hLast : (run.apply ledger).Describes last :=
    describes_foldl hRuns hDescribes
  rw [← kept_iff_keptIn hLast, run.kept_apply_iff]

end LedgerRun

end Mkrootfs
