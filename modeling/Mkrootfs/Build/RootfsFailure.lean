import Mkrootfs.Build.RecipeRuns

/-
  What cleaning the two trees is meant to remove, and what
  the `rsync failed` branch of the two rules for the root
  file system really removes: it looks for the trees in the
  build directory of the package.

  Main declarations:
    * `BuildDir.listedPaths`, `BuildDir.CleanedAway`
    * `RootfsRun`, `RootfsRun.CleansTrees`
    * `RootfsRun.cleansTrees_iff`
-/

------------------------------------------------------------
-- What Is Meant To Be Removed
------------------------------------------------------------

namespace Mkrootfs

open BuildScript (command block each)

/- The paths that the lines of some lists name. -/
def BuildDir.listedPaths
    (dir : BuildDir)
    (lists : List Path) : List Path :=
  lists.flatMap (fun list =>
    (Text.lines (dir.cat list)).map pathOf)

/- The same paths in `staging` and in `rootfs`. -/
def inTrees (paths : List Path) : List Path :=
  paths.map (fun path => stagingName :: path) ++
    paths.map (fun path => rootfsName :: path)

/-
  The listed files of both trees, and the listed directories
  that hold nothing else.
-/
def BuildDir.CleanedAway
    (dir : BuildDir)
    (filelists dirlists : List Path)
    (path : Path) : Prop :=
  (path ∈ inTrees (dir.listedPaths filelists) ∧
      (dir.read path).isSome = true) ∨
    FileTree.Emptied
      (dir.removeAll (inTrees (dir.listedPaths filelists)))
      (inTrees (dir.listedPaths dirlists)) path

theorem mem_inTrees
    {paths : List Path}
    {path : Path} :
    path ∈ inTrees paths ↔
      ∃ root rest, IsTree root ∧ rest ∈ paths ∧
        path = root :: rest := by
  unfold inTrees
  rw [List.mem_append, List.mem_map, List.mem_map]
  constructor
  · rintro (⟨rest, hMem, hSame⟩ | ⟨rest, hMem, hSame⟩)
    · exact ⟨_, rest, Or.inl rfl, hMem, hSame.symm⟩
    · exact ⟨_, rest, Or.inr rfl, hMem, hSame.symm⟩
  · rintro ⟨root, rest, hRoot | hRoot, hMem, hSame⟩
    · exact Or.inl ⟨rest, hMem, by rw [hSame, hRoot]⟩
    · exact Or.inr ⟨rest, hMem, by rw [hSame, hRoot]⟩

/- What is removed was there, in one of the trees. -/
theorem lookup_of_cleanedAway
    {dir : BuildDir}
    {filelists dirlists : List Path}
    {path : Path}
    (hCleaned : dir.CleanedAway filelists dirlists path) :
    dir.lookup path ≠ none ∧
      ∃ root rest, IsTree root ∧ path = root :: rest := by
  rcases hCleaned with ⟨hMem, hRead⟩ | ⟨hDir, hMem, hBelow⟩
  · rcases mem_inTrees.mp hMem with
      ⟨root, rest, hRoot, _, hSame⟩
    refine ⟨?_, root, rest, hRoot, hSame⟩
    intro hNone
    rw [((FileTree.lookup_eq_none_iff dir path).mp hNone).1]
      at hRead
    cases hRead
  · rcases mem_inTrees.mp hMem with
      ⟨root, rest, hRoot, _, hSame⟩
    refine ⟨?_, root, rest, hRoot, hSame⟩
    intro hNone
    rw [FileTree.isDir_removeAll,
      ((FileTree.lookup_eq_none_iff dir path).mp hNone).2]
      at hDir
    cases hDir

------------------------------------------------------------
-- Loops That Find Nothing
------------------------------------------------------------

/- Every path that is given to `rm` or `rmdir` is there. -/
theorem xargsPaths_below
    {dir : BuildDir}
    {base : Path}
    {name : Text}
    {lists : List Path}
    {path : Path}
    (hMem : path ∈ dir.xargsPaths base name lists) :
    ∃ rest, path = base ++ rest := by
  unfold BuildDir.xargsPaths at hMem
  rcases List.mem_map.mp hMem with ⟨item, _, rfl⟩
  unfold BuildDir.enter
  split
  · exact ⟨[name] ++ pathOf item, by rw [List.append_assoc]⟩
  · exact ⟨pathOf item, rfl⟩

/- Both loops over one kind of list find nothing. -/
structure Harmless
    (base : Path)
    (filelists dirlists : List Path)
    (dir : BuildDir) : Prop where
  files : ∀ root, IsTree root →
    ∀ path ∈ dir.xargsPaths base root filelists,
    dir.read path = none
  dirs : ∀ root, IsTree root →
    ∀ path ∈ dir.xargsPaths base root dirlists,
    ¬ dir.EmptyDir path

/- What is gone stays away. -/
theorem lookup_removeListed_of_none
    {base : Path}
    {name : Text}
    {lists : List Path}
    {dir : BuildDir}
    {path : Path}
    (hNone : dir.lookup path = none) :
    ((removeListed base name lists).run dir).lookup path =
      none := by
  rw [run_removeListed]
  exact FileTree.lookup_removeAll_of_none _ hNone

theorem lookup_removeListedDirs_of_none
    {base : Path}
    {name : Text}
    {lists : List Path}
    {dir : BuildDir}
    {path : Path}
    (hNone : dir.lookup path = none) :
    ((removeListedDirs base name lists).run dir).lookup
        path = none := by
  rw [run_removeListedDirs]
  exact FileTree.lookup_removeDirs_of_none _ hNone

/- A file that is given to `rm` is not there afterwards. -/
theorem read_none_of_removeListed
    {base : Path}
    {name : Text}
    {lists : List Path}
    {dir : BuildDir}
    (hSame : ∀ path,
      ((removeListed base name lists).run dir).lookup path =
        none →
      dir.lookup path = none) :
    ∀ path ∈ dir.xargsPaths base name lists,
      dir.read path = none := by
  intro path hMem
  have hNone := hSame path
  rw [run_removeListed, FileTree.lookup_removeAll] at hNone
  by_contra hRead
  have hSome := Option.isSome_iff_ne_none.mpr hRead
  rw [if_pos ⟨hMem, hSome⟩] at hNone
  exact hRead ((FileTree.lookup_eq_none_iff dir path).mp
    (hNone rfl)).1

theorem not_emptyDir_of_removeListedDirs
    {base : Path}
    {name : Text}
    {lists : List Path}
    {dir : BuildDir}
    (hSame : ∀ path,
      ((removeListedDirs base name lists).run dir).lookup
          path = none →
      dir.lookup path = none) :
    ∀ path ∈ dir.xargsPaths base name lists,
      ¬ dir.EmptyDir path := by
  intro path hMem hEmpty
  have hNone := hSame path
  rw [run_removeListedDirs] at hNone
  have hGone := hNone
    (FileTree.lookup_removeDirs_of_empty hEmpty hMem)
  rw [(FileTree.isDir_iff dir path).mp hEmpty.1] at hGone
  cases hGone

theorem run_removeListed_of_harmless
    {base : Path}
    {name : Text}
    {lists : List Path}
    {dir : BuildDir}
    (hNone : ∀ path ∈ dir.xargsPaths base name lists,
      dir.read path = none) :
    (removeListed base name lists).run dir = dir := by
  rw [run_removeListed]
  exact FileTree.removeAll_of_read_none hNone

theorem run_removeListedDirs_of_harmless
    {base : Path}
    {name : Text}
    {lists : List Path}
    {dir : BuildDir}
    (hKept : ∀ path ∈ dir.xargsPaths base name lists,
      ¬ dir.EmptyDir path) :
    (removeListedDirs base name lists).run dir = dir := by
  rw [run_removeListedDirs]
  exact FileTree.removeDirs_of_not_empty hKept

/- Loops that find nothing change nothing. -/
theorem run_removeFromTrees_of_harmless
    {base : Path}
    {filelists dirlists : List Path}
    {dir : BuildDir}
    (hHarmless : Harmless base filelists dirlists dir) :
    (removeFromTrees base filelists dirlists).run dir =
      dir := by
  rw [run_removeFromTrees,
    run_removeListed_of_harmless
      (hHarmless.files _ (Or.inl rfl)),
    run_removeListed_of_harmless
      (hHarmless.files _ (Or.inr rfl)),
    run_removeListedDirs_of_harmless
      (hHarmless.dirs _ (Or.inl rfl)),
    run_removeListedDirs_of_harmless
      (hHarmless.dirs _ (Or.inr rfl))]

/-
  If nothing is gone, then none of the loops has found
  anything, from the first one on.
-/
theorem harmless_of_run
    {base : Path}
    {filelists dirlists : List Path}
    {dir : BuildDir}
    (hSame : ∀ path,
      ((removeFromTrees base filelists dirlists).run
        dir).lookup path = none →
      dir.lookup path = none) :
    Harmless base filelists dirlists dir := by
  rw [run_removeFromTrees] at hSame
  have hFirst := read_none_of_removeListed
    (fun path hNone => hSame path
      (lookup_removeListedDirs_of_none
        (lookup_removeListedDirs_of_none
          (lookup_removeListed_of_none hNone))))
  rw [run_removeListed_of_harmless hFirst] at hSame
  have hSecond := read_none_of_removeListed
    (fun path hNone => hSame path
      (lookup_removeListedDirs_of_none
        (lookup_removeListedDirs_of_none hNone)))
  rw [run_removeListed_of_harmless hSecond] at hSame
  have hThird := not_emptyDir_of_removeListedDirs
    (fun path hNone => hSame path
      (lookup_removeListedDirs_of_none hNone))
  rw [run_removeListedDirs_of_harmless hThird] at hSame
  have hFourth := not_emptyDir_of_removeListedDirs hSame
  refine ⟨?_, ?_⟩
  · rintro root (rfl | rfl)
    · exact hFirst
    · exact hSecond
  · rintro root (rfl | rfl)
    · exact hThird
    · exact hFourth

/- Nothing outside of the working directory is changed. -/
theorem lookup_removeFromTrees_of_outside
    {base : Path}
    {path : Path}
    (hOutside : ∀ rest, path ≠ base ++ rest)
    (filelists dirlists : List Path)
    (dir : BuildDir) :
    ((removeFromTrees base filelists dirlists).run
        dir).lookup path =
      dir.lookup path := by
  have hMem : ∀ (state : BuildDir) name lists,
      path ∉ state.xargsPaths base name lists := by
    intro state name lists hIn
    rcases xargsPaths_below hIn with ⟨rest, hSame⟩
    exact hOutside rest hSame
  rw [run_removeFromTrees, run_removeListedDirs,
    FileTree.lookup_removeDirs_of_not_mem _ (hMem _ _ _),
    run_removeListedDirs,
    FileTree.lookup_removeDirs_of_not_mem _ (hMem _ _ _),
    run_removeListed, FileTree.lookup_removeAll,
    if_neg (fun h => hMem _ _ _ h.1),
    run_removeListed, FileTree.lookup_removeAll,
    if_neg (fun h => hMem _ _ _ h.1)]

------------------------------------------------------------
-- The Branch
------------------------------------------------------------

/-
  One run of `default-rootfs`, with the words of
  `$(rootfs-y)`, or of `default-copyall-rootfs`, from any
  build directory, in which `rsync` fails.
-/
structure RootfsRun where
  p : Package
  rootfsY : Option (List Text)
  choice : RootfsChoice
  failed : choice.rsyncOk = false
  start : BuildDir

namespace RootfsRun

variable (run : RootfsRun)

/- The names that are passed to `rsync`. -/
def names (dir : BuildDir) : List Path :=
  match run.rootfsY with
  | none =>
      ((shellWords (dir.cat run.p.dirlist ++
        dir.cat run.p.filelist)).flatMap
          run.choice.expand).map pathOf
  | some words =>
      ((words.map (fun word => '.' :: word)).flatMap
        run.choice.expand).map pathOf

/- The rule. -/
def recipe : BuildScript :=
  match run.rootfsY with
  | none => defaultCopyallRootfs run.p run.choice
  | some words => defaultRootfs run.p words run.choice

/- What `rsync` does before it fails. -/
def copy : BuildScript :=
  each (fun dir => rootfsNodes run.choice (run.names dir) dir)
    (fun entry => block
      [each (fun _ => parents entry.1) (fun parent =>
        command (.putDir (rootfsName :: parent))),
        command (.copyRootfs run.p entry.1 entry.2)])

/- The build directory when the branch is taken. -/
def copied : BuildDir :=
  run.copy.run (run.start.mkdir [rootfsName])

/- The build directory behind the rule. -/
def final : BuildDir :=
  run.recipe.run run.start

/-
  The branch removes what the lists of the package name from
  the two trees, and nothing else.
-/
def CleansTrees : Prop :=
  ∀ path,
    (run.copied.CleanedAway [run.p.filelist]
        [run.p.dirlist] path →
      run.final.lookup path = none) ∧
      (¬ run.copied.CleanedAway [run.p.filelist]
          [run.p.dirlist] path →
        run.final.lookup path = run.copied.lookup path)

/-
  There is nothing to remove: neither what the lists name,
  nor where the shell looks for it instead.
-/
structure NothingToRemove : Prop where
  fakeroot : run.copied.read run.p.fakeroot = none
  listed : ∀ path, ¬ run.copied.CleanedAway
    [run.p.filelist] [run.p.dirlist] path
  harmless : Harmless [run.p.name] [run.p.filelist]
    [run.p.dirlist] run.copied

------------------------------------------------------------
-- What Is Really Removed
------------------------------------------------------------

variable {run}

theorem recipe_eq :
    run.recipe =
      block
        [command (.mkdir [rootfsName]),
          run.copy,
          Script.cond (fun _ => run.choice.rsyncOk)
            Script.skip
            (block
              [command (.rm run.p.fakeroot),
                removeFromTrees [run.p.name]
                  [run.p.filelist] [run.p.dirlist],
                Script.exit])] := by
  unfold recipe copy names
  cases run.rootfsY with
  | none => rfl
  | some words => rfl

theorem stopped_copy (dir : BuildDir) :
    (run.copy dir).stopped = false := by
  apply Script.stopped_each
  intro entry _ state
  apply Script.stopped_block
  intro script hMem state
  simp only [List.mem_cons, List.not_mem_nil, or_false]
    at hMem
  rcases hMem with rfl | rfl
  · exact Script.stopped_each (fun _ _ _ => rfl)
  · rfl

/- The branch works in the directory of the package. -/
theorem final_eq :
    run.final =
      (removeFromTrees [run.p.name] [run.p.filelist]
        [run.p.dirlist]).run
          (run.copied.remove run.p.fakeroot) := by
  have hLast : ∀ (script : BuildScript) (state : BuildDir),
      (block [script]).run state = script.run state := by
    intro script state
    unfold BuildScript.run BuildScript.block
    simp only [Script.block]
    rw [Script.run_seq, Script.run_skip, ite_self]
  have hBranch : ∀ state : BuildDir,
      BuildScript.run
        (Script.cond (fun _ => run.choice.rsyncOk)
          Script.skip
          (block
            [command (.rm run.p.fakeroot),
              removeFromTrees [run.p.name]
                [run.p.filelist] [run.p.dirlist],
              Script.exit])) state =
        (removeFromTrees [run.p.name] [run.p.filelist]
          [run.p.dirlist]).run
            (state.remove run.p.fakeroot) := by
    intro state
    have hSecond := run_block_cons [Script.exit]
      (stopped_removeFromTrees [run.p.name]
        [run.p.filelist] [run.p.dirlist]
        (state.remove run.p.fakeroot))
    have hFirst := run_block_cons
      [removeFromTrees [run.p.name] [run.p.filelist]
        [run.p.dirlist], Script.exit]
      (stopped_command (.rm run.p.fakeroot) state)
    rw [run_command] at hFirst
    unfold BuildScript.run at hFirst hSecond ⊢
    rw [Script.run_cond, run.failed, if_neg (by simp),
      hFirst]
    refine hSecond.trans ?_
    exact hLast Script.exit _
  unfold final
  rw [recipe_eq, run_block_cons _ (stopped_command _ _),
    run_block_cons _ (stopped_copy _), run_command, hLast,
    hBranch]
  rfl

/- Neither of the two trees is changed. -/
theorem lookup_final_tree
    {root : Text}
    (hRoot : IsTree root)
    (rest : Path) :
    run.final.lookup (root :: rest) =
      run.copied.lookup (root :: rest) := by
  have hOutside : ∀ below,
      root :: rest ≠ [run.p.name] ++ below :=
    fun below => tree_ne_package hRoot rest run.p below
  rw [final_eq, lookup_removeFromTrees_of_outside hOutside,
    FileTree.lookup_remove, if_neg]
  rintro ⟨hSame, _⟩
  exact tree_ne_package hRoot rest run.p _ hSame

/-
  The branch keeps its promise exactly when there is nothing
  for it to do.
-/
theorem cleansTrees_iff (run : RootfsRun) :
    run.CleansTrees ↔ run.NothingToRemove := by
  constructor
  · intro hCleans
    have hListed : ∀ path, ¬ run.copied.CleanedAway
        [run.p.filelist] [run.p.dirlist] path := by
      intro path hCleaned
      have hGone := (hCleans path).1 hCleaned
      rcases lookup_of_cleanedAway hCleaned with
        ⟨hThere, root, rest, hRoot, rfl⟩
      rw [lookup_final_tree hRoot] at hGone
      exact hThere hGone
    have hSame : ∀ path,
        run.final.lookup path = run.copied.lookup path :=
      fun path => (hCleans path).2 (hListed path)
    have hNone : run.copied.read run.p.fakeroot = none := by
      have hRead : run.final.read run.p.fakeroot = none := by
        rw [final_eq, read_run_removeFromTrees,
          FileTree.read_remove, if_pos rfl]
        simp
      unfold FileTree.read at hRead ⊢
      rw [hSame] at hRead
      exact hRead
    have hStart : run.copied.remove run.p.fakeroot =
        run.copied :=
      FileTree.remove_of_read_none hNone
    refine ⟨hNone, hListed, ?_⟩
    apply harmless_of_run
    intro path hGone
    rw [← hSame path, final_eq, hStart]
    exact hGone
  · intro hNothing path
    refine ⟨fun hCleaned =>
      absurd hCleaned (hNothing.listed path), fun _ => ?_⟩
    rw [final_eq,
      FileTree.remove_of_read_none hNothing.fakeroot,
      run_removeFromTrees_of_harmless hNothing.harmless]

end RootfsRun

------------------------------------------------------------
-- A File Of The Package
------------------------------------------------------------

/-
  A package that has installed `Makefile`, with another file
  of that name in its build directory.
-/
def makefileRun : RootfsRun where
  p := samplePackage
  rootfsY := none
  choice :=
    { expand := fun word => [word]
      through := fun _ => none
      copied := []
      rsyncOk := false }
  failed := rfl
  start :=
    let makefile : Text :=
      ['M', 'a', 'k', 'e', 'f', 'i', 'l', 'e']
    ((((AList.insert [['p']] .dir ∅).insert
      [['p'], makefile] (.file [])).insert
      [stagingName] .dir).insert
      [stagingName, makefile] (.file [])).insert
      [['p'],
        ['.', 'm', 'k', 'r', '.', 'f', 'i', 'l', 'e', 'l',
          'i', 's', 't']]
      (.file ('.' :: '/' :: makefile ++ ['\n']))

/- The wrong file is removed. -/
theorem makefileRun_not_cleansTrees :
    ¬ ∀ run : RootfsRun, run.CleansTrees := by
  intro hAll
  have hKept := (hAll makefileRun
    [['p'], ['M', 'a', 'k', 'e', 'f', 'i', 'l', 'e']]).2
  have hNot : ¬ makefileRun.copied.CleanedAway
      [makefileRun.p.filelist] [makefileRun.p.dirlist]
      [['p'], ['M', 'a', 'k', 'e', 'f', 'i', 'l', 'e']] := by
    intro hCleaned
    rcases (lookup_of_cleanedAway hCleaned).2 with
      ⟨root, rest, hRoot, hSame⟩
    exact tree_ne_package hRoot rest makefileRun.p _
      hSame.symm
  have hGone : makefileRun.final.lookup
      [['p'], ['M', 'a', 'k', 'e', 'f', 'i', 'l', 'e']] =
      none := by
    decide +kernel
  have hThere : makefileRun.copied.lookup
      [['p'], ['M', 'a', 'k', 'e', 'f', 'i', 'l', 'e']] =
      some (.file []) := by
    decide +kernel
  have hSame := hKept hNot
  rw [hGone, hThere] at hSame
  cases hSame

end Mkrootfs
