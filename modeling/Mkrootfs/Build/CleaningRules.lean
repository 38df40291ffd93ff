import Mkrootfs.Build.RecordedLists
import Mkrootfs.Build.RootfsFailure

/-
  `%/clean` and `clean-removed-packages` from one end to the
  other, and what they remove when `xargs` reads their lists
  as they are.

  Main declarations:
    * `RecordedPackage`, `CleaningRun`
    * `CleaningRun.RemovesOwnFiles`
    * `CleaningRun.run_recipe`
    * `CleaningRun.removesOwnFiles_of_read`
-/

------------------------------------------------------------
-- Packages With Lists
------------------------------------------------------------

namespace Mkrootfs

open BuildScript (command block each)

/- A package, and what its two lists name. -/
structure RecordedPackage where
  p : Package
  files : List Path
  dirs : List Path
  filesValid : ∀ path ∈ files, FilePath path
  dirsValid : ∀ path ∈ dirs, FilePath path
  dirsClosed : ClosedUp dirs

/- The lists are in the build directory, if not empty. -/
structure RecordedPackage.Recorded
    (record : RecordedPackage)
    (dir : BuildDir) : Prop where
  files : dir.cat record.p.filelist = listText record.files
  dirs : dir.cat record.p.dirlist = dirlistText record.dirs

/- The lines of its lists. -/
def RecordedPackage.fileNames
    (record : RecordedPackage) : List Text :=
  sortLines (record.files.map findName)

def RecordedPackage.dirNames
    (record : RecordedPackage) : List Text :=
  sortLinesReverse (record.dirs.map findName)

theorem RecordedPackage.mem_fileNames
    (record : RecordedPackage)
    (name : Text) :
    name ∈ record.fileNames ↔
      ∃ path ∈ record.files, findName path = name := by
  unfold RecordedPackage.fileNames sortLines
  rw [List.mem_insertionSort, List.mem_map]

theorem RecordedPackage.mem_dirNames
    (record : RecordedPackage)
    (name : Text) :
    name ∈ record.dirNames ↔
      ∃ path ∈ record.dirs, findName path = name := by
  unfold RecordedPackage.dirNames sortLinesReverse
  rw [List.mem_insertionSort, List.mem_map]

/-
  A run of one of the two rules: for one package, whose own
  `make clean` succeeds, or for all disabled packages.
-/
inductive CleaningRun where
| clean (record : RecordedPackage)
| cleanRemoved (records : List RecordedPackage)
    (distinct : (records.map
      (fun record => record.p.name)).Nodup)

namespace CleaningRun

variable (run : CleaningRun)

/- The packages that are cleaned. -/
def records : CleaningRun → List RecordedPackage
| .clean record => [record]
| .cleanRemoved records _ => records

/- The rule. -/
def recipe : CleaningRun → BuildScript
| .clean record => cleanRecipe record.p true
| .cleanRemoved records _ =>
    cleanRemovedPackages (records.map RecordedPackage.p)

/- The lists of the packages. -/
def filelists : List Path :=
  run.records.map (fun record => record.p.filelist)

def dirlists : List Path :=
  run.records.map (fun record => record.p.dirlist)

/- What else `make` keeps about the packages. -/
def databases : CleaningRun → BuildDir → List Path
| .clean record, dir =>
    fakerootFiles record.p dir ++ [record.p.rmstrip]
| .cleanRemoved records _, _ =>
    records.map (fun record => record.p.fakeroot)

/- The files of `make` that belong to the packages. -/
def bookkeeping (dir : BuildDir) : List Path :=
  run.databases dir ++ run.filelists ++ run.dirlists

/- What is meant to be removed. -/
def Removed (dir : BuildDir) (path : Path) : Prop :=
  dir.CleanedAway run.filelists run.dirlists path ∨
    (path ∈ run.bookkeeping dir ∧
      (dir.read path).isSome = true)

/- Exactly that is removed. -/
def RemovesOwnFiles (dir : BuildDir) : Prop :=
  ∀ path,
    (run.Removed dir path →
      (run.recipe.run dir).lookup path = none) ∧
      (¬ run.Removed dir path →
        (run.recipe.run dir).lookup path = dir.lookup path)

/- The lists of all packages are there. -/
def Recorded (dir : BuildDir) : Prop :=
  ∀ record ∈ run.records, record.Recorded dir

------------------------------------------------------------
-- The Rules As Functions
------------------------------------------------------------

/- What both rules do, one loop after the other. -/
def cleaned
    (databases filelists dirlists : List Path)
    (dir : BuildDir) : BuildDir :=
  let first := dir.removeAll databases
  let second :=
    (removeListed [] stagingName filelists).run first
  let third :=
    (removeListed [] rootfsName filelists).run second
  let fourth := third.removeAll filelists
  let fifth :=
    (removeListedDirs [] stagingName dirlists).run fourth
  let sixth :=
    (removeListedDirs [] rootfsName dirlists).run fifth
  sixth.removeAll dirlists

theorem run_each_rm
    (paths : BuildDir → List Path)
    (dir : BuildDir) :
    (each paths (fun path => command (.rm path))).run dir =
      dir.removeAll (paths dir) :=
  run_each_command paths BuildAct.rm dir

theorem run_rm
    (path : Path)
    (dir : BuildDir) :
    (command (.rm path)).run dir = dir.removeAll [path] :=
  rfl

theorem run_recipe_clean
    (record : RecordedPackage)
    (dir : BuildDir) :
    (recipe (.clean record)).run dir =
      cleaned (databases (.clean record) dir)
        [record.p.filelist] [record.p.dirlist] dir := by
  have hRun : (recipe (.clean record)).run dir =
      (block
        [each (fakerootFiles record.p) (fun path =>
          command (.rm path)),
          command (.rm record.p.rmstrip),
          removeListed [] stagingName [record.p.filelist],
          removeListed [] rootfsName [record.p.filelist],
          command (.rm record.p.filelist),
          removeListedDirs [] stagingName
            [record.p.dirlist],
          removeListedDirs [] rootfsName
            [record.p.dirlist],
          command (.rm record.p.dirlist)]).run dir := by
    unfold recipe cleanRecipe BuildScript.run
    rw [Script.run_cond]
    simp
  rw [hRun, run_block_cons _ (stopped_each_command _ _ _),
    run_block_cons _ (stopped_command _ _),
    run_block_cons _ (stopped_removeListed _ _ _ _),
    run_block_cons _ (stopped_removeListed _ _ _ _),
    run_block_cons _ (stopped_command _ _),
    run_block_cons _ (stopped_removeListedDirs _ _ _ _),
    run_block_cons _ (stopped_removeListedDirs _ _ _ _),
    run_block_cons _ (stopped_command _ _), run_block_nil,
    run_each_rm, run_rm, run_rm, run_rm]
  simp only [cleaned, databases, FileTree.removeAll_append]

/- The rule names the lists that are there. -/
theorem run_cleanRemovedPackages
    (disabled : List Package)
    (dir : BuildDir) :
    (cleanRemovedPackages disabled).run dir =
      cleaned (disabled.map Package.fakeroot)
        ((withList Package.filelist disabled dir).map
          Package.filelist)
        ((withList Package.dirlist disabled dir).map
          Package.dirlist) dir := by
  have hRun : (cleanRemovedPackages disabled).run dir =
      (block
        [each (fun _ => disabled)
          (fun p => command (.rm p.fakeroot)),
          removeListed [] stagingName
            ((withList Package.filelist disabled dir).map
              Package.filelist),
          removeListed [] rootfsName
            ((withList Package.filelist disabled dir).map
              Package.filelist),
          each (fun _ =>
              withList Package.filelist disabled dir)
            (fun p => command (.rm p.filelist)),
          removeListedDirs [] stagingName
            ((withList Package.dirlist disabled dir).map
              Package.dirlist),
          removeListedDirs [] rootfsName
            ((withList Package.dirlist disabled dir).map
              Package.dirlist),
          each (fun _ =>
              withList Package.dirlist disabled dir)
            (fun p => command (.rm p.dirlist))]).run dir := by
    unfold cleanRemovedPackages BuildScript.run Script.run
    rfl
  have hLists : ∀ (list : Package → Path)
      (packages : List Package) (state : BuildDir),
      (each (fun _ => packages)
        (fun p => command (.rm (list p)))).run state =
        state.removeAll (packages.map list) := by
    intro list packages state
    rw [run_each_command (fun _ => packages)
      (fun p => BuildAct.rm (list p))]
    unfold FileTree.removeAll
    rw [List.foldl_map]
    rfl
  rw [hRun, run_block_cons _ (stopped_each_command _ _ _),
    run_block_cons _ (stopped_removeListed _ _ _ _),
    run_block_cons _ (stopped_removeListed _ _ _ _),
    run_block_cons _ (stopped_each_command _ _ _),
    run_block_cons _ (stopped_removeListedDirs _ _ _ _),
    run_block_cons _ (stopped_removeListedDirs _ _ _ _),
    run_block_cons _ (stopped_each_command _ _ _),
    run_block_nil, hLists, hLists, hLists]
  rfl

/- A list that is not there need not be named. -/
theorem xargsPaths_filter
    {keep : Path → Bool}
    {lists : List Path}
    {dir : BuildDir}
    (hRead : ∀ list ∈ lists, keep list = false →
      dir.read list = none)
    (base : Path)
    (name : Text) :
    dir.xargsPaths base name (lists.filter keep) =
      dir.xargsPaths base name lists := by
  have hCat : (lists.filter keep).flatMap dir.cat =
      lists.flatMap dir.cat := by
    induction lists with
    | nil => rfl
    | cons list lists ih =>
        have hRest := ih (fun other hMem =>
          hRead other (List.mem_cons_of_mem list hMem))
        rw [List.flatMap_cons]
        cases hKeep : keep list with
        | true =>
            rw [List.filter_cons_of_pos hKeep,
              List.flatMap_cons, hRest]
        | false =>
            have hNone := hRead list List.mem_cons_self hKeep
            have hEmpty : dir.cat list = [] := by
              unfold BuildDir.cat
              rw [hNone]
              rfl
            rw [List.filter_cons_of_neg (by simp [hKeep]),
              hRest, hEmpty, List.nil_append]
  unfold BuildDir.xargsPaths BuildDir.listedItems
  rw [hCat]

/- The states between the loops hold nothing new. -/
theorem shrunk_removeListed
    (base : Path)
    (name : Text)
    (lists : List Path)
    (dir : BuildDir) :
    FileTree.Shrunk dir
      ((removeListed base name lists).run dir) := by
  rw [run_removeListed]
  exact FileTree.shrunk_removeAll _ _

theorem shrunk_removeListedDirs
    (base : Path)
    (name : Text)
    (lists : List Path)
    (dir : BuildDir) :
    FileTree.Shrunk dir
      ((removeListedDirs base name lists).run dir) := by
  rw [run_removeListedDirs]
  exact FileTree.shrunk_removeDirs _ _

theorem cleaned_filter
    {keep keepDirs : Path → Bool}
    {databases filelists dirlists : List Path}
    {dir : BuildDir}
    (hFiles : ∀ list ∈ filelists, keep list = false →
      dir.read list = none)
    (hDirs : ∀ list ∈ dirlists, keepDirs list = false →
      dir.read list = none) :
    cleaned databases (filelists.filter keep)
        (dirlists.filter keepDirs) dir =
      cleaned databases filelists dirlists dir := by
  have hStill : ∀ {state : BuildDir} {list : Path},
      FileTree.Shrunk dir state → dir.read list = none →
      state.read list = none := by
    intro state list hShrunk hNone
    rcases hShrunk.read list with hRead | hRead
    · exact hRead
    · exact hRead.trans hNone
  have hListed : ∀ {state : BuildDir} (base : Path)
      (name : Text), FileTree.Shrunk dir state →
      (removeListed base name (filelists.filter keep)).run
          state =
        (removeListed base name filelists).run state := by
    intro state base name hShrunk
    rw [run_removeListed, run_removeListed,
      xargsPaths_filter (fun list hMem hDrop =>
        hStill hShrunk (hFiles list hMem hDrop))]
  have hListedDirs : ∀ {state : BuildDir} (base : Path)
      (name : Text), FileTree.Shrunk dir state →
      (removeListedDirs base name
          (dirlists.filter keepDirs)).run state =
        (removeListedDirs base name dirlists).run state := by
    intro state base name hShrunk
    rw [run_removeListedDirs, run_removeListedDirs,
      xargsPaths_filter (fun list hMem hDrop =>
        hStill hShrunk (hDirs list hMem hDrop))]
  have hFirst := FileTree.shrunk_removeAll databases dir
  have hSecond := hFirst.trans
    (shrunk_removeListed [] stagingName filelists _)
  have hThird := hSecond.trans
    (shrunk_removeListed [] rootfsName filelists _)
  have hFourth := hThird.trans
    (FileTree.shrunk_removeAll filelists _)
  have hFifth := hFourth.trans
    (shrunk_removeListedDirs [] stagingName dirlists _)
  have hSixth := hFifth.trans
    (shrunk_removeListedDirs [] rootfsName dirlists _)
  simp only [cleaned]
  rw [hListed _ _ hFirst, hListed _ _ hSecond,
    FileTree.removeAll_filter (fun list hMem hDrop =>
      hStill hThird (hFiles list hMem hDrop)),
    hListedDirs _ _ hFourth, hListedDirs _ _ hFifth,
    FileTree.removeAll_filter (fun list hMem hDrop =>
      hStill hSixth (hDirs list hMem hDrop))]

/- The same as with the lists of all packages. -/
theorem run_cleanRemovedPackages_all
    (disabled : List Package)
    (dir : BuildDir) :
    (cleanRemovedPackages disabled).run dir =
      cleaned (disabled.map Package.fakeroot)
        (disabled.map Package.filelist)
        (disabled.map Package.dirlist) dir := by
  have hLists : ∀ list : Package → Path,
      (withList list disabled dir).map list =
        (disabled.map list).filter
          (fun path => fileExists path dir) := by
    intro list
    unfold withList
    rw [List.filter_map]
    rfl
  have hNone : ∀ path, fileExists path dir = false →
      dir.read path = none := by
    intro path hNot
    unfold fileExists at hNot
    rw [Option.isSome_eq_false_iff, Option.isNone_iff_eq_none]
      at hNot
    exact ((FileTree.lookup_eq_none_iff dir path).mp hNot).1
  rw [run_cleanRemovedPackages, hLists, hLists,
    cleaned_filter (fun list _ => hNone list)
      (fun list _ => hNone list)]

/- Both rules, with the lists of all packages. -/
theorem run_recipe (dir : BuildDir) :
    run.recipe.run dir =
      cleaned (run.databases dir) run.filelists run.dirlists
        dir := by
  cases run with
  | clean record => exact run_recipe_clean record dir
  | cleanRemoved records hDistinct =>
      unfold recipe
      rw [run_cleanRemovedPackages_all]
      simp only [databases, filelists, CleaningRun.dirlists,
        CleaningRun.records, List.map_map, Function.comp_def]

------------------------------------------------------------
-- Lists That Are Read As They Are
------------------------------------------------------------

/-
  `xargs` reads the names of the lists, and works in the
  trees, as long as neither lists nor trees are gone.
-/
def ReadAsListed (dir : BuildDir) (lists : List Path) : Prop :=
  ∀ state : BuildDir,
    (∀ list ∈ lists, state.read list = dir.read list) →
    (∀ root, IsTree root →
      state.isDir [root] = dir.isDir [root]) →
    ∀ root, IsTree root →
      state.xargsPaths [] root lists =
        (dir.listedPaths lists).map (fun path => root :: path)

/- The lists of packages are in no tree. -/
theorem not_mem_inTrees_package
    (p : Package)
    (rest : Path)
    (paths : List Path) :
    p.name :: rest ∉ inTrees paths := by
  intro hMem
  rcases mem_inTrees.mp hMem with ⟨root, below, hRoot, _, hSame⟩
  exact tree_ne_package hRoot below p rest hSame.symm

section Loops

variable {databases filelists dirlists : List Path}
variable {dir : BuildDir}

/- What the loops over files are given. -/
theorem xargsPaths_removeAll
    {lists paths : List Path}
    (hRead : ReadAsListed dir lists)
    (hKept : ∀ list ∈ lists, list ∉ paths)
    {root : Text}
    (hRoot : IsTree root) :
    BuildDir.xargsPaths (dir.removeAll paths) [] root lists =
      (dir.listedPaths lists).map
        (fun path => root :: path) := by
  apply hRead _ _ _ root hRoot
  · intro list hMem
    rw [FileTree.read_removeAll, if_neg (hKept list hMem)]
  · intro tree _
    exact FileTree.isDir_removeAll paths dir [tree]

/- What the loops over directories are given. -/
theorem xargsPaths_removeDirs
    {lists paths dirs : List Path}
    (hRead : ReadAsListed dir lists)
    (hKept : ∀ list ∈ lists, list ∉ paths)
    (hTrees : ∀ root, IsTree root → [root] ∉ dirs)
    {root : Text}
    (hRoot : IsTree root) :
    BuildDir.xargsPaths
        (FileTree.removeDirs dirs (dir.removeAll paths)) []
        root lists =
      (dir.listedPaths lists).map
        (fun path => root :: path) := by
  apply hRead _ _ _ root hRoot
  · intro list hMem
    rw [FileTree.read_removeDirs, FileTree.read_removeAll,
      if_neg (hKept list hMem)]
  · intro tree hTree
    unfold FileTree.isDir
    rw [FileTree.lookup_removeDirs_of_not_mem _
      (hTrees tree hTree)]
    exact FileTree.isDir_removeAll _ dir [tree]

/- Both loops over files, behind the databases. -/
theorem run_removeListed_trees
    (hPackages : ∀ list ∈ filelists,
      ∃ (p : Package) (rest : Path), list = p.name :: rest)
    (hFilelists : ∀ list ∈ filelists, list ∉ databases)
    (hFiles : ReadAsListed dir filelists) :
    (removeListed [] rootfsName filelists).run
        ((removeListed [] stagingName filelists).run
          (dir.removeAll databases)) =
      dir.removeAll
        (databases ++ inTrees (dir.listedPaths filelists)) := by
  have hSecond : ∀ list ∈ filelists,
      list ∉ databases ++ (dir.listedPaths filelists).map
        (fun path => stagingName :: path) := by
    intro list hMem hIn
    rcases hPackages list hMem with ⟨p, rest, rfl⟩
    rcases List.mem_append.mp hIn with hIn | hIn
    · exact hFilelists _ hMem hIn
    · exact not_mem_inTrees_package p rest _
        (List.mem_append_left _ hIn)
  rw [run_removeListed [] stagingName,
    xargsPaths_removeAll hFiles hFilelists (Or.inl rfl),
    ← FileTree.removeAll_append, run_removeListed,
    xargsPaths_removeAll hFiles hSecond (Or.inr rfl),
    ← FileTree.removeAll_append, inTrees,
    ← List.append_assoc]

/- Both loops over directories, when files are gone. -/
theorem run_removeListedDirs_trees
    {paths : List Path}
    (hKept : ∀ list ∈ dirlists, list ∉ paths)
    (hTrees : ∀ root, IsTree root →
      [root] ∉ inTrees (dir.listedPaths dirlists))
    (hDirs : ReadAsListed dir dirlists) :
    (removeListedDirs [] rootfsName dirlists).run
        ((removeListedDirs [] stagingName dirlists).run
          (dir.removeAll paths)) =
      FileTree.removeDirs
        (inTrees (dir.listedPaths dirlists))
        (dir.removeAll paths) := by
  have hStagingDirs : ∀ root, IsTree root →
      [root] ∉ (dir.listedPaths dirlists).map
        (fun path => stagingName :: path) :=
    fun root hRoot hIn => hTrees root hRoot
      (List.mem_append_left _ hIn)
  rw [run_removeListedDirs [] stagingName,
    xargsPaths_removeAll hDirs hKept (Or.inl rfl),
    run_removeListedDirs,
    xargsPaths_removeDirs hDirs hKept hStagingDirs
      (Or.inr rfl),
    ← FileTree.removeDirs_append, inTrees]

/- The result of both rules, if the lists are read so. -/
theorem cleaned_eq
    (hPackages : ∀ list ∈ filelists ++ dirlists,
      ∃ (p : Package) (rest : Path), list = p.name :: rest)
    (hFilelists : ∀ list ∈ filelists, list ∉ databases)
    (hDirlists : ∀ list ∈ dirlists,
      list ∉ databases ++ filelists)
    (hTrees : ∀ root, IsTree root →
      [root] ∉ inTrees (dir.listedPaths dirlists))
    (hFiles : ReadAsListed dir filelists)
    (hDirs : ReadAsListed dir dirlists) :
    cleaned databases filelists dirlists dir =
      FileTree.removeAll dirlists
        (FileTree.removeDirs
          (inTrees (dir.listedPaths dirlists))
          (dir.removeAll
            (databases ++
              inTrees (dir.listedPaths filelists) ++
                filelists))) := by
  -- Neither the directory lists nor the trees are removed.
  have hKept : ∀ list ∈ dirlists,
      list ∉ databases ++ inTrees (dir.listedPaths filelists)
        ++ filelists := by
    intro list hMem hIn
    rcases hPackages list (List.mem_append_right _ hMem) with
      ⟨p, rest, rfl⟩
    have hNot := not_mem_inTrees_package p rest
      (dir.listedPaths filelists)
    have hOther := hDirlists _ hMem
    simp only [List.mem_append, not_or] at hIn hOther
    rcases hIn with (hIn | hIn) | hIn
    · exact hOther.1 hIn
    · exact hNot hIn
    · exact hOther.2 hIn
  simp only [cleaned]
  rw [run_removeListed_trees
      (fun list hMem =>
        hPackages list (List.mem_append_left _ hMem))
      hFilelists hFiles,
    ← FileTree.removeAll_append,
    run_removeListedDirs_trees hKept hTrees hDirs]

end Loops

/- Databases are not lists. -/
theorem mem_databases
    {dir : BuildDir}
    {path : Path}
    (hMem : path ∈ run.databases dir) :
    ∃ (p : Package) (name : Text), path = [p.name, name] ∧
      (['.', 'm', 'k', 'r', '.', 'f', 'a', 'k', 'e', 'r',
          'o', 'o', 't'].isPrefixOf name = true ∨
        name = ['.', 'm', 'k', 'r', '.', 'r', 'm', 's', 't',
          'r', 'i', 'p']) := by
  cases run with
  | clean record =>
      rcases List.mem_append.mp hMem with hMem | hMem
      · unfold fakerootFiles at hMem
        rw [List.mem_filter, List.mem_map] at hMem
        rcases hMem with ⟨⟨rest, _, rfl⟩, hMatch⟩
        rw [decide_eq_true_eq] at hMatch
        rcases hMatch with ⟨hLength, hPrefix⟩
        rcases rest with - | ⟨name, - | ⟨other, rest⟩⟩
        · simp at hLength
        · refine ⟨record.p, name, rfl, Or.inl ?_⟩
          simp only [Package.fakeroot, List.zip_cons_cons,
            List.all_cons, Bool.and_eq_true] at hPrefix
          exact hPrefix.2.1
        · simp at hLength
      · rw [List.mem_singleton.mp hMem]
        exact ⟨record.p, _, rfl, Or.inr rfl⟩
  | cleanRemoved records hDistinct =>
      rcases List.mem_map.mp hMem with ⟨record, _, rfl⟩
      exact ⟨record.p, _, rfl, Or.inl (by decide)⟩

theorem filelist_not_mem_databases
    (dir : BuildDir)
    (p : Package) :
    p.filelist ∉ run.databases dir ∧
      p.dirlist ∉ run.databases dir := by
  constructor
  · intro hMem
    rcases run.mem_databases hMem with ⟨q, name, hSame, hName⟩
    simp only [Package.filelist, List.cons.injEq, and_true]
      at hSame
    rw [← hSame.2] at hName
    revert hName
    decide
  · intro hMem
    rcases run.mem_databases hMem with ⟨q, name, hSame, hName⟩
    simp only [Package.dirlist, List.cons.injEq, and_true]
      at hSame
    rw [← hSame.2] at hName
    revert hName
    decide

/- The other files are not in the trees. -/
theorem emptied_inTrees_iff
    {databases filelists : List Path}
    (hOutside : ∀ list ∈ databases ++ filelists,
      ∃ (p : Package) (rest : Path), list = p.name :: rest)
    (files dirs : List Path)
    (dir : BuildDir)
    (path : Path) :
    FileTree.Emptied
        (dir.removeAll
          (databases ++ inTrees files ++ filelists))
        (inTrees dirs) path ↔
      FileTree.Emptied (dir.removeAll (inTrees files))
        (inTrees dirs) path := by
  by_cases hMem : path ∈ inTrees dirs
  · rcases mem_inTrees.mp hMem with
      ⟨root, rest, hRoot, _, rfl⟩
    apply FileTree.emptied_congr
    rintro other ⟨below, rfl⟩
    have hNot : ∀ list ∈ databases ++ filelists,
        list ≠ root :: rest ++ below := by
      rintro list hList rfl
      rcases hOutside _ hList with ⟨p, tail, hSame⟩
      exact tree_ne_package hRoot _ p tail hSame
    have hIn : root :: rest ++ below ∈
          databases ++ inTrees files ++ filelists ↔
        root :: rest ++ below ∈ inTrees files := by
      constructor
      · intro hIn
        rcases List.mem_append.mp hIn with hIn | hIn
        · rcases List.mem_append.mp hIn with hIn | hIn
          · exact absurd rfl (hNot _
              (List.mem_append_left _ hIn))
          · exact hIn
        · exact absurd rfl (hNot _
            (List.mem_append_right _ hIn))
      · intro hIn
        exact List.mem_append_left _
          (List.mem_append_right _ hIn)
    exact FileTree.lookup_removeAll_congr hIn dir
  · exact iff_of_false (fun h => hMem h.2.1)
      (fun h => hMem h.2.1)

/- The lists are in the directories of the packages. -/
theorem exists_package_of_mem_lists
    {list : Path}
    (hMem : list ∈ run.filelists ++ run.dirlists) :
    ∃ (p : Package) (rest : Path), list = p.name :: rest := by
  rcases List.mem_append.mp hMem with hMem | hMem
  · rcases List.mem_map.mp hMem with ⟨record, _, rfl⟩
    exact ⟨record.p, _, rfl⟩
  · rcases List.mem_map.mp hMem with ⟨record, _, rfl⟩
    exact ⟨record.p, _, rfl⟩

/- A list is removed when it is due, not before. -/
theorem not_mem_of_mem_filelists
    (dir : BuildDir)
    {list : Path}
    (hMem : list ∈ run.filelists) :
    list ∉ run.databases dir := by
  rcases List.mem_map.mp hMem with ⟨record, _, rfl⟩
  exact (run.filelist_not_mem_databases dir record.p).1

theorem not_mem_of_mem_dirlists
    (dir : BuildDir)
    {list : Path}
    (hMem : list ∈ run.dirlists) :
    list ∉ run.databases dir ++ run.filelists := by
  rcases List.mem_map.mp hMem with ⟨record, _, rfl⟩
  intro hIn
  rcases List.mem_append.mp hIn with hIn | hIn
  · exact (run.filelist_not_mem_databases dir record.p).2 hIn
  · rcases List.mem_map.mp hIn with ⟨other, _, hSame⟩
    simp [Package.filelist, Package.dirlist] at hSame

/- No tree itself is among listed directories. -/
theorem tree_not_mem_inTrees
    {paths : List Path}
    (hNames : ∀ path ∈ paths, path ≠ [])
    (root : Text) :
    [root] ∉ inTrees paths := by
  intro hMem
  rcases mem_inTrees.mp hMem with
    ⟨other, rest, _, hRest, hSame⟩
  simp only [List.cons.injEq] at hSame
  exact hNames rest hRest hSame.2.symm

/- The order of a list is also the one in both trees. -/
theorem parentsLast_inTrees
    {paths : List Path}
    (hLast : ParentsLast paths) :
    ParentsLast (inTrees paths) := by
  apply parentsLast_append
    (parentsLast_map_append [stagingName] hLast)
    (parentsLast_map_append [rootfsName] hLast)
  intro path hMem other hOther hPrefix
  rcases List.mem_map.mp hMem with ⟨rest, _, rfl⟩
  rcases List.mem_map.mp hOther with ⟨below, _, rfl⟩
  have hHead := (List.cons_prefix_cons.mp hPrefix).1
  exact absurd hHead (by decide)

/- Nothing else is removed if the lists are read so. -/
theorem removesOwnFiles_of_read
    {dir : BuildDir}
    (hNames : ∀ path ∈ dir.listedPaths run.dirlists,
      path ≠ [])
    (hLast : ParentsLast (dir.listedPaths run.dirlists))
    (hFiles : ReadAsListed dir run.filelists)
    (hDirs : ReadAsListed dir run.dirlists) :
    run.RemovesOwnFiles dir := by
  intro path
  have hRun := cleaned_eq
    (fun _ hMem => run.exists_package_of_mem_lists hMem)
    (fun _ hMem => run.not_mem_of_mem_filelists dir hMem)
    (fun _ hMem => run.not_mem_of_mem_dirlists dir hMem)
    (fun root _ => tree_not_mem_inTrees hNames root) hFiles
    hDirs
  rw [← run_recipe] at hRun
  have hOutside : ∀ list ∈
      run.databases dir ++ run.filelists,
      ∃ (p : Package) (rest : Path), list = p.name :: rest := by
    intro list hMem
    rcases List.mem_append.mp hMem with hMem | hMem
    · rcases run.mem_databases hMem with ⟨p, name, hSame, _⟩
      exact ⟨p, [name], hSame⟩
    · exact run.exists_package_of_mem_lists
        (List.mem_append_left _ hMem)
  have hEmptied := emptied_inTrees_iff hOutside
    (dir.listedPaths run.filelists)
    (dir.listedPaths run.dirlists) dir path
  have hDirsGone := FileTree.lookup_removeDirs
    (parentsLast_inTrees hLast)
    (dir.removeAll
      (run.databases dir ++
        inTrees (dir.listedPaths run.filelists) ++
          run.filelists)) path
  rw [hRun]
  by_cases hGone : FileTree.Emptied
      (dir.removeAll
        (inTrees (dir.listedPaths run.filelists)))
      (inTrees (dir.listedPaths run.dirlists)) path
  · refine ⟨fun _ => ?_,
      fun hNot => absurd (Or.inl (Or.inr hGone)) hNot⟩
    exact FileTree.lookup_removeAll_of_none _
      (hDirsGone.1 (hEmptied.mpr hGone))
  · have hSame := hDirsGone.2
      (fun h => hGone (hEmptied.mp h))
    -- What is left are the files, removed in two steps.
    have hLookup :
        (FileTree.removeAll run.dirlists
          (FileTree.removeDirs
            (inTrees (dir.listedPaths run.dirlists))
            (dir.removeAll
              (run.databases dir ++
                inTrees (dir.listedPaths run.filelists) ++
                  run.filelists)))).lookup path =
          (dir.removeAll
            (run.databases dir ++
              inTrees (dir.listedPaths run.filelists) ++
                run.filelists ++ run.dirlists)).lookup
                  path := by
      rw [FileTree.removeAll_append _ run.dirlists,
        FileTree.lookup_removeAll run.dirlists,
        FileTree.lookup_removeAll run.dirlists,
        FileTree.read_removeDirs, hSame]
    rw [hLookup, FileTree.lookup_removeAll]
    have hNamed : run.Removed dir path ↔
        path ∈ run.databases dir ++
            inTrees (dir.listedPaths run.filelists) ++
              run.filelists ++ run.dirlists ∧
          (dir.read path).isSome = true := by
      unfold Removed BuildDir.CleanedAway bookkeeping
      simp only [List.mem_append, hGone, or_false]
      rw [← or_and_right, ← or_assoc, ← or_assoc,
        or_comm (a := path ∈ inTrees _)]
    rw [hNamed]
    exact ⟨fun h => if_pos h, fun h => if_neg h⟩

end CleaningRun

end Mkrootfs
