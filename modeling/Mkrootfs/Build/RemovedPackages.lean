import Mkrootfs.Build.CleaningRules

/-
  What `%/clean` and `clean-removed-packages` remove from
  the build directory, for packages with any recorded lists.

  Main declarations:
    * `CleaningRun.Plain`
    * `CleaningRun.removesOwnFiles_of_plain`
    * `CleaningRun.removesOwnFiles_iff`
-/

------------------------------------------------------------
-- What The Lists Hold
------------------------------------------------------------

namespace Mkrootfs

namespace CleaningRun

variable (run : CleaningRun)

/- The names in the lists of some packages. -/
structure HoldsNames
    (dir : BuildDir)
    (lists : List Path)
    (names : List Text) : Prop where
  cat : lists.flatMap dir.cat = Text.unlines names
  listed : dir.listedPaths lists = names.map pathOf

theorem holdsNames_of_records
    {R : Type}
    {records : List R}
    {list : R → Path}
    {names : R → List Text}
    {dir : BuildDir}
    (hCat : ∀ record ∈ records,
      dir.cat (list record) = Text.unlines (names record))
    (hNames : ∀ record ∈ records, ∀ name ∈ names record,
      '\n' ∉ name) :
    HoldsNames dir (records.map list)
      (records.flatMap names) := by
  induction records with
  | nil => exact ⟨rfl, rfl⟩
  | cons record records ih =>
      have hRest := ih
        (fun other hMem => hCat other
          (List.mem_cons_of_mem record hMem))
        (fun other hMem => hNames other
          (List.mem_cons_of_mem record hMem))
      have hText := hCat record List.mem_cons_self
      have hLines := hNames record List.mem_cons_self
      refine ⟨?_, ?_⟩
      · rw [List.map_cons, List.flatMap_cons, hText,
          hRest.cat, List.flatMap_cons, Text.unlines_append]
      · have hTail := hRest.listed
        unfold BuildDir.listedPaths at hTail ⊢
        rw [List.map_cons, List.flatMap_cons, hTail, hText,
          Text.lines_unlines hLines, List.flatMap_cons,
          List.map_append]

/- Plain names are read as they are, in trees that are there. -/
theorem readAsListed
    {dir : BuildDir}
    {lists : List Path}
    {names : List Text}
    (hHolds : HoldsNames dir lists names)
    (hPlain : names = [] ∨
      (∀ root, IsTree root → dir.isDir [root] = true) ∧
        ∀ name ∈ names, PlainItem name) :
    ReadAsListed dir lists := by
  intro state hRead hTrees root hRoot
  have hCat : lists.flatMap state.cat =
      lists.flatMap dir.cat := by
    apply List.flatMap_congr
    intro list hMem
    unfold BuildDir.cat
    rw [hRead list hMem]
  have hItems : state.listedItems lists = names := by
    unfold BuildDir.listedItems
    rw [hCat, hHolds.cat]
    rcases hPlain with rfl | ⟨_, hPlain⟩
    · rfl
    · exact xargsItems_unlines separators_isBlank
        (fun name hName => takenItem_of_plain
          separators_isBlank (hPlain name hName))
  unfold BuildDir.xargsPaths
  rw [hItems, hHolds.listed, List.map_map]
  apply List.map_congr_left
  intro name hMem
  rcases hPlain with rfl | ⟨hThere, _⟩
  · cases hMem
  · unfold BuildDir.enter
    rw [List.nil_append, hTrees root hRoot,
      hThere root hRoot]
    rfl

section Recorded

variable {dir : BuildDir}

theorem holdsNames_filelists
    (hRecorded : run.Recorded dir) :
    HoldsNames dir run.filelists
      (run.records.flatMap RecordedPackage.fileNames) := by
  apply holdsNames_of_records
  · intro record hMem
    exact (hRecorded record hMem).files
  · intro record _ name hMem
    rcases (record.mem_fileNames name).mp hMem with
      ⟨path, hPath, rfl⟩
    exact newline_not_mem_findName
      (record.filesValid path hPath)

theorem holdsNames_dirlists
    (hRecorded : run.Recorded dir) :
    HoldsNames dir run.dirlists
      (run.records.flatMap RecordedPackage.dirNames) := by
  apply holdsNames_of_records
  · intro record hMem
    exact (hRecorded record hMem).dirs
  · intro record _ name hMem
    rcases (record.mem_dirNames name).mp hMem with
      ⟨path, hPath, rfl⟩
    exact newline_not_mem_findName
      (record.dirsValid path hPath)

/- All listed directories, with the parents last. -/
theorem parentsLast_dirNames
    (records : List RecordedPackage) :
    ParentsLast ((records.flatMap
      RecordedPackage.dirNames).map pathOf) := by
  induction records with
  | nil => exact trivial
  | cons record records ih =>
      rw [List.flatMap_cons, List.map_append]
      apply parentsLast_append
        (parentsLast_dirlist record.dirsValid) ih
      intro path hMem other hOther hPrefix
      rcases List.mem_map.mp hMem with ⟨name, hName, rfl⟩
      rcases List.mem_map.mp hOther with
        ⟨below, hBelow, rfl⟩
      rcases List.mem_flatMap.mp hBelow with
        ⟨second, hSecond, hBelow⟩
      rcases (record.mem_dirNames name).mp hName with
        ⟨parent, hParent, rfl⟩
      rcases (second.mem_dirNames below).mp hBelow with
        ⟨child, hChild, rfl⟩
      rw [pathOf_findName_of_filePath
          (record.dirsValid parent hParent),
        pathOf_findName_of_filePath
          (second.dirsValid child hChild)] at hPrefix
      have hAgain := second.dirsClosed child hChild parent
        (record.dirsValid parent hParent).nonempty hPrefix
      apply List.mem_map_of_mem
      apply List.mem_flatMap.mpr
      exact ⟨second, hSecond,
        (second.mem_dirNames _).mpr ⟨parent, hAgain, rfl⟩⟩

/-
  Nothing is listed, or the trees are there and the names
  are plain.
-/
def Plain (present : Text → Bool) : Prop :=
  (∀ record ∈ run.records,
      record.files = [] ∧ record.dirs = []) ∨
    (∀ root, IsTree root → present root = true) ∧
      ∀ record ∈ run.records,
        ∀ path ∈ record.files ++ record.dirs, PlainPath path

/- The names of either list are plain then. -/
theorem plainNames_of_plain
    {present : Text → Bool}
    {names : RecordedPackage → List Text}
    {paths : RecordedPackage → List Path}
    (hPresent : ∀ root, IsTree root →
      dir.isDir [root] = present root)
    (hNames : ∀ record name,
      name ∈ names record ↔
        ∃ path ∈ paths record, findName path = name)
    (hPaths : ∀ record, ∀ path ∈ paths record,
      path ∈ record.files ++ record.dirs)
    (hPlain : run.Plain present) :
    run.records.flatMap names = [] ∨
      (∀ root, IsTree root → dir.isDir [root] = true) ∧
        ∀ name ∈ run.records.flatMap names,
          PlainItem name := by
  rcases hPlain with hNothing | ⟨hThere, hPlain⟩
  · left
    rw [List.flatMap_eq_nil_iff]
    intro record hRecord
    rw [List.eq_nil_iff_forall_not_mem]
    intro name hName
    rcases (hNames record name).mp hName with
      ⟨path, hPath, rfl⟩
    have hListed := hPaths record path hPath
    rw [(hNothing record hRecord).1,
      (hNothing record hRecord).2] at hListed
    cases hListed
  · right
    refine ⟨fun root hRoot =>
      (hPresent root hRoot).trans (hThere root hRoot), ?_⟩
    intro name hMem
    rcases List.mem_flatMap.mp hMem with
      ⟨record, hRecord, hName⟩
    rcases (hNames record name).mp hName with
      ⟨path, hPath, rfl⟩
    exact plainItem_findName (hPlain record hRecord path
      (hPaths record path hPath))

/- The rules keep their promise then. -/
theorem removesOwnFiles_of_plain
    {present : Text → Bool}
    (hRecorded : run.Recorded dir)
    (hPresent : ∀ root, IsTree root →
      dir.isDir [root] = present root)
    (hPlain : run.Plain present) :
    run.RemovesOwnFiles dir := by
  have hFiles := run.holdsNames_filelists hRecorded
  have hDirs := run.holdsNames_dirlists hRecorded
  have hFileNames := run.plainNames_of_plain hPresent
    (fun record name => record.mem_fileNames name)
    (fun record path => List.mem_append_left _) hPlain
  have hDirNames := run.plainNames_of_plain hPresent
    (fun record name => record.mem_dirNames name)
    (fun record path => List.mem_append_right _) hPlain
  apply run.removesOwnFiles_of_read
  · intro path hMem
    rw [hDirs.listed] at hMem
    rcases List.mem_map.mp hMem with ⟨name, hName, rfl⟩
    rcases List.mem_flatMap.mp hName with
      ⟨record, _, hName⟩
    rcases (record.mem_dirNames name).mp hName with
      ⟨path, hPath, rfl⟩
    rw [pathOf_findName_of_filePath
      (record.dirsValid path hPath)]
    exact (record.dirsValid path hPath).nonempty
  · rw [hDirs.listed]
    exact parentsLast_dirNames run.records
  · exact readAsListed hFiles hFileNames
  · exact readAsListed hDirs hDirNames

end Recorded

------------------------------------------------------------
-- The Hardest Name
------------------------------------------------------------

/- A path with nothing that `xargs` interprets is plain. -/
theorem plainPath_of_specials
    {path : Path}
    (hFile : FilePath path)
    (hZero : pathSpecials isBlank path = 0) :
    PlainPath path := by
  refine ⟨hFile.nonempty, ?_⟩
  intro part hMem
  have hPart := hFile.parts part hMem
  refine ⟨⟨hPart.1, ?_⟩, hPart.2.2.1, hPart.2.1⟩
  rw [pathSpecials_eq separators_isBlank,
    List.sum_eq_zero_iff] at hZero
  exact (specials_eq_zero_iff part).mp
    (hZero _ (List.mem_map_of_mem hMem))

/- Neither of the two trees has a special name. -/
theorem specials_tree
    {root : Text}
    (hRoot : IsTree root) :
    specials isBlank root = 0 ∧ '\n' ∉ root := by
  rcases hRoot with rfl | rfl
  · exact ⟨rfl, by decide⟩
  · exact ⟨rfl, by decide⟩

/-
  `xargs` never passes on the hardest path, unless it is a
  plain one and the shell is in the tree.
-/
theorem hardest_not_mem
    {paths : List Path}
    (hFiles : ∀ path ∈ paths, FilePath path)
    {hard : Path}
    (hMem : hard ∈ paths)
    (hMax : ∀ path ∈ paths,
      pathSpecials isBlank path < pathSpecials isBlank hard ∨
        (pathSpecials isBlank path = pathSpecials isBlank hard ∧
          path.length ≤ hard.length))
    {root : Text}
    (hRoot : IsTree root)
    {state : BuildDir}
    (hBad : state.isDir [root] = true →
      pathSpecials isBlank hard ≠ 0)
    {names : List Text}
    (hNames : ∀ name ∈ names,
      ∃ path ∈ paths, findName path = name)
    {lists : List Path}
    (hCat : lists.flatMap state.cat = Text.unlines names)
    (name : Text) :
    root :: hard ∉ state.xargsPaths [] name lists := by
  intro hIn
  unfold BuildDir.xargsPaths BuildDir.listedItems at hIn
  rw [hCat] at hIn
  rcases List.mem_map.mp hIn with ⟨item, hItem, hSame⟩
  have hNewline : ∀ part ∈ hard, '\n' ∉ part :=
    fun part hPart =>
      ((hFiles hard hMem).parts part hPart).2.2.2
  have hNot : ∀ path ∈ paths,
      ¬ pathSpecials isBlank hard < pathSpecials isBlank path := by
    intro path hPath
    have hLe := hMax path hPath
    omega
  have hFrom := fromPaths_of_xargs separators_isBlank hFiles
    hNames hItem
  unfold BuildDir.enter at hSame
  rw [List.nil_append] at hSame
  split at hSame
  · next hDir =>
      simp only [List.cons_append, List.nil_append,
        List.cons.injEq] at hSame
      rcases hSame with ⟨hName, hItemPath⟩
      rw [hName] at hDir
      rw [hItemPath] at hFrom
      rcases hFrom with ⟨part, hPart, hBreak⟩ |
        ⟨other, hOther, ⟨hZero, hEq⟩ | hLess⟩
      · exact hNewline part hPart hBreak
      · rw [← hEq] at hZero
        exact hBad hDir hZero
      · exact hNot other hOther hLess
  · rw [List.nil_append] at hSame
    have hSpecials : pathSpecials isBlank (root :: hard) =
        pathSpecials isBlank hard := by
      rw [pathSpecials_eq separators_isBlank,
        pathSpecials_eq separators_isBlank, List.map_cons,
        List.sum_cons, (specials_tree hRoot).1, Nat.zero_add]
    rw [hSame] at hFrom
    rcases hFrom with ⟨part, hPart, hBreak⟩ |
      ⟨other, hOther, ⟨hZero, hEq⟩ | hLess⟩
    · rcases List.mem_cons.mp hPart with rfl | hPart
      · exact (specials_tree hRoot).2 hBreak
      · exact hNewline part hPart hBreak
    · have hLe := hMax other hOther
      have hLength := congrArg List.length hEq
      rw [List.length_cons] at hLength
      rw [hEq] at hSpecials
      omega
    · rw [hSpecials] at hLess
      exact hNot other hOther hLess

------------------------------------------------------------
-- States That Are Cleaned Wrongly
------------------------------------------------------------

/- Each list is still there, or it is gone. -/
theorem names_of_shrunk
    {R : Type}
    {records : List R}
    {list : R → Path}
    {names : R → List Text}
    {dir state : BuildDir}
    (hShrunk : FileTree.Shrunk dir state)
    (hCat : ∀ record ∈ records,
      dir.cat (list record) = Text.unlines (names record)) :
    ∃ left : List Text,
      (∀ name ∈ left, ∃ record ∈ records,
        name ∈ names record) ∧
        (records.map list).flatMap state.cat =
          Text.unlines left := by
  induction records with
  | nil =>
      refine ⟨[], ?_, rfl⟩
      intro name hMem
      cases hMem
  | cons record records ih =>
      rcases ih (fun other hMem => hCat other
          (List.mem_cons_of_mem record hMem)) with
        ⟨left, hLeft, hRest⟩
      have hLater : ∀ name ∈ left,
          ∃ other ∈ record :: records, name ∈ names other := by
        intro name hMem
        rcases hLeft name hMem with ⟨other, hOther, hName⟩
        exact ⟨other, List.mem_cons_of_mem record hOther,
          hName⟩
      rw [List.map_cons, List.flatMap_cons, hRest]
      rcases hShrunk.read (list record) with hNone | hSame
      · refine ⟨left, hLater, ?_⟩
        have hEmpty : state.cat (list record) = [] := by
          unfold BuildDir.cat
          rw [hNone]
          rfl
        rw [hEmpty, List.nil_append]
      · refine ⟨names record ++ left, ?_, ?_⟩
        · intro name hMem
          rcases List.mem_append.mp hMem with hMem | hMem
          · exact ⟨record, List.mem_cons_self, hMem⟩
          · exact hLater name hMem
        · have hText : state.cat (list record) =
              Text.unlines (names record) := by
            rw [← hCat record List.mem_cons_self]
            unfold BuildDir.cat
            rw [hSame]
          rw [hText, Text.unlines_append]

/- A file that no loop is given. -/
theorem read_cleaned_of_not_mem
    {databases filelists dirlists : List Path}
    {dir : BuildDir}
    {path : Path}
    (hDatabases : path ∉ databases)
    (hFilelists : path ∉ filelists)
    (hDirlists : path ∉ dirlists)
    (hArgs : ∀ (state : BuildDir) (name : Text),
      FileTree.Shrunk dir state →
      path ∉ state.xargsPaths [] name filelists) :
    (cleaned databases filelists dirlists dir).read path =
      dir.read path := by
  have hFirst := FileTree.shrunk_removeAll databases dir
  have hSecond := hFirst.trans
    (shrunk_removeListed [] stagingName filelists _)
  simp only [cleaned]
  rw [FileTree.read_removeAll, if_neg hDirlists,
    run_removeListedDirs, FileTree.read_removeDirs,
    run_removeListedDirs, FileTree.read_removeDirs,
    FileTree.read_removeAll, if_neg hFilelists,
    run_removeListed [] rootfsName, FileTree.read_removeAll,
    if_neg (hArgs _ _ hSecond), run_removeListed,
    FileTree.read_removeAll, if_neg (hArgs _ _ hFirst),
    FileTree.read_removeAll, if_neg hDatabases]

/- A directory that no loop is given. -/
theorem isDir_cleaned_of_not_mem
    {databases filelists dirlists : List Path}
    {dir : BuildDir}
    {path : Path}
    (hArgs : ∀ (state : BuildDir) (name : Text),
      FileTree.Shrunk dir state →
      path ∉ state.xargsPaths [] name dirlists) :
    (cleaned databases filelists dirlists dir).isDir path =
      dir.isDir path := by
  have hFourth := (((FileTree.shrunk_removeAll databases
    dir).trans
      (shrunk_removeListed [] stagingName filelists _)).trans
        (shrunk_removeListed [] rootfsName filelists _)).trans
          (FileTree.shrunk_removeAll filelists _)
  have hFifth := hFourth.trans
    (shrunk_removeListedDirs [] stagingName dirlists _)
  have hKept : ∀ (state : BuildDir) (paths : List Path),
      path ∉ paths →
      FileTree.isDir (state.removeDirs paths) path =
        state.isDir path := by
    intro state paths hNot
    unfold FileTree.isDir
    rw [FileTree.lookup_removeDirs_of_not_mem _ hNot]
  simp only [cleaned]
  rw [FileTree.isDir_removeAll,
    run_removeListedDirs [] rootfsName,
    hKept _ _ (hArgs _ _ hFifth), run_removeListedDirs,
    hKept _ _ (hArgs _ _ hFourth), FileTree.isDir_removeAll,
    run_removeListed [] rootfsName, FileTree.isDir_removeAll,
    run_removeListed, FileTree.isDir_removeAll,
    FileTree.isDir_removeAll]

/- Some directories, and nothing else. -/
def putDirs (names : List Text) : BuildDir :=
  names.foldr (fun name dir => dir.insert [name] .dir) ∅

/- The trees that are there. -/
def putTrees (present : Text → Bool) : BuildDir :=
  putDirs ([stagingName, rootfsName].filter present)

/- The lists of some packages. -/
def putLists
    (records : List RecordedPackage)
    (dir : BuildDir) : BuildDir :=
  records.foldr
    (fun record current =>
      (current.insert record.p.filelist
        (.file (listText record.files))).insert
          record.p.dirlist
          (.file (dirlistText record.dirs)))
    dir

theorem lookup_putDirs
    (names : List Text)
    (path : Path) :
    ((∃ name ∈ names, path = [name]) →
      (putDirs names).lookup path = some .dir) ∧
      ((∀ name ∈ names, path ≠ [name]) →
        (putDirs names).lookup path = none) := by
  induction names with
  | nil =>
      refine ⟨?_, fun _ => AList.lookup_empty _⟩
      rintro ⟨name, hMem, _⟩
      cases hMem
  | cons name names ih =>
      have hStep : putDirs (name :: names) =
          (putDirs names).insert [name] .dir :=
        rfl
      rw [hStep]
      by_cases hSame : path = [name]
      · refine ⟨fun _ => ?_, fun hNot =>
          absurd hSame (hNot name List.mem_cons_self)⟩
        rw [hSame, AList.lookup_insert]
      · rw [AList.lookup_insert_ne hSame]
        refine ⟨?_, fun hNot => ih.2 (fun other hMem =>
          hNot other (List.mem_cons_of_mem name hMem))⟩
        rintro ⟨other, hMem, hOther⟩
        rcases List.mem_cons.mp hMem with rfl | hMem
        · exact absurd hOther hSame
        · exact ih.1 ⟨other, hMem, hOther⟩

theorem lookup_putTrees
    (present : Text → Bool)
    {root : Text}
    (hRoot : IsTree root)
    (rest : Path) :
    (putTrees present).lookup (root :: rest) =
      if rest = [] ∧ present root = true then
        some .dir
      else
        none := by
  have hTree : root ∈ [stagingName, rootfsName] := by
    rcases hRoot with rfl | rfl
    · exact List.mem_cons_self
    · exact List.mem_cons_of_mem _ List.mem_cons_self
  have hDirs := lookup_putDirs
    ([stagingName, rootfsName].filter present) (root :: rest)
  split
  · next hThere =>
      apply hDirs.1
      exact ⟨root, List.mem_filter.mpr ⟨hTree, hThere.2⟩,
        by rw [hThere.1]⟩
  · next hNot =>
      apply hDirs.2
      intro name hMem hSame
      rw [List.cons.injEq] at hSame
      apply hNot
      refine ⟨hSame.2, ?_⟩
      rw [hSame.1]
      exact (List.mem_filter.mp hMem).2

theorem lookup_putLists_of_tree
    (records : List RecordedPackage)
    (dir : BuildDir)
    {root : Text}
    (hRoot : IsTree root)
    (rest : Path) :
    (putLists records dir).lookup (root :: rest) =
      dir.lookup (root :: rest) := by
  induction records with
  | nil => rfl
  | cons record records ih =>
      have hStep : putLists (record :: records) dir =
          ((putLists records dir).insert record.p.filelist
            (.file (listText record.files))).insert
              record.p.dirlist
              (.file (dirlistText record.dirs)) :=
        rfl
      have hFiles : root :: rest ≠ record.p.filelist :=
        tree_ne_package hRoot rest record.p _
      have hDirs : root :: rest ≠ record.p.dirlist :=
        tree_ne_package hRoot rest record.p _
      rw [hStep, AList.lookup_insert_ne hDirs,
        AList.lookup_insert_ne hFiles, ih]

theorem recorded_putLists
    {records : List RecordedPackage}
    (hDistinct : (records.map
      (fun record => record.p.name)).Nodup)
    (dir : BuildDir) :
    ∀ record ∈ records,
      record.Recorded (putLists records dir) := by
  have hLists : ∀ p q : Package,
      p.filelist ≠ q.dirlist := by
    intro p q
    simp [Package.filelist, Package.dirlist]
  induction records with
  | nil =>
      intro record hMem
      cases hMem
  | cons record records ih =>
      have hStep : putLists (record :: records) dir =
          ((putLists records dir).insert record.p.filelist
            (.file (listText record.files))).insert
              record.p.dirlist
              (.file (dirlistText record.dirs)) :=
        rfl
      rw [List.map_cons, List.nodup_cons] at hDistinct
      intro other hMem
      rw [hStep]
      rcases List.mem_cons.mp hMem with rfl | hMem
      · refine ⟨?_, ?_⟩
        · unfold BuildDir.cat FileTree.read
          rw [AList.lookup_insert_ne (hLists _ _),
            AList.lookup_insert]
          rfl
        · unfold BuildDir.cat FileTree.read
          rw [AList.lookup_insert]
          rfl
      · have hRest := ih hDistinct.2 other hMem
        have hName : other.p.name ≠ record.p.name := by
          intro hSame
          apply hDistinct.1
          exact List.mem_map.mpr ⟨other, hMem, hSame⟩
        refine ⟨?_, ?_⟩
        · rw [← hRest.files]
          unfold BuildDir.cat FileTree.read
          rw [AList.lookup_insert_ne (hLists _ _),
            AList.lookup_insert_ne
              (by simpa [Package.filelist] using hName)]
        · rw [← hRest.dirs]
          unfold BuildDir.cat FileTree.read
          rw [AList.lookup_insert_ne
              (by simpa [Package.dirlist] using hName),
            AList.lookup_insert_ne (hLists _ _).symm]

/- One node in a tree, next to the lists. -/
def nodeState
    (present : Text → Bool)
    (root : Text)
    (hard : Path)
    (node : FileNode Text) : BuildDir :=
  putLists run.records
    ((putTrees present).insert (root :: hard) node)

theorem lookup_nodeState
    (present : Text → Bool)
    {root other : Text}
    (hOther : IsTree other)
    (hard rest : Path)
    (node : FileNode Text) :
    (run.nodeState present root hard node).lookup
        (other :: rest) =
      if other :: rest = root :: hard then
        some node
      else if rest = [] ∧ present other = true then
        some .dir
      else
        none := by
  unfold nodeState
  rw [lookup_putLists_of_tree _ _ hOther]
  by_cases hSame : other :: rest = root :: hard
  · rw [if_pos hSame, hSame, AList.lookup_insert]
  · rw [if_neg hSame, AList.lookup_insert_ne hSame,
      lookup_putTrees present hOther]

theorem distinct_records :
    (run.records.map (fun record => record.p.name)).Nodup := by
  cases run with
  | clean record => exact List.nodup_singleton _
  | cleanRemoved records hDistinct => exact hDistinct

/- It has the lists, and the trees. -/
theorem recorded_nodeState
    (present : Text → Bool)
    (root : Text)
    {hard : Path}
    (hHard : hard ≠ [])
    (node : FileNode Text) :
    run.Recorded (run.nodeState present root hard node) ∧
      ∀ other, IsTree other →
        FileTree.isDir
            (run.nodeState present root hard node) [other] =
          present other := by
  refine ⟨recorded_putLists run.distinct_records _, ?_⟩
  intro other hOther
  have hNe : [other] ≠ root :: hard := by
    intro hSame
    rw [List.cons.injEq] at hSame
    exact hHard hSame.2.symm
  unfold FileTree.isDir
  rw [run.lookup_nodeState present hOther, if_neg hNe]
  cases present other with
  | true => rfl
  | false => rfl

/- What a list must not be like. -/
def Bad
    (present : Text → Bool)
    (root : Text)
    (paths : List Path) : Prop :=
  paths ≠ [] ∧
    (present root = true → ∃ path ∈ paths, ¬ PlainPath path)

/- A name of such a list that `xargs` does not pass on. -/
theorem exists_spared
    {present : Text → Bool}
    {root : Text}
    (hRoot : IsTree root)
    {records : List RecordedPackage}
    {list : RecordedPackage → Path}
    {paths : RecordedPackage → List Path}
    {names : RecordedPackage → List Text}
    (hFiles : ∀ record ∈ records, ∀ path ∈ paths record,
      FilePath path)
    (hNames : ∀ record ∈ records, ∀ name ∈ names record,
      ∃ path ∈ paths record, findName path = name)
    (hBad : Bad present root (records.flatMap paths)) :
    ∃ record ∈ records, ∃ hard ∈ paths record,
      ∀ dir : BuildDir,
        dir.isDir [root] = present root →
        (∀ record ∈ records,
          dir.cat (list record) =
            Text.unlines (names record)) →
        ∀ (state : BuildDir) (name : Text),
          FileTree.Shrunk dir state →
          root :: hard ∉
            state.xargsPaths [] name (records.map list) := by
  have hAll : ∀ path ∈ records.flatMap paths,
      FilePath path := by
    intro path hMem
    rcases List.mem_flatMap.mp hMem with
      ⟨record, hRecord, hPath⟩
    exact hFiles record hRecord path hPath
  rcases exists_hardest isBlank hBad.1 with ⟨hard, hMem, hMax⟩
  rcases List.mem_flatMap.mp hMem with
    ⟨record, hRecord, hHard⟩
  refine ⟨record, hRecord, hard, hHard, ?_⟩
  intro dir hPresent hCat state name hShrunk
  rcases names_of_shrunk hShrunk hCat with
    ⟨left, hLeft, hText⟩
  refine hardest_not_mem hAll hMem hMax hRoot ?_ ?_ hText name
  · intro hDir hZero
    have hThere : present root = true := by
      rw [← hPresent]
      have hLookup := (FileTree.isDir_iff state [root]).mp hDir
      rw [FileTree.isDir_iff]
      rcases hShrunk [root] with hNone | hSame
      · rw [hNone] at hLookup
        cases hLookup
      · rw [← hSame]
        exact hLookup
    rcases hBad.2 hThere with ⟨path, hPath, hNot⟩
    apply hNot
    apply plainPath_of_specials (hAll path hPath)
    have hLe := hMax path hPath
    omega
  · intro name hName
    rcases hLeft name hName with ⟨other, hOther, hIn⟩
    rcases hNames other hOther name hIn with
      ⟨path, hPath, hSame⟩
    exact ⟨path, List.mem_flatMap.mpr ⟨other, hOther, hPath⟩,
      hSame⟩

variable {run}

/- A listed file that stays. -/
theorem not_removesOwnFiles_of_badFiles
    {present : Text → Bool}
    {root : Text}
    (hRoot : IsTree root)
    (hBad : Bad present root
      (run.records.flatMap RecordedPackage.files)) :
    ∃ dir, run.Recorded dir ∧
      (∀ root, IsTree root →
        dir.isDir [root] = present root) ∧
      ¬ run.RemovesOwnFiles dir := by
  have hNames : ∀ record ∈ run.records,
      ∀ name ∈ record.fileNames,
      ∃ path ∈ record.files, findName path = name :=
    fun record _ name hName =>
      (record.mem_fileNames name).mp hName
  rcases @exists_spared present root hRoot run.records
      (fun record => record.p.filelist) RecordedPackage.files
      RecordedPackage.fileNames
      (fun record _ => record.filesValid) hNames hBad with
    ⟨record, hRecord, hard, hHard, hSpared⟩
  rcases run.recorded_nodeState present root
      (record.filesValid hard hHard).nonempty (.file [])
    with ⟨hRecorded, hPresent⟩
  refine ⟨_, hRecorded, hPresent, ?_⟩
  intro hOwn
  have hRead : (run.nodeState present root hard
      (.file [])).read (root :: hard) = some [] := by
    unfold FileTree.read
    rw [run.lookup_nodeState present hRoot, if_pos rfl]
  have hListed : hard ∈ (run.nodeState present root hard
      (.file [])).listedPaths run.filelists := by
    rw [(run.holdsNames_filelists hRecorded).listed]
    refine List.mem_map.mpr ⟨findName hard, ?_,
      pathOf_findName_of_filePath
        (record.filesValid hard hHard)⟩
    exact List.mem_flatMap.mpr ⟨record, hRecord,
      (record.mem_fileNames _).mpr ⟨hard, hHard, rfl⟩⟩
  have hGone := (hOwn (root :: hard)).1
    (Or.inl (Or.inl
      ⟨mem_inTrees.mpr ⟨root, hard, hRoot, hListed, rfl⟩,
        by rw [hRead]; rfl⟩))
  have hPackage : ∀ list ∈ run.filelists ++ run.dirlists,
      root :: hard ≠ list := by
    intro list hMem
    rcases List.mem_append.mp hMem with hMem | hMem
    · rcases List.mem_map.mp hMem with ⟨other, _, rfl⟩
      exact tree_ne_package hRoot hard other.p _
    · rcases List.mem_map.mp hMem with ⟨other, _, rfl⟩
      exact tree_ne_package hRoot hard other.p _
  have hDatabases : root :: hard ∉ run.databases
      (run.nodeState present root hard (.file [])) := by
    intro hMem
    rcases run.mem_databases hMem with ⟨p, name, hSame, _⟩
    exact tree_ne_package hRoot hard p _ hSame
  have hStays := read_cleaned_of_not_mem hDatabases
    (fun h => hPackage _ (List.mem_append_left _ h) rfl)
    (fun h => hPackage _ (List.mem_append_right _ h) rfl)
    (hSpared _ (hPresent root hRoot)
      (fun other hOther => (hRecorded other hOther).files))
  rw [← run_recipe, hRead] at hStays
  rw [((FileTree.lookup_eq_none_iff _ _).mp hGone).1]
    at hStays
  cases hStays

/- A listed directory that stays. -/
theorem not_removesOwnFiles_of_badDirs
    {present : Text → Bool}
    {root : Text}
    (hRoot : IsTree root)
    (hBad : Bad present root
      (run.records.flatMap RecordedPackage.dirs)) :
    ∃ dir, run.Recorded dir ∧
      (∀ root, IsTree root →
        dir.isDir [root] = present root) ∧
      ¬ run.RemovesOwnFiles dir := by
  have hNames : ∀ record ∈ run.records,
      ∀ name ∈ record.dirNames,
      ∃ path ∈ record.dirs, findName path = name :=
    fun record _ name hName =>
      (record.mem_dirNames name).mp hName
  rcases @exists_spared present root hRoot run.records
      (fun record => record.p.dirlist) RecordedPackage.dirs
      RecordedPackage.dirNames
      (fun record _ => record.dirsValid) hNames hBad with
    ⟨record, hRecord, hard, hHard, hSpared⟩
  have hNonempty := (record.dirsValid hard hHard).nonempty
  rcases run.recorded_nodeState present root hNonempty .dir
    with ⟨hRecorded, hPresent⟩
  refine ⟨_, hRecorded, hPresent, ?_⟩
  intro hOwn
  have hDir : (run.nodeState present root hard
      .dir).isDir (root :: hard) = true := by
    unfold FileTree.isDir
    rw [run.lookup_nodeState present hRoot, if_pos rfl]
  have hListed : hard ∈ (run.nodeState present root hard
      .dir).listedPaths run.dirlists := by
    rw [(run.holdsNames_dirlists hRecorded).listed]
    refine List.mem_map.mpr ⟨findName hard, ?_,
      pathOf_findName_of_filePath
        (record.dirsValid hard hHard)⟩
    exact List.mem_flatMap.mpr ⟨record, hRecord,
      (record.mem_dirNames _).mpr ⟨hard, hHard, rfl⟩⟩
  -- Nothing is below the directory.
  have hBelow : ∀ other, root :: hard <+: other →
      root :: hard ≠ other →
      (run.nodeState present root hard .dir).lookup other =
        none := by
    rintro other ⟨rest, rfl⟩ hNe
    rw [List.cons_append,
      run.lookup_nodeState present hRoot,
      if_neg (fun h => hNe h.symm), if_neg]
    rintro ⟨hEmpty, _⟩
    exact hNonempty (List.append_eq_nil_iff.mp hEmpty).1
  have hEmptied : FileTree.Emptied
      ((run.nodeState present root hard .dir).removeAll
        (inTrees ((run.nodeState present root hard
          .dir).listedPaths run.filelists)))
      (inTrees ((run.nodeState present root hard
        .dir).listedPaths run.dirlists)) (root :: hard) := by
    refine ⟨(FileTree.isDir_removeAll _ _ _).trans hDir,
      mem_inTrees.mpr ⟨root, hard, hRoot, hListed, rfl⟩, ?_⟩
    intro other hPrefix hNe hLookup
    exact absurd (FileTree.lookup_removeAll_of_none _
      (hBelow other hPrefix hNe)) hLookup
  have hGone := (hOwn (root :: hard)).1
    (Or.inl (Or.inr hEmptied))
  have hStays := @isDir_cleaned_of_not_mem
    (run.databases (run.nodeState present root hard .dir))
    run.filelists run.dirlists _ _
    (hSpared _ (hPresent root hRoot)
      (fun other hOther => (hRecorded other hOther).dirs))
  rw [← run_recipe, hDir] at hStays
  rw [((FileTree.lookup_eq_none_iff _ _).mp hGone).2]
    at hStays
  cases hStays

/- One of the two lists is bad, in one of the trees. -/
theorem exists_bad_of_not_plain
    {present : Text → Bool}
    (hNot : ¬ run.Plain present) :
    ∃ root, IsTree root ∧
      (Bad present root
          (run.records.flatMap RecordedPackage.files) ∨
        Bad present root
          (run.records.flatMap RecordedPackage.dirs)) := by
  rw [Plain, not_or, not_and_or] at hNot
  rcases hNot with ⟨hSome, hMissing | hOdd⟩
  · rcases not_forall₂.mp hMissing with
      ⟨root, hRoot, hAbsent⟩
    rcases not_forall₂.mp hSome with
      ⟨record, hRecord, hListed⟩
    refine ⟨root, hRoot, ?_⟩
    have hVacuous : ∀ paths : List Path, present root = true →
        ∃ path ∈ paths, ¬ PlainPath path :=
      fun _ h => absurd h hAbsent
    rcases not_and_or.mp hListed with hFiles | hDirs
    · refine Or.inl ⟨?_, hVacuous _⟩
      intro hNil
      exact hFiles (List.flatMap_eq_nil_iff.mp hNil record
        hRecord)
    · refine Or.inr ⟨?_, hVacuous _⟩
      intro hNil
      exact hDirs (List.flatMap_eq_nil_iff.mp hNil record
        hRecord)
  · rcases not_forall₂.mp hOdd with ⟨record, hRecord, hPaths⟩
    rcases not_forall₂.mp hPaths with ⟨path, hMem, hPath⟩
    refine ⟨stagingName, Or.inl rfl, ?_⟩
    rcases List.mem_append.mp hMem with hMem | hMem
    · have hIn := List.mem_flatMap.mpr ⟨record, hRecord, hMem⟩
      exact Or.inl ⟨List.ne_nil_of_mem hIn,
        fun _ => ⟨path, hIn, hPath⟩⟩
    · have hIn := List.mem_flatMap.mpr ⟨record, hRecord, hMem⟩
      exact Or.inr ⟨List.ne_nil_of_mem hIn,
        fun _ => ⟨path, hIn, hPath⟩⟩

end CleaningRun

------------------------------------------------------------
-- A Name With A Space
------------------------------------------------------------

/- A package that has installed a file `a b`. -/
def spacedRecord : RecordedPackage where
  p := samplePackage
  files := [[['a', ' ', 'b']]]
  dirs := []
  filesValid := by
    rw [List.forall_mem_singleton]
    refine ⟨List.cons_ne_nil _ _, ?_⟩
    rw [List.forall_mem_singleton]
    decide
  dirsValid := by
    intro path hMem
    cases hMem
  dirsClosed := by
    intro path hMem
    cases hMem

/- Its list, and a file `a` that is not listed. -/
def spacedDir : BuildDir :=
  ((((AList.insert [stagingName] .dir ∅).insert
    [rootfsName] .dir).insert
    [stagingName, ['a']] (.file [])).insert
    spacedRecord.p.filelist
    (.file ['.', '/', 'a', ' ', 'b', '\n']))

end Mkrootfs
