import Mkrootfs.Build.Recipes

/-
  The invariant behind the file lists, and the commands that
  keep it.

  Main declarations:
    * `Listed`, `Logged`
    * `BuildAct.Guard`
    * `Accounted`
    * `Accounted.next`
    * `Accounted.moveList`, `Accounted.removeList`
-/

------------------------------------------------------------
-- The Log
------------------------------------------------------------

namespace Mkrootfs

/- The two trees. -/
def IsTree (root : Text) : Prop :=
  root = stagingName ∨ root = rootfsName

/- A path in the current `.mkr.filelist` of a package. -/
def Listed
    (dir : BuildDir)
    (p : Package)
    (path : Path) : Prop :=
  ∃ name ∈ Text.lines (dir.cat p.filelist),
    pathOf name = path

/- Every file of the trees is listed. -/
def Logged (dir : BuildDir) : Prop :=
  ∀ root path, IsTree root → path ≠ [] →
    (dir.read (root :: path)).isSome = true →
    ∃ p, Listed dir p path

/-
  The condition on a command: `xargs rm -f` is not given the
  `.mkr.filelist` of a package, as it can be where the `cd`
  before it failed, and a `rootfs` rule only passes on names
  that are listed by its package or staged themselves.
-/
def BuildAct.Guard (dir : BuildDir) : BuildAct → Prop
| .rmListed path =>
    ∀ p : Package, path = p.filelist → dir.read path = none
| .copyRootfs p path (.file _) =>
    Listed dir p path ∨
      (dir.read (stagingName :: path)).isSome = true
| _ => True

/- The content of a list of plain paths. -/
structure PlainList
    (text : Text)
    (paths : List Path) : Prop where
  text_eq : text = Text.unlines (paths.map findName)
  plain : ∀ path ∈ paths, PlainPath path

/-
  The invariant: the log, the directories that hold files,
  what lists and installations hold, no directory in place
  of a list and no file in place of a tree.
-/
structure Accounted (dir : BuildDir) : Prop where
  logged : Logged dir
  top : ∀ root path, IsTree root → path ≠ [] →
    (dir.read (root :: path)).isSome = true →
    dir.isDir [root] = true
  lists : ∀ p : Package, ∀ text,
    dir.read p.filelist = some text →
    ∃ paths, PlainList text paths
  insts : ∀ p : Package, ∀ path,
    (dir.read (p.pkginst ++ path)).isSome = true →
    PlainPath path
  noDirs : ∀ p : Package,
    dir.isDir p.filelist = false ∧
      dir.isDir p.newfilelist = false
  roots : ∀ root, IsTree root → dir.read [root] = none

/- An empty build directory. -/
theorem accounted_empty : Accounted (∅ : BuildDir) where
  logged root path _ _ hRead := by simp at hRead
  top root path _ _ hRead := by simp at hRead
  lists p text hRead := by simp at hRead
  insts p path hRead := by simp at hRead
  noDirs p := by simp [FileTree.isDir]
  roots root _ := by simp

------------------------------------------------------------
-- Lists
------------------------------------------------------------

/- The lines of a list of plain paths. -/
theorem PlainList.lines_eq
    {text : Text}
    {paths : List Path}
    (hList : PlainList text paths) :
    Text.lines text = paths.map findName := by
  rw [hList.text_eq]
  apply Text.lines_unlines
  intro line hMem
  rcases List.mem_map.mp hMem with ⟨path, hPath, rfl⟩
  exact newline_not_mem_of_plain
    (plainItem_findName (hList.plain path hPath))

/- The paths that a list holds. -/
theorem PlainList.listed_iff
    {dir : BuildDir}
    {p : Package}
    {text : Text}
    {paths : List Path}
    (hList : PlainList text paths)
    (hRead : dir.read p.filelist = some text)
    (path : Path) :
    Listed dir p path ↔ path ∈ paths := by
  unfold Listed BuildDir.cat
  rw [hRead, Option.getD_some, hList.lines_eq]
  constructor
  · rintro ⟨name, hMem, rfl⟩
    rcases List.mem_map.mp hMem with ⟨other, hOther, rfl⟩
    rw [pathOf_findName (hList.plain other hOther)]
    exact hOther
  · intro hMem
    exact ⟨findName path, List.mem_map.mpr ⟨path, hMem, rfl⟩,
      pathOf_findName (hList.plain path hMem)⟩

/- A list that does not exist lists nothing. -/
theorem not_listed_of_none
    {dir : BuildDir}
    {p : Package}
    (hRead : dir.read p.filelist = none)
    (path : Path) :
    ¬ Listed dir p path := by
  rintro ⟨name, hMem, _⟩
  simp [BuildDir.cat, hRead, Text.lines] at hMem

/- What is listed depends on the list only. -/
theorem listed_congr
    {dir dir' : BuildDir}
    {p : Package}
    (hRead : dir'.read p.filelist = dir.read p.filelist)
    (path : Path) :
    Listed dir' p path ↔ Listed dir p path := by
  unfold Listed BuildDir.cat
  rw [hRead]

/- The lists hold no empty path. -/
theorem Accounted.path_ne_nil
    {dir : BuildDir}
    {p : Package}
    {path : Path}
    (hGood : Accounted dir)
    (hListed : Listed dir p path) :
    path ≠ [] := by
  cases hRead : dir.read p.filelist with
  | none =>
      exact absurd hListed (not_listed_of_none hRead path)
  | some text =>
      rcases hGood.lists p text hRead with ⟨paths, hList⟩
      exact (hList.plain path
        ((hList.listed_iff hRead path).mp hListed)).nonempty

------------------------------------------------------------
-- Places
------------------------------------------------------------

/- The trees are apart from the package directories. -/
theorem tree_ne_package
    {root : Text}
    (hRoot : IsTree root)
    (path : Path)
    (p : Package)
    (rest : Path) :
    root :: path ≠ p.name :: rest := by
  intro hSame
  have hName := (List.cons.inj hSame).1
  rcases hRoot with rfl | rfl
  · exact p.notStaging hName.symm
  · exact p.notRootfs hName.symm

/- A list belongs to one package. -/
theorem filelist_injective
    {p q : Package}
    (hSame : p.filelist = q.filelist) :
    p = q := by
  have hName := (List.cons.inj hSame).1
  cases p
  cases q
  cases hName
  rfl

/- What is installed belongs to one package. -/
theorem pkginst_append_inj
    {p q : Package}
    {path rest : Path}
    (hSame : p.pkginst ++ path = q.pkginst ++ rest) :
    p = q ∧ path = rest := by
  simp only [Package.pkginst, List.cons_append,
    List.nil_append, List.cons.injEq] at hSame
  refine ⟨?_, hSame.2.2⟩
  cases p
  cases q
  cases hSame.1
  rfl

------------------------------------------------------------
-- Commands That Do Not Touch The Lists
------------------------------------------------------------

section Commands

variable {dir dir' : BuildDir}

/-
  A command that keeps the lists, and only adds files that
  are listed already.
-/
theorem Accounted.next
    (hGood : Accounted dir)
    (hTrees : ∀ root path, IsTree root → path ≠ [] →
      (dir'.read (root :: path)).isSome = true →
      (dir.read (root :: path)).isSome = true ∨
        ((∃ p, Listed dir p path) ∧
          dir.isDir [root] = true))
    (hLists : ∀ p : Package,
      dir'.read p.filelist = dir.read p.filelist)
    (hInsts : ∀ (p : Package) path,
      (dir'.read (p.pkginst ++ path)).isSome = true →
      (dir.read (p.pkginst ++ path)).isSome = true ∨
        PlainPath path)
    (hTop : ∀ root path, IsTree root → path ≠ [] →
      (dir'.read (root :: path)).isSome = true →
      dir.isDir [root] = true →
      dir'.isDir [root] = true)
    (hNoDirs : ∀ p : Package,
      (dir'.isDir p.filelist = true →
        dir.isDir p.filelist = true) ∧
      (dir'.isDir p.newfilelist = true →
        dir.isDir p.newfilelist = true))
    (hRoots : ∀ root, IsTree root →
      (dir'.read [root]).isSome = true →
      (dir.read [root]).isSome = true) :
    Accounted dir' where
  logged root path hRoot hPath hRead := by
    have hListed : ∃ p, Listed dir p path := by
      rcases hTrees root path hRoot hPath hRead with
        hOld | hNew
      · exact hGood.logged root path hRoot hPath hOld
      · exact hNew.1
    rcases hListed with ⟨p, hListed⟩
    exact ⟨p, (listed_congr (hLists p) path).mpr hListed⟩
  top root path hRoot hPath hRead := by
    apply hTop root path hRoot hPath hRead
    rcases hTrees root path hRoot hPath hRead with
      hOld | hNew
    · exact hGood.top root path hRoot hPath hOld
    · exact hNew.2
  lists p text hRead := by
    rw [hLists p] at hRead
    exact hGood.lists p text hRead
  insts p path hRead := by
    rcases hInsts p path hRead with hOld | hPlain
    · exact hGood.insts p path hOld
    · exact hPlain
  roots root hRoot := by
    by_contra hRead
    have hOld := hRoots root hRoot
      (Option.isSome_iff_ne_none.mpr hRead)
    rw [hGood.roots root hRoot] at hOld
    cases hOld
  noDirs p := by
    have hNot := hGood.noDirs p
    constructor
    · by_contra hDir
      simp only [Bool.not_eq_false] at hDir
      rw [(hNoDirs p).1 hDir] at hNot
      simp at hNot
    · by_contra hDir
      simp only [Bool.not_eq_false] at hDir
      rw [(hNoDirs p).2 hDir] at hNot
      simp at hNot

/- Removing a file, unless it is an existing list. -/
theorem Accounted.remove
    {path : Path}
    (hGood : Accounted dir)
    (hNoList : ∀ p : Package, path = p.filelist →
      dir.read path = none) :
    Accounted (dir.remove path) := by
  have hKept : ∀ other,
      ((dir.remove path).read other).isSome = true →
        (dir.read other).isSome = true := by
    intro other hRead
    rw [FileTree.read_remove] at hRead
    split at hRead
    · cases hRead
    · exact hRead
  apply hGood.next
  · intro root rest _ _ hRead
    exact Or.inl (hKept _ hRead)
  · intro p
    rw [FileTree.read_remove]
    split
    · next hSame =>
        rw [hSame, hNoList p hSame.symm]
    · rfl
  · intro p rest hRead
    exact Or.inl (hKept _ hRead)
  · intro root rest _ _ _ hDir
    rw [FileTree.isDir_remove]
    exact hDir
  · intro p
    simp
  · intro root _ hRead
    exact hKept _ hRead

/- Removing an empty directory. -/
theorem Accounted.removeDir
    (hGood : Accounted dir)
    (path : Path) :
    Accounted (dir.removeDir path) := by
  apply hGood.next
  · intro root rest _ _ hRead
    rw [FileTree.read_removeDir] at hRead
    exact Or.inl hRead
  · intro p
    rw [FileTree.read_removeDir]
  · intro p rest hRead
    rw [FileTree.read_removeDir] at hRead
    exact Or.inl hRead
  · intro root rest _ hRest hRead hDir
    rw [FileTree.read_removeDir] at hRead
    rcases Option.isSome_iff_exists.mp hRead with
      ⟨text, hRead⟩
    exact FileTree.isDir_removeDir_of_read path hRest hRead
      hDir
  · intro p
    exact ⟨FileTree.isDir_of_isDir_removeDir,
      FileTree.isDir_of_isDir_removeDir⟩
  · intro root _ hRead
    rw [FileTree.read_removeDir] at hRead
    exact hRead

/- Creating a directory that is not in place of a list. -/
theorem Accounted.mkdir
    {path : Path}
    (hGood : Accounted dir)
    (hNoList : ∀ p : Package,
      path ≠ p.filelist ∧ path ≠ p.newfilelist) :
    Accounted (dir.mkdir path) := by
  apply hGood.next
  · intro root rest _ _ hRead
    rw [FileTree.read_mkdir] at hRead
    exact Or.inl hRead
  · intro p
    rw [FileTree.read_mkdir]
  · intro p rest hRead
    rw [FileTree.read_mkdir] at hRead
    exact Or.inl hRead
  · intro root rest _ _ _ hDir
    exact FileTree.isDir_mkdir_of_isDir path hDir
  · intro p
    rw [FileTree.isDir_mkdir_of_ne dir (hNoList p).1.symm,
      FileTree.isDir_mkdir_of_ne dir (hNoList p).2.symm]
    exact ⟨id, id⟩
  · intro root _ hRead
    rw [FileTree.read_mkdir] at hRead
    exact hRead

/- A directory of one of the trees. -/
theorem Accounted.putDir
    {root : Text}
    (hGood : Accounted dir)
    (hRoot : IsTree root)
    (path : Path) :
    Accounted (dir.putDir (root :: path)) := by
  have hKept : ∀ other,
      ((dir.putDir (root :: path)).read other).isSome =
          true →
        (dir.read other).isSome = true := by
    intro other hRead
    rw [FileTree.read_putDir] at hRead
    split at hRead
    · cases hRead
    · exact hRead
  have hOther : ∀ (p : Package) rest,
      p.name :: rest ≠ root :: path := fun p rest =>
    (tree_ne_package hRoot path p rest).symm
  apply hGood.next
  · intro other rest _ _ hRead
    exact Or.inl (hKept _ hRead)
  · intro p
    have hList : p.filelist ≠ root :: path := hOther p _
    rw [FileTree.read_putDir, if_neg hList]
  · intro p rest hRead
    exact Or.inl (hKept _ hRead)
  · intro other rest _ _ _ hDir
    exact FileTree.isDir_putDir_of_isDir _ hDir
  · intro p
    have hList : p.filelist ≠ root :: path := hOther p _
    have hNewList : p.newfilelist ≠ root :: path :=
      hOther p _
    rw [FileTree.isDir_putDir, FileTree.isDir_putDir,
      if_neg hList, if_neg hNewList]
    exact ⟨id, id⟩
  · intro other _ hRead
    exact hKept _ hRead

/- A file of a tree that is listed already. -/
theorem Accounted.writeTree
    {root : Text}
    {path : Path}
    (hGood : Accounted dir)
    (hRoot : IsTree root)
    (hPath : path ≠ [])
    (hListed : ∃ p, Listed dir p path)
    (hDir : dir.isDir [root] = true)
    (text : Text) :
    Accounted (dir.write (root :: path) text) := by
  apply hGood.next
  · intro other rest _ _ hRead
    rw [FileTree.read_write] at hRead
    split at hRead
    · next hSame =>
        rcases List.cons.inj hSame.1 with ⟨rfl, rfl⟩
        exact Or.inr ⟨hListed, hDir⟩
    · exact Or.inl hRead
  · intro p
    rw [FileTree.read_write, if_neg]
    intro hSame
    exact tree_ne_package hRoot path p _ hSame.1.symm
  · intro p rest hRead
    rw [FileTree.read_write, if_neg] at hRead
    · exact Or.inl hRead
    · intro hSame
      exact tree_ne_package hRoot path p _ hSame.1.symm
  · intro other rest _ _ _ hOther
    rw [FileTree.isDir_write]
    exact hOther
  · intro p
    simp
  · intro other _ hRead
    rw [FileTree.read_write, if_neg] at hRead
    · exact hRead
    · intro hSame
      exact hPath (List.cons.inj hSame.1).2.symm

/- A file of a package directory that is not its list. -/
theorem Accounted.writePackage
    {p : Package}
    {rest : Path}
    (hGood : Accounted dir)
    (hNoList : ∀ q : Package, p.name :: rest ≠ q.filelist)
    (hPlain : ∀ (q : Package) path,
      q.pkginst ++ path = p.name :: rest → PlainPath path)
    (text : Text) :
    Accounted (dir.write (p.name :: rest) text) := by
  apply hGood.next
  · intro root path hRoot _ hRead
    rw [FileTree.read_write, if_neg] at hRead
    · exact Or.inl hRead
    · intro hSame
      exact tree_ne_package hRoot path p _ hSame.1
  · intro q
    rw [FileTree.read_write, if_neg]
    intro hSame
    exact hNoList q hSame.1.symm
  · intro q path hRead
    rw [FileTree.read_write] at hRead
    split at hRead
    · next hSame => exact Or.inr (hPlain q path hSame.1)
    · exact Or.inl hRead
  · intro root path _ _ _ hDir
    rw [FileTree.isDir_write]
    exact hDir
  · intro q
    simp
  · intro root hRoot hRead
    rw [FileTree.read_write, if_neg] at hRead
    · exact hRead
    · intro hSame
      exact tree_ne_package hRoot [] p _ hSame.1

/- Renaming files of a package other than its lists. -/
theorem Accounted.movePackage
    {p : Package}
    {source target : Text}
    (hGood : Accounted dir)
    (hSource : ∀ q : Package, [p.name, source] ≠ q.filelist)
    (hTarget : ∀ (q : Package) path,
      [p.name, target] ≠ q.filelist ∧
        [p.name, target] ≠ q.pkginst ++ path) :
    Accounted
      (dir.move [p.name, source] [p.name, target]) := by
  have hMoved : ∀ other, other ≠ [p.name, target] →
      ((dir.move [p.name, source]
        [p.name, target]).read other).isSome = true →
      (dir.read other).isSome = true := by
    intro other hNe hRead
    by_cases hSame : other = [p.name, source]
    · subst hSame
      by_contra hNone
      simp only [Bool.not_eq_true, Option.isSome_eq_false_iff,
        Option.isNone_iff_eq_none] at hNone
      unfold FileTree.move at hRead
      rw [hNone] at hRead
      simp [hNone] at hRead
    · rw [FileTree.read_move_of_ne hSame hNe] at hRead
      exact hRead
  apply hGood.next
  · intro root path hRoot _ hRead
    rw [FileTree.read_move_of_ne
      (tree_ne_package hRoot path p _)
      (tree_ne_package hRoot path p _)] at hRead
    exact Or.inl hRead
  · intro q
    exact FileTree.read_move_of_ne (hSource q).symm
      (hTarget q []).1.symm
  · intro q path hRead
    exact Or.inl (hMoved _ (hTarget q path).2.symm hRead)
  · intro root path _ _ _ hDir
    exact FileTree.isDir_move _ _ hDir
  · intro q
    exact ⟨FileTree.isDir_of_isDir_move,
      FileTree.isDir_of_isDir_move⟩
  · intro root hRoot hRead
    exact hMoved _ (tree_ne_package hRoot [] p _) hRead

------------------------------------------------------------
-- Commands That Change A List
------------------------------------------------------------

/- A path is in none of the trees. -/
def Absent (dir : BuildDir) (path : Path) : Prop :=
  dir.read (stagingName :: path) = none ∧
    dir.read (rootfsName :: path) = none

theorem Absent.not_isSome
    {path : Path}
    (hAbsent : Absent dir path)
    {root : Text}
    (hRoot : IsTree root) :
    ¬ (dir.read (root :: path)).isSome = true := by
  rcases hRoot with rfl | rfl
  · rw [hAbsent.1]
    simp
  · rw [hAbsent.2]
    simp

/-
  A list is replaced once the files that it drops are in
  none of the trees.
-/
theorem Accounted.moveList
    {p : Package}
    {text : Text}
    {paths : List Path}
    (hGood : Accounted dir)
    (hRead : dir.read p.newfilelist = some text)
    (hNew : PlainList text paths)
    (hDropped : ∀ path, Listed dir p path →
      path ∉ paths → Absent dir path) :
    Accounted (dir.move p.newfilelist p.filelist) ∧
      (dir.move p.newfilelist p.filelist).read p.filelist =
        some text := by
  have hReads := FileTree.read_move hRead (hGood.noDirs p).1
  have hSelf :
      (dir.move p.newfilelist p.filelist).read p.filelist =
        some text := by
    rw [hReads, if_pos rfl]
  have hOthers : ∀ q, q ≠ p →
      (dir.move p.newfilelist p.filelist).read q.filelist =
        dir.read q.filelist := by
    intro q hNe
    have hList : q.filelist ≠ p.filelist := fun hSame =>
      hNe (filelist_injective hSame)
    have hNewList : q.filelist ≠ p.newfilelist := by
      simp [Package.filelist, Package.newfilelist]
    rw [hReads, if_neg hList, if_neg hNewList]
  have hTrees : ∀ root path, IsTree root →
      (dir.move p.newfilelist p.filelist).read
          (root :: path) =
        dir.read (root :: path) := by
    intro root path hRoot
    exact FileTree.read_move_of_ne
      (tree_ne_package hRoot path p _)
      (tree_ne_package hRoot path p _)
  refine ⟨⟨?_, ?_, ?_, ?_, ?_, ?_⟩, hSelf⟩
  · intro root path hRoot hPath hSome
    rw [hTrees root path hRoot] at hSome
    rcases hGood.logged root path hRoot hPath hSome with
      ⟨q, hListed⟩
    by_cases hSame : q = p
    · subst hSame
      by_cases hKept : path ∈ paths
      · exact ⟨q, (hNew.listed_iff hSelf path).mpr hKept⟩
      · exact absurd hSome
          ((hDropped path hListed hKept).not_isSome hRoot)
    · exact ⟨q, (listed_congr (hOthers q hSame) path).mpr
        hListed⟩
  · intro root path hRoot hPath hSome
    rw [hTrees root path hRoot] at hSome
    exact FileTree.isDir_move _ _
      (hGood.top root path hRoot hPath hSome)
  · intro q other hOther
    by_cases hSame : q = p
    · subst hSame
      rw [hSelf] at hOther
      cases hOther
      exact ⟨paths, hNew⟩
    · rw [hOthers q hSame] at hOther
      exact hGood.lists q other hOther
  · intro q path hSome
    have hSource : q.pkginst ++ path ≠ p.newfilelist := by
      simp [Package.pkginst, Package.newfilelist]
    have hTarget : q.pkginst ++ path ≠ p.filelist := by
      simp [Package.pkginst, Package.filelist]
    rw [FileTree.read_move_of_ne hSource hTarget] at hSome
    exact hGood.insts q path hSome
  · intro q
    have hNot := hGood.noDirs q
    constructor
    · by_contra hDir
      simp only [Bool.not_eq_false] at hDir
      rw [FileTree.isDir_of_isDir_move hDir] at hNot
      simp at hNot
    · by_contra hDir
      simp only [Bool.not_eq_false] at hDir
      rw [FileTree.isDir_of_isDir_move hDir] at hNot
      simp at hNot
  · intro root hRoot
    rw [hTrees root [] hRoot]
    exact hGood.roots root hRoot

/-
  A list is removed once its files are in none of the trees.
-/
theorem Accounted.removeList
    {p : Package}
    (hGood : Accounted dir)
    (hGone : ∀ path, Listed dir p path → path ≠ [] →
      Absent dir path) :
    Accounted (dir.remove p.filelist) := by
  have hOthers : ∀ q, q ≠ p →
      (dir.remove p.filelist).read q.filelist =
        dir.read q.filelist := by
    intro q hNe
    rw [FileTree.read_remove, if_neg]
    exact fun hSame => hNe (filelist_injective hSame)
  have hTrees : ∀ root path, IsTree root →
      (dir.remove p.filelist).read (root :: path) =
        dir.read (root :: path) := by
    intro root path hRoot
    rw [FileTree.read_remove, if_neg]
    exact tree_ne_package hRoot path p _
  refine ⟨?_, ?_, ?_, ?_, ?_, ?_⟩
  · intro root path hRoot hPath hSome
    rw [hTrees root path hRoot] at hSome
    rcases hGood.logged root path hRoot hPath hSome with
      ⟨q, hListed⟩
    have hNe : q ≠ p := by
      rintro rfl
      exact (hGone path hListed hPath).not_isSome hRoot hSome
    exact ⟨q, (listed_congr (hOthers q hNe) path).mpr hListed⟩
  · intro root path hRoot hPath hSome
    rw [hTrees root path hRoot] at hSome
    rw [FileTree.isDir_remove]
    exact hGood.top root path hRoot hPath hSome
  · intro q text hRead
    rw [FileTree.read_remove] at hRead
    split at hRead
    · cases hRead
    · exact hGood.lists q text hRead
  · intro q path hSome
    rw [FileTree.read_remove] at hSome
    split at hSome
    · cases hSome
    · exact hGood.insts q path hSome
  · intro q
    rw [FileTree.isDir_remove, FileTree.isDir_remove]
    exact hGood.noDirs q
  · intro root hRoot
    rw [hTrees root [] hRoot]
    exact hGood.roots root hRoot

end Commands

end Mkrootfs
