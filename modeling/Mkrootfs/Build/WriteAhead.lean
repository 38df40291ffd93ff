import Mkrootfs.Build.Accounted

/-
  The file lists as a write-ahead log: every file of the two
  trees is in the list of some package, whatever recipes run
  and wherever they are interrupted.

  Main declarations:
    * `Safe`
    * `safe_removeListed`, `safe_removeListed_tree`
    * `safe_stagingRecipe`, `safe_rsyncRootfs`
    * `safe_cleanRecipe`, `safe_cleanRemovedPackages`
    * `logged_of_reachable`
-/

------------------------------------------------------------
-- Scripts That Keep The Invariant
------------------------------------------------------------

namespace Mkrootfs

open BuildScript (command block each)

/-
  A script that keeps the invariant at every moment, and
  leads from one assertion to another.
-/
def Safe
    (pre : BuildDir → Prop)
    (script : BuildScript)
    (post : BuildDir → Prop) : Prop :=
  Script.Keeps BuildAct.apply
    (fun act dir => BuildAct.Guard dir act) Accounted
    (fun dir => Accounted dir ∧ pre dir) script
    (fun dir => Accounted dir ∧ post dir)

section Rules

variable {pre mid post : BuildDir → Prop}

theorem safe_skip : Safe pre Script.skip pre :=
  Script.keeps_skip (fun _ hPre => hPre.1)

theorem safe_exit : Safe pre Script.exit post :=
  Script.keeps_exit (fun _ hPre => hPre.1)

/- One command. -/
theorem safe_act
    {act : BuildDir → BuildAct}
    (hAct : ∀ dir, Accounted dir → pre dir →
      BuildAct.Guard dir (act dir) →
      Accounted (BuildAct.apply dir (act dir)) ∧
        post (BuildAct.apply dir (act dir))) :
    Safe pre (Script.act act) post := by
  apply Script.keeps_act (fun _ hPre => hPre.1)
  intro dir hPre hGuard
  have hNext := hAct dir hPre.1 hPre.2 hGuard
  exact ⟨hNext.1, hNext⟩

theorem safe_nil : Safe pre (block []) pre :=
  safe_skip

theorem safe_cons
    {first : BuildScript}
    {scripts : List BuildScript}
    (hFirst : Safe pre first mid)
    (hRest : Safe mid (block scripts) post) :
    Safe pre (block (first :: scripts)) post :=
  Script.keeps_seq hFirst hRest

/- The same, with the assertion in between written out. -/
theorem safe_then
    (mid : BuildDir → Prop)
    {first : BuildScript}
    {scripts : List BuildScript}
    (hFirst : Safe pre first mid)
    (hRest : Safe mid (block scripts) post) :
    Safe pre (block (first :: scripts)) post :=
  safe_cons hFirst hRest

theorem safe_cond
    {condition : BuildDir → Bool}
    {first second : BuildScript}
    (hFirst : Safe
      (fun dir => pre dir ∧ condition dir = true) first post)
    (hSecond : Safe
      (fun dir => pre dir ∧ condition dir = false) second
      post) :
    Safe pre (Script.cond condition first second) post := by
  apply Script.keeps_cond
  · exact Script.keeps_of_imp hFirst
      (fun _ hDir => ⟨hDir.1.1, hDir.1.2, hDir.2⟩)
      (fun _ hDir => hDir)
  · exact Script.keeps_of_imp hSecond
      (fun _ hDir => ⟨hDir.1.1, hDir.1.2, hDir.2⟩)
      (fun _ hDir => hDir)

theorem safe_of_imp
    {pre' post' : BuildDir → Prop}
    {script : BuildScript}
    (hSafe : Safe pre script post)
    (hPre : ∀ dir, Accounted dir → pre' dir → pre dir)
    (hPost : ∀ dir, Accounted dir → post dir → post' dir) :
    Safe pre' script post' :=
  Script.keeps_of_imp hSafe
    (fun dir hDir => ⟨hDir.1, hPre dir hDir.1 hDir.2⟩)
    (fun dir hDir => ⟨hDir.1, hPost dir hDir.1 hDir.2⟩)

/- A script that needs no assertion. -/
theorem safe_of_true
    {script : BuildScript}
    (hSafe : Safe (fun _ => True) script post) :
    Safe pre script post :=
  safe_of_imp hSafe (fun _ _ _ => trivial)
    (fun _ _ hPost => hPost)

/- An assertion that names what the state holds. -/
theorem safe_of_exists
    {I : Type}
    {about : I → BuildDir → Prop}
    {script : BuildScript}
    (hSome : ∀ dir, Accounted dir → pre dir →
      ∃ i, about i dir)
    (hSafe : ∀ i, Safe (about i) script post) :
    Safe pre script post := by
  intro dir hDir
  rcases hSome dir hDir.1 hDir.2 with ⟨i, hAbout⟩
  exact hSafe i dir ⟨hDir.1, hAbout⟩

/- A loop that keeps an assertion. -/
theorem safe_each
    {B : Type}
    {items : BuildDir → List B}
    {body : B → BuildScript}
    (hBody : ∀ start, Accounted start → pre start →
      ∀ item ∈ items start, Safe pre (body item) pre) :
    Safe pre (each items body) pre := by
  intro dir hDir
  have hLoop : ∀ done : List B,
      Script.Keeps BuildAct.apply
        (fun act dir => BuildAct.Guard dir act) Accounted
        (fun state => Accounted state ∧ pre state)
        (Script.forEach BuildAct.apply body (items dir))
        (fun state => Accounted state ∧ pre state) := by
    apply Script.keeps_forEach (fun _ _ hState => hState.1)
    intro _ item hMem
    exact hBody dir hDir.1 hDir.2 item hMem
  exact hLoop [] dir hDir

/- A loop that also does something to each item. -/
theorem safe_each_all
    {B : Type}
    {items : BuildDir → List B}
    {body : B → BuildScript}
    {done : B → BuildDir → Prop}
    (list : List B)
    (hItems : ∀ dir, pre dir → items dir = list)
    (hBody : ∀ earlier : List B, ∀ item ∈ list,
      Safe
        (fun dir =>
          pre dir ∧ ∀ other ∈ earlier, done other dir)
        (body item)
        (fun dir =>
          (pre dir ∧ ∀ other ∈ earlier, done other dir) ∧
            done item dir)) :
    Safe pre (each items body)
      (fun dir => pre dir ∧ ∀ item ∈ list, done item dir) := by
  intro dir hDir
  have hLoop : Script.Keeps BuildAct.apply
      (fun act dir => BuildAct.Guard dir act) Accounted
      (fun state => Accounted state ∧ pre state)
      (Script.forEach BuildAct.apply body list)
      (fun state => (Accounted state ∧ pre state) ∧
        ∀ item ∈ list, done item state) :=
    Script.keeps_forEach_all
      (fun _ hState => hState.1)
      (fun earlier item hMem =>
        Script.keeps_of_imp (hBody earlier item hMem)
          (fun _ hState =>
            ⟨hState.1.1, hState.1.2, hState.2⟩)
          (fun _ hState =>
            ⟨⟨⟨hState.1, hState.2.1.1⟩, hState.2.1.2⟩,
              hState.2.2⟩))
  have hRun := hLoop dir hDir
  have hSame : each items body dir =
      Script.forEach BuildAct.apply body list dir := by
    unfold BuildScript.each Script.each
    rw [hItems dir hDir.2]
  rw [hSame]
  refine ⟨hRun.1, ?_⟩
  intro hStopped hGuarded
  have hEnd := hRun.2 hStopped hGuarded
  exact ⟨hEnd.1.1, hEnd.1.2, hEnd.2⟩

end Rules

------------------------------------------------------------
-- Taking Lists Out Of The Trees
------------------------------------------------------------

/-
  What holds of the files that are read still holds after a
  file is removed that is not an existing list.
-/
def KeptByRemoval (about : BuildDir → Prop) : Prop :=
  ∀ dir path, Accounted dir → about dir →
    (∀ p : Package, path = p.filelist →
      dir.read path = none) →
    about (dir.remove path)

/- What holds of the files still holds without a directory. -/
def KeptByRemoveDir (about : BuildDir → Prop) : Prop :=
  ∀ dir path, about dir → about (dir.removeDir path)

/- One file that `xargs` passes to `rm -f`. -/
theorem safe_rmListed
    {about : BuildDir → Prop}
    (hKept : KeptByRemoval about)
    (path : Path) :
    Safe about (command (.rmListed path))
      (fun dir => about dir ∧ dir.read path = none) := by
  apply safe_act
  intro dir hGood hAbout hGuard
  refine ⟨hGood.remove hGuard, hKept dir path hGood hAbout
    hGuard, ?_⟩
  simp [BuildAct.apply]

/- A loop over lists, wherever it works. -/
theorem safe_removeListed
    {about : BuildDir → Prop}
    (hKept : KeptByRemoval about)
    (base : Path)
    (name : Text)
    (lists : List Path) :
    Safe about (removeListed base name lists) about := by
  apply safe_each
  intro start _ _ path _
  exact safe_of_imp (safe_rmListed hKept path)
    (fun _ _ hPre => hPre) (fun _ _ hPost => hPost.1)

/- The same for directories. -/
theorem safe_removeListedDirs
    {about : BuildDir → Prop}
    (hKept : KeptByRemoveDir about)
    (base : Path)
    (name : Text)
    (lists : List Path) :
    Safe about (removeListedDirs base name lists) about := by
  apply safe_each
  intro start _ _ path _
  apply safe_act
  intro dir hGood hAbout _
  exact ⟨hGood.removeDir path, hKept dir path hAbout⟩

/- All four loops. -/
theorem safe_removeFromTrees
    (base : Path)
    (filelists dirlists : List Path) :
    Safe (fun _ => True)
      (removeFromTrees base filelists dirlists)
      (fun _ => True) := by
  have hFiles : KeptByRemoval (fun _ => True) :=
    fun _ _ _ _ _ => trivial
  have hDirs : KeptByRemoveDir (fun _ => True) :=
    fun _ _ _ => trivial
  exact safe_cons (safe_removeListed hFiles _ _ _)
    (safe_cons (safe_removeListed hFiles _ _ _)
      (safe_cons (safe_removeListedDirs hDirs _ _ _)
        (safe_cons (safe_removeListedDirs hDirs _ _ _)
          safe_nil)))

/- All file lists are as they were. -/
def SameLists
    (lists : Package → Option Text)
    (dir : BuildDir) : Prop :=
  ∀ p : Package, dir.read p.filelist = lists p

/- The paths in the content of a list. -/
def ListedIn (text : Option Text) (path : Path) : Prop :=
  ∃ name ∈ Text.lines (text.getD []), pathOf name = path

theorem SameLists.listed_iff
    {lists : Package → Option Text}
    {dir : BuildDir}
    (hSame : SameLists lists dir)
    (p : Package)
    (path : Path) :
    Listed dir p path ↔ ListedIn (lists p) path := by
  rw [← hSame p]
  rfl

/- The listed files of some packages are not in a tree. -/
def GoneFrom
    (lists : Package → Option Text)
    (packages : List Package)
    (root : Text)
    (dir : BuildDir) : Prop :=
  ∀ p, p ∈ packages →
    ∀ path, ListedIn (lists p) path → path ≠ [] →
      dir.read (root :: path) = none

theorem sameLists_keptByRemoval
    (lists : Package → Option Text) :
    KeptByRemoval (SameLists lists) := by
  intro dir path _ hSame hNoList p
  rw [FileTree.read_remove]
  split
  · next hPath =>
      rw [← hSame p, hPath, hNoList p hPath.symm]
  · exact hSame p

/- A file that is gone stays away. -/
theorem none_keptByRemoval
    (path : Path) :
    KeptByRemoval (fun dir => dir.read path = none) := by
  intro dir other _ hNone _
  rw [FileTree.read_remove]
  split
  · rfl
  · exact hNone

theorem keptByRemoval_and
    {about about' : BuildDir → Prop}
    (hKept : KeptByRemoval about)
    (hKept' : KeptByRemoval about') :
    KeptByRemoval (fun dir => about dir ∧ about' dir) :=
  fun dir path hGood hBoth hNoList =>
    ⟨hKept dir path hGood hBoth.1 hNoList,
      hKept' dir path hGood hBoth.2 hNoList⟩

theorem keptByRemoval_forall
    {I : Type}
    {about : I → BuildDir → Prop}
    (hKept : ∀ i, KeptByRemoval (about i)) :
    KeptByRemoval (fun dir => ∀ i, about i dir) :=
  fun dir path hGood hAll hNoList i =>
    hKept i dir path hGood (hAll i) hNoList

theorem keptByRemoval_imp
    {condition : Prop}
    {about : BuildDir → Prop}
    (hKept : KeptByRemoval about) :
    KeptByRemoval (fun dir => condition → about dir) :=
  fun dir path hGood hImp hNoList hCondition =>
    hKept dir path hGood (hImp hCondition) hNoList

theorem goneFrom_keptByRemoval
    (lists : Package → Option Text)
    (packages : List Package)
    (root : Text) :
    KeptByRemoval (GoneFrom lists packages root) := by
  intro dir path hGood hGone hNoList p hMem other hListed
    hOther
  exact none_keptByRemoval _ dir path hGood
    (hGone p hMem other hListed hOther) hNoList

/- The items of `cat` for the lists of some packages. -/
theorem mem_listedItems
    {dir : BuildDir}
    (hGood : Accounted dir)
    {packages : List Package}
    {p : Package}
    {path : Path}
    (hMem : p ∈ packages)
    (hListed : Listed dir p path) :
    ∃ item ∈ dir.listedItems
        (packages.map Package.filelist),
      pathOf item = path := by
  have hPlain : ∀ q : Package, ∃ names : List Text,
      dir.cat q.filelist = Text.unlines names ∧
      ∀ name ∈ names, PlainItem name := by
    intro q
    unfold BuildDir.cat
    cases hRead : dir.read q.filelist with
    | none => exact ⟨[], rfl, by simp⟩
    | some text =>
        rcases hGood.lists q text hRead with ⟨paths, hList⟩
        refine ⟨paths.map findName, hList.text_eq, ?_⟩
        intro name hName
        rcases List.mem_map.mp hName with ⟨other, hOther, rfl⟩
        exact plainItem_findName (hList.plain other hOther)
  choose names hText hItems using hPlain
  have hCat : ∀ some : List Package,
      (some.map Package.filelist).flatMap dir.cat =
        Text.unlines (some.flatMap names) := by
    intro some
    induction some with
    | nil => rfl
    | cons q others ih =>
        rw [List.map_cons, List.flatMap_cons, hText q, ih,
          List.flatMap_cons, Text.unlines_append]
  have hAll : ∀ name ∈ packages.flatMap names,
      PlainItem name := by
    intro name hName
    rcases List.mem_flatMap.mp hName with ⟨q, _, hName⟩
    exact hItems q name hName
  have hListedItems :
      dir.listedItems (packages.map Package.filelist) =
        packages.flatMap names := by
    unfold BuildDir.listedItems
    rw [hCat, xargsItems_unlines separators_isBlank
      (fun name hName => takenItem_of_plain
        separators_isBlank (hAll name hName))]
  rcases hListed with ⟨name, hName, rfl⟩
  rw [hText p, Text.lines_unlines (fun line hLine =>
    newline_not_mem_of_plain (hItems p line hLine))] at hName
  refine ⟨name, ?_, rfl⟩
  rw [hListedItems]
  exact List.mem_flatMap.mpr ⟨p, hMem, hName⟩

/-
  From the build directory, a loop takes the lists of some
  packages out of a tree, or the tree is not there.
-/
theorem safe_removeListed_tree
    {root : Text}
    {lists : Package → Option Text}
    {about : BuildDir → Prop}
    (hRoot : IsTree root)
    (hKept : KeptByRemoval about)
    (packages : List Package) :
    Safe (fun dir => SameLists lists dir ∧ about dir)
      (removeListed [] root
        (packages.map Package.filelist))
      (fun dir => (SameLists lists dir ∧ about dir) ∧
        GoneFrom lists packages root dir) := by
  intro dir hDir
  have hKeptBoth := keptByRemoval_and
    (sameLists_keptByRemoval lists) hKept
  -- What the loop gets depends on the state at its start.
  have hLoop : Safe
      (fun state => (SameLists lists state ∧ about state) ∧
        state.isDir [root] = dir.isDir [root])
      (each
        (fun _ =>
          (dir.listedItems
            (packages.map Package.filelist)).map
            (fun item => dir.enter [] root ++ pathOf item))
        (fun path => command (.rmListed path)))
      (fun state =>
        ((SameLists lists state ∧ about state) ∧
          state.isDir [root] = dir.isDir [root]) ∧
        ∀ path ∈ (dir.listedItems
            (packages.map Package.filelist)).map
            (fun item => dir.enter [] root ++ pathOf item),
          state.read path = none) := by
    apply safe_each_all _ (fun _ _ => rfl)
    intro earlier path _
    refine safe_rmListed ?_ path
    apply keptByRemoval_and
    · apply keptByRemoval_and hKeptBoth
      intro state other _ hSame _
      rw [FileTree.isDir_remove]
      exact hSame
    · exact keptByRemoval_forall (fun other =>
        keptByRemoval_imp (none_keptByRemoval other))
  have hRun := hLoop dir ⟨hDir.1, hDir.2, rfl⟩
  have hSame :
      removeListed [] root
          (packages.map Package.filelist) dir =
        each
          (fun _ =>
            (dir.listedItems
              (packages.map Package.filelist)).map
              (fun item => dir.enter [] root ++ pathOf item))
          (fun path => command (.rmListed path)) dir :=
    rfl
  rw [hSame]
  refine ⟨hRun.1, ?_⟩
  intro hStopped hGuarded
  have hEnd := hRun.2 hStopped hGuarded
  generalize execActs BuildAct.apply _ dir = final
    at hEnd ⊢
  refine ⟨hEnd.1, hEnd.2.1.1, ?_⟩
  intro p hMem path hListed hPath
  by_contra hRead
  have hSome := Option.isSome_iff_ne_none.mpr hRead
  -- The tree is there, so the loop worked in it.
  have hTop := hEnd.1.top root path hRoot hPath hSome
  rw [hEnd.2.1.2] at hTop
  have hStart : Listed dir p path :=
    (hDir.2.1.listed_iff p path).mpr hListed
  rcases mem_listedItems hDir.1 hMem hStart with
    ⟨item, hItem, rfl⟩
  apply hRead
  have hEnter : dir.enter [] root = [root] := by
    simp [BuildDir.enter, hTop]
  have hDone := hEnd.2.2 (dir.enter [] root ++ pathOf item)
    (List.mem_map.mpr ⟨item, hItem, rfl⟩)
  rw [hEnter] at hDone
  exact hDone

------------------------------------------------------------
-- Cleaning
------------------------------------------------------------

/- `rm -f` of a file that is no list. -/
theorem safe_rm
    {about : BuildDir → Prop}
    {path : Path}
    (hKept : KeptByRemoval about)
    (hNoList : ∀ p : Package, path ≠ p.filelist) :
    Safe about (command (.rm path)) about := by
  have hNo : ∀ dir : BuildDir, ∀ p : Package,
      path = p.filelist → dir.read path = none :=
    fun _ p hSame => absurd hSame (hNoList p)
  apply safe_act
  intro dir hGood hAbout _
  exact ⟨hGood.remove (hNo dir),
    hKept dir path hGood hAbout (hNo dir)⟩

theorem true_keptByRemoval :
    KeptByRemoval (fun _ => True) :=
  fun _ _ _ _ _ => trivial

theorem true_keptByRemoveDir :
    KeptByRemoveDir (fun _ => True) :=
  fun _ _ _ => trivial

/- No file list matches `.mkr.fakeroot*`. -/
theorem fakerootFiles_ne_filelist
    {p q : Package}
    {dir : BuildDir}
    {path : Path}
    (hMem : path ∈ fakerootFiles p dir) :
    path ≠ q.filelist := by
  rintro rfl
  have hMatch := (List.mem_filter.mp hMem).2
  simp [Package.filelist, Package.fakeroot] at hMatch

/- Both loops, for the lists of some packages. -/
theorem safe_removeBoth
    (lists : Package → Option Text)
    (packages : List Package)
    {rest : List BuildScript}
    {post : BuildDir → Prop}
    (hRest : Safe
      (fun dir => SameLists lists dir ∧
        GoneFrom lists packages stagingName dir ∧
        GoneFrom lists packages rootfsName dir)
      (block rest) post) :
    Safe (SameLists lists)
      (block
        (removeListed [] stagingName
            (packages.map Package.filelist) ::
          removeListed [] rootfsName
            (packages.map Package.filelist) :: rest))
      post := by
  have hFirst : Safe (SameLists lists)
      (removeListed [] stagingName
        (packages.map Package.filelist))
      (fun dir => SameLists lists dir ∧
        GoneFrom lists packages stagingName dir) :=
    safe_of_imp
      (safe_removeListed_tree (Or.inl rfl)
        true_keptByRemoval packages)
      (fun _ _ hSame => ⟨hSame, trivial⟩)
      (fun _ _ hPost => ⟨hPost.1.1, hPost.2⟩)
  have hSecond : Safe
      (fun dir => SameLists lists dir ∧
        GoneFrom lists packages stagingName dir)
      (removeListed [] rootfsName
        (packages.map Package.filelist))
      (fun dir => SameLists lists dir ∧
        GoneFrom lists packages stagingName dir ∧
        GoneFrom lists packages rootfsName dir) :=
    safe_of_imp
      (safe_removeListed_tree (Or.inr rfl)
        (goneFrom_keptByRemoval lists packages stagingName)
        packages)
      (fun _ _ hPre => hPre)
      (fun _ _ hPost =>
        ⟨hPost.1.1, hPost.1.2, hPost.2⟩)
  exact safe_cons hFirst (safe_cons hSecond hRest)

/- The lists of a state, given a name. -/
theorem safe_of_lists
    {script : BuildScript}
    {post : BuildDir → Prop}
    (hSafe : ∀ lists, Safe (SameLists lists) script post) :
    Safe (fun _ => True) script post :=
  safe_of_exists
    (fun dir _ _ =>
      ⟨fun p => dir.read p.filelist, fun _ => rfl⟩)
    hSafe

/- The listed files are in none of the trees. -/
theorem absent_of_goneFrom
    {lists : Package → Option Text}
    {packages : List Package}
    {dir : BuildDir}
    {p : Package}
    {path : Path}
    (hStaging : GoneFrom lists packages stagingName dir)
    (hRootfs : GoneFrom lists packages rootfsName dir)
    (hMem : p ∈ packages)
    (hListed : ListedIn (lists p) path)
    (hPath : path ≠ []) :
    Absent dir path :=
  ⟨hStaging p hMem path hListed hPath,
    hRootfs p hMem path hListed hPath⟩

/- `%/clean`. -/
theorem safe_cleanRecipe
    (p : Package)
    (cleanOk : Bool) :
    Safe (fun _ => True) (cleanRecipe p cleanOk)
      (fun _ => True) := by
  have hRmList : ∀ lists, Safe
      (fun dir => SameLists lists dir ∧
        GoneFrom lists [p] stagingName dir ∧
        GoneFrom lists [p] rootfsName dir)
      (command (.rm p.filelist)) (fun _ => True) := by
    intro lists
    apply safe_act
    rintro dir hGood ⟨hSame, hStaging, hRootfs⟩ _
    refine ⟨hGood.removeList ?_, trivial⟩
    intro path hListed hPath
    exact absent_of_goneFrom hStaging hRootfs
      List.mem_cons_self ((hSame.listed_iff p path).mp hListed)
      hPath
  have hDirs : Safe (fun _ => True)
      (block
        [removeListedDirs [] stagingName [p.dirlist],
          removeListedDirs [] rootfsName [p.dirlist],
          command (.rm p.dirlist)])
      (fun _ => True) :=
    safe_cons (safe_removeListedDirs true_keptByRemoveDir
        _ _ _)
      (safe_cons (safe_removeListedDirs true_keptByRemoveDir
          _ _ _)
        (safe_cons (safe_rm true_keptByRemoval (fun q => by
            simp [Package.dirlist, Package.filelist]))
          safe_nil))
  unfold cleanRecipe
  apply safe_cond
  · exact safe_exit
  · refine safe_of_true (safe_then (fun _ => True) ?_
      (safe_then (fun _ => True) ?_
        (safe_of_lists (fun lists =>
          safe_removeBoth lists [p]
            (safe_cons (hRmList lists) hDirs)))))
    · apply safe_each
      intro start _ _ path hMem
      exact safe_rm true_keptByRemoval
        (fun q => fakerootFiles_ne_filelist hMem)
    · exact safe_rm true_keptByRemoval (fun q => by
        simp [Package.rmstrip, Package.filelist])

/- `clean-removed-packages`, for the lists it has found. -/
theorem safe_cleanLists
    (disabled filelists dirlists : List Package) :
    Safe (fun _ => True)
      (block
        [each (fun _ => disabled) (fun p =>
          command (.rm p.fakeroot)),
          removeListed [] stagingName
            (filelists.map Package.filelist),
          removeListed [] rootfsName
            (filelists.map Package.filelist),
          each (fun _ => filelists) (fun p =>
            command (.rm p.filelist)),
          removeListedDirs [] stagingName
            (dirlists.map Package.dirlist),
          removeListedDirs [] rootfsName
            (dirlists.map Package.dirlist),
          each (fun _ => dirlists) (fun p =>
            command (.rm p.dirlist))])
      (fun _ => True) := by
  have hRmLists : ∀ lists, Safe
      (fun dir => SameLists lists dir ∧
        GoneFrom lists filelists stagingName dir ∧
        GoneFrom lists filelists rootfsName dir)
      (each (fun _ => filelists) (fun p =>
        command (.rm p.filelist)))
      (fun _ => True) := by
    intro lists
    -- A list is as it was, or removed by now.
    have hLoop : Safe
        (fun dir =>
          (∀ p : Package, ∀ text,
            dir.read p.filelist = some text →
            lists p = some text) ∧
          ∀ p, p ∈ filelists → ∀ path,
            ListedIn (lists p) path → path ≠ [] →
            Absent dir path)
        (each (fun _ => filelists) (fun p =>
          command (.rm p.filelist)))
        (fun dir =>
          (∀ p : Package, ∀ text,
            dir.read p.filelist = some text →
            lists p = some text) ∧
          ∀ p, p ∈ filelists → ∀ path,
            ListedIn (lists p) path → path ≠ [] →
            Absent dir path) := by
      apply safe_each
      intro start _ _ p hMem
      apply safe_act
      rintro dir hGood ⟨hLists, hAbsent⟩ _
      refine ⟨hGood.removeList ?_, ?_, ?_⟩
      · intro path hListed hPath
        cases hRead : dir.read p.filelist with
        | none =>
            exact absurd hListed
              (not_listed_of_none hRead path)
        | some text =>
            apply hAbsent p hMem path _ hPath
            rw [hLists p text hRead, ← hRead]
            exact hListed
      · intro q text hRead
        simp only [BuildAct.apply, FileTree.read_remove]
          at hRead
        split at hRead
        · cases hRead
        · exact hLists q text hRead
      · intro q hOther path hListed hPath
        have hOld := hAbsent q hOther path hListed hPath
        simp [Absent, BuildAct.apply, hOld.1, hOld.2]
    refine safe_of_imp hLoop (fun dir _ hPre => ⟨?_, ?_⟩)
      (fun _ _ _ => trivial)
    · intro p text hRead
      rw [← hPre.1 p]
      exact hRead
    · intro p hMem path hListed hPath
      exact absent_of_goneFrom hPre.2.1 hPre.2.2 hMem hListed
        hPath
  have hDirs : Safe (fun _ => True)
      (block
        [removeListedDirs [] stagingName
            (dirlists.map Package.dirlist),
          removeListedDirs [] rootfsName
            (dirlists.map Package.dirlist),
          each (fun _ => dirlists) (fun p =>
            command (.rm p.dirlist))])
      (fun _ => True) :=
    safe_cons (safe_removeListedDirs true_keptByRemoveDir
        _ _ _)
      (safe_cons (safe_removeListedDirs true_keptByRemoveDir
          _ _ _)
        (safe_cons
          (safe_each (fun _ _ _ p _ =>
            safe_rm true_keptByRemoval (fun q => by
              simp [Package.dirlist, Package.filelist])))
          safe_nil))
  refine safe_then (fun _ => True) ?_
    (safe_of_lists (fun lists =>
      safe_removeBoth lists filelists
        (safe_cons (hRmLists lists) hDirs)))
  apply safe_each
  intro start _ _ p _
  exact safe_rm true_keptByRemoval (fun q => by
    simp [Package.fakeroot, Package.filelist])

/- `clean-removed-packages`. -/
theorem safe_cleanRemovedPackages
    (disabled : List Package) :
    Safe (fun _ => True) (cleanRemovedPackages disabled)
      (fun _ => True) := by
  intro dir hDir
  exact safe_cleanLists disabled _ _ dir hDir

------------------------------------------------------------
-- Staging
------------------------------------------------------------

/- The package directories are as they were. -/
def SameOutside (dir dir' : BuildDir) : Prop :=
  ∀ (p : Package) (rest : Path),
    dir'.read (p.name :: rest) = dir.read (p.name :: rest)

theorem sameOutside_remove
    {root : Text}
    (hRoot : IsTree root)
    (path : Path)
    (dir : BuildDir) :
    SameOutside dir (dir.remove (root :: path)) := by
  intro p rest
  rw [FileTree.read_remove, if_neg]
  exact (tree_ne_package hRoot path p rest).symm

theorem sameOutside_putDir
    {root : Text}
    (hRoot : IsTree root)
    (path : Path)
    (dir : BuildDir) :
    SameOutside dir (dir.putDir (root :: path)) := by
  intro p rest
  rw [FileTree.read_putDir, if_neg]
  exact (tree_ne_package hRoot path p rest).symm

theorem sameOutside_write
    {root : Text}
    (hRoot : IsTree root)
    (path : Path)
    (text : Text)
    (dir : BuildDir) :
    SameOutside dir (dir.write (root :: path) text) := by
  intro p rest
  rw [FileTree.read_write, if_neg]
  exact fun hSame =>
    tree_ne_package hRoot path p rest hSame.1.symm

theorem sameOutside_of_read
    {dir dir' : BuildDir}
    (hSame : ∀ path, dir'.read path = dir.read path) :
    SameOutside dir dir' :=
  fun p rest => hSame (p.name :: rest)

/- Every installed file is in a list. -/
def Covers
    (p : Package)
    (paths : List Path)
    (dir : BuildDir) : Prop :=
  ∀ path, (dir.read (p.pkginst ++ path)).isSome = true →
    path ∈ paths

theorem Covers.of_sameOutside
    {p : Package}
    {paths : List Path}
    {dir dir' : BuildDir}
    (hCovers : Covers p paths dir)
    (hSame : SameOutside dir dir') :
    Covers p paths dir' := by
  intro path hRead
  apply hCovers path
  have hPath : dir'.read (p.pkginst ++ path) =
      dir.read (p.pkginst ++ path) :=
    hSame p _
  rw [← hPath]
  exact hRead

theorem SameLists.of_sameOutside
    {lists : Package → Option Text}
    {dir dir' : BuildDir}
    (hLists : SameLists lists dir)
    (hSame : SameOutside dir dir') :
    SameLists lists dir' := by
  intro p
  rw [← hLists p]
  exact hSame p _

/- The state from `.mkr.newfilelist` to the renaming. -/
structure NewList
    (p : Package)
    (lists : Package → Option Text)
    (text : Text)
    (paths : List Path)
    (dir : BuildDir) : Prop where
  content : dir.read p.newfilelist = some text
  covers : Covers p paths dir
  same : SameLists lists dir

theorem NewList.of_sameOutside
    {p : Package}
    {lists : Package → Option Text}
    {text : Text}
    {paths : List Path}
    {dir dir' : BuildDir}
    (hNew : NewList p lists text paths dir)
    (hSame : SameOutside dir dir') :
    NewList p lists text paths dir' where
  content := by
    rw [← hNew.content]
    exact hSame p _
  covers := hNew.covers.of_sameOutside hSame
  same := hNew.same.of_sameOutside hSame

/- `make staging` only writes to `$(pkginst)`. -/
theorem safe_installPackage
    (p : Package)
    {choice : StagingChoice}
    (hPlain : ∀ entry ∈ choice.installed,
      PlainPath entry.1) :
    Safe (fun _ => True) (installPackage p choice)
      (fun _ => True) := by
  refine safe_then (fun _ => True) ?_
    (safe_then (fun _ => True) ?_ safe_nil)
  · apply safe_each
    intro start _ _ entry hEntry
    apply safe_act
    intro dir hGood _ _
    refine ⟨?_, trivial⟩
    have hPath := hPlain entry hEntry
    rcases entry with ⟨path, node⟩
    cases node with
    | dir =>
        apply hGood.mkdir
        intro q
        simp [Package.pkginst, Package.filelist,
          Package.newfilelist]
    | file text =>
        apply hGood.writePackage (p := p)
        · intro q
          simp [Package.filelist]
        · intro q other hSame
          have hInj := pkginst_append_inj (p := q) (q := p)
            hSame
          rw [hInj.2]
          exact hPath
  · apply safe_cond
    · exact safe_of_imp safe_skip (fun _ _ _ => trivial)
        (fun _ _ _ => trivial)
    · exact safe_exit

/- `find | sort > .mkr.newfilelist`. -/
theorem newFilelist_plain
    {dir : BuildDir}
    (hGood : Accounted dir)
    (p : Package) :
    ∃ paths, PlainList (newFilelist p dir) paths ∧
      Covers p paths dir := by
  have hSorted : ∀ name,
      name ∈ sortLines
          ((dir.filesBelow p.pkginst).map findName) ↔
        ∃ path ∈ dir.filesBelow p.pkginst,
          findName path = name := by
    intro name
    unfold sortLines
    rw [List.mem_insertionSort, List.mem_map]
  have hPlain : ∀ path ∈ dir.filesBelow p.pkginst,
      PlainPath path := by
    intro path hMem
    exact hGood.insts p path
      ((dir.mem_filesBelow p.pkginst path).mp hMem)
  refine ⟨(sortLines
    ((dir.filesBelow p.pkginst).map findName)).map pathOf,
    ⟨?_, ?_⟩, ?_⟩
  · unfold newFilelist
    congr 1
    rw [List.map_map]
    symm
    refine List.map_congr_left (g := id) ?_ |>.trans
      (List.map_id _)
    intro name hMem
    rcases (hSorted name).mp hMem with ⟨path, hPath, rfl⟩
    simp only [Function.comp, id]
    rw [pathOf_findName (hPlain path hPath)]
  · intro path hMem
    rcases List.mem_map.mp hMem with ⟨name, hName, rfl⟩
    rcases (hSorted name).mp hName with ⟨other, hOther, rfl⟩
    rw [pathOf_findName (hPlain other hOther)]
    exact hPlain other hOther
  · intro path hRead
    have hMem :=
      (dir.mem_filesBelow p.pkginst path).mpr hRead
    refine List.mem_map.mpr ⟨findName path,
      (hSorted _).mpr ⟨path, hMem, rfl⟩, ?_⟩
    exact pathOf_findName (hPlain path hMem)

/- The new lists are written. -/
theorem safe_writeNewLists
    (p : Package)
    {rest : List BuildScript}
    {post : BuildDir → Prop}
    (hRest : ∀ lists text paths, PlainList text paths →
      Safe (NewList p lists text paths) (block rest) post) :
    Safe (fun _ => True)
      (block
        (Script.act (fun dir =>
            .write p.newfilelist (newFilelist p dir)) ::
          Script.act (fun dir =>
            .write p.newdirlist (newDirlist p dir)) :: rest))
      post := by
  have hNoPlain : ∀ (q : Package) (path : Path),
      q.pkginst ++ path ≠ p.newfilelist ∧
        q.pkginst ++ path ≠ p.newdirlist := by
    intro q path
    simp [Package.pkginst, Package.newfilelist,
      Package.newdirlist]
  have hNoList : ∀ q : Package,
      p.newfilelist ≠ q.filelist ∧
        p.newdirlist ≠ q.filelist := by
    intro q
    simp [Package.filelist, Package.newfilelist,
      Package.newdirlist]
  -- What the list holds depends on the installed files.
  refine safe_then (fun dir =>
    ∃ about : (Package → Option Text) × Text × List Path,
      PlainList about.2.1 about.2.2 ∧
        NewList p about.1 about.2.1 about.2.2 dir) ?_
    (safe_then (fun dir =>
      ∃ about : (Package → Option Text) × Text × List Path,
        PlainList about.2.1 about.2.2 ∧
          NewList p about.1 about.2.1 about.2.2 dir) ?_ ?_)
  · apply safe_act
    intro dir hGood _ _
    rcases newFilelist_plain hGood p with
      ⟨paths, hList, hCovers⟩
    refine ⟨hGood.writePackage (p := p)
      (fun q => (hNoList q).1)
      (fun q path hSame =>
        absurd hSame (hNoPlain q path).1) _,
      ⟨fun q => dir.read q.filelist, newFilelist p dir,
        paths⟩, hList, ?_, ?_, ?_⟩
    · simp only [BuildAct.apply, FileTree.read_write]
      rw [if_pos ⟨trivial, (hGood.noDirs p).2⟩]
    · intro path hRead
      simp only [BuildAct.apply, FileTree.read_write]
        at hRead
      rw [if_neg (fun hSame => (hNoPlain p path).1 hSame.1)]
        at hRead
      exact hCovers path hRead
    · intro q
      simp only [BuildAct.apply, FileTree.read_write]
      rw [if_neg (fun hSame =>
        (hNoList q).1 hSame.1.symm)]
  · apply safe_act
    rintro dir hGood ⟨about, hList, hNew⟩ _
    refine ⟨hGood.writePackage (p := p)
      (fun q => (hNoList q).2)
      (fun q path hSame =>
        absurd hSame (hNoPlain q path).2) _,
      about, hList, ?_, ?_, ?_⟩
    · simp only [BuildAct.apply, FileTree.read_write]
      rw [if_neg, hNew.content]
      simp [Package.newfilelist, Package.newdirlist]
    · intro path hRead
      simp only [BuildAct.apply, FileTree.read_write]
        at hRead
      rw [if_neg (fun hSame => (hNoPlain p path).2 hSame.1)]
        at hRead
      exact hNew.covers path hRead
    · intro q
      simp only [BuildAct.apply, FileTree.read_write]
      rw [if_neg (fun hSame =>
        (hNoList q).2 hSame.1.symm), hNew.same q]
  · apply safe_of_exists (fun dir _ hSome => hSome)
    intro about dir hDir
    exact hRest about.1 about.2.1 about.2.2 hDir.2.1 dir
      ⟨hDir.1, hDir.2.2⟩

/- The paths that a new list drops are in no tree. -/
def Dropped
    (p : Package)
    (lists : Package → Option Text)
    (paths : List Path)
    (dir : BuildDir) : Prop :=
  ∀ path, ListedIn (lists p) path → path ∉ paths →
    Absent dir path

/- `comm` prints each path that a new list drops. -/
theorem exists_droppedName
    {dir : BuildDir}
    {p : Package}
    {lists : Package → Option Text}
    {text : Text}
    {paths : List Path}
    {path : Path}
    (hGood : Accounted dir)
    (hList : PlainList text paths)
    (hNew : NewList p lists text paths dir)
    (hListed : ListedIn (lists p) path)
    (hDropped : path ∉ paths) :
    ∃ name ∈ droppedNames p.filelist p.newfilelist dir,
      pathOf name = path := by
  cases hOld : lists p with
  | none =>
      rw [hOld] at hListed
      rcases hListed with ⟨name, hName, _⟩
      simp [Text.lines] at hName
  | some oldText =>
      have hRead : dir.read p.filelist = some oldText := by
        rw [hNew.same p, hOld]
      rcases hGood.lists p oldText hRead with
        ⟨oldPaths, hOldList⟩
      have hMem : path ∈ oldPaths := by
        refine (hOldList.listed_iff hRead path).mp ?_
        exact (hNew.same.listed_iff p path).mpr hListed
      have hOldLines : Text.lines (dir.cat p.filelist) =
          oldPaths.map findName := by
        unfold BuildDir.cat
        rw [hRead, Option.getD_some, hOldList.lines_eq]
      have hNewLines : Text.lines (dir.cat p.newfilelist) =
          paths.map findName := by
        unfold BuildDir.cat
        rw [hNew.content, Option.getD_some, hList.lines_eq]
      have hPlain : ∀ name ∈
          commFirst (oldPaths.map findName)
            (paths.map findName),
          PlainItem name := by
        intro name hName
        rcases List.mem_map.mp
            (mem_of_mem_commFirst hName) with
          ⟨other, hOther, rfl⟩
        exact plainItem_findName (hOldList.plain other hOther)
      have hNames :
          droppedNames p.filelist p.newfilelist dir =
            commFirst (oldPaths.map findName)
              (paths.map findName) := by
        unfold droppedNames
        rw [hOldLines, hNewLines, xargsItems_unlines
          separators_isNewline (fun name hName =>
            takenItem_of_plain separators_isNewline
              (hPlain name hName))]
      refine ⟨findName path, ?_,
        pathOf_findName (hOldList.plain path hMem)⟩
      rw [hNames]
      apply mem_commFirst_of_not_mem
      · exact List.mem_map.mpr ⟨path, hMem, rfl⟩
      · intro hIn
        rcases List.mem_map.mp hIn with
          ⟨other, hOther, hName⟩
        apply hDropped
        rw [← pathOf_findName (hOldList.plain path hMem),
          ← hName, pathOf_findName (hList.plain other hOther)]
        exact hOther

/- What `mkdir -p` of a tree keeps. -/
theorem safe_mkdirTree
    {root : Text}
    {about : BuildDir → Prop}
    (hRoot : IsTree root)
    (hKept : ∀ dir, about dir → about (dir.mkdir [root])) :
    Safe about (command (.mkdir [root]))
      (fun dir => about dir ∧ dir.isDir [root] = true) := by
  apply safe_act
  intro dir hGood hAbout _
  refine ⟨hGood.mkdir ?_, hKept dir hAbout, ?_⟩
  · intro p
    exact ⟨tree_ne_package hRoot [] p _,
      tree_ne_package hRoot [] p _⟩
  · have hNotFile := hGood.roots root hRoot
    simp only [BuildAct.apply]
    cases hDir : dir.isDir [root] with
    | true => exact FileTree.isDir_mkdir_of_isDir _ hDir
    | false =>
        have hNone : dir.lookup [root] = none := by
          unfold FileTree.read at hNotFile
          unfold FileTree.isDir at hDir
          cases hLookup : dir.lookup [root] with
          | none => rfl
          | some node =>
              rw [hLookup] at hNotFile hDir
              cases node <;> simp at hNotFile hDir
        unfold FileTree.mkdir
        rw [hNone]
        simp [FileTree.isDir_insert_dir]

/- The files that are no longer installed are removed. -/
theorem safe_removeDropped
    {p : Package}
    {lists : Package → Option Text}
    {text : Text}
    {paths : List Path}
    (hList : PlainList text paths) :
    Safe (NewList p lists text paths) (removeDropped p)
      (fun dir => NewList p lists text paths dir ∧
        Dropped p lists paths dir) := by
  have hMkdir : ∀ dir : BuildDir,
      NewList p lists text paths dir →
      NewList p lists text paths
        (dir.mkdir [stagingName]) :=
    fun dir hNew => hNew.of_sameOutside
      (sameOutside_of_read (fun path => by simp))
  have hBody : ∀ (earlier : List Text) (name : Text),
      Safe
        (fun dir => NewList p lists text paths dir ∧
          ∀ other ∈ earlier, Absent dir (pathOf other))
        (block
          [command (.rm (stagingName :: pathOf name)),
            command (.rm (rootfsName :: pathOf name))])
        (fun dir => (NewList p lists text paths dir ∧
          ∀ other ∈ earlier, Absent dir (pathOf other)) ∧
          Absent dir (pathOf name)) := by
    intro earlier name
    have hNoList : ∀ {root : Text}, IsTree root →
        ∀ dir : BuildDir, ∀ q : Package,
          root :: pathOf name = q.filelist →
          dir.read (root :: pathOf name) = none :=
      fun hRoot dir q hSame =>
        absurd hSame (tree_ne_package hRoot _ q _)
    refine safe_then (fun dir =>
      (NewList p lists text paths dir ∧
        ∀ other ∈ earlier, Absent dir (pathOf other)) ∧
        dir.read (stagingName :: pathOf name) = none) ?_
      (safe_cons ?_ safe_nil)
    · apply safe_act
      rintro dir hGood ⟨hNew, hEarlier⟩ _
      refine ⟨hGood.remove (hNoList (Or.inl rfl) dir),
        ⟨hNew.of_sameOutside
          (sameOutside_remove (Or.inl rfl) _ dir), ?_⟩, ?_⟩
      · intro other hMem
        have hOld := hEarlier other hMem
        simp [Absent, BuildAct.apply, hOld.1, hOld.2]
      · simp [BuildAct.apply]
    · apply safe_act
      rintro dir hGood ⟨⟨hNew, hEarlier⟩, hNone⟩ _
      refine ⟨hGood.remove (hNoList (Or.inr rfl) dir),
        ⟨hNew.of_sameOutside
          (sameOutside_remove (Or.inr rfl) _ dir), ?_⟩,
        ?_, ?_⟩
      · intro other hMem
        have hOld := hEarlier other hMem
        simp [Absent, BuildAct.apply, hOld.1, hOld.2]
      · simp [BuildAct.apply, hNone]
      · simp [BuildAct.apply]
  refine safe_cons (safe_of_imp
    (safe_mkdirTree (Or.inl rfl) hMkdir)
    (fun _ _ hPre => hPre) (fun _ _ hPost => hPost.1))
    (safe_cons ?_ safe_nil)
  -- The names are fixed by the two lists.
  intro dir hDir
  have hNames : ∀ state,
      NewList p lists text paths state →
      droppedNames p.filelist p.newfilelist state =
        droppedNames p.filelist p.newfilelist dir := by
    intro state hState
    unfold droppedNames BuildDir.cat
    rw [hState.content, hDir.2.content, hState.same p,
      hDir.2.same p]
  have hLoop : Safe (NewList p lists text paths)
      (each (droppedNames p.filelist p.newfilelist)
        (fun name => block
          [command (.rm (stagingName :: pathOf name)),
            command (.rm (rootfsName :: pathOf name))]))
      (fun state => NewList p lists text paths state ∧
        ∀ name ∈ droppedNames p.filelist p.newfilelist dir,
          Absent state (pathOf name)) :=
    safe_each_all _ hNames
      (fun earlier name _ => hBody earlier name)
  have hWhole : Safe (NewList p lists text paths)
      (each (droppedNames p.filelist p.newfilelist)
        (fun name => block
          [command (.rm (stagingName :: pathOf name)),
            command (.rm (rootfsName :: pathOf name))]))
      (fun state => NewList p lists text paths state ∧
        Dropped p lists paths state) := by
    refine safe_of_imp hLoop (fun _ _ hPre => hPre) ?_
    rintro state hGood ⟨hNew, hAbsent⟩
    refine ⟨hNew, ?_⟩
    intro path hListed hOut
    rcases exists_droppedName hGood hList hNew hListed hOut
      with ⟨name, hName, rfl⟩
    rw [hNames state hNew] at hName
    exact hAbsent name hName
  exact hWhole dir hDir

/- Without an old list, there is nothing to drop. -/
theorem dropped_of_not_exists
    {dir : BuildDir}
    {p : Package}
    {lists : Package → Option Text}
    {text : Text}
    {paths : List Path}
    (hNew : NewList p lists text paths dir)
    (hNone : fileExists p.filelist dir = false) :
    Dropped p lists paths dir := by
  intro path hListed
  have hLookup : dir.lookup p.filelist = none := by
    simpa [fileExists] using hNone
  have hRead : dir.read p.filelist = none := by
    simp [FileTree.read, hLookup]
  exact absurd ((hNew.same.listed_iff p path).mpr hListed)
    (not_listed_of_none hRead path)

/- Directories do not matter to the lists. -/
theorem safe_removeDroppedDirs
    {p : Package}
    {about : BuildDir → Prop}
    (hKept : ∀ dir dir' : BuildDir,
      (∀ path, dir'.read path = dir.read path) →
      about dir → about dir') :
    Safe about (removeDroppedDirs p) about := by
  have hRmdir : ∀ path,
      Safe about (command (.rmdir path)) about := by
    intro path
    apply safe_act
    intro dir hGood hAbout _
    exact ⟨hGood.removeDir path,
      hKept dir _ (fun other => by simp [BuildAct.apply])
        hAbout⟩
  refine safe_cons (safe_of_imp
    (safe_mkdirTree (Or.inl rfl) (fun dir hAbout =>
      hKept dir _ (fun other => by simp) hAbout))
    (fun _ _ hPre => hPre) (fun _ _ hPost => hPost.1))
    (safe_cons ?_ safe_nil)
  apply safe_each
  intro _ _ _ name _
  exact safe_cons (hRmdir _) (safe_cons (hRmdir _) safe_nil)

/- The state from the renaming on. -/
structure Current
    (p : Package)
    (text : Text)
    (paths : List Path)
    (dir : BuildDir) : Prop where
  content : dir.read p.filelist = some text
  covers : Covers p paths dir

theorem Current.of_sameOutside
    {p : Package}
    {text : Text}
    {paths : List Path}
    {dir dir' : BuildDir}
    (hCurrent : Current p text paths dir)
    (hSame : SameOutside dir dir') :
    Current p text paths dir' where
  content := by
    rw [← hCurrent.content]
    exact hSame p _
  covers := hCurrent.covers.of_sameOutside hSame

/- The renamings. -/
theorem safe_moveLists
    {p : Package}
    {lists : Package → Option Text}
    {text : Text}
    {paths : List Path}
    (hList : PlainList text paths)
    {rest : List BuildScript}
    {post : BuildDir → Prop}
    (hRest : Safe (Current p text paths) (block rest) post) :
    Safe
      (fun dir => NewList p lists text paths dir ∧
        Dropped p lists paths dir)
      (block
        (command (.mv p.newfilelist p.filelist) ::
          command (.mv p.newdirlist p.dirlist) :: rest))
      post := by
  refine safe_then (Current p text paths) ?_
    (safe_then (Current p text paths) ?_ hRest)
  · apply safe_act
    rintro dir hGood ⟨hNew, hDropped⟩ _
    have hMoved := hGood.moveList hNew.content hList
      (fun path hListed => hDropped path
        ((hNew.same.listed_iff p path).mp hListed))
    refine ⟨hMoved.1, hMoved.2, ?_⟩
    intro path hRead
    apply hNew.covers path
    have hSource : p.pkginst ++ path ≠ p.newfilelist := by
      simp [Package.pkginst, Package.newfilelist]
    have hTarget : p.pkginst ++ path ≠ p.filelist := by
      simp [Package.pkginst, Package.filelist]
    simp only [BuildAct.apply] at hRead
    rw [FileTree.read_move_of_ne hSource hTarget] at hRead
    exact hRead
  · apply safe_act
    intro dir hGood hCurrent _
    refine ⟨hGood.movePackage (p := p) ?_ ?_, ?_, ?_⟩
    · intro q
      simp [Package.filelist]
    · intro q path
      simp [Package.filelist, Package.pkginst]
    · simp only [BuildAct.apply]
      rw [FileTree.read_move_of_ne, hCurrent.content]
      · simp [Package.filelist, Package.newdirlist]
      · simp [Package.filelist, Package.dirlist]
    · intro path hRead
      apply hCurrent.covers path
      have hSource : p.pkginst ++ path ≠ p.newdirlist := by
        simp [Package.pkginst, Package.newdirlist]
      have hTarget : p.pkginst ++ path ≠ p.dirlist := by
        simp [Package.pkginst, Package.dirlist]
      simp only [BuildAct.apply] at hRead
      rw [FileTree.read_move_of_ne hSource hTarget] at hRead
      exact hRead

/- What `rsync` finds in `$(pkginst)`. -/
theorem lookup_of_mem_rsyncNodes
    {p : Package}
    {choice : StagingChoice}
    {dir : BuildDir}
    {entry : Path × FileNode Text}
    (hMem : entry ∈ rsyncNodes p choice dir) :
    dir.lookup (p.pkginst ++ entry.1) = some entry.2 := by
  unfold rsyncNodes at hMem
  rcases List.mem_append.mp hMem with hCopied | hAll
  · rcases List.mem_filterMap.mp hCopied with
      ⟨path, _, hNode⟩
    rcases Option.map_eq_some_iff.mp hNode with
      ⟨node, hLookup, rfl⟩
    exact hLookup
  · split at hAll
    · exact (dir.mem_nodesBelow p.pkginst entry.1
        entry.2).mp hAll
    · cases hAll

/- Directories of a tree, from the top on. -/
theorem safe_putDirs
    {root : Text}
    {about : BuildDir → Prop}
    (hRoot : IsTree root)
    (hKept : ∀ dir dir' : BuildDir,
      SameOutside dir dir' → about dir → about dir')
    (paths : List Path) :
    Safe
      (fun dir => about dir ∧ dir.isDir [root] = true)
      (each (fun _ => paths) (fun path =>
        command (.putDir (root :: path))))
      (fun dir => about dir ∧ dir.isDir [root] = true) := by
  apply safe_each
  intro start _ _ path _
  apply safe_act
  rintro dir hGood ⟨hAbout, hTop⟩ _
  exact ⟨hGood.putDir hRoot path,
    hKept dir _ (sameOutside_putDir hRoot path dir) hAbout,
    FileTree.isDir_putDir_of_isDir _ hTop⟩

/- `rsync` copies one node that it has found. -/
theorem safe_copyStaging
    {p : Package}
    {text : Text}
    {paths : List Path}
    {entry : Path × FileNode Text}
    (hList : PlainList text paths)
    (hEntry : ∀ content, entry.2 = .file content →
      entry.1 ∈ paths) :
    Safe
      (fun dir => Current p text paths dir ∧
        dir.isDir [stagingName] = true)
      (copyStaging entry)
      (fun dir => Current p text paths dir ∧
        dir.isDir [stagingName] = true) := by
  have hTree : IsTree stagingName := Or.inl rfl
  refine safe_cons
    (safe_putDirs hTree
      (fun _ _ hSame hCurrent =>
        hCurrent.of_sameOutside hSame) _)
    (safe_cons ?_ safe_nil)
  rcases entry with ⟨path, node⟩
  cases node with
  | dir =>
      apply safe_act
      rintro dir hGood ⟨hCurrent, hTop⟩ _
      exact ⟨hGood.putDir hTree path,
        hCurrent.of_sameOutside
          (sameOutside_putDir hTree path dir),
        FileTree.isDir_putDir_of_isDir _ hTop⟩
  | file content =>
      have hMem : path ∈ paths := hEntry content rfl
      have hPath := (hList.plain path hMem).nonempty
      refine safe_then
        (fun dir => Current p text paths dir ∧
          dir.isDir [stagingName] = true)
        ?_ (safe_cons ?_ safe_nil)
      · apply safe_act
        rintro dir hGood ⟨hCurrent, hTop⟩ _
        refine ⟨hGood.removeDir _,
          hCurrent.of_sameOutside
            (sameOutside_of_read (fun other => by
              simp [BuildAct.apply])), ?_⟩
        simp only [BuildAct.apply]
        rw [FileTree.isDir_removeDir_of_ne dir (by simpa)]
        exact hTop
      · apply safe_act
        rintro dir hGood ⟨hCurrent, hTop⟩ _
        have hListed : Listed dir p path :=
          (hList.listed_iff hCurrent.content path).mpr hMem
        refine ⟨hGood.writeTree hTree hPath ⟨p, hListed⟩ hTop
          _, hCurrent.of_sameOutside
            (sameOutside_write hTree path content dir), ?_⟩
        simp only [BuildAct.apply, FileTree.isDir_write]
        exact hTop

/- `rsync` to `staging`. -/
theorem safe_rsyncStaging
    {p : Package}
    {text : Text}
    {paths : List Path}
    (hList : PlainList text paths)
    (choice : StagingChoice) :
    Safe (Current p text paths) (rsyncStaging p choice)
      (Current p text paths) := by
  have hKept : ∀ dir : BuildDir,
      Current p text paths dir →
      Current p text paths (dir.mkdir [stagingName]) :=
    fun dir hCurrent => hCurrent.of_sameOutside
      (sameOutside_of_read (fun path => by simp))
  have hCopy : Safe
      (fun dir => Current p text paths dir ∧
        dir.isDir [stagingName] = true)
      (each (rsyncNodes p choice) copyStaging)
      (fun dir => Current p text paths dir ∧
        dir.isDir [stagingName] = true) := by
    apply safe_each
    rintro start _ ⟨hCurrent, _⟩ entry hMem
    have hLookup := lookup_of_mem_rsyncNodes hMem
    apply safe_copyStaging hList
    intro content hNode
    apply hCurrent.covers
    rw [hNode] at hLookup
    simp [FileTree.read, hLookup]
  apply safe_cond
  · refine safe_of_imp
      (safe_cons (safe_mkdirTree (Or.inl rfl) hKept)
        (safe_cons hCopy safe_nil))
      (fun _ _ hPre => hPre.1) (fun _ _ hPost => hPost.1)
  · exact safe_of_imp safe_skip (fun _ _ hPre => hPre.1)
      (fun _ _ hPost => hPost)

/- `rm -Rf` of what is installed. -/
theorem safe_removeTree
    (p : Package) :
    Safe (fun _ => True) (removeTree p.pkginst)
      (fun _ => True) := by
  refine safe_then (fun _ => True) ?_
    (safe_then (fun _ => True) ?_ safe_nil)
  · apply safe_each
    intro start _ _ rest _
    apply safe_rm true_keptByRemoval
    intro q
    simp [Package.pkginst, Package.filelist]
  · apply safe_each
    intro start _ _ rest _
    apply safe_act
    intro dir hGood _ _
    exact ⟨hGood.removeDir _, trivial⟩

/- The end of `%/staging`. -/
theorem safe_stagingEnd
    (p : Package)
    (choice : StagingChoice) :
    Safe (fun _ => True)
      (block
        [Script.cond (rsyncSucceeds p choice) Script.skip
          (block
            [command (.rm p.fakeroot),
              removeFromTrees [] [p.filelist] [p.dirlist]]),
          removeTree p.pkginst])
      (fun _ => True) := by
  refine safe_then (fun _ => True) ?_
    (safe_cons (safe_removeTree p) safe_nil)
  apply safe_cond
  · exact safe_of_imp safe_skip (fun _ _ hPre => hPre)
      (fun _ _ _ => trivial)
  · refine safe_of_true (safe_cons
      (safe_rm true_keptByRemoval (fun q => by
        simp [Package.fakeroot, Package.filelist]))
      (safe_cons (safe_removeFromTrees _ _ _) safe_nil))

/- `%/staging`. -/
theorem safe_stagingRecipe
    (p : Package)
    {choice : StagingChoice}
    (hPlain : ∀ entry ∈ choice.installed,
      PlainPath entry.1) :
    Safe (fun _ => True) (stagingRecipe p choice)
      (fun _ => True) := by
  have hMkdir : Safe (fun _ => True)
      (command (.mkdir p.pkginst)) (fun _ => True) := by
    apply safe_act
    intro dir hGood _ _
    refine ⟨hGood.mkdir ?_, trivial⟩
    intro q
    simp [Package.pkginst, Package.filelist,
      Package.newfilelist]
  refine safe_cons hMkdir
    (safe_cons (safe_installPackage p hPlain)
      (safe_writeNewLists p ?_))
  intro lists text paths hList
  have hDirs : Safe
      (fun dir => NewList p lists text paths dir ∧
        Dropped p lists paths dir)
      (Script.cond (fileExists p.dirlist)
        (removeDroppedDirs p) Script.skip)
      (fun dir => NewList p lists text paths dir ∧
        Dropped p lists paths dir) := by
    have hKept : ∀ dir dir' : BuildDir,
        (∀ path, dir'.read path = dir.read path) →
        NewList p lists text paths dir ∧
          Dropped p lists paths dir →
        NewList p lists text paths dir' ∧
          Dropped p lists paths dir' := by
      rintro dir dir' hRead ⟨hNew, hDropped⟩
      refine ⟨hNew.of_sameOutside
        (sameOutside_of_read hRead), ?_⟩
      intro path hListed hOut
      have hAbsent := hDropped path hListed hOut
      exact ⟨(hRead _).trans hAbsent.1,
        (hRead _).trans hAbsent.2⟩
    apply safe_cond
    · exact safe_of_imp (safe_removeDroppedDirs hKept)
        (fun _ _ hPre => hPre.1) (fun _ _ hPost => hPost)
    · exact safe_of_imp safe_skip
        (fun _ _ hPre => hPre.1) (fun _ _ hPost => hPost)
  refine safe_then
    (fun dir => NewList p lists text paths dir ∧
      Dropped p lists paths dir) ?_
    (safe_cons hDirs (safe_moveLists hList
      (safe_cons (safe_rsyncStaging hList choice)
        (safe_of_true (safe_stagingEnd p choice)))))
  apply safe_cond
  · exact safe_of_imp (safe_removeDropped hList)
      (fun _ _ hPre => hPre.1) (fun _ _ hPost => hPost)
  · exact safe_of_imp safe_skip (fun _ _ hPre => hPre)
      (fun dir _ hPre =>
        ⟨hPre.1, dropped_of_not_exists hPre.1 hPre.2⟩)

------------------------------------------------------------
-- Root File System
------------------------------------------------------------

/- One name that a `rootfs` rule passes to `rsync`. -/
theorem safe_copyRootfs
    (p : Package)
    (entry : Path × FileNode Text) :
    Safe (fun dir => dir.isDir [rootfsName] = true)
      (command (.copyRootfs p entry.1 entry.2))
      (fun dir => dir.isDir [rootfsName] = true) := by
  have hTree : IsTree rootfsName := Or.inr rfl
  apply safe_act
  intro dir hGood hTop hGuard
  rcases entry with ⟨path, node⟩
  cases node with
  | dir =>
      exact ⟨hGood.putDir hTree path,
        FileTree.isDir_putDir_of_isDir _ hTop⟩
  | file content =>
      have hListed : path ≠ [] ∧ ∃ q, Listed dir q path := by
        rcases hGuard with hListed | hStaged
        · exact ⟨hGood.path_ne_nil hListed, p, hListed⟩
        · have hPath : path ≠ [] := by
            rintro rfl
            rw [hGood.roots stagingName (Or.inl rfl)]
              at hStaged
            cases hStaged
          exact ⟨hPath,
            hGood.logged stagingName path (Or.inl rfl) hPath
              hStaged⟩
      refine ⟨hGood.writeTree hTree hListed.1 hListed.2 hTop
        content, ?_⟩
      simp only [BuildAct.apply, FileTree.isDir_write]
      exact hTop

/- Both rules. -/
theorem safe_rsyncRootfs
    (p : Package)
    (choice : RootfsChoice)
    (names : BuildDir → List Path) :
    Safe (fun _ => True) (rsyncRootfs p choice names)
      (fun _ => True) := by
  have hTree : IsTree rootfsName := Or.inr rfl
  refine safe_then (fun dir => dir.isDir [rootfsName] = true)
    ?_ (safe_then
      (fun dir => dir.isDir [rootfsName] = true) ?_
      (safe_of_true (safe_cons ?_ safe_nil)))
  · exact safe_of_imp
      (safe_mkdirTree hTree (fun _ hAbout => hAbout))
      (fun _ _ hPre => hPre) (fun _ _ hPost => hPost.2)
  · apply safe_each
    intro start _ _ entry _
    refine safe_cons (safe_of_imp
      (safe_putDirs hTree (fun _ _ _ hAbout => hAbout) _)
      (fun _ _ hTop => ⟨trivial, hTop⟩)
      (fun _ _ hPost => hPost.2))
      (safe_cons (safe_copyRootfs p entry) safe_nil)
  · apply safe_cond
    · exact safe_of_imp safe_skip (fun _ _ _ => trivial)
        (fun _ _ _ => trivial)
    · exact safe_of_true (safe_cons
        (safe_rm true_keptByRemoval (fun q => by
          simp [Package.fakeroot, Package.filelist]))
        (safe_cons (safe_removeFromTrees _ _ _)
          (safe_cons safe_exit safe_nil)))

------------------------------------------------------------
-- Every Execution
------------------------------------------------------------

/- Each of the recipes keeps the invariant. -/
theorem safe_script
    (execution : Execution) :
    Safe (fun _ => True) execution.script
      (fun _ => True) := by
  cases execution with
  | staging p choice hPlain =>
      exact safe_stagingRecipe p hPlain
  | copyallRootfs p choice =>
      exact safe_rsyncRootfs p choice _
  | rootfs p rootfsY choice =>
      exact safe_rsyncRootfs p choice _
  | clean p cleanOk => exact safe_cleanRecipe p cleanOk
  | cleanRemoved disabled =>
      exact safe_cleanRemovedPackages disabled

/-
  The states of a build whose commands meet their
  conditions, however its executions are interrupted.
-/
def BuildReachable (dir : BuildDir) : Prop :=
  ScriptReachable BuildAct.apply
    (fun act dir => BuildAct.Guard dir act) Execution.script
    ∅ dir

/- The invariant holds in all of them. -/
theorem accounted_of_reachable
    {dir : BuildDir}
    (hReachable : BuildReachable dir) :
    Accounted dir := by
  apply inv_of_scriptReachable accounted_empty ?_ hReachable
  intro execution
  exact Script.keeps_of_imp (safe_script execution)
    (fun _ hGood => ⟨hGood, trivial⟩) (fun _ _ => trivial)

/- Every file of the two trees is listed at every moment. -/
theorem logged_of_reachable
    {dir : BuildDir}
    (hReachable : BuildReachable dir) :
    Logged dir :=
  (accounted_of_reachable hReachable).logged

------------------------------------------------------------
-- A List That Names Another List
------------------------------------------------------------

/- A package that installs `bin/x`. -/
def toolPackage : Package where
  name := ['a']
  notStaging := by decide
  notRootfs := by decide

/- A package that installs a file named like a list. -/
def listPackage : Package where
  name := ['b']
  notStaging := by decide
  notRootfs := by decide

/- `bin/x`. -/
def toolPath : Path :=
  [['b', 'i', 'n'], ['x']]

theorem plainPath_toolPath : PlainPath toolPath :=
  plainPath_of_all (by decide) (by decide)

theorem plainPath_filelist :
    PlainPath toolPackage.filelist :=
  plainPath_of_all (by decide) (by decide)

/- A package that installs one file, without a failure. -/
def installOne
    (parent name : Text) : StagingChoice where
  installed :=
    [([parent], .dir), ([parent, name], .file [])]
  installOk := true
  started := true
  copied := []
  rsyncOk := true

theorem plain_installOne
    {parent name : Text}
    (hPlain : PlainPath [parent, name]) :
    ∀ entry ∈ (installOne parent name).installed,
      PlainPath entry.1 := by
  have hParent : PlainPath [parent] := by
    refine ⟨by simp, ?_⟩
    intro part hMem
    rw [List.mem_singleton.mp hMem]
    exact hPlain.parts parent List.mem_cons_self
  simpa [installOne] using And.intro hParent hPlain

/- Both packages are staged, and the second is cleaned. -/
def stageTool : Execution :=
  .staging toolPackage _ (plain_installOne plainPath_toolPath)

def stageList : Execution :=
  .staging listPackage _ (plain_installOne plainPath_filelist)

def cleanList : Execution :=
  .clean listPackage true

/- What a whole execution leads to. -/
def Execution.run
    (execution : Execution)
    (dir : BuildDir) : BuildDir :=
  execActs BuildAct.apply (execution.script dir).acts dir

/- A staged package. -/
def stagedTool : BuildDir :=
  stageTool.run ∅

/- After the list of the other package has been followed. -/
def cleanedList : BuildDir :=
  cleanList.run (stageList.run stagedTool)

/- The tree of a staged package is reachable. -/
theorem reachable_stagedTool : BuildReachable stagedTool := by
  refine .step ∅ stageTool _ [] .start
    (List.append_nil _).symm ?_
  refine ⟨?_, ?_, ?_, ?_, ?_, ?_, ?_, ?_, ?_, ?_, ?_, ?_⟩
  all_goals trivial

/- The invariant for a file that is there. -/
theorem logged_stagedTool :
    (stagedTool.read (stagingName :: toolPath)).isSome =
        true ∧
      Logged stagedTool :=
  ⟨by decide +kernel,
    logged_of_reachable reachable_stagedTool⟩

/- Without the condition, a list is taken for a file. -/
theorem cleanedList_not_logged :
    ¬ ∀ dir,
      ScriptReachable BuildAct.apply (fun _ _ => True)
        Execution.script ∅ dir →
      Logged dir := by
  intro hAll
  have hRun : ∀ (dir : BuildDir) (execution : Execution),
      ScriptReachable BuildAct.apply (fun _ _ => True)
        Execution.script ∅ dir →
      ScriptReachable BuildAct.apply (fun _ _ => True)
        Execution.script ∅ (execution.run dir) :=
    fun dir execution hDir =>
      .step dir execution _ [] hDir
        (List.append_nil _).symm
        (guarded_of_forall (fun _ _ => trivial))
  have hLogged := hAll cleanedList
    (hRun _ _ (hRun _ _ (hRun _ _ .start)))
  rcases hLogged stagingName toolPath (Or.inl rfl)
      (by decide) (by decide +kernel) with ⟨p, hListed⟩
  -- No file list is left.
  have hNames : cleanedList.entries.all (fun entry =>
      entry.1.drop 1 ≠ toolPackage.filelist.drop 1) =
      true := by
    decide +kernel
  cases hRead : cleanedList.read p.filelist with
  | none => exact not_listed_of_none hRead toolPath hListed
  | some text =>
      have hEntry := FileTree.mem_entries_of_read hRead
      have hName := List.all_eq_true.mp hNames _ hEntry
      simp [Package.filelist] at hName

end Mkrootfs
