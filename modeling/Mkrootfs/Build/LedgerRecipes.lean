import Mkrootfs.Build.Ledger
import Mkrootfs.Build.RemovedPackages
import Mkrootfs.Build.StagingStatus

/-
  Ledgers tell what the recipes do in the build directory,
  as long as `xargs` takes the names as they are.

  Main declarations:
    * `Ledger.Describes`
    * `Ledger.describes_cleanRemovedPackages`
    * `Ledger.describes_rsyncRootfs`
-/

------------------------------------------------------------
-- Ledgers Of A Build Directory
------------------------------------------------------------

namespace Mkrootfs

open BuildScript (command block each)

namespace Ledger

variable {names : FileNames}

/- The text of a list that names the given files. -/
def ListOf
    (files : Finset names.File)
    (text : Text) : Prop :=
  ∃ paths : List Path,
    paths.Nodup ∧
    (∀ path, path ∈ paths ↔ ∃ f ∈ files, f.1 = path) ∧
    text = listText paths

/- The two trees and the lists are the ones of the ledger. -/
structure Describes
    (ledger : Ledger Package names)
    (dir : BuildDir) : Prop where
  staging : ∀ f : names.File, f ∈ ledger.staging ↔
    (dir.read (stagingName :: f.1)).isSome = true
  rootfs : ∀ f : names.File, f ∈ ledger.rootfs ↔
    (dir.read (rootfsName :: f.1)).isSome = true
  listed : ∀ p : Package,
    Option.Rel ListOf (ledger.listed p)
      (dir.read p.filelist)

/- The lines of a list, in the order that `comm` expects. -/
structure Lines
    (files : Finset names.File)
    (text : Text)
    (lines : List Text) : Prop where
  text_eq : text = Text.unlines lines
  ascending : lines.Pairwise (fun a b => a < b)
  mem : ∀ name, name ∈ lines ↔
    ∃ f ∈ files, findName f.1 = name

theorem findName_inj
    {f g : names.File}
    (hSame : findName f.1 = findName g.1) :
    f = g := by
  apply Subtype.ext
  rw [← pathOf_findName (names.plain f.1 f.2), hSame,
    pathOf_findName (names.plain g.1 g.2)]

theorem ListOf.exists_lines
    {files : Finset names.File}
    {text : Text}
    (hList : ListOf files text) :
    ∃ lines, Lines files text lines := by
  rcases hList with ⟨paths, hNodup, hPaths, rfl⟩
  have hInjective : ∀ path ∈ paths, ∀ other ∈ paths,
      findName path = findName other → path = other := by
    intro path hPath other hOther hSame
    rcases (hPaths path).mp hPath with ⟨f, _, rfl⟩
    rcases (hPaths other).mp hOther with ⟨g, _, rfl⟩
    rw [findName_inj hSame]
  have hNames : (paths.map findName).Nodup :=
    (List.nodup_map_iff_inj_on hNodup).mpr hInjective
  have hPerm := List.perm_insertionSort
    (fun a b : Text => a ≤ b) (paths.map findName)
  refine ⟨sortLines (paths.map findName), rfl, ?_, ?_⟩
  · have hSorted := List.pairwise_insertionSort
      (fun a b : Text => a ≤ b) (paths.map findName)
    have hApart := hPerm.nodup_iff.mpr hNames
    exact (hSorted.and hApart).imp
      (fun h => lt_of_le_of_ne h.1 h.2)
  · intro name
    unfold sortLines
    rw [List.mem_insertionSort, List.mem_map]
    constructor
    · rintro ⟨path, hMem, rfl⟩
      rcases (hPaths path).mp hMem with ⟨f, hFile, rfl⟩
      exact ⟨f, hFile, rfl⟩
    · rintro ⟨f, hFile, rfl⟩
      exact ⟨f.1, (hPaths f.1).mpr ⟨f, hFile, rfl⟩, rfl⟩

variable {ledger : Ledger Package names} {dir : BuildDir}

/- What `cat` prints for a package, with a list or not. -/
theorem Describes.exists_lines
    (hDescribes : ledger.Describes dir)
    (p : Package) :
    ∃ lines, Lines (ledger.files p) (dir.cat p.filelist)
      lines := by
  have hRel := hDescribes.listed p
  unfold files BuildDir.cat
  cases hListed : ledger.listed p with
  | none =>
      rw [hListed] at hRel
      cases hRead : dir.read p.filelist with
      | none =>
          exact ⟨[], rfl, List.Pairwise.nil, by simp⟩
      | some text =>
          rw [hRead] at hRel
          cases hRel
  | some files =>
      rw [hListed] at hRel
      cases hRead : dir.read p.filelist with
      | none =>
          rw [hRead] at hRel
          cases hRel
      | some text =>
          rw [hRead] at hRel
          cases hRel with
          | some hList => exact hList.exists_lines

section Lines

variable {files : Finset names.File} {text : Text}
variable {lines : List Text}

theorem Lines.plain
    (hLines : Lines files text lines) :
    ∀ name ∈ lines, PlainItem name := by
  intro name hMem
  rcases (hLines.mem name).mp hMem with ⟨f, _, rfl⟩
  exact plainItem_findName (names.plain f.1 f.2)

theorem Lines.lines_eq
    (hLines : Lines files text lines) :
    Text.lines text = lines := by
  rw [hLines.text_eq]
  exact Text.lines_unlines (fun name hMem =>
    newline_not_mem_of_plain (hLines.plain name hMem))

/- The files are the ones that its lines lead to. -/
theorem Lines.mem_map_pathOf_iff
    (hLines : Lines files text lines)
    (f : names.File) :
    f.1 ∈ lines.map pathOf ↔ f ∈ files := by
  rw [List.mem_map]
  constructor
  · rintro ⟨name, hMem, hSame⟩
    rcases (hLines.mem name).mp hMem with ⟨g, hFile, rfl⟩
    rw [pathOf_findName (names.plain g.1 g.2)] at hSame
    rwa [← Subtype.ext hSame]
  · intro hFile
    exact ⟨findName f.1,
      (hLines.mem _).mpr ⟨f, hFile, rfl⟩,
      pathOf_findName (names.plain f.1 f.2)⟩

end Lines

------------------------------------------------------------
-- Disabled Packages
------------------------------------------------------------

/- The files that the lists of some packages lead to. -/
theorem Describes.mem_listedPaths_iff
    (hDescribes : ledger.Describes dir)
    (packages : List Package)
    (f : names.File) :
    f.1 ∈ dir.listedPaths (packages.map Package.filelist) ↔
      ∃ p ∈ packages, f ∈ ledger.files p := by
  unfold BuildDir.listedPaths
  rw [List.flatMap_map, List.mem_flatMap]
  apply exists_congr
  intro p
  apply and_congr_right
  intro _
  rcases hDescribes.exists_lines p with ⟨lines, hLines⟩
  rw [hLines.lines_eq]
  exact hLines.mem_map_pathOf_iff f

/- `xargs` takes the names of all lists as they are. -/
theorem Describes.readAsListed
    (hDescribes : ledger.Describes dir)
    (hTrees : ∀ root, IsTree root →
      dir.isDir [root] = true)
    (packages : List Package) :
    CleaningRun.ReadAsListed dir
      (packages.map Package.filelist) := by
  choose lines hLines using hDescribes.exists_lines
  have hHolds : CleaningRun.HoldsNames dir
      (packages.map Package.filelist)
      (packages.flatMap lines) := by
    apply CleaningRun.holdsNames_of_records
    · exact fun p _ => (hLines p).text_eq
    · exact fun p _ name hMem =>
        newline_not_mem_of_plain ((hLines p).plain name hMem)
  apply CleaningRun.readAsListed hHolds
  refine Or.inr ⟨hTrees, ?_⟩
  intro name hMem
  rcases List.mem_flatMap.mp hMem with ⟨p, _, hName⟩
  exact (hLines p).plain name hName

/- What the rule removes of the packages themselves. -/
def ownFiles (disabled : List Package) : List Path :=
  disabled.map Package.fakeroot ++
    disabled.map Package.filelist ++
      disabled.map Package.dirlist

/- What is left of a file. -/
theorem Describes.read_cleanRemovedPackages
    (hDescribes : ledger.Describes dir)
    (hTrees : ∀ root, IsTree root →
      dir.isDir [root] = true)
    (disabled : List Package)
    (path : Path) :
    ((cleanRemovedPackages disabled).run dir).read path =
      if path ∈ ownFiles disabled ∨
          path ∈ inTrees (dir.listedPaths
            (disabled.map Package.filelist)) then
        none
      else
        dir.read path := by
  have hLists : ∀ list ∈ disabled.map Package.filelist,
      ∃ (p : Package) (rest : Path), list = p.name :: rest := by
    intro list hMem
    rcases List.mem_map.mp hMem with ⟨p, _, rfl⟩
    exact ⟨p, _, rfl⟩
  have hKept : ∀ list ∈ disabled.map Package.filelist,
      list ∉ disabled.map Package.fakeroot := by
    intro list hMem hIn
    rcases List.mem_map.mp hMem with ⟨p, _, rfl⟩
    rcases List.mem_map.mp hIn with ⟨q, _, hSame⟩
    simp [Package.filelist, Package.fakeroot] at hSame
  have hRead := hDescribes.readAsListed hTrees disabled
  rw [CleaningRun.run_cleanRemovedPackages_all]
  simp only [CleaningRun.cleaned]
  rw [CleaningRun.run_removeListed_trees hLists hKept hRead,
    ← FileTree.removeAll_append, FileTree.read_removeAll,
    run_removeListedDirs, FileTree.read_removeDirs,
    run_removeListedDirs, FileTree.read_removeDirs,
    FileTree.read_removeAll]
  unfold ownFiles
  simp only [List.mem_append]
  split
  · next hDirlist =>
      rw [if_pos (Or.inl (Or.inr hDirlist))]
  · next hDirlist =>
      apply if_congr _ rfl rfl
      tauto

theorem tree_not_mem_ownFiles
    {root : Text}
    (hRoot : IsTree root)
    (disabled : List Package)
    (path : Path) :
    root :: path ∉ ownFiles disabled := by
  unfold ownFiles
  simp only [List.mem_append, List.mem_map]
  rintro ((⟨p, _, hSame⟩ | ⟨p, _, hSame⟩) | ⟨p, _, hSame⟩)
  · exact tree_ne_package hRoot path p _ hSame.symm
  · exact tree_ne_package hRoot path p _ hSame.symm
  · exact tree_ne_package hRoot path p _ hSame.symm

theorem filelist_mem_ownFiles_iff
    (disabled : List Package)
    (p : Package) :
    p.filelist ∈ ownFiles disabled ↔ p ∈ disabled := by
  unfold ownFiles
  simp only [List.mem_append, List.mem_map]
  constructor
  · rintro ((⟨q, _, hSame⟩ | ⟨q, hMem, hSame⟩) | ⟨q, _, hSame⟩)
    · simp [Package.filelist, Package.fakeroot] at hSame
    · rwa [← filelist_injective hSame]
    · simp [Package.filelist, Package.dirlist] at hSame
  · exact fun hMem => Or.inl (Or.inr ⟨p, hMem, rfl⟩)

/- One file of a tree, behind the rule. -/
theorem Describes.isSome_read_tree_iff
    (hDescribes : ledger.Describes dir)
    (hTrees : ∀ root, IsTree root →
      dir.isDir [root] = true)
    (disabled : List Package)
    {root : Text}
    (hRoot : IsTree root)
    (f : names.File) :
    (((cleanRemovedPackages disabled).run dir).read
        (root :: f.1)).isSome = true ↔
      (dir.read (root :: f.1)).isSome = true ∧
        f ∉ disabled.toFinset.biUnion ledger.files := by
  have hListed := hDescribes.mem_listedPaths_iff disabled f
  have hInTrees : root :: f.1 ∈ inTrees (dir.listedPaths
        (disabled.map Package.filelist)) ↔
      f ∈ disabled.toFinset.biUnion ledger.files := by
    rw [mem_inTrees, Finset.mem_biUnion]
    simp only [List.mem_toFinset]
    rw [← hListed]
    constructor
    · rintro ⟨other, rest, _, hMem, hSame⟩
      rwa [(List.cons.inj hSame).2]
    · exact fun hMem => ⟨root, f.1, hRoot, hMem, rfl⟩
  rw [hDescribes.read_cleanRemovedPackages hTrees disabled]
  split
  · next hGone =>
      have hMem := hInTrees.mp (hGone.resolve_left
        (tree_not_mem_ownFiles hRoot disabled f.1))
      simp [hMem]
  · next hLeft =>
      have hNot := mt hInTrees.mpr (not_or.mp hLeft).2
      exact ⟨fun hSome => ⟨hSome, hNot⟩, fun h => h.1⟩

/- `clean-removed-packages` leads to the cleaned ledger. -/
theorem describes_cleanRemovedPackages
    (hDescribes : ledger.Describes dir)
    (hTrees : ∀ root, IsTree root →
      dir.isDir [root] = true)
    (disabled : List Package) :
    (ledger.cleanRemoved disabled.toFinset).Describes
      ((cleanRemovedPackages disabled).run dir) where
  staging f := by
    rw [hDescribes.isSome_read_tree_iff hTrees disabled
      (Or.inl rfl), ← hDescribes.staging f]
    exact Finset.mem_sdiff
  rootfs f := by
    rw [hDescribes.isSome_read_tree_iff hTrees disabled
      (Or.inr rfl), ← hDescribes.rootfs f]
    exact Finset.mem_sdiff
  listed p := by
    have hOwn := filelist_mem_ownFiles_iff disabled p
    have hOutside : p.filelist ∉ inTrees (dir.listedPaths
        (disabled.map Package.filelist)) :=
      CleaningRun.not_mem_inTrees_package p _ _
    rw [hDescribes.read_cleanRemovedPackages hTrees disabled]
    unfold cleanRemoved
    simp only [List.mem_toFinset]
    by_cases hOff : p ∈ disabled
    · rw [if_pos hOff, if_pos (Or.inl (hOwn.mpr hOff))]
      exact Option.Rel.none
    · rw [if_neg hOff, if_neg
        (not_or.mpr ⟨mt hOwn.mp hOff, hOutside⟩)]
      exact hDescribes.listed p

end Ledger

------------------------------------------------------------
-- The Root File System
------------------------------------------------------------

/- What the rule does with one node. -/
def copyRootfsNode
    (p : Package)
    (entry : Path × FileNode Text) : BuildScript :=
  block
    [each (fun _ => parents entry.1) (fun parent =>
      command (.putDir (rootfsName :: parent))),
      command (.copyRootfs p entry.1 entry.2)]

theorem stopped_copyRootfsNode
    (p : Package)
    (entry : Path × FileNode Text)
    (dir : BuildDir) :
    (copyRootfsNode p entry dir).stopped = false := by
  apply Script.stopped_block
  intro script hMem state
  simp only [List.mem_cons, List.not_mem_nil, or_false]
    at hMem
  rcases hMem with rfl | rfl
  · exact Script.stopped_each (fun _ _ _ => rfl)
  · rfl

/- A successful `rsync` copies one node after the other. -/
theorem run_rsyncRootfs
    (p : Package)
    {choice : RootfsChoice}
    (hOk : choice.rsyncOk = true)
    (paths : BuildDir → List Path)
    (dir : BuildDir) :
    (rsyncRootfs p choice paths).run dir =
      (rootfsNodes choice (paths (dir.mkdir [rootfsName]))
        (dir.mkdir [rootfsName])).foldl
          (fun current entry =>
            (copyRootfsNode p entry).run current)
          (dir.mkdir [rootfsName]) := by
  have hMkdir : (command (.mkdir [rootfsName])).run dir =
      dir.mkdir [rootfsName] := rfl
  have hEnd : ∀ branch state,
      (block
        [Script.cond (fun _ => choice.rsyncOk) Script.skip
          branch]).run state = state := by
    intro branch state
    have hNot : (Script.cond (fun _ => choice.rsyncOk)
        Script.skip branch state).stopped = false := by
      rw [Script.stopped_cond, hOk]
      rfl
    rw [run_block_cons _ hNot, run_block_nil]
    unfold BuildScript.run
    rw [Script.run_cond, hOk]
    rfl
  have hLoop : (each
      (fun dir => rootfsNodes choice (paths dir) dir)
      (copyRootfsNode p)
      (dir.mkdir [rootfsName])).stopped = false :=
    Script.stopped_each (fun entry _ state =>
      stopped_copyRootfsNode p entry state)
  have hShape : rsyncRootfs p choice paths =
      block
        [command (.mkdir [rootfsName]),
          each (fun dir => rootfsNodes choice (paths dir) dir)
            (copyRootfsNode p),
          Script.cond (fun _ => choice.rsyncOk) Script.skip
            (block
              [command (.rm p.fakeroot),
                removeFromTrees [p.name] [p.filelist]
                  [p.dirlist],
                Script.exit])] :=
    rfl
  rw [hShape, run_block_cons _ (stopped_command _ _), hMkdir,
    run_block_cons _ hLoop, hEnd]
  exact Script.run_forEach (fun entry _ state =>
    stopped_copyRootfsNode p entry state) _

/- A command that touches a path of a tree, or one above it. -/
theorem leaves_command_upTo
    {act : BuildAct}
    {top : Text}
    {path target : Path}
    (hAct : ∀ other, act.Touches other → top :: target = other)
    (hPrefix : target <+: path) :
    Leaves
      (fun other => ∀ above, above <+: path →
        top :: above ≠ other)
      (command act) := by
  apply leaves_command
  intro other hOther hTouches
  exact hOther target hPrefix (hAct other hTouches)

/- The directories above a path of a tree. -/
theorem leaves_putParents
    (top : Text)
    (path : Path) :
    Leaves
      (fun other => ∀ above, above <+: path →
        top :: above ≠ other)
      (each (fun _ => parents path) (fun parent =>
        command (.putDir (top :: parent)))) := by
  intro state
  apply Script.only_forEach
  intro parent hParent
  have hInits := (List.mem_filter.mp hParent).1
  exact leaves_command_upTo (fun _ h => h)
    ((List.mem_inits _ _).mp hInits)

/- One node is copied to one path, below its parents. -/
theorem leaves_copyRootfsNode
    (p : Package)
    (entry : Path × FileNode Text) :
    Leaves
      (fun other => ∀ target, target <+: entry.1 →
        rootfsName :: target ≠ other)
      (copyRootfsNode p entry) := by
  apply leaves_block
  intro script hMem
  simp only [List.mem_cons, List.not_mem_nil, or_false]
    at hMem
  rcases hMem with rfl | rfl
  · exact leaves_putParents rootfsName entry.1
  · exact leaves_command_upTo (fun _ h => h) List.prefix_rfl

/- A file is at its path then. -/
theorem read_run_copyRootfsNode
    (p : Package)
    (path : Path)
    (text : Text)
    {dir : BuildDir}
    (hDir : dir.isDir (rootfsName :: path) = false) :
    ((copyRootfsNode p (path, .file text)).run dir).read
        (rootfsName :: path) =
      some text := by
  let above := (each (fun _ => parents path) (fun parent =>
    command (.putDir (rootfsName :: parent)))).run dir
  have hAbove : above.lookup (rootfsName :: path) =
      dir.lookup (rootfsName :: path) := by
    refine @run_of_leaves
      (fun other => other = rootfsName :: path) _ ?_ _ rfl _
    intro state
    apply Script.only_forEach
    intro parent hParent
    have hNe := (List.mem_filter.mp hParent).2
    rw [decide_eq_true_eq] at hNe
    apply leaves_command
    rintro other rfl hTouches
    exact hNe.2 (List.cons.inj hTouches).2
  have hStill : above.isDir (rootfsName :: path) = false := by
    unfold FileTree.isDir at hDir ⊢
    rwa [hAbove]
  have hParents : (each (fun _ => parents path)
      (fun parent => command
        (.putDir (rootfsName :: parent))) dir).stopped =
      false :=
    Script.stopped_each (fun _ _ _ => rfl)
  unfold copyRootfsNode
  rw [run_block_cons _ hParents,
    run_block_cons _ (stopped_command _ _), run_block_nil,
    run_command]
  change (above.write (rootfsName :: path) text).read _ = _
  rw [FileTree.read_write, if_pos ⟨rfl, hStill⟩]

/- The loop adds the files that it copies to a path. -/
theorem isSome_read_foldl_copyRootfsNode
    (p : Package)
    {path : Path}
    {entries : List (Path × FileNode Text)}
    (hEntries : ∀ entry ∈ entries, path <+: entry.1 →
      ∃ text, entry = (path, .file text))
    {dir : BuildDir}
    (hDir : dir.isDir (rootfsName :: path) = false) :
    (FileTree.read
        (entries.foldl
          (fun current entry =>
            (copyRootfsNode p entry).run current) dir)
        (rootfsName :: path)).isSome = true ↔
      (dir.read (rootfsName :: path)).isSome = true ∨
        ∃ text, (path, .file text) ∈ entries := by
  induction entries generalizing dir with
  | nil => simp
  | cons entry entries ih =>
      have hRest := fun {dir} => @ih
        (fun other hMem =>
          hEntries other (List.mem_cons_of_mem entry hMem))
        dir
      rw [List.foldl_cons]
      by_cases hPrefix : path <+: entry.1
      · rcases hEntries entry List.mem_cons_self hPrefix with
          ⟨text, rfl⟩
        have hRead := read_run_copyRootfsNode p path text hDir
        have hStill : FileTree.isDir
            ((copyRootfsNode p (path, .file text)).run dir)
            (rootfsName :: path) = false := by
          unfold FileTree.isDir
          rw [FileTree.lookup_of_read hRead]
        rw [hRest hStill, hRead]
        exact iff_of_true (Or.inl rfl)
          (Or.inr ⟨text, List.mem_cons_self⟩)
      · have hSame : ((copyRootfsNode p entry).run dir).lookup
              (rootfsName :: path) =
            dir.lookup (rootfsName :: path) := by
          apply run_of_leaves (leaves_copyRootfsNode p entry)
          intro target hTarget hEq
          rw [(List.cons.inj hEq).2] at hTarget
          exact hPrefix hTarget
        have hStill : FileTree.isDir
            ((copyRootfsNode p entry).run dir)
            (rootfsName :: path) = false := by
          unfold FileTree.isDir at hDir ⊢
          rwa [hSame]
        have hNe : ∀ text, (path, FileNode.file text) ≠ entry := by
          rintro text rfl
          exact hPrefix List.prefix_rfl
        rw [hRest hStill]
        unfold FileTree.read
        rw [hSame]
        simp [hNe]

namespace Ledger

variable {names : FileNames}

/-
  A `rootfs` rule in which nothing fails: it names staged
  files and directories, and no directory is in place of a
  file or below one.
-/
structure Copies
    (choice : RootfsChoice)
    (paths : List Path)
    (dir : BuildDir)
    (copied : Finset names.File) : Prop where
  rsyncOk : choice.rsyncOk = true
  files : ∀ f : names.File, f ∈ copied ↔ f.1 ∈ paths
  named : ∀ path ∈ paths,
    (dir.read (stagingName :: path)).isSome = true →
    path ∈ names.names
  dirs : ∀ path ∈ paths,
    dir.isDir (stagingName :: path) = true →
    ∀ f : names.File, ¬ f.1 <+: path
  through : ∀ path, choice.through path = none
  free : ∀ f : names.File,
    dir.isDir (rootfsName :: f.1) = false

variable {ledger : Ledger Package names} {dir : BuildDir}
variable {choice : RootfsChoice} {copied : Finset names.File}

/- `rsync` copies what is staged under the names. -/
theorem Copies.mem_rootfsNodes_iff
    {paths : List Path}
    (hCopies : Copies choice paths dir copied)
    (entry : Path × FileNode Text) :
    entry ∈ rootfsNodes choice paths dir ↔
      entry.1 ∈ paths ∧
        dir.lookup (stagingName :: entry.1) =
          some entry.2 := by
  unfold rootfsNodes
  rw [hCopies.rsyncOk, List.mem_filterMap]
  simp only [hCopies.through, Option.or_none, if_true,
    List.mem_append, List.mem_filter, decide_eq_true_eq]
  constructor
  · rintro ⟨path, hMem, hEntry⟩
    rw [Option.map_eq_some_iff] at hEntry
    rcases hEntry with ⟨node, hNode, rfl⟩
    exact ⟨hMem.elim (fun h => h.2) id, hNode⟩
  · rintro ⟨hMem, hNode⟩
    exact ⟨entry.1, Or.inr hMem, by rw [hNode]; rfl⟩

/- Nothing but the file itself is copied to its path. -/
theorem Copies.eq_of_prefix
    {paths : List Path}
    (hCopies : Copies choice paths dir copied)
    (f : names.File)
    {entry : Path × FileNode Text}
    (hMem : entry ∈ rootfsNodes choice paths dir)
    (hPrefix : f.1 <+: entry.1) :
    ∃ text, entry = (f.1, .file text) := by
  rcases entry with ⟨path, node⟩
  rcases (hCopies.mem_rootfsNodes_iff _).mp hMem with
    ⟨hPath, hLookup⟩
  cases node with
  | dir =>
      exact absurd hPrefix (hCopies.dirs path hPath
        (by simp [FileTree.isDir, hLookup]) f)
  | file text =>
      have hNamed := hCopies.named path hPath
        (by simp [FileTree.read, hLookup])
      have hSame := names.apart f.1 f.2 path hNamed hPrefix
      exact ⟨text, by rw [hSame]⟩

/- A `rootfs` rule leads to the ledger with the copies. -/
theorem describes_rsyncRootfs
    (hDescribes : ledger.Describes dir)
    (p : Package)
    (paths : BuildDir → List Path)
    (hCopies : Copies choice
      (paths (dir.mkdir [rootfsName]))
      (dir.mkdir [rootfsName]) copied) :
    (ledger.copyRootfs copied).Describes
      ((rsyncRootfs p choice paths).run dir) := by
  let entries := rootfsNodes choice
    (paths (dir.mkdir [rootfsName])) (dir.mkdir [rootfsName])
  have hRun := run_rsyncRootfs p hCopies.rsyncOk paths dir
  -- Only paths in `rootfs` are written to.
  have hOther : ∀ path,
      (∀ rest, path ≠ rootfsName :: rest) →
      ((rsyncRootfs p choice paths).run dir).read path =
        dir.read path := by
    intro path hPath
    rw [hRun, ← FileTree.read_mkdir dir [rootfsName] path]
    apply List.foldlRecOn
      (motive := fun current : BuildDir =>
        current.read path =
          FileTree.read (dir.mkdir [rootfsName]) path)
      entries _ rfl
    intro current hCurrent entry _
    rw [← hCurrent]
    exact read_run_of_leaves (leaves_copyRootfsNode p entry)
      (fun target _ hSame => hPath target hSame.symm) current
  refine ⟨?_, ?_, ?_⟩
  · intro f
    rw [hOther _ (fun rest h =>
      absurd (List.cons.inj h).1
        (by decide : stagingName ≠ rootfsName))]
    exact hDescribes.staging f
  · intro f
    rw [hRun, isSome_read_foldl_copyRootfsNode p
      (fun entry hMem hPrefix =>
        hCopies.eq_of_prefix f hMem hPrefix)
      (hCopies.free f), FileTree.read_mkdir,
      ← hDescribes.rootfs f]
    have hStaged :
        (dir.read (stagingName :: f.1)).isSome = true ↔
          ∃ text, FileTree.read (dir.mkdir [rootfsName])
            (stagingName :: f.1) = some text := by
      rw [FileTree.read_mkdir]
      exact Option.isSome_iff_exists
    unfold copyRootfs
    rw [Finset.mem_union, Finset.mem_inter,
      hDescribes.staging f, hCopies.files f, hStaged]
    apply or_congr_right
    rw [← exists_and_left]
    apply exists_congr
    intro text
    rw [hCopies.mem_rootfsNodes_iff]
    apply and_congr_right
    intro _
    refine ⟨FileTree.lookup_of_read, fun hLookup => ?_⟩
    simp [FileTree.read, hLookup]
  · intro q
    have hSame := hOther q.filelist (fun rest h =>
      tree_ne_package (Or.inr rfl) rest q _ h.symm)
    rw [hSame]
    exact hDescribes.listed q

end Ledger

end Mkrootfs
