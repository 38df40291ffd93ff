import Mathlib.Data.Char
import Mathlib.Data.List.Lex
import Mkrootfs.Build.BuildDir
import Mkrootfs.Library.Comm

/-
  The recipes of `%/staging`, `%/clean` and
  `clean-removed-packages` (`Makefile`), and the two rules
  for the root file system (`Makefile.pkgbuild`).

  Main declarations:
    * `stagingRecipe`
    * `defaultCopyallRootfs`, `defaultRootfs`
    * `cleanRecipe`, `cleanRemovedPackages`
    * `Execution`, `Execution.script`
-/

------------------------------------------------------------
-- Staging
------------------------------------------------------------

namespace Mkrootfs

open BuildScript (command block each)

/-
  How the installation and `rsync` turn out: the nodes that
  one call of `make staging` writes to `$(pkginst)`, in
  order, and the paths that `rsync` copies before it is done
  or fails.
-/
structure StagingChoice where
  installed : List (Path × FileNode Text)
  installOk : Bool
  started : Bool
  copied : List Path
  rsyncOk : Bool

/- `$(MAKE) ... staging`. -/
def installPackage
    (p : Package)
    (choice : StagingChoice) : BuildScript :=
  block
    [each (fun _ => choice.installed) (fun entry =>
      command
        (match entry.2 with
        | .dir => .mkdir (p.pkginst ++ entry.1)
        | .file text => .write (p.pkginst ++ entry.1) text)),
      Script.cond (fun _ => choice.installOk) Script.skip
        Script.exit]

/- `find . -! -type d | sort`. -/
def newFilelist (p : Package) (dir : BuildDir) : Text :=
  Text.unlines
    (sortLines ((dir.filesBelow p.pkginst).map findName))

/- `find . -type d | grep -v ^\.$ | sort -r`. -/
def newDirlist (p : Package) (dir : BuildDir) : Text :=
  Text.unlines
    (sortLinesReverse
      (((dir.dirsBelow p.pkginst).map findName).filter
        (fun name => name ≠ ['.'])))

/- `comm -2 -3 old new`, as `xargs -i` reads it. -/
def droppedNames
    (old new : Path)
    (dir : BuildDir) : List Text :=
  xargsItems isNewline (Text.unlines
    (commFirst (Text.lines (dir.cat old))
      (Text.lines (dir.cat new))))

/- The files that are no longer installed. -/
def removeDropped (p : Package) : BuildScript :=
  block
    [command (.mkdir [stagingName]),
      each (droppedNames p.filelist p.newfilelist)
        (fun name => block
          [command (.rm (stagingName :: pathOf name)),
            command (.rm (rootfsName :: pathOf name))])]

/- The directories that are no longer installed. -/
def removeDroppedDirs (p : Package) : BuildScript :=
  block
    [command (.mkdir [stagingName]),
      each (droppedNames p.dirlist p.newdirlist)
        (fun name => block
          [command (.rmdir (stagingName :: pathOf name)),
            command (.rmdir (rootfsName :: pathOf name))])]

/- The directories above a path, from the top on. -/
def parents (path : Path) : List Path :=
  path.inits.filter (fun parent =>
    parent ≠ [] ∧ parent ≠ path)

/-
  `rsync` copies one node to `staging`. A file only takes
  the place of a directory that is empty.
-/
def copyStaging
    (entry : Path × FileNode Text) : BuildScript :=
  block
    [each (fun _ => parents entry.1) (fun parent =>
      command (.putDir (stagingName :: parent))),
      match entry.2 with
      | .dir => command (.putDir (stagingName :: entry.1))
      | .file text =>
          block
            [command (.rmdir (stagingName :: entry.1)),
              command (.write (stagingName :: entry.1) text)]]

/- The nodes that `rsync` copies, in its order. -/
def rsyncNodes
    (p : Package)
    (choice : StagingChoice)
    (dir : BuildDir) : List (Path × FileNode Text) :=
  choice.copied.filterMap (fun path =>
      (dir.lookup (p.pkginst ++ path)).map
        (fun node => (path, node))) ++
    if choice.rsyncOk then dir.nodesBelow p.pkginst else []

/- `rsync -rlpgoDc $$mkr_pkginst/ staging/`. -/
def rsyncStaging
    (p : Package)
    (choice : StagingChoice) : BuildScript :=
  Script.cond
    (fun _ => choice.rsyncOk || choice.started)
    (block
      [command (.mkdir [stagingName]),
        each (rsyncNodes p choice) copyStaging])
    Script.skip

/-
  Whether `rsync` reports success: nothing went wrong, and
  each node is where it belongs.
-/
def rsyncSucceeds
    (p : Package)
    (choice : StagingChoice)
    (dir : BuildDir) : Bool :=
  choice.rsyncOk &&
    (dir.nodesBelow p.pkginst).all (fun entry =>
      dir.lookup (stagingName :: entry.1) = some entry.2)

/- `rm -Rf`. -/
def removeTree (path : Path) : BuildScript :=
  block
    [each (fun dir => dir.filesBelow path)
      (fun rest => command (.rm (path ++ rest))),
      each
        (fun dir => (dir.dirsBelow path).insertionSort
          (fun a b => b.length ≤ a.length))
        (fun rest => command (.rmdir (path ++ rest)))]

/- `[ -e path ]`. -/
def fileExists (path : Path) (dir : BuildDir) : Bool :=
  (dir.lookup path).isSome

/- `%/staging`. -/
def stagingRecipe
    (p : Package)
    (choice : StagingChoice) : BuildScript :=
  block
    [command (.mkdir p.pkginst),
      installPackage p choice,
      Script.act (fun dir =>
        .write p.newfilelist (newFilelist p dir)),
      Script.act (fun dir =>
        .write p.newdirlist (newDirlist p dir)),
      Script.cond (fileExists p.filelist)
        (removeDropped p) Script.skip,
      Script.cond (fileExists p.dirlist)
        (removeDroppedDirs p) Script.skip,
      command (.mv p.newfilelist p.filelist),
      command (.mv p.newdirlist p.dirlist),
      rsyncStaging p choice,
      Script.cond (rsyncSucceeds p choice) Script.skip
        (block
          [command (.rm p.fakeroot),
            removeFromTrees [] [p.filelist] [p.dirlist]]),
      removeTree p.pkginst]

------------------------------------------------------------
-- Root File System
------------------------------------------------------------

/-
  How the shell and `rsync` deal with the names of a
  `rootfs` rule: the expansion of a word, what a name that
  is not itself in `staging` leads to, and the names copied
  before `rsync` is done or fails.
-/
structure RootfsChoice where
  expand : Text → List Text
  through : Path → Option (FileNode Text)
  copied : List Path
  rsyncOk : Bool

/- The words of a command substitution. -/
def shellWords (text : Text) : List Text :=
  (text.splitOnP isBlank).filter (fun word => word ≠ [])

/- The names that `rsync` copies, in its order. -/
def rootfsNodes
    (choice : RootfsChoice)
    (names : List Path)
    (dir : BuildDir) : List (Path × FileNode Text) :=
  (choice.copied.filter (fun path => path ∈ names) ++
    if choice.rsyncOk then names else []).filterMap
      (fun path =>
        ((dir.lookup (stagingName :: path)).or
          (choice.through path)).map
            (fun node => (path, node)))

/- `rsync $(RSOPTS) ... $(rootfs)`, and its failure. -/
def rsyncRootfs
    (p : Package)
    (choice : RootfsChoice)
    (names : BuildDir → List Path) : BuildScript :=
  block
    [command (.mkdir [rootfsName]),
      each (fun dir => rootfsNodes choice (names dir) dir)
        (fun entry => block
          [each (fun _ => parents entry.1) (fun parent =>
            command (.putDir (rootfsName :: parent))),
            command (.copyRootfs p entry.1 entry.2)]),
      Script.cond (fun _ => choice.rsyncOk) Script.skip
        (block
          [command (.rm p.fakeroot),
            removeFromTrees [p.name] [p.filelist]
              [p.dirlist],
            Script.exit])]

/- `default-copyall-rootfs`. -/
def defaultCopyallRootfs
    (p : Package)
    (choice : RootfsChoice) : BuildScript :=
  rsyncRootfs p choice (fun dir =>
    ((shellWords (dir.cat p.dirlist ++
      dir.cat p.filelist)).flatMap choice.expand).map pathOf)

/- `default-rootfs`, with the words of `$(rootfs-y)`. -/
def defaultRootfs
    (p : Package)
    (rootfsY : List Text)
    (choice : RootfsChoice) : BuildScript :=
  rsyncRootfs p choice (fun _ =>
    ((rootfsY.map (fun word => '.' :: word)).flatMap
      choice.expand).map pathOf)

------------------------------------------------------------
-- Cleaning
------------------------------------------------------------

/- The files that match `p/.mkr.fakeroot*`. -/
def fakerootFiles (p : Package) (dir : BuildDir) :
    List Path :=
  ((dir.filesBelow [p.name]).map (fun rest =>
    p.name :: rest)).filter (fun path =>
      path.length = 2 ∧
        (path.zip p.fakeroot).all (fun parts =>
          parts.2.isPrefixOf parts.1))

/- `%/clean`. -/
def cleanRecipe
    (p : Package)
    (cleanOk : Bool) : BuildScript :=
  Script.cond
    (fun dir => fileExists [p.name] dir && !cleanOk)
    Script.exit
    (block
      [each (fakerootFiles p) (fun path =>
        command (.rm path)),
        command (.rm p.rmstrip),
        removeListed [] stagingName [p.filelist],
        removeListed [] rootfsName [p.filelist],
        command (.rm p.filelist),
        removeListedDirs [] stagingName [p.dirlist],
        removeListedDirs [] rootfsName [p.dirlist],
        command (.rm p.dirlist)])

/- The disabled packages that have a list. -/
def withList
    (list : Package → Path)
    (disabled : List Package)
    (dir : BuildDir) : List Package :=
  disabled.filter (fun p => fileExists (list p) dir)

/- `clean-removed-packages`. -/
def cleanRemovedPackages
    (disabled : List Package) : BuildScript :=
  fun start =>
    let filelists := withList Package.filelist disabled start
    let dirlists := withList Package.dirlist disabled start
    block
      [each (fun _ => disabled) (fun p =>
        command (.rm p.fakeroot)),
        removeListed [] stagingName
          (filelists.map Package.filelist),
        removeListed [] rootfsName
          (filelists.map Package.filelist),
        each (fun _ => filelists) (fun p =>
          command (.rm p.filelist)),
        removeListedDirs [] stagingName
          (dirlists.map Package.dirlist),
        removeListedDirs [] rootfsName
          (dirlists.map Package.dirlist),
        each (fun _ => dirlists) (fun p =>
          command (.rm p.dirlist))]
      start

------------------------------------------------------------
-- Executions
------------------------------------------------------------

/-
  One execution of a recipe. Installed files have names that
  `xargs` takes as they are.
-/
inductive Execution where
| staging (p : Package) (choice : StagingChoice)
    (plain : ∀ entry ∈ choice.installed, PlainPath entry.1)
| copyallRootfs (p : Package) (choice : RootfsChoice)
| rootfs (p : Package) (rootfsY : List Text)
    (choice : RootfsChoice)
| clean (p : Package) (cleanOk : Bool)
| cleanRemoved (disabled : List Package)

/- The recipe of an execution. -/
def Execution.script : Execution → BuildScript
| .staging p choice _ => stagingRecipe p choice
| .copyallRootfs p choice => defaultCopyallRootfs p choice
| .rootfs p rootfsY choice => defaultRootfs p rootfsY choice
| .clean p cleanOk => cleanRecipe p cleanOk
| .cleanRemoved disabled => cleanRemovedPackages disabled

end Mkrootfs
