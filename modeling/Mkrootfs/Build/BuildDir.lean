import Mkrootfs.Library.FileTree
import Mkrootfs.Library.Script
import Mkrootfs.Library.SlashPaths
import Mkrootfs.Library.Xargs

/-
  The build directory, the names in it, and the commands
  that the recipes of the top `Makefile` are made of.

  Main declarations:
    * `BuildDir`, `Package`
    * `pathOf`, `findName`, `PlainPath`
    * `BuildAct`, `BuildAct.apply`
    * `removeListed`, `removeListedDirs`
-/

------------------------------------------------------------
-- Names
------------------------------------------------------------

namespace Mkrootfs

/- A path from the build directory. -/
abbrev Path :=
  List Text

/- The build directory. Symbolic links count as files. -/
abbrev BuildDir :=
  FileTree Text Text

/- `staging`. -/
def stagingName : Text :=
  ['s', 't', 'a', 'g', 'i', 'n', 'g']

/- `rootfs`. -/
def rootfsName : Text :=
  ['r', 'o', 'o', 't', 'f', 's']

/- A package directory is none of the two trees. -/
structure Package where
  name : Text
  notStaging : name ≠ stagingName
  notRootfs : name ≠ rootfsName
deriving DecidableEq

namespace Package

/- `.mkr.inst`. -/
def pkginst (p : Package) : Path :=
  [p.name, ['.', 'm', 'k', 'r', '.', 'i', 'n', 's', 't']]

/- `.mkr.filelist`. -/
def filelist (p : Package) : Path :=
  [p.name,
    ['.', 'm', 'k', 'r', '.', 'f', 'i', 'l', 'e', 'l', 'i',
      's', 't']]

/- `.mkr.newfilelist`. -/
def newfilelist (p : Package) : Path :=
  [p.name,
    ['.', 'm', 'k', 'r', '.', 'n', 'e', 'w', 'f', 'i', 'l',
      'e', 'l', 'i', 's', 't']]

/- `.mkr.dirlist`. -/
def dirlist (p : Package) : Path :=
  [p.name,
    ['.', 'm', 'k', 'r', '.', 'd', 'i', 'r', 'l', 'i', 's',
      't']]

/- `.mkr.newdirlist`. -/
def newdirlist (p : Package) : Path :=
  [p.name,
    ['.', 'm', 'k', 'r', '.', 'n', 'e', 'w', 'd', 'i', 'r',
      'l', 'i', 's', 't']]

/- `.mkr.fakeroot`. -/
def fakeroot (p : Package) : Path :=
  [p.name,
    ['.', 'm', 'k', 'r', '.', 'f', 'a', 'k', 'e', 'r', 'o',
      'o', 't']]

/- `.mkr.rmstrip`. -/
def rmstrip (p : Package) : Path :=
  [p.name,
    ['.', 'm', 'k', 'r', '.', 'r', 'm', 's', 't', 'r', 'i',
      'p']]

end Package

/- A package named `p`. -/
def samplePackage : Package where
  name := ['p']
  notStaging := by decide
  notRootfs := by decide

/- The path that a name leads to, from its directory. -/
def pathOf (name : Text) : Path :=
  (name.splitOn '/').filter (fun part =>
    part ≠ [] ∧ part ≠ ['.'])

/- A path as `find .` prints it. -/
def findName (path : Path) : Text :=
  '.' :: path.flatMap (fun part => '/' :: part)

/-
  A path whose parts hold no character that `xargs`
  interprets.
-/
structure PlainPath (path : Path) : Prop where
  nonempty : path ≠ []
  parts : ∀ part ∈ path,
    PlainItem part ∧ '/' ∉ part ∧ part ≠ ['.']

/- A concrete path with such parts. -/
theorem plainPath_of_all
    {path : Path}
    (hNonempty : path ≠ [])
    (hAll : path.all (fun part =>
      part ≠ [] && part.all isPlainChar &&
        !part.contains '/' && part ≠ ['.']) = true) :
    PlainPath path := by
  refine ⟨hNonempty, ?_⟩
  intro part hMem
  have hPart := List.all_eq_true.mp hAll part hMem
  simp only [Bool.and_eq_true, decide_eq_true_eq,
    Bool.not_eq_true', List.contains_eq_mem,
    decide_eq_false_iff_not] at hPart
  rcases hPart with ⟨⟨⟨hSome, hChars⟩, hSlash⟩, hDot⟩
  exact ⟨plainItem_of_all hSome hChars, hSlash, hDot⟩

/- The name of a plain path leads back to it. -/
theorem pathOf_findName
    {path : Path}
    (hPlain : PlainPath path) :
    pathOf (findName path) = path := by
  have hSplit : (findName path).splitOn '/' =
      ['.'] :: path :=
    splitOn_slash (by decide : '/' ∉ ['.'])
      (fun part hMem => (hPlain.parts part hMem).2.1)
  unfold pathOf
  rw [hSplit, List.filter_cons_of_neg (by simp),
    List.filter_eq_self]
  intro part hMem
  have hPart := hPlain.parts part hMem
  simp [hPart.1.nonempty, hPart.2.2]

/- The name of a plain path is an item of `xargs`. -/
theorem plainItem_findName
    {path : Path}
    (hPlain : PlainPath path) :
    PlainItem (findName path) where
  nonempty := by simp [findName]
  plain c hMem := by
    simp only [findName, List.mem_cons, List.mem_flatMap]
      at hMem
    rcases hMem with rfl | ⟨part, hPart, rfl | hMem⟩
    · decide
    · decide
    · exact (hPlain.parts part hPart).1.plain c hMem

/- A plain name holds no newline. -/
theorem newline_not_mem_of_plain
    {name : Text}
    (hPlain : PlainItem name) :
    '\n' ∉ name := by
  intro hMem
  have hChar := hPlain.plain '\n' hMem
  revert hChar
  decide

------------------------------------------------------------
-- Commands
------------------------------------------------------------

/-
  The commands of the recipes. `rmListed` is `rm -f` as
  `xargs` runs it, and `copyRootfs` what `rsync` does with
  one name that a `rootfs` rule passes to it.
-/
inductive BuildAct where
| write (path : Path) (text : Text)
| mkdir (path : Path)
| putDir (path : Path)
| rm (path : Path)
| rmListed (path : Path)
| rmdir (path : Path)
| mv (source target : Path)
| copyRootfs (p : Package) (path : Path)
    (node : FileNode Text)
deriving DecidableEq

/- What a command does. -/
def BuildAct.apply (dir : BuildDir) : BuildAct → BuildDir
| .write path text => dir.write path text
| .mkdir path => dir.mkdir path
| .putDir path => dir.putDir path
| .rm path => dir.remove path
| .rmListed path => dir.remove path
| .rmdir path => dir.removeDir path
| .mv source target => dir.move source target
| .copyRootfs _ path (.file text) =>
    dir.write (rootfsName :: path) text
| .copyRootfs _ path .dir => dir.putDir (rootfsName :: path)

/- A recipe, or a part of one. -/
abbrev BuildScript :=
  Script BuildDir BuildAct

namespace BuildScript

/- One command with fixed arguments. -/
def command (act : BuildAct) : BuildScript :=
  Script.act (fun _ => act)

/- Commands after one another. -/
def block (scripts : List BuildScript) : BuildScript :=
  Script.block BuildAct.apply scripts

/- A loop over what is read when it starts. -/
def each
    {B : Type}
    (items : BuildDir → List B)
    (body : B → BuildScript) : BuildScript :=
  Script.each BuildAct.apply items body

end BuildScript

namespace BuildDir

/- `cat path 2> /dev/null`. -/
def cat (dir : BuildDir) (path : Path) : Text :=
  (dir.read path).getD []

/- Where a shell is after `cd name`, which may fail. -/
def enter
    (dir : BuildDir)
    (base : Path)
    (name : Text) : Path :=
  if dir.isDir (base ++ [name]) then base ++ [name] else base

/- The items that `xargs` reads from some lists. -/
def listedItems
    (dir : BuildDir)
    (lists : List Path) : List Text :=
  xargsItems isBlank (lists.flatMap dir.cat)

end BuildDir

/- `cat lists | { cd name; xargs -r rm -f; }`. -/
def removeListed
    (base : Path)
    (name : Text)
    (lists : List Path) : BuildScript :=
  BuildScript.each
    (fun dir => (dir.listedItems lists).map (fun item =>
      dir.enter base name ++ pathOf item))
    (fun path => BuildScript.command (.rmListed path))

/- `cat lists | { cd name; xargs -r rmdir ...; }`. -/
def removeListedDirs
    (base : Path)
    (name : Text)
    (lists : List Path) : BuildScript :=
  BuildScript.each
    (fun dir => (dir.listedItems lists).map (fun item =>
      dir.enter base name ++ pathOf item))
    (fun path => BuildScript.command (.rmdir path))

/- The four loops that take lists out of both trees. -/
def removeFromTrees
    (base : Path)
    (filelists dirlists : List Path) : BuildScript :=
  BuildScript.block
    [removeListed base stagingName filelists,
      removeListed base rootfsName filelists,
      removeListedDirs base stagingName dirlists,
      removeListedDirs base rootfsName dirlists]

end Mkrootfs
