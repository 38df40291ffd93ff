import Mkrootfs.Build.Accounted
import Mkrootfs.Library.ScriptRun
import Mkrootfs.Library.TreeRemoval

/-
  What the parts of the recipes do when they are not
  interrupted, and which paths they leave alone.

  Main declarations:
    * `BuildScript.run`
    * `BuildAct.Touches`, `Leaves`, `run_of_leaves`
    * `BuildDir.xargsPaths`
    * `run_removeListed`, `run_removeListedDirs`
    * `run_removeFromTrees`
-/

------------------------------------------------------------
-- Paths That Are Left Alone
------------------------------------------------------------

namespace Mkrootfs

open BuildScript (command block each)

/- The build directory after a recipe, or a part of one. -/
def BuildScript.run
    (script : BuildScript)
    (dir : BuildDir) : BuildDir :=
  Script.run BuildAct.apply script dir

theorem stopped_command
    (act : BuildAct)
    (dir : BuildDir) :
    (command act dir).stopped = false := rfl

theorem run_command
    (act : BuildAct)
    (dir : BuildDir) :
    (command act).run dir = BuildAct.apply dir act := rfl

theorem run_act
    (act : BuildDir → BuildAct)
    (dir : BuildDir) :
    BuildScript.run (Script.act act) dir =
      BuildAct.apply dir (act dir) := rfl

@[simp] theorem run_block_nil (dir : BuildDir) :
    (block []).run dir = dir := rfl

theorem run_block_cons
    {script : BuildScript}
    (scripts : List BuildScript)
    {dir : BuildDir}
    (hNot : (script dir).stopped = false) :
    (block (script :: scripts)).run dir =
      (block scripts).run (script.run dir) :=
  Script.run_seq_of_not_stopped _ hNot

theorem stopped_each_command
    {B : Type}
    (items : BuildDir → List B)
    (act : B → BuildAct)
    (dir : BuildDir) :
    (each items (fun item => command (act item))
      dir).stopped = false :=
  Script.stopped_each (fun _ _ _ => rfl)

theorem run_each_command
    {B : Type}
    (items : BuildDir → List B)
    (act : B → BuildAct)
    (dir : BuildDir) :
    (each items (fun item => command (act item))).run dir =
      (items dir).foldl
        (fun current item =>
          BuildAct.apply current (act item))
        dir :=
  Script.run_each_act items act dir

/- The paths that a command may change. -/
def BuildAct.Touches (path : Path) : BuildAct → Prop
| .write other _ => other = path
| .mkdir other => other = path
| .putDir other => other = path
| .rm other => other = path
| .rmListed other => other = path
| .rmdir other => other = path
| .mv source target => source = path ∨ target = path
| .copyRootfs _ other _ => rootfsName :: other = path

theorem lookup_apply_of_not_touches
    {act : BuildAct}
    {path : Path}
    (hTouches : ¬ act.Touches path)
    (dir : BuildDir) :
    (BuildAct.apply dir act).lookup path =
      dir.lookup path := by
  cases act with
  | write other text =>
      exact dir.lookup_write_of_ne text
        (fun h => hTouches h.symm)
  | mkdir other =>
      exact dir.lookup_mkdir_of_ne (fun h => hTouches h.symm)
  | putDir other =>
      exact AList.lookup_insert_ne (fun h => hTouches h.symm)
  | rm other =>
      have hNe : path ≠ other := fun h => hTouches h.symm
      simp only [BuildAct.apply]
      rw [FileTree.lookup_remove, if_neg (fun h => hNe h.1)]
  | rmListed other =>
      have hNe : path ≠ other := fun h => hTouches h.symm
      simp only [BuildAct.apply]
      rw [FileTree.lookup_remove, if_neg (fun h => hNe h.1)]
  | rmdir other =>
      have hNe : path ≠ other := fun h => hTouches h.symm
      simp only [BuildAct.apply]
      rw [FileTree.lookup_removeDir, if_neg (fun h => hNe h.1)]
  | mv source target =>
      exact dir.lookup_move_of_ne
        (fun h => hTouches (Or.inl h.symm))
        (fun h => hTouches (Or.inr h.symm))
  | copyRootfs p other node =>
      have hNe : path ≠ rootfsName :: other :=
        fun h => hTouches h.symm
      cases node with
      | dir => exact AList.lookup_insert_ne hNe
      | file text => exact dir.lookup_write_of_ne text hNe

/- A script that never changes some paths. -/
def Leaves
    (paths : Path → Prop)
    (script : BuildScript) : Prop :=
  Script.Only
    (fun act => ∀ path, paths path → ¬ act.Touches path)
    script

theorem leaves_command
    {paths : Path → Prop}
    {act : BuildAct}
    (hAct : ∀ path, paths path → ¬ act.Touches path) :
    Leaves paths (command act) :=
  Script.only_act (fun _ => hAct)

theorem leaves_block
    {paths : Path → Prop}
    {scripts : List BuildScript}
    (hScripts : ∀ script ∈ scripts, Leaves paths script) :
    Leaves paths (block scripts) :=
  Script.only_block hScripts

theorem leaves_each
    {B : Type}
    {paths : Path → Prop}
    {items : BuildDir → List B}
    {body : B → BuildScript}
    (hBody : ∀ item, Leaves paths (body item)) :
    Leaves paths (each items body) :=
  Script.only_each hBody

theorem run_of_leaves
    {paths : Path → Prop}
    {script : BuildScript}
    (hLeaves : Leaves paths script)
    {path : Path}
    (hPath : paths path)
    (dir : BuildDir) :
    (script.run dir).lookup path = dir.lookup path :=
  Script.run_of_only
    (fun dir : BuildDir => dir.lookup path)
    (fun state _ hAct =>
      lookup_apply_of_not_touches (hAct path hPath) state)
    hLeaves dir

/- The same for what is read, or is a directory. -/
theorem read_run_of_leaves
    {paths : Path → Prop}
    {script : BuildScript}
    (hLeaves : Leaves paths script)
    {path : Path}
    (hPath : paths path)
    (dir : BuildDir) :
    (script.run dir).read path = dir.read path := by
  unfold FileTree.read
  rw [run_of_leaves hLeaves hPath]

------------------------------------------------------------
-- Loops Over Lists
------------------------------------------------------------

/- The paths that `xargs` passes on behind a `cd`. -/
def BuildDir.xargsPaths
    (dir : BuildDir)
    (base : Path)
    (name : Text)
    (lists : List Path) : List Path :=
  (dir.listedItems lists).map (fun item =>
    dir.enter base name ++ pathOf item)

theorem run_removeListed
    (base : Path)
    (name : Text)
    (lists : List Path)
    (dir : BuildDir) :
    (removeListed base name lists).run dir =
      dir.removeAll (dir.xargsPaths base name lists) :=
  run_each_command
    (fun dir => dir.xargsPaths base name lists)
    BuildAct.rmListed dir

theorem run_removeListedDirs
    (base : Path)
    (name : Text)
    (lists : List Path)
    (dir : BuildDir) :
    (removeListedDirs base name lists).run dir =
      dir.removeDirs (dir.xargsPaths base name lists) :=
  run_each_command
    (fun dir => dir.xargsPaths base name lists)
    BuildAct.rmdir dir

/- Neither loop stops. -/
theorem stopped_removeListed
    (base : Path)
    (name : Text)
    (lists : List Path)
    (dir : BuildDir) :
    (removeListed base name lists dir).stopped = false :=
  Script.stopped_each (fun _ _ _ => rfl)

theorem stopped_removeListedDirs
    (base : Path)
    (name : Text)
    (lists : List Path)
    (dir : BuildDir) :
    (removeListedDirs base name lists dir).stopped = false :=
  Script.stopped_each (fun _ _ _ => rfl)

theorem stopped_removeFromTrees
    (base : Path)
    (filelists dirlists : List Path)
    (dir : BuildDir) :
    (removeFromTrees base filelists dirlists dir).stopped =
      false := by
  apply Script.stopped_block
  intro script hMem state
  simp only [List.mem_cons, List.not_mem_nil, or_false]
    at hMem
  rcases hMem with rfl | rfl | rfl | rfl
  · exact stopped_removeListed _ _ _ _
  · exact stopped_removeListed _ _ _ _
  · exact stopped_removeListedDirs _ _ _ _
  · exact stopped_removeListedDirs _ _ _ _

/- All four loops, one after the other. -/
theorem run_removeFromTrees
    (base : Path)
    (filelists dirlists : List Path)
    (dir : BuildDir) :
    (removeFromTrees base filelists dirlists).run dir =
      (removeListedDirs base rootfsName dirlists).run
        ((removeListedDirs base stagingName dirlists).run
          ((removeListed base rootfsName filelists).run
            ((removeListed base stagingName filelists).run
              dir))) := by
  unfold removeFromTrees
  rw [run_block_cons _ (stopped_removeListed _ _ _ _),
    run_block_cons _ (stopped_removeListed _ _ _ _),
    run_block_cons _ (stopped_removeListedDirs _ _ _ _),
    run_block_cons _ (stopped_removeListedDirs _ _ _ _),
    run_block_nil]

/- The files that are left after all of them. -/
theorem read_run_removeFromTrees
    (base : Path)
    (filelists dirlists : List Path)
    (dir : BuildDir)
    (path : Path) :
    ((removeFromTrees base filelists dirlists).run dir).read
        path =
      let cleaned := (removeListed base stagingName
        filelists).run dir
      if path ∈ dir.xargsPaths base stagingName filelists ∨
          path ∈ cleaned.xargsPaths base rootfsName
            filelists then
        none
      else
        dir.read path := by
  rw [run_removeFromTrees, run_removeListedDirs,
    FileTree.read_removeDirs, run_removeListedDirs,
    FileTree.read_removeDirs, run_removeListed,
    FileTree.read_removeAll, run_removeListed,
    FileTree.read_removeAll]
  by_cases hRootfs : path ∈
      BuildDir.xargsPaths
        (FileTree.removeAll
          (dir.xargsPaths base stagingName filelists) dir)
        base rootfsName filelists
  · simp [hRootfs]
  · simp [hRootfs]

end Mkrootfs
