import Mkrootfs.Kconfig.AutoConf

/-
  `conf_write_autoconf` when file operations fail: which of
  the failures keep the new `auto.conf` back.

  What the loops print, and which files of single options
  are opened, is given: the texts and the paths of one
  configuration.

  Main declarations:
    * `ConfOutcomes`, `ConfOutputs`
    * `fileWriteDep`, `openChanged`, `writeAutoconf`
    * `CommitVouches`
    * `commitVouches_iff`
-/

------------------------------------------------------------
-- Operations And Their Outcomes
------------------------------------------------------------

namespace Mkrootfs

/- How the first `open` of an option's file ends. -/
inductive OpenEnd
| opened
| missing
| failed
deriving DecidableEq, Repr

/-
  The operations for one option's file: the first `open`,
  `stat` or else `mkdir` for each directory above it, and the
  second `open`.
-/
structure TouchOutcome where
  first : OpenEnd
  stat : Text → Bool
  mkdir : Text → Bool
  second : Bool

/-
  Whether each operation of one call succeeds.  A text that
  cannot be written to its end is cut off somewhere.
-/
structure ConfOutcomes where
  openDep : Bool
  depCut : Option Nat
  renameDep : Bool
  enter : Bool
  touch : Text → TouchOutcome
  leave : Bool
  openConf : Bool
  openTristate : Bool
  confCut : Option Nat
  tristateCut : Option Nat
  renameTristate : Bool
  renameConf : Bool

/-
  What one configuration prints, and the options it changes:
  the ones that differ from the old `auto.conf`, or from
  nothing where it cannot be read.
-/
structure ConfTexts where
  dep : Text
  conf : Text
  tristate : Text
  changed : List Text

/- The files that are replaced, and the options touched. -/
structure ConfOutputs where
  autoConfCmd : Option Text
  touched : List Text
  tristateConf : Option Text
  autoConf : Option Text
deriving DecidableEq

/- What a stream leaves in its file. -/
def writtenText (text : Text) : Option Nat → Text
| none => text
| some room => text.take room

/-
  `file_write_dep("include/config/auto.conf.cmd")`, with the
  number that it returns.
-/
def fileWriteDep
    (ops : ConfOutcomes)
    (texts : ConfTexts)
    (outputs : ConfOutputs) : Nat × ConfOutputs :=
  if !ops.openDep then
    (1, outputs)
  else
    -- `fclose` and `rename` are not looked at
    (0,
      if ops.renameDep then
        { outputs with
          autoConfCmd :=
            some (writtenText texts.dep ops.depCut) }
      else
        outputs)

/- The directories above a file. -/
def pathDirs : Text → List Text
| [] => []
| c :: rest =>
    let below := (pathDirs rest).map (fun dir => c :: dir)
    if c = '/' then [] :: below else below

/- Whether the file of one option is opened. -/
def TouchOutcome.opens
    (ops : TouchOutcome)
    (path : Text) : Bool :=
  match ops.first with
  | .opened => true
  | .failed => false
  | .missing =>
      (pathDirs path).all
        (fun dir => ops.stat dir || ops.mkdir dir) &&
      ops.second

/- The loop of `conf_split_config`: the files, and `res`. -/
def openChanged
    (ops : ConfOutcomes) :
    List Text →
    List Text × Nat
| [] => ([], 0)
| path :: paths =>
    if (ops.touch path).opens path then
      let (touched, res) := openChanged ops paths
      (path :: touched, res)
    else
      ([], 1)

/- `conf_split_config`. -/
def splitConfig
    (ops : ConfOutcomes)
    (texts : ConfTexts)
    (outputs : ConfOutputs) : Nat × ConfOutputs :=
  if !ops.enter then
    (1, outputs)
  else
    let (touched, res) := openChanged ops texts.changed
    let outputs :=
      { outputs with touched := outputs.touched ++ touched }
    if !ops.leave then (1, outputs) else (res, outputs)

/- `conf_write_autoconf`. -/
def writeAutoconf
    (ops : ConfOutcomes)
    (texts : ConfTexts)
    (outputs : ConfOutputs) : Nat × ConfOutputs :=
  -- the result of `file_write_dep` is dropped
  let outputs := (fileWriteDep ops texts outputs).2
  let (split, outputs) := splitConfig ops texts outputs
  if split ≠ 0 then
    (1, outputs)
  else if !ops.openConf then
    (1, outputs)
  else if !ops.openTristate then
    (1, outputs)
  else if !ops.renameTristate then
    (1, outputs)
  else
    let outputs :=
      { outputs with
        tristateConf :=
          some (writtenText texts.tristate ops.tristateCut) }
    if !ops.renameConf then
      (1, outputs)
    else
      (0,
        { outputs with
          autoConf :=
            some (writtenText texts.conf ops.confCut) })

------------------------------------------------------------
-- Commits
------------------------------------------------------------

/- Before the call: nothing of this configuration is there. -/
def noOutputs : ConfOutputs where
  autoConfCmd := none
  touched := []
  tristateConf := none
  autoConf := none

/- All operations before the last `rename` have succeeded. -/
structure OthersSucceed
    (ops : ConfOutcomes)
    (texts : ConfTexts) : Prop where
  openDep : ops.openDep = true
  writeDep : ops.depCut = none
  renameDep : ops.renameDep = true
  enter : ops.enter = true
  touch : ∀ path ∈ texts.changed,
    (ops.touch path).opens path = true
  leave : ops.leave = true
  openConf : ops.openConf = true
  openTristate : ops.openTristate = true
  writeConf : ops.confCut = none
  writeTristate : ops.tristateCut = none
  renameTristate : ops.renameTristate = true

/- The new `auto.conf` stands for all that it depends on. -/
structure CommitVouches
    (ops : ConfOutcomes)
    (texts : ConfTexts) : Prop where
  othersSucceed :
    (writeAutoconf ops texts noOutputs).2.autoConf ≠ none →
      OthersSucceed ops texts
  cmd :
    (writeAutoconf ops texts noOutputs).2.autoConf ≠ none →
      (writeAutoconf ops texts noOutputs).2.autoConfCmd =
        some texts.dep
  touched :
    (writeAutoconf ops texts noOutputs).2.autoConf ≠ none →
      ∀ path ∈ texts.changed,
        path ∈ (writeAutoconf ops texts noOutputs).2.touched

/- The operations whose failure ends the function. -/
structure CheckedSucceed
    (ops : ConfOutcomes)
    (texts : ConfTexts) : Prop where
  enter : ops.enter = true
  touch : ∀ path ∈ texts.changed,
    (ops.touch path).opens path = true
  leave : ops.leave = true
  openConf : ops.openConf = true
  openTristate : ops.openTristate = true
  renameTristate : ops.renameTristate = true
  renameConf : ops.renameConf = true

/- The operations whose failure nobody notices. -/
structure UncheckedSucceed (ops : ConfOutcomes) : Prop where
  openDep : ops.openDep = true
  writeDep : ops.depCut = none
  renameDep : ops.renameDep = true
  writeConf : ops.confCut = none
  writeTristate : ops.tristateCut = none

------------------------------------------------------------
-- Changed Options
------------------------------------------------------------

/- The loop ends well when every file can be opened. -/
theorem openChanged_eq_zero_iff
    (ops : ConfOutcomes)
    (paths : List Text) :
    (openChanged ops paths).2 = 0 ↔
      ∀ path ∈ paths,
        (ops.touch path).opens path = true := by
  induction paths with
  | nil => simp [openChanged]
  | cons path paths ih =>
      unfold openChanged
      split
      · next hOpens => simp [hOpens, ih]
      · next hOpens => simp [hOpens]

/- Then it has opened all of them. -/
theorem openChanged_touched
    {ops : ConfOutcomes}
    {paths : List Text}
    (hOpens : ∀ path ∈ paths,
      (ops.touch path).opens path = true) :
    (openChanged ops paths).1 = paths := by
  induction paths with
  | nil => rfl
  | cons path paths ih =>
      have hPath := hOpens path List.mem_cons_self
      have hRest := ih (fun other hMem =>
        hOpens other (List.mem_cons_of_mem path hMem))
      unfold openChanged
      rw [if_pos hPath]
      exact congrArg (fun touched => path :: touched) hRest

/- `conf_split_config` returns zero when nothing failed. -/
theorem splitConfig_eq_zero_iff
    (ops : ConfOutcomes)
    (texts : ConfTexts)
    (outputs : ConfOutputs) :
    (splitConfig ops texts outputs).1 = 0 ↔
      ops.enter = true ∧ ops.leave = true ∧
        ∀ path ∈ texts.changed,
          (ops.touch path).opens path = true := by
  rw [← openChanged_eq_zero_iff]
  unfold splitConfig
  cases ops.enter with
  | false => simp
  | true =>
      cases ops.leave with
      | false => simp
      | true => simp

------------------------------------------------------------
-- The Last Step
------------------------------------------------------------

theorem fileWriteDep_autoConf
    (ops : ConfOutcomes)
    (texts : ConfTexts)
    (outputs : ConfOutputs) :
    (fileWriteDep ops texts outputs).2.autoConf =
      outputs.autoConf := by
  unfold fileWriteDep
  split
  · rfl
  · split
    · rfl
    · rfl

theorem splitConfig_autoConf
    (ops : ConfOutcomes)
    (texts : ConfTexts)
    (outputs : ConfOutputs) :
    (splitConfig ops texts outputs).2.autoConf =
      outputs.autoConf := by
  unfold splitConfig
  split
  · rfl
  · dsimp only
    split
    · rfl
    · rfl

theorem splitConfig_autoConfCmd
    (ops : ConfOutcomes)
    (texts : ConfTexts)
    (outputs : ConfOutputs) :
    (splitConfig ops texts outputs).2.autoConfCmd =
      outputs.autoConfCmd := by
  unfold splitConfig
  split
  · rfl
  · dsimp only
    split
    · rfl
    · rfl

/- With all checked operations done, the function ends. -/
theorem writeAutoconf_of_checked
    {ops : ConfOutcomes}
    {texts : ConfTexts}
    (hChecked : CheckedSucceed ops texts) :
    writeAutoconf ops texts noOutputs =
      (0,
        { (splitConfig ops texts
            (fileWriteDep ops texts noOutputs).2).2 with
          tristateConf :=
            some (writtenText texts.tristate
              ops.tristateCut)
          autoConf :=
            some (writtenText texts.conf ops.confCut) }) := by
  have hSplit := (splitConfig_eq_zero_iff ops texts
    (fileWriteDep ops texts noOutputs).2).mpr
      ⟨hChecked.enter, hChecked.leave, hChecked.touch⟩
  unfold writeAutoconf
  simp [hSplit, hChecked.openConf, hChecked.openTristate,
    hChecked.renameTristate, hChecked.renameConf]

/- Once a checked operation has failed nothing is replaced. -/
theorem autoConf_of_not_checked
    {ops : ConfOutcomes}
    {texts : ConfTexts}
    (hChecked : ¬ CheckedSucceed ops texts) :
    (writeAutoconf ops texts noOutputs).1 = 1 ∧
      (writeAutoconf ops texts noOutputs).2.autoConf =
        none := by
  have hKept : (splitConfig ops texts
        (fileWriteDep ops texts noOutputs).2).2.autoConf =
      none := by
    rw [splitConfig_autoConf, fileWriteDep_autoConf]
    rfl
  unfold writeAutoconf
  dsimp only
  split_ifs with hSplit hConf hTristate hRename hLast
  · exact ⟨rfl, hKept⟩
  · exact ⟨rfl, hKept⟩
  · exact ⟨rfl, hKept⟩
  · exact ⟨rfl, hKept⟩
  · exact ⟨rfl, hKept⟩
  · exfalso
    rw [not_not, splitConfig_eq_zero_iff] at hSplit
    simp only [Bool.not_eq_true', Bool.not_eq_false]
      at hConf hTristate hRename hLast
    exact hChecked ⟨hSplit.1, hSplit.2.2, hSplit.2.1, hConf,
      hTristate, hRename, hLast⟩

/- When `auto.conf` is replaced. -/
theorem autoConf_replaced_iff
    (ops : ConfOutcomes)
    (texts : ConfTexts) :
    (writeAutoconf ops texts noOutputs).2.autoConf ≠ none ↔
      CheckedSucceed ops texts := by
  by_cases hChecked : CheckedSucceed ops texts
  · rw [writeAutoconf_of_checked hChecked]
    simp [hChecked]
  · rw [(autoConf_of_not_checked hChecked).2]
    simp [hChecked]

/- What lies beside a new `auto.conf`. -/
theorem outputs_of_checked
    {ops : ConfOutcomes}
    {texts : ConfTexts}
    (hChecked : CheckedSucceed ops texts) :
    (writeAutoconf ops texts noOutputs).2.autoConfCmd =
        (fileWriteDep ops texts noOutputs).2.autoConfCmd ∧
      texts.changed ⊆
        (writeAutoconf ops texts noOutputs).2.touched := by
  rw [writeAutoconf_of_checked hChecked]
  refine ⟨splitConfig_autoConfCmd ops texts _, ?_⟩
  intro path hPath
  unfold splitConfig
  simp only [hChecked.enter, hChecked.leave, Bool.not_true,
    Bool.false_eq_true, if_false,
    openChanged_touched hChecked.touch]
  exact List.mem_append_right _ hPath

/-
  A new `auto.conf` vouches for everything before it exactly
  when no failure was overlooked: one that is looked at came
  first, or all operations that nobody looks at went well.
-/
theorem commitVouches_iff
    (ops : ConfOutcomes)
    (texts : ConfTexts) :
    CommitVouches ops texts ↔
      (CheckedSucceed ops texts → UncheckedSucceed ops) := by
  constructor
  · intro hVouches hChecked
    have hOthers := hVouches.othersSucceed
      ((autoConf_replaced_iff ops texts).mpr hChecked)
    exact ⟨hOthers.openDep, hOthers.writeDep,
      hOthers.renameDep, hOthers.writeConf,
      hOthers.writeTristate⟩
  · intro hUnchecked
    have hDone : (writeAutoconf ops texts
          noOutputs).2.autoConf ≠ none →
        CheckedSucceed ops texts ∧ UncheckedSucceed ops := by
      intro hReplaced
      have hChecked :=
        (autoConf_replaced_iff ops texts).mp hReplaced
      exact ⟨hChecked, hUnchecked hChecked⟩
    refine ⟨?_, ?_, ?_⟩
    · intro hReplaced
      rcases hDone hReplaced with ⟨hChecked, hRest⟩
      exact ⟨hRest.openDep, hRest.writeDep, hRest.renameDep,
        hChecked.enter, hChecked.touch, hChecked.leave,
        hChecked.openConf, hChecked.openTristate,
        hRest.writeConf, hRest.writeTristate,
        hChecked.renameTristate⟩
    · intro hReplaced
      rcases hDone hReplaced with ⟨hChecked, hRest⟩
      rw [(outputs_of_checked hChecked).1]
      simp [fileWriteDep, hRest.openDep, hRest.renameDep,
        hRest.writeDep, writtenText]
    · intro hReplaced path hPath
      exact (outputs_of_checked (hDone hReplaced).1).2 hPath

/- All goes well but the first `rename`. -/
def failedDepRename : ConfOutcomes where
  openDep := true
  depCut := none
  renameDep := false
  enter := true
  touch _ := ⟨.opened, fun _ => true, fun _ => true, true⟩
  leave := true
  openConf := true
  openTristate := true
  confCut := none
  tristateCut := none
  renameTristate := true
  renameConf := true

/- One changed option. -/
def oneChange : ConfTexts where
  dep := "packages += busybox\n".toList
  conf := "MKR_BUSYBOX=y\n".toList
  tristate := []
  changed := ["busybox.h".toList]

theorem failedDepRename_commits :
    writeAutoconf failedDepRename oneChange noOutputs =
        (0,
          { autoConfCmd := none
            touched := ["busybox.h".toList]
            tristateConf := some []
            autoConf := some "MKR_BUSYBOX=y\n".toList }) ∧
      ¬ CommitVouches failedDepRename oneChange := by
  have hRun : writeAutoconf failedDepRename oneChange
        noOutputs =
      (0,
        { autoConfCmd := none
          touched := ["busybox.h".toList]
          tristateConf := some []
          autoConf := some "MKR_BUSYBOX=y\n".toList }) := by
    decide
  refine ⟨hRun, ?_⟩
  intro hVouches
  have hOthers := hVouches.othersSucceed
    (by rw [hRun]; exact Option.some_ne_none _)
  exact Bool.false_ne_true hOthers.renameDep

end Mkrootfs
