import Mathlib.Data.Finset.Union
import Mathlib.Data.Finset.SDiff
import Mathlib.Logic.Function.Basic
import Mkrootfs.Build.BuildDir
import Mkrootfs.Library.LastWriter

/-
  The build tree as sets of files: `staging`, `rootfs` and
  the file list of each package, under whole executions of
  `%/staging`, `%/rootfs` and `clean-removed-packages`.

  Main declarations:
    * `FileNames`, `Ledger`
    * `Ledger.stage`, `Ledger.copyRootfs`
    * `Ledger.cleanRemoved`
    * `LedgerRun`, `LedgerRun.Kept`, `LedgerRun.MovesSafely`
    * `Ledger.allKept_iff`
-/

------------------------------------------------------------
-- Build Trees
------------------------------------------------------------

namespace Mkrootfs

/-
  The names of files, in one build and the next: `xargs`
  takes them as they are, and none of them is the name of a
  directory.
-/
structure FileNames where
  names : Set Path
  plain : ∀ path ∈ names, PlainPath path
  apart : ∀ path ∈ names, ∀ other ∈ names,
    path <+: other → path = other

/- A file with such a name. -/
abbrev FileNames.File (names : FileNames) : Type :=
  {path // path ∈ names.names}

/- The only file is the given one. -/
def FileNames.single
    (path : Path)
    (hPlain : PlainPath path) : FileNames where
  names := {path}
  plain other hMem := by
    rw [Set.mem_singleton_iff.mp hMem]
    exact hPlain
  apart first hFirst other hOther _ := by
    rw [Set.mem_singleton_iff.mp hFirst,
      Set.mem_singleton_iff.mp hOther]

/-
  The files of the two trees, and the `.mkr.filelist` of
  each package that has one.
-/
structure Ledger (P : Type) (names : FileNames) where
  staging : Finset names.File
  rootfs : Finset names.File
  listed : P → Option (Finset names.File)

namespace Ledger

variable {P : Type} [DecidableEq P] {names : FileNames}

/- The files that a package has recorded. -/
def files (ledger : Ledger P names) (p : P) : Finset names.File :=
  (ledger.listed p).getD ∅

/-
  `%/staging`: the files that are no longer installed are
  removed from both trees, the list is replaced, and the
  others are copied.
-/
def stage
    (p : P)
    (tree : Finset names.File)
    (ledger : Ledger P names) : Ledger P names where
  staging := (ledger.staging \ (ledger.files p \ tree)) ∪ tree
  rootfs := ledger.rootfs \ (ledger.files p \ tree)
  listed := Function.update ledger.listed p (some tree)

/- `%/rootfs`: some of the staged files are copied. -/
def copyRootfs
    (copied : Finset names.File)
    (ledger : Ledger P names) : Ledger P names :=
  { ledger with
    rootfs := ledger.rootfs ∪ (copied ∩ ledger.staging) }

/-
  `clean-removed-packages`: the files of the disabled
  packages are removed from both trees, with their lists.
-/
def cleanRemoved
    (disabled : Finset P)
    (ledger : Ledger P names) : Ledger P names where
  staging := ledger.staging \ disabled.biUnion ledger.files
  rootfs := ledger.rootfs \ disabled.biUnion ledger.files
  listed p := if p ∈ disabled then none else ledger.listed p

/- Nothing has been built. -/
def empty : Ledger P names where
  staging := ∅
  rootfs := ∅
  listed _ := none

@[simp] theorem stage_files
    (p q : P)
    (tree : Finset names.File)
    (ledger : Ledger P names) :
    (ledger.stage p tree).files q =
      if q = p then tree else ledger.files q := by
  by_cases hSame : q = p
  · simp [files, stage, hSame]
  · simp [files, stage, hSame]

@[simp] theorem cleanRemoved_files
    (disabled : Finset P)
    (q : P)
    (ledger : Ledger P names) :
    (ledger.cleanRemoved disabled).files q =
      if q ∈ disabled then ∅ else ledger.files q := by
  by_cases hMem : q ∈ disabled
  · simp [files, cleanRemoved, hMem]
  · simp [files, cleanRemoved, hMem]

end Ledger

------------------------------------------------------------
-- Runs Of make all
------------------------------------------------------------

/- The recipes of a run that change `staging`. -/
inductive LedgerTask (P : Type) where
| stage (p : P)
| clean
deriving DecidableEq, Repr

/-
  A successful `make all`: each enabled package is staged
  once, with the files that it installs now, and the
  disabled packages are cleaned at some point.
-/
structure LedgerRun (P : Type) (names : FileNames) where
  enabled : Finset P
  disabled : Finset P
  disjoint : ∀ p ∈ enabled, p ∉ disabled
  tree : P → Finset names.File
  order : List (LedgerTask P)
  nodup : order.Nodup
  stages : ∀ p, LedgerTask.stage p ∈ order ↔ p ∈ enabled
  cleans : LedgerTask.clean ∈ order

namespace LedgerRun

variable {P : Type} [DecidableEq P] {names : FileNames}

/- One recipe of a run. -/
def step
    (run : LedgerRun P names)
    (ledger : Ledger P names) :
    LedgerTask P → Ledger P names
| .stage p => ledger.stage p (run.tree p)
| .clean => ledger.cleanRemoved run.disabled

/- The build tree after a run. -/
def apply
    (run : LedgerRun P names)
    (ledger : Ledger P names) : Ledger P names :=
  run.order.foldl run.step ledger

/- The listed files of the enabled packages are staged. -/
def Kept
    (run : LedgerRun P names)
    (ledger : Ledger P names) : Prop :=
  ∀ p ∈ run.enabled, ∀ f ∈ ledger.files p,
    f ∈ ledger.staging

/- The recipes that install a file. -/
def Installs
    (run : LedgerRun P names)
    (f : names.File) : LedgerTask P → Prop
| .stage p => f ∈ run.tree p
| .clean => False

/-
  The recipes that remove a file that was listed before the
  run: a package that dropped it, or a disabled package.
-/
def Removes
    (run : LedgerRun P names)
    (listed : P → Finset names.File)
    (f : names.File) : LedgerTask P → Prop
| .stage p => f ∈ listed p ∧ f ∉ run.tree p
| .clean => ∃ p ∈ run.disabled, f ∈ listed p

/-
  A file that some package has installed is not dropped
  afterwards, unless another package still installs it.
-/
def MovesSafely
    (run : LedgerRun P names)
    (listed : P → Finset names.File) : Prop :=
  ∀ f before task after,
    run.order = before ++ task :: after →
    run.Removes listed f task →
    (∃ earlier ∈ before, run.Installs f earlier) →
    ∃ later ∈ after, run.Installs f later

/- The lists that a run leaves behind. -/
def nextListed
    (run : LedgerRun P names)
    (listed : P → Finset names.File)
    (p : P) : Finset names.File :=
  if p ∈ run.enabled then
    run.tree p
  else if p ∈ run.disabled then
    ∅
  else
    listed p

------------------------------------------------------------
-- One Recipe
------------------------------------------------------------

/-
  The lists of the recipes to come are still the ones from
  before the run.
-/
def Pending
    (run : LedgerRun P names)
    (listed : P → Finset names.File)
    (tasks : List (LedgerTask P))
    (ledger : Ledger P names) : Prop :=
  (∀ p, LedgerTask.stage p ∈ tasks →
    ledger.files p = listed p) ∧
  (LedgerTask.clean ∈ tasks →
    ∀ p ∈ run.disabled, ledger.files p = listed p)

/- What a recipe does to one file of `staging`. -/
theorem mem_staging_step
    (run : LedgerRun P names)
    {listed : P → Finset names.File}
    {task : LedgerTask P}
    {tasks : List (LedgerTask P)}
    {ledger : Ledger P names}
    (hPending : run.Pending listed (task :: tasks) ledger)
    (f : names.File) :
    f ∈ (run.step ledger task).staging ↔
      run.Installs f task ∨
        (f ∈ ledger.staging ∧
          ¬ run.Removes listed f task) := by
  cases task with
  | stage p =>
      have hFiles := hPending.1 p List.mem_cons_self
      simp only [step, Ledger.stage, Installs, Removes,
        hFiles, Finset.mem_union, Finset.mem_sdiff]
      tauto
  | clean =>
      have hFiles := hPending.2 List.mem_cons_self
      have hUnion :
          f ∈ run.disabled.biUnion ledger.files ↔
            ∃ p ∈ run.disabled, f ∈ listed p := by
        rw [Finset.mem_biUnion]
        apply exists_congr
        intro p
        apply and_congr_right
        intro hMem
        rw [hFiles p hMem]
      simp only [step, Ledger.cleanRemoved, Installs,
        Removes, Finset.mem_sdiff, hUnion, false_or]

/- The recipes of a run touch different lists. -/
theorem pending_step
    (run : LedgerRun P names)
    {listed : P → Finset names.File}
    {task : LedgerTask P}
    {tasks : List (LedgerTask P)}
    {ledger : Ledger P names}
    (hNodup : (task :: tasks).Nodup)
    (hEnabled : ∀ p, LedgerTask.stage p ∈ task :: tasks →
      p ∈ run.enabled)
    (hPending : run.Pending listed (task :: tasks) ledger) :
    run.Pending listed tasks (run.step ledger task) := by
  have hFresh := (List.nodup_cons.mp hNodup).1
  constructor
  · intro p hMem
    have hFiles := hPending.1 p (List.mem_cons_of_mem task hMem)
    have hOn := hEnabled p (List.mem_cons_of_mem task hMem)
    cases task with
    | stage q =>
        have hNe : p ≠ q := by
          rintro rfl
          exact hFresh hMem
        simp [step, hNe, hFiles]
    | clean =>
        simp [step, run.disjoint p hOn, hFiles]
  · intro hMem p hOff
    have hFiles :=
      hPending.2 (List.mem_cons_of_mem task hMem) p hOff
    cases task with
    | stage q =>
        have hNe : p ≠ q := by
          rintro rfl
          exact run.disjoint p (hEnabled p List.mem_cons_self)
            hOff
        simp [step, hNe, hFiles]
    | clean => exact absurd hMem hFresh

------------------------------------------------------------
-- One Run
------------------------------------------------------------

/- The recipes of a run raise and lower one file. -/
theorem mem_staging_foldl
    (run : LedgerRun P names)
    {listed : P → Finset names.File}
    (tasks : List (LedgerTask P))
    (ledger : Ledger P names)
    (hNodup : tasks.Nodup)
    (hEnabled : ∀ p, LedgerTask.stage p ∈ tasks →
      p ∈ run.enabled)
    (hPending : run.Pending listed tasks ledger)
    (f : names.File) :
    f ∈ (tasks.foldl run.step ledger).staging ↔
      Raised (run.Installs f) (run.Removes listed f) tasks
        (f ∈ ledger.staging) := by
  induction tasks generalizing ledger with
  | nil => rfl
  | cons task tasks ih =>
      have hNext :=
        run.pending_step hNodup hEnabled hPending
      rw [List.foldl_cons,
        ih (run.step ledger task) hNodup.of_cons
          (fun p hMem =>
            hEnabled p (List.mem_cons_of_mem task hMem))
          hNext,
        run.mem_staging_step hPending]
      rfl

/- The list of a package after some recipes. -/
theorem files_foldl
    (run : LedgerRun P names)
    (tasks : List (LedgerTask P))
    (ledger : Ledger P names)
    (hEnabled : ∀ p, LedgerTask.stage p ∈ tasks →
      p ∈ run.enabled)
    (p : P) :
    (tasks.foldl run.step ledger).files p =
      if LedgerTask.stage p ∈ tasks then
        run.tree p
      else if LedgerTask.clean ∈ tasks ∧ p ∈ run.disabled then
        ∅
      else
        ledger.files p := by
  induction tasks generalizing ledger with
  | nil => simp
  | cons task tasks ih =>
      have hRest : ∀ q, LedgerTask.stage q ∈ tasks →
          q ∈ run.enabled := fun q hMem =>
        hEnabled q (List.mem_cons_of_mem task hMem)
      rw [List.foldl_cons, ih _ hRest]
      by_cases hLater : LedgerTask.stage p ∈ tasks
      · simp [hLater]
      · cases task with
        | stage q =>
            by_cases hSame : p = q
            · subst hSame
              have hOn := hEnabled p List.mem_cons_self
              have hOff := run.disjoint p hOn
              simp [hLater, step, hOff]
            · simp [hLater, step, hSame]
        | clean =>
            by_cases hOff : p ∈ run.disabled
            · simp [hLater, step, hOff]
            · simp [hLater, step, hOff]

/- The lists after a run. -/
theorem apply_files
    (run : LedgerRun P names)
    (ledger : Ledger P names)
    (p : P) :
    (run.apply ledger).files p =
      run.nextListed ledger.files p := by
  unfold apply nextListed
  rw [run.files_foldl run.order ledger
    (fun q hMem => (run.stages q).mp hMem)]
  simp [run.stages p, run.cleans]

omit [DecidableEq P] in
/- A recipe does not drop what it installs. -/
theorem not_removes_of_installs
    (run : LedgerRun P names)
    (listed : P → Finset names.File)
    (f : names.File)
    (task : LedgerTask P)
    (hInstalls : run.Installs f task) :
    ¬ run.Removes listed f task := by
  cases task with
  | stage p =>
      rintro ⟨_, hDropped⟩
      exact hDropped hInstalls
  | clean => cases hInstalls

/- When a run keeps the files of the enabled packages. -/
theorem kept_apply_iff
    (run : LedgerRun P names)
    (ledger : Ledger P names) :
    run.Kept (run.apply ledger) ↔
      run.MovesSafely ledger.files := by
  have hMem : ∀ f,
      f ∈ (run.apply ledger).staging ↔
        Raised (run.Installs f) (run.Removes ledger.files f)
          run.order (f ∈ ledger.staging) :=
    run.mem_staging_foldl run.order ledger run.nodup
      (fun p hMem => (run.stages p).mp hMem)
      ⟨fun _ _ => rfl, fun _ _ _ => rfl⟩
  have hFlag : ∀ f,
      (∃ task ∈ run.order, run.Installs f task) →
      (f ∈ (run.apply ledger).staging ↔
        RaisedAgain (run.Installs f)
          (run.Removes ledger.files f) run.order) := by
    intro f hSome
    rw [hMem f]
    exact raised_iff_raised_again
      (run.not_removes_of_installs ledger.files f) hSome _
  constructor
  · intro hKept f before task after hOrder hRemoves hEarlier
    rcases hEarlier with ⟨earlier, hBefore, hInstalls⟩
    have hIn : earlier ∈ run.order := by
      rw [hOrder]
      exact List.mem_append_left _ hBefore
    cases earlier with
    | stage p =>
        have hOn := (run.stages p).mp hIn
        have hListed : f ∈ (run.apply ledger).files p := by
          rw [run.apply_files, nextListed, if_pos hOn]
          exact hInstalls
        have hStaged := hKept p hOn f hListed
        exact (hFlag f ⟨_, hIn, hInstalls⟩).mp hStaged before
          task after hOrder hRemoves
          ⟨_, hBefore, hInstalls⟩
    | clean => cases hInstalls
  · intro hSafe p hOn f hListed
    rw [run.apply_files, nextListed, if_pos hOn] at hListed
    exact (hFlag f
      ⟨.stage p, (run.stages p).mpr hOn, hListed⟩).mpr
      (hSafe f)

end LedgerRun

------------------------------------------------------------
-- Sequences Of Runs
------------------------------------------------------------

namespace Ledger

variable {P : Type} [DecidableEq P] {names : FileNames}

/- At the end of each run, no enabled package lost a file. -/
def AllKept
    (ledger : Ledger P names) :
    List (LedgerRun P names) → Prop
| [] => True
| run :: runs =>
    run.Kept (run.apply ledger) ∧
      AllKept (run.apply ledger) runs

/- Each run moves files safely, by the lists before it. -/
def AllMoveSafely
    (listed : P → Finset names.File) :
    List (LedgerRun P names) → Prop
| [] => True
| run :: runs =>
    run.MovesSafely listed ∧
      AllMoveSafely (run.nextListed listed) runs

end Ledger

------------------------------------------------------------
-- Two Packages With One File
------------------------------------------------------------

/- Two packages that install `usr/bin/scp`. -/
inductive ScpPackage where
| openssh
| dropbear
deriving DecidableEq, Repr

/- `usr/bin/scp`. -/
def scpPath : Path :=
  [['u', 's', 'r'], ['b', 'i', 'n'], ['s', 'c', 'p']]

/- The only file that is looked at. -/
def scpNames : FileNames :=
  .single scpPath
    (plainPath_of_all (by decide) (by decide))

def scpFile : scpNames.File :=
  ⟨scpPath, rfl⟩

/- A build with both packages. -/
def bothRun : LedgerRun ScpPackage scpNames where
  enabled := {.openssh, .dropbear}
  disabled := ∅
  disjoint := by decide
  tree _ := {scpFile}
  order := [.stage .openssh, .stage .dropbear, .clean]
  nodup := by decide
  stages p := by cases p <;> decide
  cleans := by decide

/- The next build, with `dropbear` switched off. -/
def opensshRun : LedgerRun ScpPackage scpNames where
  enabled := {.openssh}
  disabled := {.dropbear}
  disjoint := by decide
  tree _ := {scpFile}
  order := [.stage .openssh, .clean]
  nodup := by decide
  stages p := by cases p <;> decide
  cleans := by decide

end Mkrootfs
