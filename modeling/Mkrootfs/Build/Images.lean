import Mkrootfs.Build.Ledger
import Mkrootfs.Build.MakeGraph

/-
  What the image recipes find in the tree of a run of
  `make all`.

  Main declarations:
    * `MakeConfig.Build`, `MakeConfig.recipe`
    * `MakeConfig.ImagesClean`
    * `MakeConfig.Run.imagesClean_iff`
-/

------------------------------------------------------------
-- Recipes
------------------------------------------------------------

namespace Mkrootfs

namespace MakeConfig

variable {P : Type} [DecidableEq P] {names : FileNames}

/-
  What a run finds and does: the trees and lists of earlier
  builds, the files that packages install, and those that
  their `rootfs` rules copy.
-/
structure Build (P : Type) (names : FileNames) where
  earlier : Ledger P names
  tree : P → Finset names.File
  copied : P → Finset names.File

/- The recipes that change the trees. -/
def recipe
    (config : MakeConfig P)
    (build : Build P names)
    (ledger : Ledger P names) :
    MakeTarget P → Ledger P names
| .staging p => ledger.stage p (build.tree p)
| .rootfs p => ledger.copyRootfs (build.copied p)
| .cleanRemovedPackages =>
    ledger.cleanRemoved config.disPackages.toFinset
| _ => ledger

/- The trees after some recipes. -/
def execute
    (config : MakeConfig P)
    (build : Build P names)
    (targets : List (MakeTarget P)) : Ledger P names :=
  targets.foldl (config.recipe build) build.earlier

/- The recipes that read `$(rootfs-y)`. -/
def isImage : MakeTarget P → Bool
| .rootfsTar => true
| .initramfsCpio => true
| .nfsroot => true
| _ => false

/- `$(rootfs-y)` as a directory. -/
def imageTree
    (config : MakeConfig P)
    (ledger : Ledger P names) : Finset names.File :=
  if config.skipRootfs then ledger.staging else ledger.rootfs

/-
  A file that only disabled packages have listed: one of them
  before the run, and no enabled package now.
-/
def OnlyDisabled
    (config : MakeConfig P)
    (build : Build P names)
    (ledger : Ledger P names)
    (f : names.File) : Prop :=
  (∃ p ∈ config.disPackages, f ∈ build.earlier.files p) ∧
    ∀ p ∈ config.packages, f ∉ ledger.files p

/- No image recipe reads a file of disabled packages only. -/
def ImagesClean
    {config : MakeConfig P}
    (run : config.Run)
    (build : Build P names) : Prop :=
  ∀ before target after,
    run.order = before ++ target :: after →
    isImage target = true →
    ∀ f ∈ config.imageTree (config.execute build before),
      ¬ config.OnlyDisabled build
        (config.execute build before) f

/- The images come after `clean-removed-packages`. -/
def CleansFirst
    {config : MakeConfig P}
    (run : config.Run) : Prop :=
  ∀ before target after,
    run.order = before ++ target :: after →
    isImage target = true →
    MakeTarget.cleanRemovedPackages ∈ before

------------------------------------------------------------
-- After The Cleaning
------------------------------------------------------------

section Cleaned

variable {config : MakeConfig P} {build : Build P names}

/-
  The files of the trees that a disabled package listed
  before the run are listed by an enabled package.
-/
def Cleaned
    (config : MakeConfig P)
    (build : Build P names)
    (ledger : Ledger P names) : Prop :=
  ∀ f, (∃ p ∈ config.disPackages,
      f ∈ build.earlier.files p) →
    f ∈ ledger.staging ∨ f ∈ ledger.rootfs →
    ∃ p ∈ config.packages, f ∈ ledger.files p

/- Staging an enabled package keeps this. -/
theorem cleaned_stage
    {ledger : Ledger P names}
    {p : P}
    (tree : Finset names.File)
    (hEnabled : p ∈ config.packages)
    (hCleaned : Cleaned config build ledger) :
    Cleaned config build (ledger.stage p tree) := by
  intro f hListed hMem
  by_cases hTree : f ∈ tree
  · exact ⟨p, hEnabled, by simpa using hTree⟩
  · have hOld : (f ∈ ledger.staging ∨ f ∈ ledger.rootfs) ∧
        f ∉ ledger.files p := by
      simp only [Ledger.stage, Finset.mem_union,
        Finset.mem_sdiff, hTree] at hMem
      tauto
    rcases hCleaned f hListed hOld.1 with ⟨q, hOn, hFile⟩
    have hNe : q ≠ p := by
      rintro rfl
      exact hOld.2 hFile
    exact ⟨q, hOn, by simpa [hNe] using hFile⟩

/- The `rootfs` rules only copy staged files. -/
theorem cleaned_copyRootfs
    {ledger : Ledger P names}
    (copied : Finset names.File)
    (hCleaned : Cleaned config build ledger) :
    Cleaned config build (ledger.copyRootfs copied) := by
  intro f hListed hMem
  apply hCleaned f hListed
  simp only [Ledger.copyRootfs, Finset.mem_union,
    Finset.mem_inter] at hMem
  tauto

/- The recipe itself, while the lists are still there. -/
theorem cleaned_cleanRemoved
    {ledger : Ledger P names}
    (hLists : ∀ p ∈ config.disPackages,
      ledger.files p = build.earlier.files p) :
    Cleaned config build
      (ledger.cleanRemoved config.disPackages.toFinset) := by
  rintro f ⟨p, hOff, hFile⟩ hMem
  have hRemoved : f ∈
      config.disPackages.toFinset.biUnion ledger.files := by
    rw [Finset.mem_biUnion]
    refine ⟨p, List.mem_toFinset.mpr hOff, ?_⟩
    rw [hLists p hOff]
    exact hFile
  simp [Ledger.cleanRemoved, hRemoved] at hMem

/- An enabled package is not a disabled one. -/
theorem ne_of_disPackages
    {p q : P}
    (hOn : p ∈ config.packages)
    (hOff : q ∈ config.disPackages) :
    q ≠ p := by
  rintro rfl
  have hNotOn := (List.mem_filter.mp hOff).2
  simp [hOn] at hNotOn

/- The recipes before it leave the disabled lists alone. -/
theorem files_of_disPackages
    {targets : List (MakeTarget P)}
    {ledger : Ledger P names}
    {p : P}
    (hEnabled : ∀ q, MakeTarget.staging q ∈ targets →
      q ∈ config.packages)
    (hNoClean :
      MakeTarget.cleanRemovedPackages ∉ targets)
    (hOff : p ∈ config.disPackages) :
    (targets.foldl (config.recipe build) ledger).files p =
      ledger.files p := by
  induction targets generalizing ledger with
  | nil => rfl
  | cons target targets ih =>
      rw [List.foldl_cons, ih
        (fun q hMem =>
          hEnabled q (List.mem_cons_of_mem target hMem))
        (fun hMem =>
          hNoClean (List.mem_cons_of_mem target hMem))]
      cases target with
      | staging q =>
          have hNe := ne_of_disPackages
            (hEnabled q List.mem_cons_self) hOff
          simp [recipe, hNe]
      | cleanRemovedPackages =>
          exact absurd List.mem_cons_self hNoClean
      | _ => rfl

/- The recipes after it keep the trees clean. -/
theorem cleaned_foldl
    {targets : List (MakeTarget P)}
    {ledger : Ledger P names}
    (hEnabled : ∀ q, MakeTarget.staging q ∈ targets →
      q ∈ config.packages)
    (hNoClean :
      MakeTarget.cleanRemovedPackages ∉ targets)
    (hCleaned : Cleaned config build ledger) :
    Cleaned config build
      (targets.foldl (config.recipe build) ledger) := by
  induction targets generalizing ledger with
  | nil => exact hCleaned
  | cons target targets ih =>
      rw [List.foldl_cons]
      apply ih
        (fun q hMem =>
          hEnabled q (List.mem_cons_of_mem target hMem))
        (fun hMem =>
          hNoClean (List.mem_cons_of_mem target hMem))
      cases target with
      | staging q =>
          exact cleaned_stage (build.tree q)
            (hEnabled q List.mem_cons_self) hCleaned
      | rootfs q =>
          exact cleaned_copyRootfs (build.copied q) hCleaned
      | cleanRemovedPackages =>
          exact absurd List.mem_cons_self hNoClean
      | _ => exact hCleaned

/- The trees after a part of a run with the cleaning. -/
theorem cleaned_execute
    {targets : List (MakeTarget P)}
    (hNodup : targets.Nodup)
    (hEnabled : ∀ q, MakeTarget.staging q ∈ targets →
      q ∈ config.packages)
    (hClean : MakeTarget.cleanRemovedPackages ∈ targets) :
    Cleaned config build (config.execute build targets) := by
  rcases List.append_of_mem hClean with ⟨before, after, rfl⟩
  have hOnce := List.nodup_middle.mp hNodup
  have hNotIn := (List.nodup_cons.mp hOnce).1
  rw [List.mem_append, not_or] at hNotIn
  unfold execute
  rw [List.foldl_append, List.foldl_cons]
  refine cleaned_foldl ?_ hNotIn.2 ?_
  · intro q hMem
    exact hEnabled q (by simp [hMem])
  · apply cleaned_cleanRemoved
    intro p hOff
    refine files_of_disPackages ?_ hNotIn.1 hOff
    intro q hMem
    exact hEnabled q (by simp [hMem])

end Cleaned

------------------------------------------------------------
-- Before The Cleaning
------------------------------------------------------------

/- The only file of a build, named `f`. -/
def leftoverNames : FileNames :=
  .single [['f']] (plainPath_of_all (by decide) (by decide))

def leftoverFile : leftoverNames.File :=
  ⟨[['f']], rfl⟩

/- A build that left one file of a disabled package. -/
def leftover (p : P) : Build P leftoverNames where
  earlier :=
    { staging := {leftoverFile}
      rootfs := {leftoverFile}
      listed := fun q =>
        if q = p then some {leftoverFile} else none }
  tree _ := ∅
  copied _ := ∅

/- The file stays until `clean-removed-packages`. -/
theorem leftover_execute
    {config : MakeConfig P}
    {targets : List (MakeTarget P)}
    {p : P}
    (hOff : p ∈ config.disPackages)
    (hEnabled : ∀ q, MakeTarget.staging q ∈ targets →
      q ∈ config.packages)
    (hNoClean :
      MakeTarget.cleanRemovedPackages ∉ targets) :
    leftoverFile ∈
        (config.execute (leftover p) targets).staging ∧
      leftoverFile ∈
        (config.execute (leftover p) targets).rootfs ∧
      ∀ q, q ≠ p → leftoverFile ∉
        (config.execute (leftover p) targets).files q := by
  unfold execute
  induction targets using List.reverseRecOn with
  | nil =>
      refine ⟨by simp [leftover], by simp [leftover], ?_⟩
      intro q hNe
      simp [leftover, Ledger.files, hNe]
  | append_singleton targets target ih =>
      have hBefore := ih
        (fun q hMem => hEnabled q (by simp [hMem]))
        (fun hMem => hNoClean (by simp [hMem]))
      rw [List.foldl_append, List.foldl_cons, List.foldl_nil]
      rcases hBefore with ⟨hStaging, hRootfs, hLists⟩
      cases target with
      | staging q =>
          have hNe : q ≠ p := fun hSame =>
            ne_of_disPackages (hEnabled q (by simp)) hOff
              hSame.symm
          have hNotListed := hLists q hNe
          refine ⟨?_, ?_, ?_⟩
          · simp [recipe, Ledger.stage, hStaging, hNotListed]
          · simp [recipe, Ledger.stage, hRootfs, hNotListed]
          · intro r hOther
            by_cases hSame : r = q
            · simp [recipe, hSame, leftover]
            · simpa [recipe, hSame] using hLists r hOther
      | rootfs q =>
          refine ⟨hStaging, ?_, hLists⟩
          simp [recipe, Ledger.copyRootfs, hRootfs]
      | cleanRemovedPackages =>
          exact absurd (by simp) hNoClean
      | _ => exact ⟨hStaging, hRootfs, hLists⟩

------------------------------------------------------------
-- Images
------------------------------------------------------------

/-
  The images of a run are clean for each earlier build
  exactly when they come after `clean-removed-packages`, or
  no package is disabled.
-/
theorem Run.imagesClean_iff
    {config : MakeConfig P}
    (run : config.Run) :
    (∀ (names : FileNames) (build : Build P names),
        ImagesClean run build) ↔
      config.disPackages = [] ∨ CleansFirst run := by
  constructor
  · intro hClean
    by_cases hNone : config.disPackages = []
    · exact Or.inl hNone
    · right
      intro before target after hOrder hImage
      by_contra hNoClean
      rcases List.exists_mem_of_ne_nil _ hNone with ⟨p, hOff⟩
      have hLeft := leftover_execute hOff
        (fun q hMem =>
          run.enabled q (by rw [hOrder]; simp [hMem]))
        hNoClean
      apply hClean _ (leftover p) before target after hOrder
        hImage leftoverFile
      · unfold imageTree
        split
        · exact hLeft.1
        · exact hLeft.2.1
      · refine ⟨⟨p, hOff, by simp [leftover, Ledger.files]⟩, ?_⟩
        intro q hOn
        exact hLeft.2.2 q
          (fun hSame => ne_of_disPackages hOn hOff hSame.symm)
  · intro hEither names build before target after hOrder
      hImage f hMem hOnly
    rcases hOnly with ⟨⟨p, hOff, hFile⟩, hUnlisted⟩
    rcases hEither with hNone | hFirst
    · rw [hNone] at hOff
      cases hOff
    · have hPrefix : before.Sublist run.order := by
        rw [hOrder]
        exact List.sublist_append_left before _
      have hCleaned : Cleaned config build
          (config.execute build before) := cleaned_execute
        (run.nodup.sublist hPrefix)
        (fun q hMem => run.enabled q (hPrefix.subset hMem))
        (hFirst before target after hOrder hImage)
      have hTrees :
          f ∈ (config.execute build before).staging ∨
            f ∈ (config.execute build before).rootfs := by
        unfold imageTree at hMem
        split at hMem
        · exact Or.inl hMem
        · exact Or.inr hMem
      rcases hCleaned f ⟨p, hOff, hFile⟩ hTrees with
        ⟨q, hOn, hListed⟩
      exact hUnlisted q hOn hListed

end MakeConfig

------------------------------------------------------------
-- A Tar Image
------------------------------------------------------------

/- A configuration that drops the package 1. -/
def tarConfig : MakeConfig Nat where
  allPackages := [0, 1]
  packages := [0]
  goals := []
  buildDeps _ := []
  toolchain := 0
  linux := 2
  isoBoot := 3
  grubEfi := 4
  skipRootfs := false
  outTar := true
  outNfs := false
  outInitramfs := false
  outInitramfsGz := false
  outInitramfsXz := false
  outInitramfsUboot := false
  outTftp := false
  outIsoBoot := false
  outIsoHybrid := false
  outGrubEfi := false
  linuxDt := false
  haveIsoLinux := false
  haveLinuxImage := false

/- The prerequisites of `all` from left to right. -/
def tarRun : tarConfig.Run where
  order :=
    [.compile 0, .staging 0, .fakerootStaging 0, .rootfs 0,
      .strip 0, .fakerootRootfs 0, .mkrFakeroot, .rootfsAll,
      .rootfsTar, .cleanRemovedPackages, .all]
  nodup := by decide
  goal_mem := by decide
  ordered := by decide
  needed := by decide
  enabled p hMem := by
    simp at hMem
    simp [hMem, tarConfig]

/- `rootfs.tar` holds the file of the disabled package. -/
theorem tarRun_not_imagesClean :
    ¬ ∀ (names : FileNames)
        (build : MakeConfig.Build Nat names),
        MakeConfig.ImagesClean tarRun build := by
  intro hClean
  apply hClean _ (MakeConfig.leftover 1)
    [.compile 0, .staging 0, .fakerootStaging 0, .rootfs 0,
      .strip 0, .fakerootRootfs 0, .mkrFakeroot, .rootfsAll]
    .rootfsTar [.cleanRemovedPackages, .all] rfl rfl
    MakeConfig.leftoverFile
  · decide
  · refine ⟨⟨1, by decide, by decide⟩, ?_⟩
    decide

end Mkrootfs
