import Mathlib.Logic.Function.Basic
import Mkrootfs.Build.MakeGraph

/-
  What `mkisofs` finds in `boot.iso.d` when the rules of one
  `make all` execute (`Makefile`, `iso-boot/Makefile`).

  Main declarations:
    * `IsoTree`, `MakeConfig.isoRecipe`
    * `IsoConfig`, `IsoConfig.Complete`
    * `IsoConfig.complete_iff`
-/

------------------------------------------------------------
-- boot.iso.d
------------------------------------------------------------

namespace Mkrootfs

/- What the image needs in `boot.iso.d`. -/
inductive IsoEntry where
| isolinux
| linux
| rootfs
deriving DecidableEq, Repr

/- Where an entry of `boot.iso.d` comes from. -/
inductive IsoOrigin where
| earlier
| thisRun
deriving DecidableEq, Repr

/-
  `boot.iso.d`, and whether the directory `staging` exists:
  `iso-boot/Makefile` names `$(staging)/../boot.iso.d`.
-/
structure IsoTree where
  staging : Bool
  entries : IsoEntry → Option IsoOrigin

/- Nothing is missing. -/
def IsoTree.Complete (tree : IsoTree) : Prop :=
  ∀ entry, tree.entries entry ≠ none

namespace MakeConfig

variable {P : Type} [DecidableEq P]

/- The recipes that change `boot.iso.d`. -/
def isoRecipe
    (config : MakeConfig P)
    (tree : IsoTree) :
    MakeTarget P → IsoTree
| .staging p =>
    if p = config.isoBoot then
      -- `rm -f -r` does not find the directory, and does not
      -- fail, while there is no `staging`.
      let cleaned : IsoEntry → Option IsoOrigin :=
        if tree.staging then fun _ => none else tree.entries
      { staging := true
        entries :=
          Function.update cleaned .isolinux (some .thisRun) }
    else
      { tree with staging := true }
| .isoLinux =>
    { tree with
      entries :=
        Function.update tree.entries .linux (some .thisRun) }
| .isoRootfs =>
    { tree with
      entries :=
        Function.update tree.entries .rootfs (some .thisRun) }
| _ => tree

/- `boot.iso.d` after some recipes. -/
def isoExecute
    (config : MakeConfig P)
    (tree : IsoTree)
    (targets : List (MakeTarget P)) : IsoTree :=
  targets.foldl config.isoRecipe tree

theorem isoExecute_append
    (config : MakeConfig P)
    (tree : IsoTree)
    (first second : List (MakeTarget P)) :
    config.isoExecute tree (first ++ second) =
      config.isoExecute (config.isoExecute tree first)
        second :=
  List.foldl_append

/- A new entry does not remove another one. -/
theorem update_ne_none
    {entries : IsoEntry → Option IsoOrigin}
    {entry : IsoEntry}
    (written : IsoEntry)
    (hThere : entries entry ≠ none) :
    Function.update entries written (some .thisRun) entry ≠
      none := by
  by_cases hSame : entry = written
  · rw [hSame, Function.update_self]
    exact Option.some_ne_none _
  · rw [Function.update_of_ne hSame]
    exact hThere

/- Only `iso-boot/staging` removes entries. -/
theorem isoExecute_kept
    {config : MakeConfig P}
    {tree : IsoTree}
    {targets : List (MakeTarget P)}
    {entry : IsoEntry}
    (hNot : MakeTarget.staging config.isoBoot ∉ targets)
    (hThere : tree.entries entry ≠ none) :
    (config.isoExecute tree targets).entries entry ≠
      none := by
  induction targets generalizing tree with
  | nil => exact hThere
  | cons target targets ih =>
      rw [List.mem_cons, not_or] at hNot
      apply ih hNot.2
      cases target with
      | staging p =>
          have hNe : p ≠ config.isoBoot := by
            rintro rfl
            exact hNot.1 rfl
          simpa [isoRecipe, hNe] using hThere
      | isoLinux => exact update_ne_none .linux hThere
      | isoRootfs => exact update_ne_none .rootfs hThere
      | _ => exact hThere

/- What a recipe writes stays without `iso-boot/staging`. -/
theorem isoExecute_written
    {config : MakeConfig P}
    {tree : IsoTree}
    {targets : List (MakeTarget P)}
    {target : MakeTarget P}
    {entry : IsoEntry}
    (hNot : MakeTarget.staging config.isoBoot ∉ targets)
    (hMem : target ∈ targets)
    (hWrites : ∀ tree,
      (config.isoRecipe tree target).entries entry ≠ none) :
    (config.isoExecute tree targets).entries entry ≠
      none := by
  rcases List.append_of_mem hMem with ⟨before, after, rfl⟩
  rw [isoExecute_append]
  change (config.isoExecute
    (config.isoRecipe (config.isoExecute tree before) target)
    after).entries entry ≠ none
  exact isoExecute_kept (fun h => hNot (by simp [h]))
    (hWrites (config.isoExecute tree before))

/- No other rule makes `boot.iso.d/rootfs`. -/
theorem isoExecute_rootfs_none
    {config : MakeConfig P}
    {tree : IsoTree}
    {targets : List (MakeTarget P)}
    (hNot : MakeTarget.isoRootfs ∉ targets)
    (hNone : tree.entries .rootfs = none) :
    (config.isoExecute tree targets).entries .rootfs =
      none := by
  induction targets generalizing tree with
  | nil => exact hNone
  | cons target targets ih =>
      rw [List.mem_cons, not_or] at hNot
      apply ih hNot.2
      cases target with
      | staging p =>
          simp only [isoRecipe]
          split
          · by_cases hStaging : tree.staging = true
            · simp [hStaging]
            · simp [hStaging, hNone]
          · exact hNone
      | isoLinux => simpa [isoRecipe] using hNone
      | isoRootfs => exact absurd rfl hNot.1
      | _ => exact hNone

/- `staging` is not removed. -/
theorem isoExecute_staging
    {config : MakeConfig P}
    {tree : IsoTree}
    (hStaging : tree.staging = true)
    (targets : List (MakeTarget P)) :
    (config.isoExecute tree targets).staging = true := by
  induction targets generalizing tree with
  | nil => exact hStaging
  | cons target targets ih =>
      apply ih
      cases target with
      | staging p =>
          simp only [isoRecipe]
          split
          · rfl
          · rfl
      | _ => exact hStaging

------------------------------------------------------------
-- Packages
------------------------------------------------------------

/- The packages whose staging a compilation waits for. -/
def compileDeps
    (config : MakeConfig P)
    (p : P) : List P :=
  (if p = config.toolchain then [] else [config.toolchain]) ++
    config.buildDeps p

theorem prereqs_compile
    (config : MakeConfig P)
    (p : P) :
    config.prereqs (.compile p) =
      (config.compileDeps p).map .staging := by
  unfold compileDeps
  simp only [prereqs, List.map_append]
  split
  · rfl
  · rfl

/-
  The packages that the packages of the command line need,
  with these.
-/
def NeededPackage
    (config : MakeConfig P)
    (q : P) : Prop :=
  ∃ p ∈ config.onlyPackages, Reaches config.compileDeps p q

/- A package is staged before those that need it. -/
theorem reaches_staging
    {config : MakeConfig P}
    {p q : P}
    (hNeeds : Reaches config.compileDeps p q) :
    Reaches config.prereqs (.staging p) (.staging q) := by
  induction hNeeds with
  | refl => exact Relation.ReflTransGen.refl
  | @tail between last _ hLast ih =>
      have hCompile : Reaches config.prereqs
          (.staging p) (.compile between) :=
        ih.tail (List.mem_singleton.mpr rfl)
      apply hCompile.tail
      rw [prereqs_compile]
      exact List.mem_map_of_mem hLast

/-
  The targets below `initramfs.cpio`: those of packages are
  targets of packages that are needed.
-/
def BelowInitramfs
    (config : MakeConfig P) :
    MakeTarget P → Prop
| .compile p => config.NeededPackage p
| .staging p => config.NeededPackage p
| .fakerootStaging p => config.NeededPackage p
| .rootfs p => config.NeededPackage p
| .strip p => config.NeededPackage p
| .fakerootRootfs p => config.NeededPackage p
| .stagingAll => True
| .rootfsAll => True
| .mkrFakeroot => True
| .initramfsCpio => True
| .initramfsGz => True
| .initramfsXz => True
| .isoRootfs => True
| _ => False

theorem belowInitramfs_of_prereq
    {config : MakeConfig P}
    {target p : MakeTarget P}
    (hBelow : config.BelowInitramfs target)
    (hPrereq : p ∈ config.prereqs target) :
    config.BelowInitramfs p := by
  have hOut : ∀ p ∈ config.initramfsOut1,
      config.BelowInitramfs p := by
    intro p hp
    unfold initramfsOut1 at hp
    split at hp
    · rw [List.mem_singleton.mp hp]
      trivial
    · split at hp
      · rw [List.mem_singleton.mp hp]
        trivial
      · split at hp
        · rw [List.mem_singleton.mp hp]
          trivial
        · cases hp
  have hRootfs : config.BelowInitramfs config.rootfsY := by
    unfold rootfsY
    split
    · trivial
    · trivial
  have hOnly : ∀ q ∈ config.onlyPackages,
      config.NeededPackage q :=
    fun q hq => ⟨q, hq, Relation.ReflTransGen.refl⟩
  cases target with
  | compile q =>
      rw [prereqs_compile] at hPrereq
      rcases List.mem_map.mp hPrereq with ⟨r, hr, rfl⟩
      rcases hBelow with ⟨first, hFirst, hPath⟩
      exact ⟨first, hFirst, hPath.tail hr⟩
  | staging q
  | fakerootStaging q
  | rootfs q
  | strip q
  | fakerootRootfs q =>
      rw [List.mem_singleton.mp hPrereq]
      exact hBelow
  | stagingAll =>
      rcases List.mem_map.mp hPrereq with ⟨q, hq, rfl⟩
      exact hOnly q hq
  | mkrFakeroot =>
      simp only [prereqs] at hPrereq
      split at hPrereq
      · rcases List.mem_map.mp hPrereq with ⟨q, hq, rfl⟩
        exact hOnly q hq
      · rcases List.mem_map.mp hPrereq with ⟨q, hq, rfl⟩
        exact hOnly q hq
  | rootfsAll
  | initramfsGz
  | initramfsXz =>
      rw [List.mem_singleton.mp hPrereq]
      trivial
  | initramfsCpio =>
      rcases List.mem_cons.mp hPrereq with rfl | hPrereq
      · exact hRootfs
      · rw [List.mem_singleton.mp hPrereq]
        trivial
  | isoRootfs => exact hOut p hPrereq
  | _ => cases hBelow

end MakeConfig

------------------------------------------------------------
-- Bootable Images
------------------------------------------------------------

/-
  A configuration with `MKR_OUT_ISO_BOOT` and without the
  EFI variant. The former selects `MKR_OUT_INITRAMFS`.
-/
structure IsoConfig (P : Type) extends MakeConfig P where
  iso : outIsoBoot = true
  noEfi : outGrubEfi = false
  initramfs : outInitramfs = true

namespace IsoConfig

variable {P : Type} [DecidableEq P]

/- `mkisofs` finds a complete directory. -/
def Complete
    (config : IsoConfig P)
    (run : config.Run)
    (tree : IsoTree) : Prop :=
  ∀ before after,
    run.order = before ++ MakeTarget.bootIso :: after →
    (config.isoExecute tree before).Complete

/- `boot.iso.d/rootfs` needs the packages of the run. -/
theorem reaches_of_neededPackage
    (config : IsoConfig P)
    {q : P}
    (hNeeded : config.NeededPackage q) :
    Reaches config.prereqs .isoRootfs (.staging q) := by
  rcases hNeeded with ⟨p, hp, hPath⟩
  have hCpio : Reaches config.prereqs .isoRootfs
      .initramfsCpio := by
    have hOut : Reaches config.prereqs .isoRootfs
        (config.initramfsOut1.headD .initramfsCpio) := by
      apply Relation.ReflTransGen.single
      unfold MakeConfig.prereqs MakeConfig.initramfsOut1
      simp only [config.initramfs, if_true]
      split
      · simp
      · split
        · simp
        · simp
    unfold MakeConfig.initramfsOut1 at hOut
    simp only [config.initramfs, if_true] at hOut
    split at hOut
    · exact hOut.tail (by simp [MakeConfig.prereqs])
    · split at hOut
      · exact hOut.tail (by simp [MakeConfig.prereqs])
      · exact hOut
  have hStaging : Reaches config.prereqs .mkrFakeroot
      (.staging p) := by
    have hEarly : Reaches config.prereqs
        (.fakerootStaging p) (.staging p) :=
      Relation.ReflTransGen.single (List.mem_singleton.mpr rfl)
    by_cases hSkip : config.skipRootfs = true
    · have hFilter : MakeTarget.fakerootStaging p ∈
          config.prereqs .mkrFakeroot := by
        simp only [MakeConfig.prereqs, hSkip, if_true]
        exact List.mem_map_of_mem hp
      exact hEarly.head hFilter
    · have hFilter : MakeTarget.fakerootRootfs p ∈
          config.prereqs .mkrFakeroot := by
        simp only [MakeConfig.prereqs, if_neg hSkip]
        exact List.mem_map_of_mem hp
      have hRootfs : Reaches config.prereqs
          (.rootfs p) (.staging p) :=
        hEarly.head (List.mem_singleton.mpr rfl)
      have hStrip : Reaches config.prereqs
          (.strip p) (.staging p) :=
        hRootfs.head (List.mem_singleton.mpr rfl)
      have hLate : Reaches config.prereqs
          (.fakerootRootfs p) (.staging p) :=
        hStrip.head (List.mem_singleton.mpr rfl)
      exact hLate.head hFilter
  have hMkr : Reaches config.prereqs .isoRootfs
      .mkrFakeroot :=
    hCpio.tail (by simp [MakeConfig.prereqs])
  exact (hMkr.trans hStaging).trans
    (MakeConfig.reaches_staging hPath)

/- It needs no other package. -/
theorem reaches_iff
    (config : IsoConfig P)
    (q : P) :
    Reaches config.prereqs .isoRootfs (.staging q) ↔
      config.NeededPackage q := by
  constructor
  · intro hReaches
    have hBelow : ∀ target,
        Reaches config.prereqs .isoRootfs target →
        config.BelowInitramfs target := by
      intro target hPath
      induction hPath with
      | refl => trivial
      | tail _ hLast ih =>
          exact MakeConfig.belowInitramfs_of_prereq ih hLast
    exact hBelow _ hReaches
  · exact config.reaches_of_neededPackage

/- A run that makes `boot.iso` has removed `boot.iso.d`. -/
theorem split_at_isoBoot
    {config : IsoConfig P}
    (run : config.Run)
    {before after : List (MakeTarget P)}
    (hOrder : run.order =
      before ++ MakeTarget.bootIso :: after) :
    ∃ first second,
      before = first ++
        MakeTarget.staging config.isoBoot :: second ∧
      MakeTarget.staging config.isoBoot ∉ second ∧
      MakeTarget.isoLinux ∈ second := by
  have hLinux : MakeTarget.isoLinux ∈ before :=
    run.mem_before_of_prereq hOrder
      (by simp [MakeConfig.prereqs])
  rcases List.append_of_mem hLinux with ⟨start, rest, rfl⟩
  have hStaging :
      MakeTarget.staging config.isoBoot ∈ start := by
    have hPlace : run.order = start ++ MakeTarget.isoLinux ::
        (rest ++ MakeTarget.bootIso :: after) := by
      rw [hOrder]
      simp
    exact run.mem_before_of_prereq hPlace
      (by simp [MakeConfig.prereqs])
  rcases List.append_of_mem hStaging with
    ⟨first, middle, rfl⟩
  refine ⟨first, middle ++ MakeTarget.isoLinux :: rest,
    by simp, ?_, by simp⟩
  have hNodup := run.nodup
  rw [hOrder] at hNodup
  have hOnce : (MakeTarget.staging config.isoBoot ::
      (middle ++ MakeTarget.isoLinux :: rest)).Nodup := by
    have hPlace : first ++ MakeTarget.staging config.isoBoot ::
          middle ++ MakeTarget.isoLinux :: rest =
        first ++ (MakeTarget.staging config.isoBoot ::
          (middle ++ MakeTarget.isoLinux :: rest)) := by
      simp
    rw [hPlace] at hNodup
    exact (List.nodup_append.mp
      (List.nodup_append.mp hNodup).1).2.1
  exact (List.nodup_cons.mp hOnce).1

/- In one run, the order of two rules decides. -/
theorem complete_of_before
    {config : IsoConfig P}
    {run : config.Run}
    (hBefore : Reaches config.prereqs .isoRootfs
      (.staging config.isoBoot))
    (tree : IsoTree) :
    config.Complete run tree := by
  intro before after hOrder entry
  have hRootfs : MakeTarget.isoRootfs ∈ before :=
    run.mem_before_of_prereq hOrder
      (by simp [MakeConfig.prereqs])
  rcases split_at_isoBoot run hOrder with
    ⟨first, second, rfl, hNot, hLinux⟩
  rw [MakeConfig.isoExecute_append]
  change (config.isoExecute
    (config.isoRecipe (config.isoExecute tree first)
      (.staging config.isoBoot)) second).entries entry ≠ none
  cases entry with
  | isolinux =>
      apply MakeConfig.isoExecute_kept hNot
      simp [MakeConfig.isoRecipe]
  | linux =>
      apply MakeConfig.isoExecute_written hNot hLinux
      intro other
      simp [MakeConfig.isoRecipe]
  | rootfs =>
      -- `boot.iso.d/rootfs` comes after `iso-boot/staging`.
      have hLater : MakeTarget.isoRootfs ∈ second := by
        rcases List.mem_append.mp hRootfs with hIn | hIn
        · rcases List.append_of_mem hIn with ⟨l₁, l₂, rfl⟩
          have hPlace : run.order = l₁ ++ .isoRootfs ::
              (l₂ ++ (MakeTarget.staging config.isoBoot ::
                second ++ .bootIso :: after)) := by
            rw [hOrder]
            simp
          have hEarly := run.mem_before_of_reaches hPlace
            hBefore (by simp)
          have hNodup := run.nodup
          rw [hPlace] at hNodup
          exact absurd rfl
            ((List.nodup_append.mp hNodup).2.2 _ hEarly
              (MakeTarget.staging config.isoBoot) (by simp))
        · simpa using hIn
      apply MakeConfig.isoExecute_written hNot hLater
      intro other
      simp [MakeConfig.isoRecipe]

/- `all` makes the image. -/
theorem bootIso_mem
    {config : IsoConfig P}
    (run : config.Run) :
    MakeTarget.bootIso ∈ run.order := by
  have hOutput : MakeTarget.bootIso ∈ config.prereqs .all := by
    simp [MakeConfig.prereqs, MakeConfig.outputs,
      MakeConfig.wordIf, config.iso, config.noEfi]
  rcases List.append_of_mem run.goal_mem with
    ⟨before, after, hOrder⟩
  have hMem := run.mem_before_of_prereq hOrder hOutput
  rw [hOrder]
  exact List.mem_append_left _ hMem

/- Without the prerequisite, some order removes the file. -/
theorem exists_not_complete
    {config : IsoConfig P}
    (run : config.Run)
    (hNot : ¬ Reaches config.prereqs .isoRootfs
      (.staging config.isoBoot)) :
    ∃ (other : config.Run) (tree : IsoTree),
      ¬ config.Complete other tree := by
  rcases run.exists_first .isoRootfs with
    ⟨schedule, needed, rest, hParts, hSame, hNeeded⟩
  let other : config.Run :=
    { toSchedule := schedule
      enabled := fun p hp =>
        run.enabled p ((hSame _).mp hp) }
  refine ⟨other, ⟨true, fun _ => none⟩, ?_⟩
  intro hComplete
  rcases List.append_of_mem (bootIso_mem other) with
    ⟨before, after, hOrder⟩
  have hRootfs : MakeTarget.isoRootfs ∈ needed := by
    have hBefore : MakeTarget.isoRootfs ∈ before :=
      other.mem_before_of_prereq hOrder
        (by simp [MakeConfig.prereqs])
    refine (hNeeded _).mpr
      ⟨(hSame _).mp ?_, Relation.ReflTransGen.refl⟩
    change MakeTarget.isoRootfs ∈ other.order
    rw [hOrder]
    exact List.mem_append_left _ hBefore
  rcases split_at_isoBoot other hOrder with
    ⟨first, second, rfl, hOnce, _⟩
  have hPlace : needed ++ rest = first ++
      (.staging config.isoBoot ::
        (second ++ .bootIso :: after)) := by
    rw [← hParts]
    simpa using hOrder
  -- All that `boot.iso.d/rootfs` needs is in the first part.
  have hFirst : MakeTarget.isoRootfs ∈ first := by
    rcases List.append_eq_append_iff.mp hPlace with
      ⟨between, rfl, _⟩ | ⟨between, hSplit, hTail⟩
    · exact List.mem_append_left _ hRootfs
    · cases between with
      | nil => simpa [hSplit] using hRootfs
      | cons target between =>
          have hHead := (List.cons.inj hTail).1
          have hIn : MakeTarget.staging config.isoBoot ∈
              needed := by
            rw [hSplit, ← hHead]
            simp
          exact absurd ((hNeeded _).mp hIn).2 hNot
  have hNotSecond : MakeTarget.isoRootfs ∉ second := by
    intro hSecond
    have hNodup := schedule.nodup
    rw [hParts, hPlace] at hNodup
    exact absurd rfl
      ((List.nodup_append.mp hNodup).2.2 _ hFirst
        MakeTarget.isoRootfs (by simp [hSecond]))
  apply hComplete _ _ hOrder .rootfs
  rw [MakeConfig.isoExecute_append]
  apply MakeConfig.isoExecute_rootfs_none hNotSecond
  have hStaging : (config.isoExecute
      ⟨true, fun _ => none⟩ first).staging = true :=
    MakeConfig.isoExecute_staging rfl first
  simp [MakeConfig.isoRecipe, hStaging]

/-
  Every order that the rules allow gives a complete image
  exactly when `iso-boot` is one of the packages of the
  command line, or one of these packages needs it.
-/
theorem complete_iff
    (config : IsoConfig P)
    (run : config.Run) :
    (∀ (other : config.Run) tree,
        config.Complete other tree) ↔
      config.NeededPackage config.isoBoot := by
  rw [← config.reaches_iff]
  constructor
  · intro hComplete
    by_contra hNot
    rcases exists_not_complete run hNot with
      ⟨other, tree, hBad⟩
    exact hBad (hComplete other tree)
  · intro hReaches other tree
    exact complete_of_before hReaches tree

end IsoConfig

------------------------------------------------------------
-- Two Packages
------------------------------------------------------------

/- `make busybox` with the packages of an ISO image. -/
def busyboxIso : IsoConfig Nat where
  allPackages := [0, 1, 2, 3]
  packages := [0, 1, 2, 3]
  goals := [1]
  buildDeps _ := []
  toolchain := 0
  linux := 2
  isoBoot := 3
  grubEfi := 4
  skipRootfs := true
  outTar := false
  outNfs := false
  outInitramfs := true
  outInitramfsGz := false
  outInitramfsXz := false
  outInitramfsUboot := false
  outTftp := false
  outIsoBoot := true
  outIsoHybrid := false
  outGrubEfi := false
  linuxDt := false
  haveIsoLinux := true
  haveLinuxImage := true
  iso := rfl
  noEfi := rfl
  initramfs := rfl

/- `boot.iso.d/rootfs` is ready before `iso-boot/staging`. -/
def busyboxRun : busyboxIso.Run where
  order :=
    [.compile 0, .staging 0, .compile 1, .staging 1,
      .stagingAll, .fakerootStaging 1, .mkrFakeroot,
      .initramfsCpio, .isoRootfs, .compile 2, .staging 2,
      .linuxImage, .compile 3, .staging 3, .isoLinux,
      .bootIso, .cleanRemovedPackages, .all]
  nodup := by decide
  goal_mem := by decide
  ordered := by decide
  needed := by decide
  enabled p hMem := by
    simp at hMem
    rcases hMem with rfl | rfl | rfl | rfl <;> decide

/- A complete directory of an earlier build. -/
def earlierIso : IsoTree where
  staging := true
  entries _ := some .earlier

/- The image has no `rootfs`. -/
theorem busyboxRun_not_complete :
    ¬ busyboxIso.Complete busyboxRun earlierIso := by
  intro hComplete
  refine hComplete
    [.compile 0, .staging 0, .compile 1, .staging 1,
      .stagingAll, .fakerootStaging 1, .mkrFakeroot,
      .initramfsCpio, .isoRootfs, .compile 2, .staging 2,
      .linuxImage, .compile 3, .staging 3, .isoLinux]
    [.cleanRemovedPackages, .all] rfl .rootfs ?_
  decide

end Mkrootfs
