import Mkrootfs.Library.Rsync
import Mkrootfs.Library.Text

/-
  Rounds of a package that copies all its files to the root
  file system: staging, `default-copyall-rootfs` and `strip`
  (`Makefile`, `Makefile.pkgbuild`).

  Main declarations:
    * `stripTool`, `skippedByStrip`
    * `PackageTree`, `Round`
    * `PackageTree.round`
    * `PackageTree.Settled`
    * `PackageRun.allFresh_iff`
-/

------------------------------------------------------------
-- Stripping
------------------------------------------------------------

namespace Mkrootfs

/- The tool that the second `case` of `strip` chooses. -/
inductive StripTool where
| mod
| lib
| bin
deriving DecidableEq, Repr

/- `dev/*|*.o|*.a|*.gz|*.bz2|*.xz`. -/
def skippedByStrip (f : Text) : Bool :=
  List.isPrefixOf ['d', 'e', 'v', '/'] f ||
    List.isSuffixOf ['.', 'o'] f ||
    List.isSuffixOf ['.', 'a'] f ||
    List.isSuffixOf ['.', 'g', 'z'] f ||
    List.isSuffixOf ['.', 'b', 'z', '2'] f ||
    List.isSuffixOf ['.', 'x', 'z'] f

/- `*.ko`, `*.so.*` and the others. -/
def stripTool (f : Text) : StripTool :=
  if List.isSuffixOf ['.', 'k', 'o'] f then
    .mod
  else if f.tails.any (List.isPrefixOf ['.', 's', 'o', '.'])
      then
    .lib
  else
    .bin

section Package

variable {C A : Type} [DecidableEq C]

/-
  The strip tools of the tool chain: the stripped content,
  or none for a file that is rejected.
-/
variable (strip : StripTool → C → Option C)

/- The content that strip rewrites a file with, if it does. -/
def rewritten (f : Text) (content : C) : Option C :=
  if skippedByStrip f then
    none
  else
    strip (stripTool f) content

/- The content of a file after stripping. -/
def stripped (f : Text) (content : C) : C :=
  (rewritten strip f content).getD content

------------------------------------------------------------
-- Rounds
------------------------------------------------------------

/-
  The files of one package: its list, the staged files, the
  files of the root file system, and the time stamp of
  `.mkr.stripped`.
-/
structure PackageTree (C A : Type) where
  listed : Text → Bool
  staged : Text → Option (FileCopy C A)
  rootfs : Text → Option (FileCopy C A)
  stamp : Option Nat

/- Nothing has been built. -/
def PackageTree.empty : PackageTree C A where
  listed _ := false
  staged _ := none
  rootfs _ := none
  stamp := none

/-
  One round: what the package installs, and the times at
  which files are written.
-/
structure Round (C A : Type) where
  install : Text → Option (C × A)
  stageAt : Text → Nat
  stripAt : Text → Nat
  stampAt : Nat

namespace PackageTree

/-
  `%/staging`: files that are no longer listed are removed
  from both trees, the others are copied.
-/
def staging
    (tree : PackageTree C A)
    (round : Round C A) : PackageTree C A where
  listed f := (round.install f).isSome
  staged f :=
    match round.install f with
    | some (content, attrs) =>
        some (checksumCopy (round.stageAt f) content attrs
          (tree.staged f))
    | none => if tree.listed f then none else tree.staged f
  rootfs f :=
    match round.install f with
    | some _ => tree.rootfs f
    | none => if tree.listed f then none else tree.rootfs f
  stamp := tree.stamp

/- `default-copyall-rootfs`. -/
def copyallRootfs
    (size : C → Nat)
    (tree : PackageTree C A) : PackageTree C A where
  listed := tree.listed
  staged := tree.staged
  rootfs f :=
    if tree.listed f then
      match tree.staged f with
      | some source =>
          some (updateCopy size source (tree.rootfs f))
      | none => tree.rootfs f
    else
      tree.rootfs f
  stamp := tree.stamp

/- Whether `strip` passes over a file as not new. -/
def notNew (stamp : Option Nat) (mtime : Nat) : Bool :=
  match stamp with
  | none => false
  | some time => ¬ time < mtime

/- The loop of `strip` for one file. -/
def stripFile
    (stamp : Option Nat)
    (now : Nat)
    (f : Text)
    (file : FileCopy C A) : FileCopy C A :=
  if notNew stamp file.mtime then
    file
  else
    match rewritten strip f file.content with
    | none => file
    | some content =>
        { file with
          content := content
          mtime := now }

/- `strip`. -/
def stripAll
    (tree : PackageTree C A)
    (round : Round C A) : PackageTree C A where
  listed := tree.listed
  staged := tree.staged
  rootfs f :=
    if tree.listed f then
      (tree.rootfs f).map
        (stripFile strip tree.stamp (round.stripAt f) f)
    else
      tree.rootfs f
  stamp := some round.stampAt

/- A complete round. -/
def round
    (size : C → Nat)
    (tree : PackageTree C A)
    (round : Round C A) : PackageTree C A :=
  stripAll strip
    (copyallRootfs size (tree.staging round)) round

end PackageTree

------------------------------------------------------------
-- Freshness
------------------------------------------------------------

/-
  Each installed file of the root file system has the
  stripped content and the attributes of the staged file.
-/
def Fresh
    (tree : PackageTree C A)
    (round : Round C A) : Prop :=
  ∀ f, (round.install f).isSome = true →
    ∃ source target,
      tree.staged f = some source ∧
      tree.rootfs f = some target ∧
      target.content = stripped strip f source.content ∧
      target.attrs = source.attrs

/- The files of a round are written after the last stamp. -/
structure Round.After
    (stamp : Option Nat)
    (round : Round C A) : Prop where
  stage : ∀ f time, stamp = some time →
    time < round.stageAt f
  strip : ∀ f g, round.stageAt f < round.stripAt g
  stamp : ∀ f, round.stripAt f < round.stampAt

/-
  The files of an installed path after a round: the staged
  file is the installed one, and the other one is stripped
  and has the same time exactly when strip left it alone.
-/
structure FileSettled
    (stamp : Nat)
    (f : Text)
    (content : C)
    (attrs : A)
    (source target : FileCopy C A) : Prop where
  sourceContent : source.content = content
  sourceAttrs : source.attrs = attrs
  sourceOlder : source.mtime < stamp
  targetContent : target.content = stripped strip f content
  targetOlder : target.mtime < stamp
  times :
    match rewritten strip f content with
    | none => target.mtime = source.mtime
    | some _ => source.mtime < target.mtime

/- The state of a package after a round. -/
structure PackageTree.Settled
    (tree : PackageTree C A)
    (install : Text → Option (C × A)) : Prop where
  isListed : ∀ f, tree.listed f = (install f).isSome
  absent : ∀ f, install f = none →
    tree.staged f = none ∧ tree.rootfs f = none
  present : ∀ f content attrs,
    install f = some (content, attrs) →
    ∃ stamp source target,
      tree.stamp = some stamp ∧
      tree.staged f = some source ∧
      tree.rootfs f = some target ∧
      FileSettled strip stamp f content attrs source target

omit [DecidableEq C] in
theorem PackageTree.empty_settled :
    (PackageTree.empty : PackageTree C A).Settled strip
      (fun _ => none) where
  isListed _ := rfl
  absent _ _ := ⟨rfl, rfl⟩
  present _ _ _ h := by cases h

------------------------------------------------------------
-- One File In One Round
------------------------------------------------------------

/- The attributes that reach the root file system. -/
def carriedAttrs
    (f : Text)
    (content : C)
    (attrs : A)
    (before : Option (C × A))
    (target : Option (FileCopy C A)) : A :=
  match before, target with
  | some old, some target =>
      if old.1 = content ∧
          (rewritten strip f content).isSome then
        target.attrs
      else
        attrs
  | _, _ => attrs

variable {strip}

omit [DecidableEq C] in
/- A file that is written anew is stripped. -/
theorem stripFile_of_new
    {stamp : Option Nat}
    {now : Nat}
    {f : Text}
    {file : FileCopy C A}
    (hNew : ∀ time, stamp = some time →
      time < file.mtime) :
    PackageTree.stripFile strip stamp now f file =
      match rewritten strip f file.content with
      | none => file
      | some content =>
          { file with
            content := content
            mtime := now } := by
  have hNot : PackageTree.notNew stamp file.mtime = false := by
    cases stamp with
    | none => rfl
    | some time =>
        simpa [PackageTree.notNew] using hNew time rfl
  unfold PackageTree.stripFile
  rw [hNot]
  rfl

omit [DecidableEq C] in
/- A file that was not written since the stamp is kept. -/
theorem stripFile_of_old
    {time now : Nat}
    {f : Text}
    {file : FileCopy C A}
    (hOld : file.mtime < time) :
    PackageTree.stripFile strip (some time) now f file =
      file := by
  have hNotNew :
      PackageTree.notNew (some time) file.mtime = true := by
    have hLe : ¬ time < file.mtime := by omega
    simp [PackageTree.notNew, hLe]
  unfold PackageTree.stripFile
  rw [hNotNew]
  rfl

omit [DecidableEq C] in
/- A file whose content is new in this round. -/
theorem fileSettled_of_new
    {stamp : Option Nat}
    {now next : Nat}
    {f : Text}
    {content : C}
    {attrs : A}
    {source : FileCopy C A}
    (hContent : source.content = content)
    (hAttrs : source.attrs = attrs)
    (hNew : ∀ time, stamp = some time →
      time < source.mtime)
    (hNow : source.mtime < now)
    (hNext : now < next) :
    FileSettled strip next f content attrs source
        (PackageTree.stripFile strip stamp now f source) ∧
      (PackageTree.stripFile strip stamp now f
        source).attrs = attrs := by
  rw [stripFile_of_new hNew, hContent]
  cases hStrip : rewritten strip f content with
  | none =>
      refine ⟨⟨hContent, hAttrs, by omega, ?_, ?_, ?_⟩,
        hAttrs⟩
      · simp [stripped, hStrip, hContent]
      · show source.mtime < next
        omega
      · simp [hStrip]
  | some other =>
      refine ⟨⟨hContent, hAttrs, by omega, ?_, ?_, ?_⟩,
        hAttrs⟩
      · simp [stripped, hStrip]
      · exact hNext
      · simpa [hStrip] using hNow

section File

variable (size : C → Nat)
variable {tree : PackageTree C A} {next : Round C A}
variable {install : Text → Option (C × A)}

/- An installed file in the next round. -/
theorem round_of_install
    (strip : StripTool → C → Option C)
    (tree : PackageTree C A)
    {f : Text}
    {content : C}
    {attrs : A}
    (hInstall : next.install f = some (content, attrs)) :
    (tree.round strip size next).staged f =
        some (checksumCopy (next.stageAt f) content attrs
          (tree.staged f)) ∧
      (tree.round strip size next).rootfs f =
        some (PackageTree.stripFile strip tree.stamp
          (next.stripAt f) f
          (updateCopy size
            (checksumCopy (next.stageAt f) content attrs
              (tree.staged f))
            (tree.rootfs f))) := by
  simp [PackageTree.round, PackageTree.stripAll,
    PackageTree.copyallRootfs, PackageTree.staging,
    hInstall]

/- A file that is installed for the first time, or anew. -/
theorem round_of_changed
    {f : Text}
    {content : C}
    {attrs : A}
    (hSettled : tree.Settled strip install)
    (hAfter : next.After tree.stamp)
    (hInstall : next.install f = some (content, attrs))
    (hChanged : ∀ old, install f = some old →
      old.1 ≠ content) :
    ∃ source target,
      (tree.round strip size next).staged f = some source ∧
      (tree.round strip size next).rootfs f = some target ∧
      FileSettled strip next.stampAt f content attrs source
        target ∧
      target.attrs = attrs := by
  have hRound := round_of_install size strip tree hInstall
  have hNew : checksumCopy (next.stageAt f) content attrs
        (tree.staged f) =
      ⟨content, attrs, next.stageAt f⟩ := by
    cases hOld : install f with
    | none => rw [(hSettled.absent f hOld).1]; rfl
    | some old =>
        rcases hSettled.present f old.1 old.2 hOld with
          ⟨_, source, _, _, hSource, _, hFile⟩
        have hNe : source.content ≠ content := by
          rw [hFile.sourceContent]
          exact hChanged old hOld
        simp [hSource, checksumCopy, hNe]
  have hCopied : updateCopy size
        ⟨content, attrs, next.stageAt f⟩ (tree.rootfs f) =
      ⟨content, attrs, next.stageAt f⟩ := by
    cases hOld : install f with
    | none => rw [(hSettled.absent f hOld).2]; rfl
    | some old =>
        rcases hSettled.present f old.1 old.2 hOld with
          ⟨stamp, _, target, hStamp, _, hTarget, hFile⟩
        rw [hTarget]
        apply updateCopy_of_lt
        exact Nat.lt_trans hFile.targetOlder
          (hAfter.stage f stamp hStamp)
  rw [hNew, hCopied] at hRound
  have hSettledNew :
      FileSettled strip next.stampAt f content attrs
          ⟨content, attrs, next.stageAt f⟩
          (PackageTree.stripFile strip tree.stamp
            (next.stripAt f) f
            ⟨content, attrs, next.stageAt f⟩) ∧
        (PackageTree.stripFile strip tree.stamp
          (next.stripAt f) f
          ⟨content, attrs, next.stageAt f⟩).attrs = attrs :=
    fileSettled_of_new rfl rfl (hAfter.stage f)
    (hAfter.strip f f) (hAfter.stamp f)
  exact ⟨_, _, hRound.1, hRound.2, hSettledNew.1,
    hSettledNew.2⟩

/- A file that is installed again with the same content. -/
theorem round_of_unchanged
    {f : Text}
    {stamp : Nat}
    {content : C}
    {attrs oldAttrs : A}
    {source target : FileCopy C A}
    (hAfter : next.After tree.stamp)
    (hInstall : next.install f = some (content, attrs))
    (hStamp : tree.stamp = some stamp)
    (hSource : tree.staged f = some source)
    (hTarget : tree.rootfs f = some target)
    (hFile : FileSettled strip stamp f content oldAttrs
      source target) :
    ∃ target',
      (tree.round strip size next).staged f =
        some { source with attrs := attrs } ∧
      (tree.round strip size next).rootfs f =
        some target' ∧
      FileSettled strip next.stampAt f content attrs
        { source with attrs := attrs } target' ∧
      target'.attrs =
        if (rewritten strip f content).isSome then
          target.attrs
        else
          attrs := by
  have hRound := round_of_install size strip tree hInstall
  have hStaged : checksumCopy (next.stageAt f) content attrs
        (tree.staged f) = { source with attrs := attrs } := by
    simp [hSource, checksumCopy, hFile.sourceContent]
  rw [hStaged, hTarget, hStamp] at hRound
  have hLater : stamp < next.stampAt :=
    Nat.lt_trans (hAfter.stage f stamp hStamp)
      (Nat.lt_trans (hAfter.strip f f) (hAfter.stamp f))
  have hSourceOlder := hFile.sourceOlder
  have hTargetOlder := hFile.targetOlder
  have hTimes := hFile.times
  cases hStrip : rewritten strip f content with
  | none =>
      rw [hStrip] at hTimes
      have hKept : target.content = source.content := by
        rw [hFile.targetContent, hFile.sourceContent]
        simp [stripped, hStrip]
      have hCopied : updateCopy size
            { source with attrs := attrs } (some target) =
          { source with attrs := attrs } :=
        updateCopy_of_same size hKept hTimes
      have hOld : PackageTree.stripFile strip (some stamp)
            (next.stripAt f) f
            { source with attrs := attrs } =
          { source with attrs := attrs } :=
        stripFile_of_old hSourceOlder
      rw [hCopied, hOld] at hRound
      refine ⟨_, hRound.1, hRound.2,
        ⟨hFile.sourceContent, rfl, ?_, ?_, ?_, ?_⟩, by simp⟩
      · exact Nat.lt_trans hSourceOlder hLater
      · rw [← hFile.targetContent]
        exact hKept.symm
      · exact Nat.lt_trans hSourceOlder hLater
      · simp [hStrip]
  | some other =>
      rw [hStrip] at hTimes
      have hCopied : updateCopy size
            { source with attrs := attrs } (some target) =
          target :=
        updateCopy_of_newer size hTimes
      rw [hCopied, stripFile_of_old hTargetOlder] at hRound
      refine ⟨_, hRound.1, hRound.2,
        ⟨hFile.sourceContent, rfl, ?_, hFile.targetContent,
          ?_, ?_⟩, by simp⟩
      · exact Nat.lt_trans hSourceOlder hLater
      · exact Nat.lt_trans hTargetOlder hLater
      · rw [hStrip]
        exact hTimes

/- A file of a round, settled by it. -/
theorem round_file
    {f : Text}
    {content : C}
    {attrs : A}
    (hSettled : tree.Settled strip install)
    (hAfter : next.After tree.stamp)
    (hInstall : next.install f = some (content, attrs)) :
    ∃ source target,
      (tree.round strip size next).staged f = some source ∧
      (tree.round strip size next).rootfs f = some target ∧
      FileSettled strip next.stampAt f content attrs source
        target ∧
      target.attrs = carriedAttrs strip f content attrs
        (install f) (tree.rootfs f) := by
  by_cases hChanged : ∀ old, install f = some old →
      old.1 ≠ content
  · rcases round_of_changed size hSettled hAfter hInstall
        hChanged with
      ⟨source, target, hSource, hTarget, hFile, hAttrs⟩
    refine ⟨source, target, hSource, hTarget, hFile, ?_⟩
    rw [hAttrs]
    unfold carriedAttrs
    split
    · next old _ hOld _ =>
        have hNe := hChanged old hOld
        simp [hNe]
    · rfl
  · push Not at hChanged
    rcases hChanged with ⟨old, hOld, hSame⟩
    rcases hSettled.present f old.1 old.2 hOld with
      ⟨stamp, source, target, hStamp, hSource, hTarget,
        hFile⟩
    rw [hSame] at hFile
    rcases round_of_unchanged size hAfter hInstall hStamp
        hSource hTarget hFile with
      ⟨target', hSource', hTarget', hFile', hAttrs⟩
    refine ⟨_, target', hSource', hTarget', hFile', ?_⟩
    rw [hAttrs, hOld, hTarget]
    simp [carriedAttrs, hSame]

/- A file that is not installed in the next round. -/
theorem round_of_not_install
    {f : Text}
    (hSettled : tree.Settled strip install)
    (hInstall : next.install f = none) :
    (tree.round strip size next).staged f = none ∧
      (tree.round strip size next).rootfs f = none := by
  have hListed := hSettled.isListed f
  cases hOld : install f with
  | none =>
      have hAbsent := hSettled.absent f hOld
      simp [PackageTree.round, PackageTree.stripAll,
        PackageTree.copyallRootfs, PackageTree.staging,
        hInstall, hAbsent]
  | some old =>
      rw [hOld] at hListed
      simp [PackageTree.round, PackageTree.stripAll,
        PackageTree.copyallRootfs, PackageTree.staging,
        hInstall, hListed]

/- A round leaves the package settled. -/
theorem round_settled
    (hSettled : tree.Settled strip install)
    (hAfter : next.After tree.stamp) :
    (tree.round strip size next).Settled strip
      next.install where
  isListed _ := rfl
  absent _ hInstall :=
    round_of_not_install size hSettled hInstall
  present f content attrs hInstall := by
    rcases round_file size hSettled hAfter hInstall with
      ⟨source, target, hSource, hTarget, hFile, _⟩
    exact ⟨next.stampAt, source, target, rfl, hSource,
      hTarget, hFile⟩

------------------------------------------------------------
-- Attributes
------------------------------------------------------------

omit [DecidableEq C] in
/- What is left of freshness for a settled package. -/
theorem fresh_iff_attrs
    (hSettled : tree.Settled strip next.install) :
    Fresh strip tree next ↔
      ∀ f content attrs target,
        next.install f = some (content, attrs) →
        tree.rootfs f = some target →
        target.attrs = attrs := by
  constructor
  · intro hFresh f content attrs target hInstall hRootfs
    rcases hSettled.present f content attrs hInstall with
      ⟨_, source, _, _, hSource, _, hFile⟩
    rcases hFresh f (by rw [hInstall]; rfl) with
      ⟨source', target', hSource', hTarget', _, hAttrs⟩
    rw [hSource] at hSource'
    rw [hRootfs] at hTarget'
    cases hSource'
    cases hTarget'
    rw [hAttrs, hFile.sourceAttrs]
  · intro hAll f hSome
    rcases Option.isSome_iff_exists.mp hSome with
      ⟨⟨content, attrs⟩, hInstall⟩
    rcases hSettled.present f content attrs hInstall with
      ⟨_, source, target, _, hSource, hTarget, hFile⟩
    refine ⟨source, target, hSource, hTarget, ?_, ?_⟩
    · rw [hFile.targetContent, hFile.sourceContent]
    · rw [hAll f content attrs target hInstall hTarget,
        hFile.sourceAttrs]

end File

variable (strip) in
/-
  A file that is installed again with the content that strip
  rewrites keeps its attributes.
-/
def KeepsMetadata
    (before after : Text → Option (C × A)) : Prop :=
  ∀ f content attrs attrs',
    before f = some (content, attrs) →
    after f = some (content, attrs') →
    (rewritten strip f content).isSome = true →
    attrs' = attrs

/-
  After a round that starts with the right attributes, they
  are right again exactly when the metadata was kept.
-/
theorem fresh_round_iff
    (size : C → Nat)
    {tree : PackageTree C A}
    {next : Round C A}
    {install : Text → Option (C × A)}
    (hSettled : tree.Settled strip install)
    (hAfter : next.After tree.stamp)
    (hAttrs : ∀ f content attrs target,
      install f = some (content, attrs) →
      tree.rootfs f = some target →
      target.attrs = attrs) :
    Fresh strip (tree.round strip size next) next ↔
      KeepsMetadata strip install next.install := by
  rw [fresh_iff_attrs (round_settled size hSettled hAfter)]
  constructor
  · intro hFresh f content attrs attrs' hOld hNew hStrip
    rcases hSettled.present f content attrs hOld with
      ⟨_, _, old, _, _, hRootfs, _⟩
    rcases round_file size hSettled hAfter hNew with
      ⟨_, target, _, hTarget, _, hCarried⟩
    have hSame := hFresh f content attrs' target hNew hTarget
    rw [hCarried, hOld, hRootfs] at hSame
    simp only [carriedAttrs, hStrip, and_self, if_true]
      at hSame
    rw [← hSame]
    exact hAttrs f content attrs old hOld hRootfs
  · intro hKeeps f content attrs target hNew hTarget
    rcases round_file size hSettled hAfter hNew with
      ⟨_, target', _, hTarget', _, hCarried⟩
    rw [hTarget] at hTarget'
    cases hTarget'
    rw [hCarried]
    unfold carriedAttrs
    split
    · next old target' hOld hRootfs =>
        split
        · next hBoth =>
            rcases old with ⟨oldContent, oldAttrs⟩
            rcases hBoth with ⟨rfl, hStrip⟩
            rw [hKeeps f _ oldAttrs attrs hOld hNew hStrip]
            exact hAttrs f _ oldAttrs target' hOld hRootfs
        · rfl
    · rfl

------------------------------------------------------------
-- Runs
------------------------------------------------------------

/- The rounds follow one another in time. -/
def Increasing
    (stamp : Option Nat) :
    List (Round C A) → Prop
| [] => True
| next :: rounds =>
    next.After stamp ∧ Increasing (some next.stampAt) rounds

/- The rounds of a package, from an empty build directory. -/
structure PackageRun (C A : Type) where
  rounds : List (Round C A)
  increasing : Increasing none rounds

variable (strip) in
/- The root file system is fresh after each round. -/
def AllFresh
    (size : C → Nat)
    (tree : PackageTree C A) :
    List (Round C A) → Prop
| [] => True
| next :: rounds =>
    Fresh strip (tree.round strip size next) next ∧
      AllFresh size (tree.round strip size next) rounds

variable (strip) in
/- Each round keeps the metadata of the round before. -/
def AllKeepMetadata
    (install : Text → Option (C × A)) :
    List (Round C A) → Prop
| [] => True
| next :: rounds =>
    KeepsMetadata strip install next.install ∧
      AllKeepMetadata next.install rounds

/- The rounds from a settled package on. -/
theorem allFresh_iff_of_settled
    (size : C → Nat)
    (rounds : List (Round C A)) :
    ∀ (tree : PackageTree C A)
      (install : Text → Option (C × A)),
      tree.Settled strip install →
      (∀ f content attrs target,
        install f = some (content, attrs) →
        tree.rootfs f = some target →
        target.attrs = attrs) →
      Increasing tree.stamp rounds →
      (AllFresh strip size tree rounds ↔
        AllKeepMetadata strip install rounds) := by
  induction rounds with
  | nil =>
      intro tree install _ _ _
      simp [AllFresh, AllKeepMetadata]
  | cons next rounds ih =>
      intro tree install hSettled hAttrs hIncreasing
      have hFreshIff :=
        fresh_round_iff size hSettled hIncreasing.1 hAttrs
      have hSettled' :=
        round_settled size hSettled hIncreasing.1
      unfold AllFresh AllKeepMetadata
      rw [← hFreshIff]
      apply and_congr_right
      intro hFresh
      -- Only a fresh round hands the right attributes on.
      exact ih _ next.install hSettled'
        ((fresh_iff_attrs hSettled').mp hFresh)
        hIncreasing.2

end Package

------------------------------------------------------------
-- A Mode Change
------------------------------------------------------------

/- `bin/su`, installed from time `start` on. -/
def suRound
    (mode start : Nat) : Round Bool Nat where
  install f :=
    if f = ['b', 'i', 'n', '/', 's', 'u'] then
      some (true, mode)
    else
      none
  stageAt _ := start
  stripAt _ := start + 1
  stampAt := start + 2

/- `bin/su` becomes setuid in the second round. -/
def setuidRun : PackageRun Bool Nat where
  rounds := [suRound 0o755 1, suRound 0o4755 4]
  increasing := by
    refine ⟨⟨?_, ?_, ?_⟩, ⟨?_, ?_, ?_⟩, trivial⟩ <;>
      simp [suRound]

end Mkrootfs
