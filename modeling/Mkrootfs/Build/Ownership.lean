import Mathlib.Logic.Function.Basic
import Mkrootfs.Build.Faked

/-
  The `fakeroot` sessions, filters and data bases between
  `%/staging` and `.mkr.fakeroot` (`Makefile`).

  Main declarations:
    * `Inodes`, `PackageRules`
    * `OwnershipState`, `OwnershipStep`, `ownershipStep`
    * `OwnershipBuild`, `OwnershipBuild.Survives`
    * `OwnershipBuild.survives_iff`
-/

------------------------------------------------------------
-- Packages
------------------------------------------------------------

namespace Mkrootfs

/-
  The inodes of the files while the rules of one `make all`
  execute. Copies of a file have inodes of their own.
-/
structure Inodes (P I : Type) where
  pkginst : P → Text → I
  staging : Text → I
  rootfs : Text → I
  pkginst_ne_staging : ∀ p f g, pkginst p f ≠ staging g
  pkginst_ne_rootfs : ∀ p f g, pkginst p f ≠ rootfs g
  staging_ne_rootfs : ∀ f g, staging f ≠ rootfs g
  rootfs_injective : Function.Injective rootfs

/-
  What the rules of a package do: the files that they
  install, as the disk has them, the messages of the
  installation, and the files copied and stripped.
-/
structure PackageRules
    {P I : Type}
    (inodes : Inodes P I)
    (p : P) where
  list : List Text
  stat : Text → FakeStat I
  install : List (FakedMsg I)
  copies : List Text
  strips : List Text
  installsOwn : ∀ msg ∈ install,
    ∃ f, msg.ino = inodes.pkginst p f

/- The files and data bases of the build directory. -/
structure OwnershipState (P I : Type) where
  filelist : P → List Text
  fakeroot : P → FakeDb I
  fakerootStaging : P → FakeDb I
  fakerootRootfs : P → FakeDb I
  staging : Text → Bool
  rootfs : Text → Bool

/- The rules of a package, from `%/staging` on. -/
inductive OwnershipStep (P : Type) where
| staging (p : P)
| filterStaging (p : P)
| rootfs (p : P)
| strip (p : P)
| filterRootfs (p : P)
deriving DecidableEq, Repr

namespace OwnershipStep

/- The package of a rule. -/
def package {P : Type} : OwnershipStep P → P
| staging p => p
| filterStaging p => p
| rootfs p => p
| strip p => p
| filterRootfs p => p

/- The rules of a package, each a prerequisite of the next. -/
def chain {P : Type} (p : P) : List (OwnershipStep P) :=
  [staging p, filterStaging p, rootfs p, strip p,
    filterRootfs p]

end OwnershipStep

section Steps

variable {P I : Type} [DecidableEq P] [DecidableEq I]

------------------------------------------------------------
-- Sessions
------------------------------------------------------------

/- The messages that give a copy the attributes seen. -/
def reapply
    (seen : FakeStat I)
    (ino : I) : List (FakedMsg I) :=
  let copy := { seen with ino := ino, nlink := 1 }
  if seen.mode &&& sIfmt = sIfblk ∨
      seen.mode &&& sIfmt = sIfchr then
    [.mknod copy, .chown copy, .chmod copy]
  else
    [.chown copy, .chmod copy]

/- `rsync` of some files under `fakeroot`. -/
def copyFiles
    (stat : Text → FakeStat I)
    (src dst : Text → I)
    (files : List Text)
    (db : FakeDb I) : FakeDb I :=
  files.foldl
    (fun db f =>
      fakedRun db
        (reapply (processStat db { stat f with ino := src f })
          (dst f)))
    db

/- The messages of `rm`. -/
def unlinkFiles
    (ino : Text → I)
    (files : List Text) : List (FakedMsg I) :=
  files.map (fun f => .unlink
    { ino := ino f
      mode := sIfreg
      uid := 0
      gid := 0
      nlink := 1
      rdev := 0 })

/- The files that are no longer installed. -/
def removedFiles (old new : List Text) : List Text :=
  old.filter (fun f => f ∉ new)

/- The session of `%/staging`. -/
def stagingSession
    {inodes : Inodes P I}
    {p : P}
    (rules : PackageRules inodes p)
    (state : OwnershipState P I) : FakeDb I :=
  let removed :=
    removedFiles (state.filelist p) rules.list
  let installed := fakedRun (state.fakeroot p) rules.install
  let cleaned := fakedRun installed
    (unlinkFiles inodes.staging
        (removed.filter (fun f => state.staging f)) ++
      unlinkFiles inodes.rootfs
        (removed.filter (fun f => state.rootfs f)))
  let copied := copyFiles rules.stat (inodes.pkginst p)
    inodes.staging rules.list cleaned
  fakedRun copied
    (unlinkFiles (inodes.pkginst p) rules.list)

------------------------------------------------------------
-- Steps
------------------------------------------------------------

/- `lstat` of a file of `staging`. -/
def lstatStaging
    (inodes : Inodes P I)
    (state : OwnershipState P I)
    (f : Text) : Option I :=
  if state.staging f then some (inodes.staging f) else none

/- `lstat` of a file of `rootfs`. -/
def lstatRootfs
    (inodes : Inodes P I)
    (state : OwnershipState P I)
    (f : Text) : Option I :=
  if state.rootfs f then some (inodes.rootfs f) else none

/- One rule. A filter that fails stops the build. -/
def ownershipStep
    {inodes : Inodes P I}
    (packages : ∀ p, PackageRules inodes p)
    (state : OwnershipState P I) :
    OwnershipStep P → Option (OwnershipState P I)
| .staging p =>
    let removed :=
      removedFiles (state.filelist p) (packages p).list
    some
      { state with
        filelist := Function.update state.filelist p
          (packages p).list
        fakeroot := Function.update state.fakeroot p
          (stagingSession (packages p) state)
        staging := fun f =>
          f ∈ (packages p).list ||
            (state.staging f && f ∉ removed)
        rootfs := fun f => state.rootfs f && f ∉ removed }
| .filterStaging p =>
    (fakerootFilter (lstatStaging inodes state)
      (state.filelist p) (state.fakeroot p)).map (fun db =>
        { state with
          fakerootStaging :=
            Function.update state.fakerootStaging p db })
| .rootfs p =>
    let copied :=
      (packages p).copies.filter (fun f => state.staging f)
    some
      { state with
        fakerootStaging :=
          Function.update state.fakerootStaging p
            (copyFiles (packages p).stat inodes.staging
              inodes.rootfs copied
              (state.fakerootStaging p))
        rootfs := fun f => state.rootfs f || f ∈ copied }
| .strip p =>
    let rewritten :=
      (packages p).strips.filter (fun f => state.rootfs f)
    some
      { state with
        fakerootStaging :=
          Function.update state.fakerootStaging p
            (copyFiles (packages p).stat inodes.rootfs
              inodes.rootfs rewritten
              (state.fakerootStaging p)) }
| .filterRootfs p =>
    -- The filter reads `.mkr.fakeroot`, not the data base
    -- that the session of `%/rootfs` saved.
    (fakerootFilter (lstatRootfs inodes state)
      (state.filelist p) (state.fakeroot p)).map (fun db =>
        { state with
          fakerootRootfs :=
            Function.update state.fakerootRootfs p db })

/- The rules of a run, one after the other. -/
def ownershipRun
    {inodes : Inodes P I}
    (packages : ∀ p, PackageRules inodes p)
    (state : OwnershipState P I)
    (steps : List (OwnershipStep P)) :
    Option (OwnershipState P I) :=
  steps.foldlM (ownershipStep packages) state

/-
  A successful `make all`: each enabled package goes through
  its chain of rules, interleaved with the others in any way.
-/
structure OwnershipBuild (inodes : Inodes P I) where
  packages : ∀ p, PackageRules inodes p
  enabled : List P
  start : OwnershipState P I
  steps : List (OwnershipStep P)
  final : OwnershipState P I
  ordered : ∀ p ∈ enabled,
    steps.filter (fun step => step.package = p) =
      OwnershipStep.chain p
  completes : ownershipRun packages start steps = some final

namespace OwnershipBuild

variable {inodes : Inodes P I}

/- `.mkr.fakeroot`, which the image recipes load. -/
def mkrFakeroot (build : OwnershipBuild inodes) : FakeDb I :=
  build.enabled.flatMap build.final.fakerootRootfs

/- The attributes that an installation gave to a file. -/
def installed
    (build : OwnershipBuild inodes)
    (p : P)
    (f : Text) : Option (FakeStat I) :=
  dataFind
    (fakedRun (build.start.fakeroot p)
      (build.packages p).install)
    (inodes.pkginst p f)

/-
  The attributes that a package gives to a file of its list
  that its `rootfs` rule copies are in the final data base.
-/
def Survives (build : OwnershipBuild inodes) : Prop :=
  ∀ p ∈ build.enabled,
    ∀ f ∈ (build.packages p).list,
      f ∈ (build.packages p).copies →
      ∀ st, build.installed p f = some st →
        ∃ entry ∈ build.mkrFakeroot,
          entry.ino = inodes.rootfs f ∧
          entry.attrs = st.attrs

/- The build directory when the last filter of `q` runs. -/
def atFilterRootfs
    (build : OwnershipBuild inodes)
    (q : P) : Option (OwnershipState P I) :=
  ownershipRun build.packages build.start
    (build.steps.takeWhile (fun step =>
      step ≠ OwnershipStep.filterRootfs q))

/- The last filter of `q` finds a file of its list. -/
def ReadsRootfs
    (build : OwnershipBuild inodes)
    (q : P)
    (f : Text) : Prop :=
  f ∈ (build.packages q).list ∧
    ∃ state, build.atFilterRootfs q = some state ∧
      state.rootfs f = true

end OwnershipBuild

------------------------------------------------------------
-- Inodes Of The Root File System
------------------------------------------------------------

omit [DecidableEq I] in
theorem ino_of_mem_reapply
    {seen : FakeStat I}
    {ino : I}
    {msg : FakedMsg I}
    (hMsg : msg ∈ reapply seen ino) :
    msg.ino = ino := by
  simp only [reapply] at hMsg
  split at hMsg
  · simp only [List.mem_cons, List.not_mem_nil, or_false]
      at hMsg
    rcases hMsg with rfl | rfl | rfl <;> rfl
  · simp only [List.mem_cons, List.not_mem_nil, or_false]
      at hMsg
    rcases hMsg with rfl | rfl <;> rfl

omit [DecidableEq I] in
theorem mem_unlinkFiles
    {ino : Text → I}
    {files : List Text}
    {msg : FakedMsg I}
    (hMsg : msg ∈ unlinkFiles ino files) :
    ∃ f ∈ files, msg.ino = ino f := by
  rcases List.mem_map.mp hMsg with ⟨f, hFile, rfl⟩
  exact ⟨f, hFile, rfl⟩

/- A copy only concerns the inodes that are written. -/
theorem mem_copyFiles_of_ne
    {entry : FakeStat I}
    {dst : Text → I}
    (hNe : ∀ f, dst f ≠ entry.ino)
    (stat : Text → FakeStat I)
    (src : Text → I)
    (files : List Text)
    (db : FakeDb I) :
    entry ∈ copyFiles stat src dst files db ↔
      entry ∈ db := by
  induction files generalizing db with
  | nil => rfl
  | cons f files ih =>
      refine (ih _).trans (mem_fakedRun_of_ne ?_ db)
      intro msg hMsg
      rw [ino_of_mem_reapply hMsg]
      exact hNe f

omit [DecidableEq P] in
/-
  The session of `%/staging` neither adds nor drops entries
  for the listed files of the root file system.
-/
theorem mem_stagingSession
    {inodes : Inodes P I}
    {p : P}
    {rules : PackageRules inodes p}
    {state : OwnershipState P I}
    {f : Text}
    {entry : FakeStat I}
    (hListed : f ∈ rules.list)
    (hIno : entry.ino = inodes.rootfs f) :
    entry ∈ stagingSession rules state ↔
      entry ∈ state.fakeroot p := by
  unfold stagingSession
  rw [mem_fakedRun_of_ne, mem_copyFiles_of_ne,
    mem_fakedRun_of_ne, mem_fakedRun_of_ne]
  · intro msg hMsg
    rcases rules.installsOwn msg hMsg with ⟨g, hOwn⟩
    rw [hOwn, hIno]
    exact inodes.pkginst_ne_rootfs p g f
  · intro msg hMsg
    rw [hIno]
    rcases List.mem_append.mp hMsg with hStaging | hRootfs
    · rcases mem_unlinkFiles hStaging with ⟨g, _, hOwn⟩
      rw [hOwn]
      exact inodes.staging_ne_rootfs g f
    · -- A file of the new list is not removed.
      rcases mem_unlinkFiles hRootfs with ⟨g, hRemoved, hOwn⟩
      rw [hOwn]
      intro hSame
      rw [inodes.rootfs_injective hSame] at hRemoved
      simp [removedFiles, hListed] at hRemoved
  · intro g
    rw [hIno]
    exact inodes.staging_ne_rootfs g f
  · intro msg hMsg
    rcases mem_unlinkFiles hMsg with ⟨g, _, hOwn⟩
    rw [hOwn, hIno]
    exact inodes.pkginst_ne_rootfs p g f

------------------------------------------------------------
-- Runs
------------------------------------------------------------

section Runs

variable {inodes : Inodes P I}
variable {packages : ∀ p, PackageRules inodes p}
variable {state next : OwnershipState P I}

/- What only two of the rules of a package write. -/
structure SameRecords
    (q : P)
    (state next : OwnershipState P I) : Prop where
  filelist : next.filelist q = state.filelist q
  fakeroot : next.fakeroot q = state.fakeroot q
  fakerootRootfs :
    next.fakerootRootfs q = state.fakerootRootfs q

/- The other rules keep these records. -/
theorem sameRecords_step
    {q : P}
    {step : OwnershipStep P}
    (hStep : ownershipStep packages state step = some next)
    (hStaging : step ≠ .staging q)
    (hFilter : step ≠ .filterRootfs q) :
    SameRecords q state next := by
  cases step with
  | staging p =>
      have hNe : q ≠ p := by
        rintro rfl
        exact hStaging rfl
      cases hStep
      exact ⟨Function.update_of_ne hNe _ _,
        Function.update_of_ne hNe _ _, rfl⟩
  | filterStaging p =>
      rcases Option.map_eq_some_iff.mp hStep with ⟨_, _, rfl⟩
      exact ⟨rfl, rfl, rfl⟩
  | rootfs p =>
      cases hStep
      exact ⟨rfl, rfl, rfl⟩
  | strip p =>
      cases hStep
      exact ⟨rfl, rfl, rfl⟩
  | filterRootfs p =>
      have hNe : q ≠ p := by
        rintro rfl
        exact hFilter rfl
      rcases Option.map_eq_some_iff.mp hStep with ⟨_, _, rfl⟩
      exact ⟨rfl, rfl, Function.update_of_ne hNe _ _⟩

theorem ownershipRun_cons
    (step : OwnershipStep P)
    (steps : List (OwnershipStep P)) :
    ownershipRun packages state (step :: steps) =
      (ownershipStep packages state step).bind (fun next =>
        ownershipRun packages next steps) := by
  rfl

/- Two parts of a run. -/
theorem ownershipRun_append
    (first second : List (OwnershipStep P)) :
    ownershipRun packages state (first ++ second) =
      (ownershipRun packages state first).bind (fun next =>
        ownershipRun packages next second) := by
  simp [ownershipRun, List.foldlM_append]

/- A run through two steps, and the states around them. -/
theorem ownershipRun_split
    {before between after : List (OwnershipStep P)}
    {first second : OwnershipStep P}
    (hRun :
      ownershipRun packages state
          (before ++ first :: (between ++ second :: after)) =
        some next) :
    ∃ s₁ s₂ s₃ s₄,
      ownershipRun packages state before = some s₁ ∧
      ownershipStep packages s₁ first = some s₂ ∧
      ownershipRun packages s₂ between = some s₃ ∧
      ownershipStep packages s₃ second = some s₄ ∧
      ownershipRun packages s₄ after = some next := by
  rw [ownershipRun_append] at hRun
  rcases Option.bind_eq_some_iff.mp hRun with
    ⟨s₁, hBefore, hRun⟩
  rw [ownershipRun_cons] at hRun
  rcases Option.bind_eq_some_iff.mp hRun with
    ⟨s₂, hFirst, hRun⟩
  rw [ownershipRun_append] at hRun
  rcases Option.bind_eq_some_iff.mp hRun with
    ⟨s₃, hBetween, hRun⟩
  rw [ownershipRun_cons] at hRun
  rcases Option.bind_eq_some_iff.mp hRun with
    ⟨s₄, hSecond, hAfter⟩
  exact ⟨s₁, s₂, s₃, s₄, hBefore, hFirst, hBetween,
    hSecond, hAfter⟩

/- What every step keeps is kept by a run. -/
theorem ownershipRun_rel
    {rel : OwnershipState P I → OwnershipState P I → Prop}
    {steps : List (OwnershipStep P)}
    (hRefl : ∀ state, rel state state)
    (hTrans : ∀ {first second third},
      rel first second → rel second third → rel first third)
    (hStep : ∀ step ∈ steps, ∀ {state next},
      ownershipStep packages state step = some next →
        rel state next)
    (hRun : ownershipRun packages state steps = some next) :
    rel state next := by
  induction steps generalizing state with
  | nil =>
      cases hRun
      exact hRefl _
  | cons step steps ih =>
      rw [ownershipRun_cons] at hRun
      rcases Option.bind_eq_some_iff.mp hRun with
        ⟨between, hFirst, hRest⟩
      exact hTrans (hStep step List.mem_cons_self hFirst)
        (ih (fun other hMem =>
          hStep other (List.mem_cons_of_mem step hMem))
          hRest)

/- A part of a run without those two rules. -/
theorem sameRecords_run
    {q : P}
    {steps : List (OwnershipStep P)}
    (hRun : ownershipRun packages state steps = some next)
    (hOther : ∀ step ∈ steps,
      step ≠ .staging q ∧ step ≠ .filterRootfs q) :
    SameRecords q state next := by
  apply ownershipRun_rel _ _ _ hRun
  · exact fun _ => ⟨rfl, rfl, rfl⟩
  · intro first second third hSame hLater
    exact ⟨hLater.filelist.trans hSame.filelist,
      hLater.fakeroot.trans hSame.fakeroot,
      hLater.fakerootRootfs.trans hSame.fakerootRootfs⟩
  · intro step hMem state next hStep
    exact sameRecords_step hStep (hOther step hMem).1
      (hOther step hMem).2

/- The two rules of a package in a run. -/
theorem split_at_chain
    {q : P}
    {steps : List (OwnershipStep P)}
    (hOrdered : steps.filter (fun step => step.package = q) =
      OwnershipStep.chain q) :
    ∃ before between after,
      steps = before ++ .staging q ::
        (between ++ .filterRootfs q :: after) ∧
      ∀ step ∈ before ++ between ++ after,
        step ≠ .staging q ∧ step ≠ .filterRootfs q := by
  unfold OwnershipStep.chain at hOrdered
  rcases List.filter_eq_cons_iff.mp hOrdered with
    ⟨l₁, r₁, rfl, hl₁, _, hOrdered⟩
  rcases List.filter_eq_cons_iff.mp hOrdered with
    ⟨l₂, r₂, rfl, hl₂, _, hOrdered⟩
  rcases List.filter_eq_cons_iff.mp hOrdered with
    ⟨l₃, r₃, rfl, hl₃, _, hOrdered⟩
  rcases List.filter_eq_cons_iff.mp hOrdered with
    ⟨l₄, r₄, rfl, hl₄, _, hOrdered⟩
  rcases List.filter_eq_cons_iff.mp hOrdered with
    ⟨l₅, r₅, rfl, hl₅, _, hOrdered⟩
  have hr₅ := List.filter_eq_nil_iff.mp hOrdered
  refine ⟨l₁,
    l₂ ++ .filterStaging q ::
      (l₃ ++ .rootfs q :: (l₄ ++ .strip q :: l₅)),
    r₅, by simp, ?_⟩
  have hOther : ∀ step : OwnershipStep P,
      ¬ (decide (step.package = q) = true) →
      step ≠ .staging q ∧ step ≠ .filterRootfs q := by
    intro step hPackage
    constructor <;>
      · rintro rfl
        exact hPackage (by simp [OwnershipStep.package])
  intro step hStep
  simp only [List.mem_append, List.mem_cons] at hStep
  rcases hStep with (h | h | rfl | h | rfl | h | rfl | h) | h
  · exact hOther step (hl₁ step h)
  · exact hOther step (hl₂ step h)
  · simp
  · exact hOther step (hl₃ step h)
  · simp
  · exact hOther step (hl₄ step h)
  · simp
  · exact hOther step (hl₅ step h)
  · exact hOther step (hr₅ step h)

end Runs

------------------------------------------------------------
-- The Final Data Base
------------------------------------------------------------

namespace OwnershipBuild

variable {inodes : Inodes P I}

/- The entries of a package in the final data base. -/
theorem mem_fakerootRootfs
    (build : OwnershipBuild inodes)
    {q : P}
    {f : Text}
    {entry : FakeStat I}
    (hEnabled : q ∈ build.enabled)
    (hIno : entry.ino = inodes.rootfs f) :
    entry ∈ build.final.fakerootRootfs q ↔
      build.ReadsRootfs q f ∧
        entry ∈ build.start.fakeroot q := by
  rcases split_at_chain (build.ordered q hEnabled) with
    ⟨before, between, after, hSteps, hOther⟩
  have hRun := build.completes
  rw [hSteps] at hRun
  rcases ownershipRun_split hRun with
    ⟨s₁, s₂, s₃, s₄, hBefore, hStaging, hBetween, hFilter,
      hAfter⟩
  have hOut := sameRecords_run hAfter (fun step hMem =>
    hOther step (by simp [hMem]))
  have hMid := sameRecords_run hBetween (fun step hMem =>
    hOther step (by simp [hMem]))
  have hIn := sameRecords_run hBefore (fun step hMem =>
    hOther step (by simp [hMem]))
  -- The state of the last filter is the third one.
  have hAt : build.atFilterRootfs q = some s₃ := by
    unfold atFilterRootfs
    have hPrefix :
        build.steps.takeWhile (fun step =>
          step ≠ OwnershipStep.filterRootfs q) =
        before ++ .staging q :: between := by
      rw [hSteps, List.takeWhile_append_of_pos]
      · rw [List.takeWhile_cons_of_pos (by simp),
          List.takeWhile_append_of_pos]
        · simp
        · intro step hMem
          simpa using (hOther step (by simp [hMem])).2
      · intro step hMem
        simpa using (hOther step (by simp [hMem])).2
    rw [hPrefix, ownershipRun_append, hBefore,
      Option.bind_some, ownershipRun_cons, hStaging]
    exact hBetween
  cases hStaging
  have hList : s₃.filelist q = (build.packages q).list := by
    rw [hMid.filelist]
    exact Function.update_self q _ _
  have hDb : s₃.fakeroot q =
      stagingSession (build.packages q) s₁ := by
    rw [hMid.fakeroot]
    exact Function.update_self q _ _
  rcases Option.map_eq_some_iff.mp hFilter with
    ⟨kept, hKept, rfl⟩
  have hKeptRootfs :
      build.final.fakerootRootfs q = kept := by
    rw [hOut.fakerootRootfs]
    exact Function.update_self q _ _
  rw [hKeptRootfs, mem_fakerootFilter hKept, hList, hDb]
  have hReads :
      (∃ g ∈ (build.packages q).list,
        lstatRootfs inodes s₃ g = some entry.ino) ↔
      build.ReadsRootfs q f := by
    constructor
    · rintro ⟨g, hListed, hStat⟩
      unfold lstatRootfs at hStat
      split at hStat
      · next hExists =>
          rw [hIno, Option.some.injEq] at hStat
          cases inodes.rootfs_injective hStat
          exact ⟨hListed, s₃, hAt, hExists⟩
      · cases hStat
    · rintro ⟨hListed, state, hState, hExists⟩
      rw [hAt] at hState
      cases hState
      refine ⟨f, hListed, ?_⟩
      simp [lstatRootfs, hExists, hIno]
  rw [hReads]
  constructor
  · rintro ⟨hMem, hRead⟩
    rw [mem_stagingSession hRead.1 hIno, hIn.fakeroot]
      at hMem
    exact ⟨hRead, hMem⟩
  · rintro ⟨hRead, hMem⟩
    rw [mem_stagingSession hRead.1 hIno, hIn.fakeroot]
    exact ⟨hMem, hRead⟩

/-
  The attributes survive exactly when the data base of some
  package had them, for the inode of the copy, before the
  build started.
-/
theorem survives_iff
    (build : OwnershipBuild inodes) :
    build.Survives ↔
      ∀ p ∈ build.enabled,
        ∀ f ∈ (build.packages p).list,
          f ∈ (build.packages p).copies →
          ∀ st, build.installed p f = some st →
            ∃ q ∈ build.enabled,
              build.ReadsRootfs q f ∧
              ∃ entry ∈ build.start.fakeroot q,
                entry.ino = inodes.rootfs f ∧
                entry.attrs = st.attrs := by
  unfold Survives
  constructor
  · intro hSurvives p hp f hListed hCopied st hInstalled
    rcases hSurvives p hp f hListed hCopied st hInstalled with
      ⟨entry, hMem, hIno, hAttrs⟩
    rcases List.mem_flatMap.mp hMem with ⟨q, hq, hMem⟩
    rcases (build.mem_fakerootRootfs hq hIno).mp hMem with
      ⟨hReads, hOld⟩
    exact ⟨q, hq, hReads, entry, hOld, hIno, hAttrs⟩
  · intro hOld p hp f hListed hCopied st hInstalled
    rcases hOld p hp f hListed hCopied st hInstalled with
      ⟨q, hq, hReads, entry, hMem, hIno, hAttrs⟩
    have hFinal :=
      (build.mem_fakerootRootfs hq hIno).mpr ⟨hReads, hMem⟩
    exact ⟨entry, List.mem_flatMap.mpr ⟨q, hq, hFinal⟩,
      hIno, hAttrs⟩

end OwnershipBuild

end Steps

------------------------------------------------------------
-- A File Of A Group
------------------------------------------------------------

/- Inodes that tell the trees apart. -/
def taggedInodes : Inodes Unit (Nat × Text) where
  pkginst _ f := (0, f)
  staging f := (1, f)
  rootfs f := (2, f)
  pkginst_ne_staging _ _ _ h := by cases h
  pkginst_ne_rootfs _ _ _ h := by cases h
  staging_ne_rootfs _ _ h := by cases h
  rootfs_injective _ _ h := (Prod.mk.inj h).2

/- `./bin/su`, as `find` prints it. -/
def suName : Text :=
  ['.', '/', 'b', 'i', 'n', '/', 's', 'u']

/- The entry of the installed `bin/su`, for one group. -/
def suStat : FakeStat (Nat × Text) where
  ino := (0, suName)
  mode := 0o104750
  uid := 0
  gid := 10
  nlink := 1
  rdev := 0

/- The package that installs it: `chown`, then `chmod`. -/
def suRules (p : Unit) : PackageRules taggedInodes p where
  list := [suName]
  stat _ := { suStat with uid := 1000, gid := 1000 }
  install :=
    [.chown { suStat with mode := 0o100755 },
      .chmod { suStat with uid := 1000, gid := 1000 }]
  copies := [suName]
  strips := []
  installsOwn msg hMsg := by
    rcases List.mem_cons.mp hMsg with rfl | hMsg
    · exact ⟨suName, rfl⟩
    · rw [List.mem_singleton.mp hMsg]
      exact ⟨suName, rfl⟩

/- An empty build directory. -/
def emptyOwnership : OwnershipState Unit (Nat × Text) where
  filelist _ := []
  fakeroot _ := []
  fakerootStaging _ := []
  fakerootRootfs _ := []
  staging _ := false
  rootfs _ := false

/- The first build of this package. -/
def suBuild : OwnershipBuild taggedInodes where
  packages := suRules
  enabled := [()]
  start := emptyOwnership
  steps := OwnershipStep.chain ()
  final :=
    (ownershipRun suRules emptyOwnership
      (OwnershipStep.chain ())).getD emptyOwnership
  ordered _ _ := rfl
  completes := rfl

/-
  The session of the `rootfs` rule records the group, but
  the last filter does not read its data base.
-/
theorem suBuild_not_survives :
    suBuild.final.fakerootStaging () =
        [{ suStat with ino := (1, suName) },
          { suStat with ino := (2, suName) }] ∧
      suBuild.mkrFakeroot = [] ∧
      ¬ suBuild.Survives := by
  refine ⟨by decide, by decide, ?_⟩
  intro hSurvives
  have hInstalled :
      suBuild.installed () suName = some suStat := by
    decide
  rcases hSurvives () (by decide) suName (by decide)
      (by decide) suStat hInstalled with
    ⟨entry, hMem, _⟩
  have hNone : suBuild.mkrFakeroot = [] := by decide
  rw [hNone] at hMem
  cases hMem

end Mkrootfs
