import Mkrootfs.Build.Ownership

/-
  `.mkr.fakeroot` where there is no root file system: a full
  build, and a build of some packages after it (`Makefile`).

  Main declarations:
    * `recordsOf`, `loadDatabase`
    * `copiedRecord`, `copiedRecord_idem`
    * `diskMode`, `copiedFile`
    * `PartialBuild`, `PartialBuild.KeepsMetadata`
    * `PartialBuild.keepsMetadata_iff`
-/

------------------------------------------------------------
-- Records Of One Inode
------------------------------------------------------------

namespace Mkrootfs

variable {I : Type} [DecidableEq I]

/- The records of an inode, in their order. -/
def recordsOf
    (db : FakeDb I)
    (ino : I) : List (FakeStat I) :=
  db.filter (fun st => st.ino = ino)

/- `load_database`: `data_insert` of every line. -/
def loadDatabase (lines : FakeDb I) : FakeDb I :=
  lines.foldl (fun db st => insertOrOverwrite st db) []

theorem dataFind_eq_head?
    (db : FakeDb I)
    (ino : I) :
    dataFind db ino = (recordsOf db ino).head? := by
  unfold dataFind recordsOf
  rw [List.head?_filter]

/- The first record is replaced, or there is a new one. -/
theorem recordsOf_insertOrOverwrite
    (st : FakeStat I)
    (db : FakeDb I)
    (ino : I) :
    recordsOf (insertOrOverwrite st db) ino =
      if st.ino = ino then
        st :: (recordsOf db ino).tail
      else
        recordsOf db ino := by
  unfold recordsOf
  induction db with
  | nil =>
      by_cases hIno : st.ino = ino
      · simp [insertOrOverwrite, hIno]
      · simp [insertOrOverwrite, hIno]
  | cons old db ih =>
      unfold insertOrOverwrite
      by_cases hOld : old.ino = st.ino
      · by_cases hIno : st.ino = ino
        · simp [hOld, hIno]
        · simp [hOld, hIno]
      · rw [if_neg hOld]
        by_cases hIno : st.ino = ino
        · have hOther : ¬ old.ino = ino :=
            fun h => hOld (h.trans hIno.symm)
          simp only [List.filter_cons, hOther,
            decide_false, Bool.false_eq_true, if_false]
          exact ih
        · simp only [if_neg hIno] at ih ⊢
          simp only [List.filter_cons, ih]

theorem recordsOf_dataErase
    (db : FakeDb I)
    (erased ino : I) :
    recordsOf (dataErase db erased) ino =
      if ino = erased then [] else recordsOf db ino := by
  unfold recordsOf dataErase
  rw [List.filter_filter]
  split
  · next hSame =>
      subst hSame
      rw [List.filter_eq_nil_iff]
      intro st _ hBoth
      simp at hBoth
  · next hNe =>
      apply List.filter_congr
      intro st _
      by_cases hIno : st.ino = ino
      · simp [hIno, hNe]
      · simp [hIno]

theorem recordsOf_filter
    (db : FakeDb I)
    (inodes : List I)
    (ino : I) :
    recordsOf (db.filter (fun st => st.ino ∈ inodes)) ino =
      if ino ∈ inodes then recordsOf db ino else [] := by
  unfold recordsOf
  rw [List.filter_filter]
  split
  · next hMem =>
      apply List.filter_congr
      intro st _
      by_cases hIno : st.ino = ino
      · simp [hIno, hMem]
      · simp [hIno]
  · next hMem =>
      rw [List.filter_eq_nil_iff]
      intro st _ hBoth
      simp only [Bool.and_eq_true, decide_eq_true_eq]
        at hBoth
      rw [hBoth.1] at hBoth
      exact hMem hBoth.2

/- What is loaded last is found. -/
theorem dataFind_foldl_insert
    (lines db : FakeDb I)
    (ino : I) :
    dataFind
        (lines.foldl
          (fun db st => insertOrOverwrite st db) db) ino =
      (recordsOf lines ino).getLast?.or (dataFind db ino) := by
  induction lines generalizing db with
  | nil => rfl
  | cons st lines ih =>
      rw [List.foldl_cons, ih]
      have hHead : dataFind (insertOrOverwrite st db) ino =
          if st.ino = ino then
            some st
          else
            dataFind db ino := by
        rw [dataFind_eq_head?, recordsOf_insertOrOverwrite,
          dataFind_eq_head?]
        split
        · rfl
        · rfl
      rw [hHead]
      unfold recordsOf
      by_cases hIno : st.ino = ino
      · rw [if_pos hIno, List.filter_cons_of_pos
          (by simpa using hIno), List.getLast?_cons]
        cases hRest : (lines.filter
            (fun st => st.ino = ino)).getLast? with
        | none => rfl
        | some last => rfl
      · rw [if_neg hIno, List.filter_cons_of_neg
          (by simpa using hIno)]

theorem dataFind_loadDatabase
    (lines : FakeDb I)
    (ino : I) :
    dataFind (loadDatabase lines) ino =
      (recordsOf lines ino).getLast? := by
  unfold loadDatabase
  rw [dataFind_foldl_insert]
  exact Option.or_none

------------------------------------------------------------
-- Copies
------------------------------------------------------------

/- The record that `process_chown` leaves. -/
def chownRecord
    (old : Option (FakeStat I))
    (buf : FakeStat I) : FakeStat I :=
  match old with
  | some st =>
      { st with
        uid := if isUnchangedId buf.uid then st.uid else buf.uid
        gid := if isUnchangedId buf.gid then st.gid
          else buf.gid }
  | none =>
      { buf with
        uid := if isUnchangedId buf.uid then 0 else buf.uid
        gid := if isUnchangedId buf.gid then 0 else buf.gid }

/- The mode that `process_chmod` leaves. -/
def chmodMode (buf old : Nat) : Nat :=
  if buf &&& sIfmt ≠ old &&& sIfmt ∧
      (buf &&& sIfmt ≠ sIfreg ∨
        notMode old &&& (sIfblk ||| sIfchr) ≠ 0) then
    buf
  else
    (buf ^^^ (buf &&& sIfmt)) ||| (old &&& sIfmt)

/- The records that the other two messages leave. -/
def chmodRecord
    (old : Option (FakeStat I))
    (buf : FakeStat I) : FakeStat I :=
  match old with
  | some st => { st with mode := chmodMode buf.mode st.mode }
  | none => { buf with uid := 0, gid := 0 }

def mknodRecord
    (old : Option (FakeStat I))
    (buf : FakeStat I) : FakeStat I :=
  match old with
  | some st => { st with mode := buf.mode, rdev := buf.rdev }
  | none => { buf with uid := 0, gid := 0 }

theorem processChown_eq
    (db : FakeDb I)
    (buf : FakeStat I) :
    processChown db buf =
      insertOrOverwrite
        (chownRecord (dataFind db buf.ino) buf) db := by
  unfold processChown chownRecord
  cases dataFind db buf.ino with
  | none => rfl
  | some st => rfl

theorem processChmod_eq
    (db : FakeDb I)
    (buf : FakeStat I) :
    processChmod db buf =
      insertOrOverwrite
        (chmodRecord (dataFind db buf.ino) buf) db := by
  unfold processChmod chmodRecord chmodMode
  cases dataFind db buf.ino with
  | none => rfl
  | some st =>
      dsimp only
      split
      · rfl
      · rfl

theorem processMknod_eq
    (db : FakeDb I)
    (buf : FakeStat I) :
    processMknod db buf =
      insertOrOverwrite
        (mknodRecord (dataFind db buf.ino) buf) db := by
  unfold processMknod mknodRecord
  cases dataFind db buf.ino with
  | none => rfl
  | some st => rfl

/- The record of a copy, from what is seen of the file. -/
def copiedRecord
    (seen : FakeStat I)
    (ino : I)
    (old : Option (FakeStat I)) : FakeStat I :=
  let copy := { seen with ino := ino, nlink := 1 }
  if seen.mode &&& sIfmt = sIfblk ∨
      seen.mode &&& sIfmt = sIfchr then
    chmodRecord
      (some (chownRecord (some (mknodRecord old copy)) copy))
      copy
  else
    chmodRecord (some (chownRecord old copy)) copy

/- The permissions that `chmod` sets. -/
def allPerms : Nat := 0o7777

/-
  The mode that `libfakeroot` leaves on the disk: `chmod`
  passes the permissions on, with access for the owner, and
  `mknod` creates a plain file.
-/
def diskMode (mode : Nat) : Nat :=
  (if mode &&& sIfmt = sIfblk ∨ mode &&& sIfmt = sIfchr then
    sIfreg
  else
    mode &&& sIfmt) ||| (mode &&& allPerms) ||| 0o600

/-
  The copy itself, from what is seen of the file: the data
  base is the only place for owners and devices.
-/
def copiedFile
    (seen : FakeStat I)
    (ino : I) : FakeStat I where
  ino := ino
  mode := diskMode seen.mode
  uid := 0
  gid := 0
  nlink := 1
  rdev := 0

/- A record stays one of its inode. -/
def KeepsIno
    (record : Option (FakeStat I) → FakeStat I → FakeStat I) :
    Prop :=
  ∀ old buf, (∀ st, old = some st → st.ino = buf.ino) →
    (record old buf).ino = buf.ino

omit [DecidableEq I] in
theorem keepsIno_chown :
    KeepsIno (chownRecord (I := I)) := by
  intro old buf hOld
  cases old with
  | none => rfl
  | some st => exact hOld st rfl

omit [DecidableEq I] in
theorem keepsIno_chmod :
    KeepsIno (chmodRecord (I := I)) := by
  intro old buf hOld
  cases old with
  | none => rfl
  | some st => exact hOld st rfl

omit [DecidableEq I] in
theorem keepsIno_mknod :
    KeepsIno (mknodRecord (I := I)) := by
  intro old buf hOld
  cases old with
  | none => rfl
  | some st => exact hOld st rfl

/- One message, on the records of an inode. -/
theorem recordsOf_record
    {record : Option (FakeStat I) → FakeStat I → FakeStat I}
    (hKeeps : KeepsIno record)
    (db : FakeDb I)
    (buf : FakeStat I)
    (ino : I) :
    recordsOf
        (insertOrOverwrite
          (record (dataFind db buf.ino) buf) db) ino =
      if buf.ino = ino then
        record (dataFind db buf.ino) buf ::
          (recordsOf db ino).tail
      else
        recordsOf db ino := by
  have hIno := hKeeps (dataFind db buf.ino) buf
    (fun st hFind => dataFind_ino hFind)
  rw [recordsOf_insertOrOverwrite, hIno]

theorem dataFind_record
    {record : Option (FakeStat I) → FakeStat I → FakeStat I}
    (hKeeps : KeepsIno record)
    (db : FakeDb I)
    (buf : FakeStat I) :
    dataFind
        (insertOrOverwrite
          (record (dataFind db buf.ino) buf) db) buf.ino =
      some (record (dataFind db buf.ino) buf) := by
  rw [dataFind_eq_head?, recordsOf_record hKeeps, if_pos rfl]
  rfl

/- The messages for one inode, on its records. -/
theorem recordsOf_reapply
    (seen : FakeStat I)
    (db : FakeDb I)
    (copyIno ino : I) :
    recordsOf (fakedRun db (reapply seen copyIno)) ino =
      if copyIno = ino then
        copiedRecord seen copyIno (dataFind db copyIno) ::
          (recordsOf db ino).tail
      else
        recordsOf db ino := by
  -- The two messages that every copy ends with.
  have hPair : ∀ (db : FakeDb I) (copy : FakeStat I),
      recordsOf (processChmod (processChown db copy) copy) ino =
        if copy.ino = ino then
          chmodRecord
              (some (chownRecord (dataFind db copy.ino) copy))
              copy ::
            (recordsOf db ino).tail
        else
          recordsOf db ino := by
    intro db copy
    rw [processChmod_eq, recordsOf_record keepsIno_chmod,
      processChown_eq, dataFind_record keepsIno_chown,
      recordsOf_record keepsIno_chown]
    split
    · rfl
    · rfl
  unfold reapply copiedRecord
  dsimp only
  split
  · change recordsOf
        (processChmod
          (processChown (processMknod db _) _) _) ino = _
    rw [hPair, processMknod_eq,
      dataFind_record keepsIno_mknod,
      recordsOf_record keepsIno_mknod]
    dsimp only
    split
    · rfl
    · rfl
  · change recordsOf
        (processChmod (processChown db _) _) ino = _
    rw [hPair]

------------------------------------------------------------
-- Copying Again
------------------------------------------------------------

/- The bits of a mask are those of the second operand. -/
theorem masked_or_and
    (bits old mask : Nat) :
    ((bits ^^^ (bits &&& mask)) ||| (old &&& mask)) &&& mask =
      old &&& mask := by
  apply Nat.eq_of_testBit_eq
  intro i
  simp only [Nat.testBit_and, Nat.testBit_or, Nat.testBit_xor]
  cases bits.testBit i with
  | false => cases mask.testBit i <;> simp
  | true => cases mask.testBit i <;> simp

theorem masked_or_self
    (bits mask : Nat) :
    (bits ^^^ (bits &&& mask)) ||| (bits &&& mask) = bits := by
  apply Nat.eq_of_testBit_eq
  intro i
  simp only [Nat.testBit_and, Nat.testBit_or, Nat.testBit_xor]
  cases bits.testBit i with
  | false => cases mask.testBit i <;> simp
  | true => cases mask.testBit i <;> simp

/- `!mode & (S_IFBLK|S_IFCHR)` is never set. -/
theorem notMode_and
    (mode : Nat) :
    notMode mode &&& (sIfblk ||| sIfchr) = 0 := by
  unfold notMode
  split
  · rfl
  · rfl

theorem chmodMode_self
    (mode : Nat) :
    chmodMode mode mode = mode := by
  unfold chmodMode
  rw [if_neg (fun h => h.1 rfl)]
  exact masked_or_self mode sIfmt

/- The second of two equal `chmod` changes nothing. -/
theorem chmodMode_idem
    (buf old : Nat) :
    chmodMode buf (chmodMode buf old) = chmodMode buf old := by
  by_cases hType : buf &&& sIfmt ≠ old &&& sIfmt ∧
      buf &&& sIfmt ≠ sIfreg
  · have hFirst : chmodMode buf old = buf := by
      unfold chmodMode
      rw [if_pos ⟨hType.1, Or.inl hType.2⟩]
    rw [hFirst]
    exact chmodMode_self buf
  · have hFirst : chmodMode buf old =
        (buf ^^^ (buf &&& sIfmt)) ||| (old &&& sIfmt) := by
      unfold chmodMode
      rw [notMode_and]
      simp [hType]
    rw [hFirst]
    unfold chmodMode
    rw [masked_or_and, notMode_and]
    simp [hType]

omit [DecidableEq I] in
/- A copy only depends on the attributes that are seen. -/
theorem copiedRecord_congr
    {seen other : FakeStat I}
    (hAttrs : seen.attrs = other.attrs)
    (ino : I)
    (old : Option (FakeStat I)) :
    copiedRecord seen ino old = copiedRecord other ino old := by
  simp only [FakeStat.attrs, FakeAttrs.mk.injEq] at hAttrs
  rcases hAttrs with ⟨hUid, hGid, hMode, hRdev⟩
  unfold copiedRecord
  rw [hUid, hGid, hMode, hRdev]

/- The second of two equal `chown` changes nothing. -/
theorem keptId_idem
    (id old : Nat) :
    (if isUnchangedId id then
        (if isUnchangedId id then old else id)
      else id) =
      if isUnchangedId id then old else id := by
  split
  · rfl
  · rfl

omit [DecidableEq I] in
/- The second copy of a file has the attributes of the first. -/
theorem copiedRecord_idem
    (seen : FakeStat I)
    (ino : I)
    (old : Option (FakeStat I)) :
    (copiedRecord seen ino
      (some (copiedRecord seen ino old))).attrs =
        (copiedRecord seen ino old).attrs := by
  by_cases hDevice : seen.mode &&& sIfmt = sIfblk ∨
      seen.mode &&& sIfmt = sIfchr
  · simp only [copiedRecord, if_pos hDevice]
    cases old with
    | none =>
        simp only [chmodRecord, chownRecord, mknodRecord,
          FakeStat.attrs, chmodMode_self, keptId_idem]
    | some st =>
        simp only [chmodRecord, chownRecord, mknodRecord,
          FakeStat.attrs, chmodMode_self, keptId_idem]
  · simp only [copiedRecord, if_neg hDevice]
    cases old with
    | none =>
        simp only [chmodRecord, chownRecord,
          FakeStat.attrs, chmodMode_self, keptId_idem]
    | some st =>
        simp only [chmodRecord, chownRecord,
          FakeStat.attrs, chmodMode_idem, keptId_idem]

------------------------------------------------------------
-- Sessions
------------------------------------------------------------

/- A message for another inode leaves the records. -/
theorem recordsOf_processMsg_of_ne
    {msg : FakedMsg I}
    {ino : I}
    (hNe : msg.ino ≠ ino)
    (db : FakeDb I) :
    recordsOf (processMsg db msg) ino = recordsOf db ino := by
  cases msg with
  | chown buf =>
      change recordsOf (processChown db buf) ino = _
      rw [processChown_eq, recordsOf_record keepsIno_chown]
      exact if_neg hNe
  | chmod buf =>
      change recordsOf (processChmod db buf) ino = _
      rw [processChmod_eq, recordsOf_record keepsIno_chmod]
      exact if_neg hNe
  | mknod buf =>
      change recordsOf (processMknod db buf) ino = _
      rw [processMknod_eq, recordsOf_record keepsIno_mknod]
      exact if_neg hNe
  | unlink buf =>
      change recordsOf (processUnlink db buf) ino = _
      unfold processUnlink
      split
      · rw [recordsOf_dataErase]
        exact if_neg (fun hSame => hNe hSame.symm)
      · rfl

/- Messages for other inodes leave the records. -/
theorem recordsOf_fakedRun_of_ne
    {msgs : List (FakedMsg I)}
    {ino : I}
    (hNe : ∀ msg ∈ msgs, msg.ino ≠ ino)
    (db : FakeDb I) :
    recordsOf (fakedRun db msgs) ino = recordsOf db ino := by
  induction msgs generalizing db with
  | nil => rfl
  | cons msg msgs ih =>
      have hFirst := recordsOf_processMsg_of_ne
        (hNe msg List.mem_cons_self) db
      exact (ih (fun other hOther => hNe other
        (List.mem_cons_of_mem msg hOther)) _).trans hFirst

/- A copy, on the records of a file that is not copied. -/
theorem recordsOf_copyFiles_of_not_mem
    {dst : Text → I}
    {files : List Text}
    {ino : I}
    (hNot : ∀ f ∈ files, dst f ≠ ino)
    (stat : Text → FakeStat I)
    (src : Text → I)
    (db : FakeDb I) :
    recordsOf (copyFiles stat src dst files db) ino =
      recordsOf db ino := by
  induction files generalizing db with
  | nil => rfl
  | cons f files ih =>
      have hFirst := hNot f List.mem_cons_self
      refine (ih (fun g hg =>
        hNot g (List.mem_cons_of_mem f hg)) _).trans ?_
      rw [recordsOf_reapply, if_neg hFirst]

/- A copy, on the records of a file that is copied. -/
theorem recordsOf_copyFiles
    {src dst : Text → I}
    {files : List Text}
    {f : Text}
    (hOther : ∀ f g, src f ≠ dst g)
    (hNodup : (files.map dst).Nodup)
    (hFile : f ∈ files)
    (stat : Text → FakeStat I)
    (db : FakeDb I) :
    recordsOf (copyFiles stat src dst files db) (dst f) =
      copiedRecord
          (processStat db { stat f with ino := src f })
          (dst f) (dataFind db (dst f)) ::
        (recordsOf db (dst f)).tail := by
  induction files generalizing db with
  | nil => cases hFile
  | cons g files ih =>
      rw [List.map_cons, List.nodup_cons] at hNodup
      let copied := fakedRun db (reapply
        (processStat db { stat g with ino := src g }) (dst g))
      change recordsOf
        (copyFiles stat src dst files copied) (dst f) = _
      rcases List.mem_cons.mp hFile with rfl | hRest
      · rw [recordsOf_copyFiles_of_not_mem]
        · rw [recordsOf_reapply, if_pos rfl]
        · intro h hh hSame
          rw [← hSame] at hNodup
          exact hNodup.1 (List.mem_map_of_mem hh)
      · have hNe : dst g ≠ dst f := by
          intro hSame
          rw [hSame] at hNodup
          exact hNodup.1 (List.mem_map_of_mem hRest)
        have hSrc : dst g ≠ src f :=
          fun hSame => hOther f g hSame.symm
        have hKept : ∀ ino, dst g ≠ ino →
            recordsOf copied ino = recordsOf db ino := by
          intro ino hIno
          rw [recordsOf_reapply, if_neg hIno]
        have hFind : ∀ ino, dst g ≠ ino →
            dataFind copied ino = dataFind db ino := by
          intro ino hIno
          rw [dataFind_eq_head?, hKept ino hIno,
            dataFind_eq_head?]
        have hStat :
            processStat copied { stat f with ino := src f } =
              processStat db { stat f with ino := src f } := by
          unfold processStat
          rw [hFind _ hSrc]
        rw [ih hNodup.2 hRest, hStat, hFind _ hNe,
          hKept _ hNe]

section Packages

variable {P : Type}

/- What `rsync` sees of a file that has been installed. -/
def seenInstalled
    {inodes : Inodes P I}
    {p : P}
    (rules : PackageRules inodes p)
    (db : FakeDb I)
    (f : Text) : FakeStat I :=
  processStat (fakedRun db rules.install)
    { rules.stat f with ino := inodes.pkginst p f }

/-
  The records of a staged file after `%/staging`: a copy,
  made over the records that the removed files leave.
-/
theorem recordsOf_stagingSession
    {inodes : Inodes P I}
    {p : P}
    {rules : PackageRules inodes p}
    {f : Text}
    (hNodup : (rules.list.map inodes.staging).Nodup)
    (hFile : f ∈ rules.list)
    (state : OwnershipState P I) :
    ∃ cleaned : FakeDb I,
      recordsOf (stagingSession rules state)
          (inodes.staging f) =
        copiedRecord
            (seenInstalled rules (state.fakeroot p) f)
            (inodes.staging f)
            (dataFind cleaned (inodes.staging f)) ::
          (recordsOf cleaned (inodes.staging f)).tail ∧
      (removedFiles (state.filelist p) rules.list = [] →
        recordsOf cleaned (inodes.staging f) =
          recordsOf (state.fakeroot p) (inodes.staging f)) := by
  let removed := removedFiles (state.filelist p) rules.list
  let installed := fakedRun (state.fakeroot p) rules.install
  let cleaned := fakedRun installed
    (unlinkFiles inodes.staging
        (removed.filter (fun f => state.staging f)) ++
      unlinkFiles inodes.rootfs
        (removed.filter (fun f => state.rootfs f)))
  refine ⟨cleaned, ?_, ?_⟩
  · have hAfter :
        recordsOf (stagingSession rules state)
            (inodes.staging f) =
          recordsOf (copyFiles rules.stat (inodes.pkginst p)
            inodes.staging rules.list cleaned)
            (inodes.staging f) := by
      apply recordsOf_fakedRun_of_ne
      intro msg hMsg
      rcases mem_unlinkFiles hMsg with ⟨g, _, hOwn⟩
      rw [hOwn]
      exact inodes.pkginst_ne_staging p g f
    -- Nothing of the install tree has been removed yet.
    have hSeen :
        processStat cleaned
            { rules.stat f with ino := inodes.pkginst p f } =
          seenInstalled rules (state.fakeroot p) f := by
      have hKept :
          recordsOf cleaned (inodes.pkginst p f) =
            recordsOf installed (inodes.pkginst p f) := by
        apply recordsOf_fakedRun_of_ne
        intro msg hMsg
        rcases List.mem_append.mp hMsg with hIn | hIn
        · rcases mem_unlinkFiles hIn with ⟨g, _, hOwn⟩
          rw [hOwn]
          exact (inodes.pkginst_ne_staging p f g).symm
        · rcases mem_unlinkFiles hIn with ⟨g, _, hOwn⟩
          rw [hOwn]
          exact (inodes.pkginst_ne_rootfs p f g).symm
      unfold seenInstalled processStat
      rw [dataFind_eq_head?, hKept, ← dataFind_eq_head?]
    rw [hAfter, recordsOf_copyFiles
      (fun f g => inodes.pkginst_ne_staging p f g)
      hNodup hFile, hSeen]
  · intro hNone
    have hCleaned : cleaned = installed := by
      simp only [cleaned, removed, hNone]
      rfl
    rw [hCleaned]
    apply recordsOf_fakedRun_of_ne
    intro msg hMsg
    rcases rules.installsOwn msg hMsg with ⟨g, hOwn⟩
    rw [hOwn]
    exact inodes.pkginst_ne_staging p g f

/-
  Staging again what is installed with the same attributes
  leaves the attributes of the records.
-/
theorem attrs_recordsOf_again
    {inodes inodesAgain : Inodes P I}
    {p : P}
    {rules : PackageRules inodes p}
    {rulesAgain : PackageRules inodesAgain p}
    {f : Text}
    {first again : OwnershipState P I}
    (hStaging : inodesAgain.staging = inodes.staging)
    (hList : rulesAgain.list = rules.list)
    (hNodup : (rules.list.map inodes.staging).Nodup)
    (hFile : f ∈ rules.list)
    (hFilelist : again.filelist p = rulesAgain.list)
    (hFakeroot : again.fakeroot p = stagingSession rules first)
    (hSeen :
      (seenInstalled rulesAgain (again.fakeroot p) f).attrs =
        (seenInstalled rules (first.fakeroot p) f).attrs) :
    (recordsOf (stagingSession rulesAgain again)
        (inodes.staging f)).map FakeStat.attrs =
      (recordsOf (again.fakeroot p)
        (inodes.staging f)).map FakeStat.attrs := by
  have hNodupAgain :
      (rulesAgain.list.map inodesAgain.staging).Nodup := by
    rw [hList, hStaging]
    exact hNodup
  have hFileAgain : f ∈ rulesAgain.list := by
    rw [hList]
    exact hFile
  rcases recordsOf_stagingSession hNodup hFile first with
    ⟨before, hBefore, _⟩
  rcases recordsOf_stagingSession hNodupAgain hFileAgain
      again with ⟨cleaned, hAfter, hCleaned⟩
  have hNone :
      removedFiles (again.filelist p) rulesAgain.list = [] := by
    rw [hFilelist]
    simp [removedFiles]
  rw [← hFakeroot] at hBefore
  replace hCleaned := hCleaned hNone
  rw [hStaging] at hAfter hCleaned
  rw [dataFind_eq_head?, hCleaned, hBefore,
    copiedRecord_congr hSeen] at hAfter
  rw [hAfter, hBefore]
  simp only [List.head?_cons, List.tail_cons, List.map_cons,
    copiedRecord_idem]

------------------------------------------------------------
-- Filters
------------------------------------------------------------

/- A filter that succeeds has seen every inode once. -/
theorem nodup_of_filterInodes
    {lstat : Text → Option I}
    {list : List Text}
    {before inodes : List I}
    (hInodes : filterInodes lstat list before = some inodes) :
    (list.filterMap lstat).Nodup ∧
      ∀ ino ∈ before, ino ∉ list.filterMap lstat := by
  induction list generalizing before with
  | nil => exact ⟨List.nodup_nil, fun _ _ h => nomatch h⟩
  | cons f list ih =>
      unfold filterInodes at hInodes
      split at hInodes
      · next hStat =>
          rw [List.filterMap_cons_none hStat]
          exact ih hInodes
      · next found hStat =>
          split at hInodes
          · cases hInodes
          · next hNew =>
              rcases ih hInodes with ⟨hNodup, hBefore⟩
              rw [List.filterMap_cons_some hStat]
              refine ⟨List.nodup_cons.mpr
                ⟨hBefore found List.mem_cons_self, hNodup⟩, ?_⟩
              intro ino hMem
              rw [List.mem_cons, not_or]
              refine ⟨?_, hBefore ino
                (List.mem_cons_of_mem found hMem)⟩
              rintro rfl
              exact hNew hMem

/- The records that the data base of a package has. -/
def ownRecords
    (staging : Text → I)
    (list : List Text)
    (db : FakeDb I) : FakeDb I :=
  db.filter (fun st => st.ino ∈ list.map staging)

/- The filter of a package whose files are all staged. -/
theorem fakerootFilter_staged
    {inodes : Inodes P I}
    {state : OwnershipState P I}
    {list : List Text}
    {db kept : FakeDb I}
    (hFilter : fakerootFilter (lstatStaging inodes state)
      list db = some kept)
    (hStaged : ∀ f ∈ list, state.staging f = true) :
    (list.map inodes.staging).Nodup ∧
      kept = ownRecords inodes.staging list db := by
  unfold fakerootFilter at hFilter
  rcases Option.map_eq_some_iff.mp hFilter with
    ⟨found, hFound, rfl⟩
  have hAll : list.filterMap (lstatStaging inodes state) =
      list.map inodes.staging := by
    rw [← List.filterMap_eq_map]
    apply List.filterMap_congr
    intro f hFile
    simp [lstatStaging, hStaged f hFile]
  constructor
  · rw [← hAll]
    exact (nodup_of_filterInodes hFound).1
  · unfold ownRecords
    apply List.filter_congr
    intro st _
    rw [← hAll]
    simp [mem_filterInodes hFound st.ino]

------------------------------------------------------------
-- Runs
------------------------------------------------------------

section Runs

variable [DecidableEq P]
variable {inodes : Inodes P I}
variable {packages : ∀ p, PackageRules inodes p}
variable {state next : OwnershipState P I}

/- What only the rules of a package write. -/
structure SameStaging
    (q : P)
    (state next : OwnershipState P I) : Prop where
  filelist : next.filelist q = state.filelist q
  fakeroot : next.fakeroot q = state.fakeroot q
  fakerootStaging :
    next.fakerootStaging q = state.fakerootStaging q

theorem sameStaging_step
    {q : P}
    {step : OwnershipStep P}
    (hStep : ownershipStep packages state step = some next)
    (hOther : step.package ≠ q) :
    SameStaging q state next := by
  have hNe : q ≠ step.package := hOther.symm
  cases step with
  | staging p =>
      cases hStep
      exact ⟨Function.update_of_ne hNe _ _,
        Function.update_of_ne hNe _ _, rfl⟩
  | filterStaging p =>
      rcases Option.map_eq_some_iff.mp hStep with ⟨_, _, rfl⟩
      exact ⟨rfl, rfl, Function.update_of_ne hNe _ _⟩
  | rootfs p =>
      cases hStep
      exact ⟨rfl, rfl, Function.update_of_ne hNe _ _⟩
  | strip p =>
      cases hStep
      exact ⟨rfl, rfl, Function.update_of_ne hNe _ _⟩
  | filterRootfs p =>
      rcases Option.map_eq_some_iff.mp hStep with ⟨_, _, rfl⟩
      exact ⟨rfl, rfl, rfl⟩

theorem sameStaging_run
    {q : P}
    {steps : List (OwnershipStep P)}
    (hRun : ownershipRun packages state steps = some next)
    (hOther : ∀ step ∈ steps, step.package ≠ q) :
    SameStaging q state next := by
  apply ownershipRun_rel _ _ _ hRun
  · exact fun _ => ⟨rfl, rfl, rfl⟩
  · intro first second third hSame hLater
    exact ⟨hLater.filelist.trans hSame.filelist,
      hLater.fakeroot.trans hSame.fakeroot,
      hLater.fakerootStaging.trans hSame.fakerootStaging⟩
  · intro step hMem state next hStep
    exact sameStaging_step hStep (hOther step hMem)

/- The lists of the packages of a run are their old lists. -/
def ListsUnchanged
    (packages : ∀ p, PackageRules inodes p)
    (restaged : List P)
    (state : OwnershipState P I) : Prop :=
  ∀ p ∈ restaged, state.filelist p = (packages p).list

/- Such a run removes nothing. -/
theorem staging_step
    {restaged : List P}
    {step : OwnershipStep P}
    (hLists : ListsUnchanged packages restaged state)
    (hPackage : step.package ∈ restaged)
    (hStep : ownershipStep packages state step = some next) :
    ListsUnchanged packages restaged next ∧
      ∀ f, state.staging f = true → next.staging f = true := by
  cases step with
  | staging p =>
      have hNone : removedFiles (state.filelist p)
          (packages p).list = [] := by
        rw [hLists p hPackage]
        simp [removedFiles]
      cases hStep
      constructor
      · intro q hq
        by_cases hSame : q = p
        · subst hSame
          exact Function.update_self q _ _
        · rw [← hLists q hq]
          exact Function.update_of_ne hSame _ _
      · intro f hStaged
        simp [hNone, hStaged]
  | filterStaging p =>
      rcases Option.map_eq_some_iff.mp hStep with ⟨_, _, rfl⟩
      exact ⟨hLists, fun _ hStaged => hStaged⟩
  | rootfs p =>
      cases hStep
      exact ⟨hLists, fun _ hStaged => hStaged⟩
  | strip p =>
      cases hStep
      exact ⟨hLists, fun _ hStaged => hStaged⟩
  | filterRootfs p =>
      rcases Option.map_eq_some_iff.mp hStep with ⟨_, _, rfl⟩
      exact ⟨hLists, fun _ hStaged => hStaged⟩

theorem staging_run
    {restaged : List P}
    {steps : List (OwnershipStep P)}
    (hLists : ListsUnchanged packages restaged state)
    (hPackages : ∀ step ∈ steps, step.package ∈ restaged)
    (hRun : ownershipRun packages state steps = some next) :
    ListsUnchanged packages restaged next ∧
      ∀ f, state.staging f = true → next.staging f = true := by
  induction steps generalizing state with
  | nil =>
      cases hRun
      exact ⟨hLists, fun _ hStaged => hStaged⟩
  | cons step steps ih =>
      rw [ownershipRun_cons] at hRun
      rcases Option.bind_eq_some_iff.mp hRun with
        ⟨between, hStep, hRest⟩
      rcases staging_step hLists
          (hPackages step List.mem_cons_self) hStep with
        ⟨hBetween, hFirst⟩
      rcases ih hBetween (fun other hMem =>
          hPackages other (List.mem_cons_of_mem step hMem))
          hRest with ⟨hNext, hLater⟩
      exact ⟨hNext, fun f hStaged =>
        hLater f (hFirst f hStaged)⟩

/- The two rules of a package in a run. -/
theorem split_at_staging
    {q : P}
    {steps : List (OwnershipStep P)}
    (hOrdered : steps.filter (fun step => step.package = q) =
      [.staging q, .filterStaging q]) :
    ∃ before between after,
      steps = before ++ .staging q ::
        (between ++ .filterStaging q :: after) ∧
      ∀ step ∈ before ++ between ++ after,
        step.package ≠ q := by
  rcases List.filter_eq_cons_iff.mp hOrdered with
    ⟨l₁, r₁, rfl, hl₁, _, hOrdered⟩
  rcases List.filter_eq_cons_iff.mp hOrdered with
    ⟨l₂, r₂, rfl, hl₂, _, hOrdered⟩
  have hr₂ := List.filter_eq_nil_iff.mp hOrdered
  refine ⟨l₁, l₂, r₂, rfl, ?_⟩
  intro step hStep hPackage
  simp only [List.mem_append] at hStep
  rcases hStep with (hMem | hMem) | hMem
  · exact hl₁ step hMem (decide_eq_true hPackage)
  · exact hl₂ step hMem (decide_eq_true hPackage)
  · exact hr₂ step hMem (decide_eq_true hPackage)

/- What a run leaves of a package that it stages. -/
structure StagedInRun
    (packages : ∀ p, PackageRules inodes p)
    (q : P)
    (state next first filtered : OwnershipState P I) :
    Prop where
  filelist_first : first.filelist q = state.filelist q
  fakeroot_first : first.fakeroot q = state.fakeroot q
  filelist : next.filelist q = (packages q).list
  fakeroot : next.fakeroot q = stagingSession (packages q) first
  fakerootStaging :
    fakerootFilter (lstatStaging inodes filtered)
      (packages q).list (next.fakeroot q) =
        some (next.fakerootStaging q)

theorem stagedInRun
    {q : P}
    {steps : List (OwnershipStep P)}
    (hRun : ownershipRun packages state steps = some next)
    (hOrdered : steps.filter (fun step => step.package = q) =
      [.staging q, .filterStaging q]) :
    ∃ first filtered,
      StagedInRun packages q state next first filtered ∧
      ∀ restaged,
        ListsUnchanged packages restaged state →
        (∀ step ∈ steps, step.package ∈ restaged) →
        ∀ f ∈ (packages q).list, filtered.staging f = true := by
  rcases split_at_staging hOrdered with
    ⟨before, between, after, rfl, hOther⟩
  rcases ownershipRun_split hRun with
    ⟨s₁, s₂, s₃, s₄, hBefore, hStaging, hBetween, hFilter,
      hAfter⟩
  have hIn := sameStaging_run hBefore (fun step hMem =>
    hOther step (by simp [hMem]))
  have hMid := sameStaging_run hBetween (fun step hMem =>
    hOther step (by simp [hMem]))
  have hOut := sameStaging_run hAfter (fun step hMem =>
    hOther step (by simp [hMem]))
  refine ⟨s₁, s₃, ?_, ?_⟩
  · have hList₂ : s₂.filelist q = (packages q).list := by
      cases hStaging
      exact Function.update_self q _ _
    have hDb₂ : s₂.fakeroot q =
        stagingSession (packages q) s₁ := by
      cases hStaging
      exact Function.update_self q _ _
    rcases Option.map_eq_some_iff.mp hFilter with
      ⟨kept, hKept, rfl⟩
    rw [hMid.filelist, hList₂] at hKept
    have hDb : next.fakeroot q = s₃.fakeroot q := hOut.fakeroot
    have hKeptStaging : next.fakerootStaging q = kept := by
      rw [hOut.fakerootStaging]
      exact Function.update_self q _ _
    refine ⟨hIn.filelist, hIn.fakeroot, ?_, ?_, ?_⟩
    · rw [hOut.filelist]
      exact hMid.filelist.trans hList₂
    · rw [hDb, hMid.fakeroot, hDb₂]
    · rw [hDb, hKeptStaging]
      exact hKept
  · intro restaged hLists hPackages f hListed
    have hFirst := staging_run hLists
      (fun step hMem => hPackages step (by simp [hMem])) hBefore
    have hStep := staging_step hFirst.1
      (hPackages (.staging q) (by simp)) hStaging
    have hLater := staging_run hStep.1
      (fun step hMem => hPackages step (by simp [hMem]))
      hBetween
    apply hLater.2
    cases hStaging
    simp [hListed]

end Runs

------------------------------------------------------------
-- Partial Builds
------------------------------------------------------------

/-
  A full build with `MKR_SKIP_ROOTFS`, and a build of some of
  the packages after it. The install trees of the second one
  have inodes of their own, the staged files keep theirs.
  `before` is what the disk had of them before both.
-/
structure PartialBuild (P I : Type)
    [DecidableEq P] [DecidableEq I] where
  inodes : Inodes P I
  packages : ∀ p, PackageRules inodes p
  enabled : List P
  start : OwnershipState P I
  fullSteps : List (OwnershipStep P)
  full : OwnershipState P I
  fullOrdered : ∀ p,
    fullSteps.filter (fun step => step.package = p) =
      if p ∈ enabled then [.staging p, .filterStaging p] else []
  fullCompletes :
    ownershipRun packages start fullSteps = some full
  named : List P
  named_ne_nil : named ≠ []
  named_enabled : ∀ p ∈ named, p ∈ enabled
  inodesAgain : Inodes P I
  staging_again : inodesAgain.staging = inodes.staging
  packagesAgain : ∀ p, PackageRules inodesAgain p
  steps : List (OwnershipStep P)
  final : OwnershipState P I
  ordered : ∀ p,
    steps.filter (fun step => step.package = p) =
      if p ∈ named then [.staging p, .filterStaging p] else []
  completes :
    ownershipRun packagesAgain full steps = some final
  sameList : ∀ p ∈ named,
    (packagesAgain p).list = (packages p).list
  sameTree : ∀ p ∈ named, ∀ f ∈ (packages p).list,
    (seenInstalled (packagesAgain p) (full.fakeroot p) f).attrs =
      (seenInstalled (packages p) (start.fakeroot p) f).attrs
  before : Text → FakeStat I

/- The package that a `%/staging` step copies. -/
def OwnershipStep.staged? : OwnershipStep P → Option P
| .staging p => some p
| .filterStaging _ => none
| .rootfs _ => none
| .strip _ => none
| .filterRootfs _ => none

/- The packages that copy a file in a run, in their order. -/
def copiers
    {inodes : Inodes P I}
    (packages : ∀ p, PackageRules inodes p)
    (steps : List (OwnershipStep P))
    (f : Text) : List P :=
  (steps.filterMap OwnershipStep.staged?).filter (fun p =>
    f ∈ (packages p).list)

/- A staged file on the disk: the last copy is left. -/
def stagedFile
    {inodes : Inodes P I}
    (packages : ∀ p, PackageRules inodes p)
    (state : OwnershipState P I)
    (steps : List (OwnershipStep P))
    (before : Text → FakeStat I)
    (f : Text) : FakeStat I :=
  match (copiers packages steps f).getLast? with
  | some p =>
      copiedFile
        (seenInstalled (packages p) (state.fakeroot p) f)
        (inodes.staging f)
  | none => before f

namespace PartialBuild

variable [DecidableEq P]

/- The staged files after the full build. -/
def fullDisk (build : PartialBuild P I) : Text → FakeStat I :=
  stagedFile build.packages build.start build.fullSteps
    build.before

/- The staged files after the second build. -/
def disk (build : PartialBuild P I) : Text → FakeStat I :=
  stagedFile build.packagesAgain build.full build.steps
    build.fullDisk

/- `.mkr.fakeroot` of the full build. -/
def fullDatabase (build : PartialBuild P I) : FakeDb I :=
  build.enabled.flatMap build.full.fakerootStaging

/- `.mkr.fakeroot` of the second build, from `cat $^`. -/
def database (build : PartialBuild P I) : FakeDb I :=
  build.named.flatMap build.final.fakerootStaging

/-
  What the full build has recorded of the files of the
  packages that are named.
-/
def namedRecords (build : PartialBuild P I) : FakeDb I :=
  build.named.flatMap (fun p =>
    ownRecords build.inodes.staging (build.packages p).list
      (build.full.fakeroot p))

/- `fakeroot -i` gives a file of `staging` these attributes. -/
def attrsIn
    (build : PartialBuild P I)
    (disk : Text → FakeStat I)
    (db : FakeDb I)
    (f : Text) : FakeAttrs :=
  (processStat (loadDatabase db)
    { disk f with ino := build.inodes.staging f }).attrs

/- What the images of the full build have. -/
def fullAttrs
    (build : PartialBuild P I)
    (f : Text) : FakeAttrs :=
  build.attrsIn build.fullDisk build.fullDatabase f

/- The images of the second build have the same of it. -/
def KeepsMetadata (build : PartialBuild P I) : Prop :=
  ∀ p ∈ build.enabled,
    ∀ f ∈ (build.packages p).list,
      build.full.staging f = true →
      build.attrsIn build.disk build.database f =
        build.fullAttrs f

/- Only the records of a file count. -/
theorem attrsIn_congr
    {build : PartialBuild P I}
    {db other : FakeDb I}
    {f : Text}
    (hRecords :
      (recordsOf db (build.inodes.staging f)).map
          FakeStat.attrs =
        (recordsOf other (build.inodes.staging f)).map
          FakeStat.attrs)
    (disk : Text → FakeStat I) :
    build.attrsIn disk db f = build.attrsIn disk other f := by
  have hLast := congrArg List.getLast? hRecords
  rw [List.getLast?_map, List.getLast?_map] at hLast
  simp only [attrsIn, processStat, dataFind_loadDatabase]
  cases hFirst : (recordsOf db
      (build.inodes.staging f)).getLast? with
  | none =>
      rw [hFirst, Option.map_none] at hLast
      rw [Option.map_eq_none_iff.mp hLast.symm]
  | some st =>
      rw [hFirst, Option.map_some] at hLast
      rcases Option.map_eq_some_iff.mp hLast.symm with
        ⟨found, hFound, hAttrs⟩
      rw [hFound]
      exact hAttrs.symm

/- The lists are those of the full build. -/
theorem listsUnchanged
    (build : PartialBuild P I) :
    ListsUnchanged build.packagesAgain build.named
      build.full := by
  intro p hNamed
  have hOrdered := build.fullOrdered p
  rw [if_pos (build.named_enabled p hNamed)] at hOrdered
  rcases stagedInRun build.fullCompletes hOrdered with
    ⟨_, _, hFull, _⟩
  rw [hFull.filelist, build.sameList p hNamed]

theorem package_mem_named
    (build : PartialBuild P I)
    {step : OwnershipStep P}
    (hStep : step ∈ build.steps) :
    step.package ∈ build.named := by
  by_contra hNot
  have hOrdered := build.ordered step.package
  rw [if_neg hNot] at hOrdered
  exact List.filter_eq_nil_iff.mp hOrdered step hStep
    (decide_eq_true rfl)

/- The records of a package that is staged again. -/
theorem attrs_fakerootStaging
    (build : PartialBuild P I)
    {p : P}
    (hNamed : p ∈ build.named)
    (ino : I) :
    (recordsOf (build.final.fakerootStaging p) ino).map
        FakeStat.attrs =
      (recordsOf
        (ownRecords build.inodes.staging
          (build.packages p).list (build.full.fakeroot p))
        ino).map FakeStat.attrs := by
  have hFullOrdered := build.fullOrdered p
  rw [if_pos (build.named_enabled p hNamed)] at hFullOrdered
  have hOrdered := build.ordered p
  rw [if_pos hNamed] at hOrdered
  rcases stagedInRun build.fullCompletes hFullOrdered with
    ⟨first, _, hFull, _⟩
  rcases stagedInRun build.completes hOrdered with
    ⟨again, filtered, hAgain, hExist⟩
  have hStaged := hExist build.named build.listsUnchanged
    (fun _ hStep => build.package_mem_named hStep)
  have hList := build.sameList p hNamed
  rcases fakerootFilter_staged hAgain.fakerootStaging
      hStaged with ⟨hNodup, hKept⟩
  rw [hList, build.staging_again] at hNodup hKept
  rw [hKept]
  unfold ownRecords
  rw [recordsOf_filter, recordsOf_filter]
  split
  · next hMem =>
      rcases List.mem_map.mp hMem with ⟨f, hFile, rfl⟩
      rw [hAgain.fakeroot, ← hAgain.fakeroot_first]
      apply attrs_recordsOf_again build.staging_again hList
        hNodup hFile
      · rw [hAgain.filelist_first, hFull.filelist, hList]
      · rw [hAgain.fakeroot_first, hFull.fakeroot]
      · rw [hAgain.fakeroot_first, hFull.fakeroot_first]
        exact build.sameTree p hNamed f hFile
  · rfl

/- The second data base holds the records of those named. -/
theorem attrsIn_database
    (build : PartialBuild P I)
    (disk : Text → FakeStat I)
    (f : Text) :
    build.attrsIn disk build.database f =
      build.attrsIn disk build.namedRecords f := by
  apply attrsIn_congr
  unfold database namedRecords recordsOf
  rw [List.filter_flatMap, List.filter_flatMap,
    List.map_flatMap, List.map_flatMap]
  apply List.flatMap_congr
  intro p hNamed
  exact build.attrs_fakerootStaging hNamed _

/- A named package has a record of every file of its list. -/
theorem recordsOf_namedRecords_ne_nil
    (build : PartialBuild P I)
    {p : P}
    {f : Text}
    (hNamed : p ∈ build.named)
    (hFile : f ∈ (build.packages p).list) :
    recordsOf build.namedRecords
      (build.inodes.staging f) ≠ [] := by
  have hFullOrdered := build.fullOrdered p
  rw [if_pos (build.named_enabled p hNamed)] at hFullOrdered
  have hOrdered := build.ordered p
  rw [if_pos hNamed] at hOrdered
  rcases stagedInRun build.fullCompletes hFullOrdered with
    ⟨first, _, hFull, _⟩
  rcases stagedInRun build.completes hOrdered with
    ⟨_, _, hAgain, hExist⟩
  have hStaged := hExist build.named build.listsUnchanged
    (fun _ hStep => build.package_mem_named hStep)
  have hNodup :=
    (fakerootFilter_staged hAgain.fakerootStaging hStaged).1
  rw [build.sameList p hNamed, build.staging_again] at hNodup
  rcases recordsOf_stagingSession hNodup hFile first with
    ⟨cleaned, hRecords, _⟩
  rw [← hFull.fakeroot] at hRecords
  intro hNone
  unfold namedRecords recordsOf at hNone
  rw [List.filter_flatMap, List.flatMap_eq_nil_iff] at hNone
  have hOwn := hNone p hNamed
  change recordsOf (ownRecords build.inodes.staging
    (build.packages p).list (build.full.fakeroot p))
      (build.inodes.staging f) = [] at hOwn
  unfold ownRecords at hOwn
  rw [recordsOf_filter,
    if_pos (List.mem_map_of_mem hFile), hRecords] at hOwn
  cases hOwn

/- The second build leaves the files of the others. -/
theorem disk_eq_fullDisk
    (build : PartialBuild P I)
    {f : Text}
    (hNone : recordsOf build.namedRecords
      (build.inodes.staging f) = []) :
    build.disk f = build.fullDisk f := by
  have hCopiers :
      copiers build.packagesAgain build.steps f = [] := by
    unfold copiers
    rw [List.filter_eq_nil_iff]
    intro p hCopied hListed
    rcases List.mem_filterMap.mp hCopied with
      ⟨step, hStep, hStaged⟩
    have hPackage : step.package = p := by
      cases step with
      | staging q => exact Option.some.inj hStaged
      | filterStaging q => cases hStaged
      | rootfs q => cases hStaged
      | strip q => cases hStaged
      | filterRootfs q => cases hStaged
    have hNamed := build.package_mem_named hStep
    rw [hPackage] at hNamed
    rw [decide_eq_true_eq, build.sameList p hNamed]
      at hListed
    exact build.recordsOf_namedRecords_ne_nil hNamed hListed
      hNone
  unfold disk stagedFile
  rw [hCopiers]
  rfl

/-
  The records of the named packages give a staged file its
  attributes: the last one has them, or there is none and the
  file is one of root, as it is on the disk.
-/
def Described
    (build : PartialBuild P I)
    (f : Text) : Prop :=
  match (recordsOf build.namedRecords
      (build.inodes.staging f)).getLast? with
  | some st => st.attrs = build.fullAttrs f
  | none =>
      (⟨0, 0, (build.fullDisk f).mode,
        (build.fullDisk f).rdev⟩ : FakeAttrs) =
          build.fullAttrs f

theorem described_iff
    (build : PartialBuild P I)
    (f : Text) :
    build.Described f ↔
      build.attrsIn build.disk build.namedRecords f =
        build.fullAttrs f := by
  unfold Described
  simp only [attrsIn, processStat, dataFind_loadDatabase]
  cases hLast : (recordsOf build.namedRecords
      (build.inodes.staging f)).getLast? with
  | none =>
      have hDisk := build.disk_eq_fullDisk
        (List.getLast?_eq_none_iff.mp hLast)
      rw [← hDisk]
      rfl
  | some st => rfl

end PartialBuild

end Packages

------------------------------------------------------------
-- A Package That Is Not Named
------------------------------------------------------------

/- Inodes for two packages. -/
def pairInodes : Inodes Bool (Nat × Text) where
  pkginst p f := (if p then 4 else 3, f)
  staging f := (1, f)
  rootfs f := (2, f)
  pkginst_ne_staging p _ _ h := by cases p <;> cases h
  pkginst_ne_rootfs p _ _ h := by cases p <;> cases h
  staging_ne_rootfs := taggedInodes.staging_ne_rootfs
  rootfs_injective := taggedInodes.rootfs_injective

/- `./bin/sh`, as `find` prints it. -/
def shName : Text :=
  ['.', '/', 'b', 'i', 'n', '/', 's', 'h']

/- `./dev/console`. -/
def consoleName : Text :=
  ['.', '/', 'd', 'e', 'v', '/', 'c', 'o', 'n', 's', 'o', 'l',
    'e']

/- The entry of the installed `dev/console`. -/
def consoleStat : FakeStat (Nat × Text) where
  ino := (4, consoleName)
  mode := 0o020600
  uid := 0
  gid := 0
  nlink := 1
  rdev := 0x501

/- A plain file of the other package. -/
def shStat : FakeStat (Nat × Text) where
  ino := (3, shName)
  mode := 0o100755
  uid := 0
  gid := 0
  nlink := 1
  rdev := 0

/- One package makes a device, the other one `bin/sh`. -/
def pairRules (p : Bool) : PackageRules pairInodes p where
  list := if p then [consoleName] else [shName]
  stat _ :=
    if p then
      copiedFile consoleStat (4, consoleName)
    else
      shStat
  install :=
    if p then
      [.mknod consoleStat,
        .chmod (copiedFile consoleStat (4, consoleName))]
    else
      []
  copies := []
  strips := []
  installsOwn msg hMsg := by
    cases p with
    | false => cases hMsg
    | true =>
        rcases List.mem_cons.mp hMsg with rfl | hMsg
        · exact ⟨consoleName, rfl⟩
        · rw [List.mem_singleton.mp hMsg]
          exact ⟨consoleName, rfl⟩

/- An empty build directory. -/
def emptyPair : OwnershipState Bool (Nat × Text) where
  filelist _ := []
  fakeroot _ := []
  fakerootStaging _ := []
  fakerootRootfs _ := []
  staging _ := false
  rootfs _ := false

/- The full build stages both packages. -/
def pairFull : OwnershipState Bool (Nat × Text) :=
  (ownershipRun pairRules emptyPair
    [.staging true, .filterStaging true,
      .staging false, .filterStaging false]).getD emptyPair

/- Then `make` with the second package. -/
def pairBuild : PartialBuild Bool (Nat × Text) where
  inodes := pairInodes
  packages := pairRules
  enabled := [true, false]
  start := emptyPair
  fullSteps :=
    [.staging true, .filterStaging true,
      .staging false, .filterStaging false]
  full := pairFull
  fullOrdered p := by cases p <;> rfl
  fullCompletes := rfl
  named := [false]
  named_ne_nil := List.cons_ne_nil _ _
  named_enabled _ _ := by simp
  inodesAgain := pairInodes
  staging_again := rfl
  packagesAgain := pairRules
  steps := [.staging false, .filterStaging false]
  final :=
    (ownershipRun pairRules pairFull
      [.staging false, .filterStaging false]).getD emptyPair
  ordered p := by cases p <;> rfl
  completes := rfl
  sameList _ _ := rfl
  sameTree p hNamed f hFile := by
    rw [List.mem_singleton.mp hNamed] at hFile ⊢
    rw [List.mem_singleton.mp hFile]
    rfl
  before _ := shStat

end Mkrootfs
