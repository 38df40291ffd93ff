import Mathlib.Algebra.Group.Nat.Defs
import Mathlib.Data.List.Basic
import Mkrootfs.Library.Text

/-
  The data base of `faked`, the messages that change it, and
  `fakeroot-filter` (`build-tools/fakeroot-1.14.4`).

  Main declarations:
    * `FakeStat`, `FakeDb`
    * `FakedMsg`, `processMsg`, `processStat`
    * `mem_fakedRun_of_ne`
    * `fakerootFilter`
-/

------------------------------------------------------------
-- Data Base
------------------------------------------------------------

namespace Mkrootfs

/-
  `struct fakestat`. An inode stands for a device, an inode
  number and the kind of file that has it.
-/
structure FakeStat (I : Type) where
  ino : I
  mode : Nat
  uid : Nat
  gid : Nat
  nlink : Nat
  rdev : Nat
deriving DecidableEq, Repr

/- The attributes that images are built with. -/
structure FakeAttrs where
  uid : Nat
  gid : Nat
  mode : Nat
  rdev : Nat
deriving DecidableEq, Repr

/- The attributes of an entry. -/
def FakeStat.attrs {I : Type} (st : FakeStat I) : FakeAttrs :=
  ⟨st.uid, st.gid, st.mode, st.rdev⟩

/- The entries, in the order in which they are saved. -/
abbrev FakeDb (I : Type) :=
  List (FakeStat I)

variable {I : Type} [DecidableEq I]

/-
  `data_find`, where `fakestat_equal` compares the kinds of
  file as well.
-/
def dataFind
    (db : FakeDb I)
    (ino : I) : Option (FakeStat I) :=
  db.find? (fun st => st.ino = ino)

/- `insert_or_overwrite`. -/
def insertOrOverwrite
    (st : FakeStat I) :
    FakeDb I → FakeDb I
| [] => [st]
| old :: db =>
    if old.ino = st.ino then
      st :: db
    else
      old :: insertOrOverwrite st db

/- `data_erase`. -/
def dataErase
    (db : FakeDb I)
    (ino : I) : FakeDb I :=
  db.filter (fun st => st.ino ≠ ino)

------------------------------------------------------------
-- Messages
------------------------------------------------------------

def sIfmt : Nat := 0o170000
def sIfreg : Nat := 0o100000
def sIfblk : Nat := 0o060000
def sIfdir : Nat := 0o040000
def sIfchr : Nat := 0o020000

/- `(uint32_t)id == (uint32_t)-1`. -/
def isUnchangedId (id : Nat) : Bool :=
  id % 2 ^ 32 = 2 ^ 32 - 1

/- `process_chown`. -/
def processChown
    (db : FakeDb I)
    (buf : FakeStat I) : FakeDb I :=
  match dataFind db buf.ino with
  | some st =>
      insertOrOverwrite
        { st with
          uid :=
            if isUnchangedId buf.uid then st.uid else buf.uid
          gid :=
            if isUnchangedId buf.gid then st.gid else buf.gid }
        db
  | none =>
      insertOrOverwrite
        { buf with
          uid := if isUnchangedId buf.uid then 0 else buf.uid
          gid := if isUnchangedId buf.gid then 0 else buf.gid }
        db

/- `!mode`. -/
def notMode (mode : Nat) : Nat :=
  if mode = 0 then 1 else 0

/- `process_chmod`, where `!` binds before `&`. -/
def processChmod
    (db : FakeDb I)
    (buf : FakeStat I) : FakeDb I :=
  match dataFind db buf.ino with
  | some st =>
      if buf.mode &&& sIfmt ≠ st.mode &&& sIfmt ∧
          (buf.mode &&& sIfmt ≠ sIfreg ∨
            notMode st.mode &&& (sIfblk ||| sIfchr) ≠ 0) then
        insertOrOverwrite { st with mode := buf.mode } db
      else
        insertOrOverwrite
          { st with
            mode :=
              (buf.mode ^^^ (buf.mode &&& sIfmt)) |||
                (st.mode &&& sIfmt) }
          db
  | none => insertOrOverwrite { buf with uid := 0, gid := 0 } db

/- `process_mknod`. -/
def processMknod
    (db : FakeDb I)
    (buf : FakeStat I) : FakeDb I :=
  match dataFind db buf.ino with
  | some st =>
      insertOrOverwrite
        { st with mode := buf.mode, rdev := buf.rdev } db
  | none => insertOrOverwrite { buf with uid := 0, gid := 0 } db

/- `process_unlink`. -/
def processUnlink
    (db : FakeDb I)
    (buf : FakeStat I) : FakeDb I :=
  if buf.nlink = 1 ∨
      (buf.mode &&& sIfmt = sIfdir ∧ buf.nlink = 2) then
    dataErase db buf.ino
  else
    db

/- The reply of `process_stat`, which changes nothing. -/
def processStat
    (db : FakeDb I)
    (buf : FakeStat I) : FakeStat I :=
  match dataFind db buf.ino with
  | some st => { st with nlink := buf.nlink }
  | none => { buf with uid := 0, gid := 0 }

/- The messages that change the data base. -/
inductive FakedMsg (I : Type) where
| chown (st : FakeStat I)
| chmod (st : FakeStat I)
| mknod (st : FakeStat I)
| unlink (st : FakeStat I)
deriving DecidableEq, Repr

/- The inode that a message is about. -/
def FakedMsg.ino {I : Type} : FakedMsg I → I
| chown st => st.ino
| chmod st => st.ino
| mknod st => st.ino
| unlink st => st.ino

/- `process_msg`. -/
def processMsg
    (db : FakeDb I) :
    FakedMsg I → FakeDb I
| .chown st => processChown db st
| .chmod st => processChmod db st
| .mknod st => processMknod db st
| .unlink st => processUnlink db st

/- The data base after the messages of a session. -/
def fakedRun
    (db : FakeDb I)
    (msgs : List (FakedMsg I)) : FakeDb I :=
  msgs.foldl processMsg db

------------------------------------------------------------
-- Other Inodes
------------------------------------------------------------

/- An entry of another inode is neither added nor lost. -/
theorem mem_insertOrOverwrite_of_ne
    {st entry : FakeStat I}
    (hNe : st.ino ≠ entry.ino)
    (db : FakeDb I) :
    entry ∈ insertOrOverwrite st db ↔ entry ∈ db := by
  have hNeEntry : entry ≠ st := by
    rintro rfl
    exact hNe rfl
  induction db with
  | nil => simp [insertOrOverwrite, hNeEntry]
  | cons old db ih =>
      unfold insertOrOverwrite
      split
      · next hSame =>
          have hOther : entry ≠ old := by
            rintro rfl
            exact hNe hSame.symm
          simp [hNeEntry, hOther]
      · simp [ih]

/- The entry that is found is one of the inode. -/
theorem dataFind_ino
    {db : FakeDb I}
    {ino : I}
    {st : FakeStat I}
    (hFind : dataFind db ino = some st) :
    st.ino = ino := by
  simpa using List.find?_some hFind

/- A message only concerns the entry of its inode. -/
theorem mem_processMsg_of_ne
    {entry : FakeStat I}
    {msg : FakedMsg I}
    (hNe : msg.ino ≠ entry.ino)
    (db : FakeDb I) :
    entry ∈ processMsg db msg ↔ entry ∈ db := by
  have hFound :
      ∀ st, dataFind db msg.ino = some st →
        st.ino ≠ entry.ino := by
    intro st hFind
    rw [dataFind_ino hFind]
    exact hNe
  cases msg with
  | chown buf =>
      simp only [processMsg, processChown]
      split
      · next st hFind =>
          apply mem_insertOrOverwrite_of_ne
          exact hFound st hFind
      · apply mem_insertOrOverwrite_of_ne
        exact hNe
  | chmod buf =>
      simp only [processMsg, processChmod]
      split
      · next st hFind =>
          split
          · apply mem_insertOrOverwrite_of_ne
            exact hFound st hFind
          · apply mem_insertOrOverwrite_of_ne
            exact hFound st hFind
      · apply mem_insertOrOverwrite_of_ne
        exact hNe
  | mknod buf =>
      simp only [processMsg, processMknod]
      split
      · next st hFind =>
          apply mem_insertOrOverwrite_of_ne
          exact hFound st hFind
      · apply mem_insertOrOverwrite_of_ne
        exact hNe
  | unlink buf =>
      simp only [processMsg, processUnlink]
      split
      · have hOther : entry.ino ≠ buf.ino := fun hEq =>
          hNe hEq.symm
        simp [dataErase, hOther]
      · rfl

/- A session only concerns the inodes of its messages. -/
theorem mem_fakedRun_of_ne
    {entry : FakeStat I}
    {msgs : List (FakedMsg I)}
    (hNe : ∀ msg ∈ msgs, msg.ino ≠ entry.ino)
    (db : FakeDb I) :
    entry ∈ fakedRun db msgs ↔ entry ∈ db := by
  induction msgs generalizing db with
  | nil => rfl
  | cons msg msgs ih =>
      have hRest : ∀ other ∈ msgs, other.ino ≠ entry.ino :=
        fun other hMem =>
          hNe other (List.mem_cons_of_mem msg hMem)
      have hStep := mem_processMsg_of_ne
        (hNe msg List.mem_cons_self) db
      exact (ih hRest (processMsg db msg)).trans hStep

------------------------------------------------------------
-- Filter
------------------------------------------------------------

/-
  The first loop of `fakeroot-filter`: the inodes of the
  files of the list. Names that do not exist are left out,
  and an inode that comes up twice is an error.
-/
def filterInodes
    (lstat : Text → Option I) :
    List Text →
    List I →
    Option (List I)
| [], inodes => some inodes
| f :: list, inodes =>
    match lstat f with
    | none => filterInodes lstat list inodes
    | some ino =>
        if ino ∈ inodes then
          none
        else
          filterInodes lstat list (ino :: inodes)

/- `fakeroot-filter basedir list fakeroot-state`. -/
def fakerootFilter
    (lstat : Text → Option I)
    (list : List Text)
    (db : FakeDb I) : Option (FakeDb I) :=
  (filterInodes lstat list []).map (fun inodes =>
    db.filter (fun st => st.ino ∈ inodes))

/- The inodes that the first loop collects. -/
theorem mem_filterInodes
    {lstat : Text → Option I}
    {list : List Text}
    {before inodes : List I}
    (hInodes : filterInodes lstat list before = some inodes)
    (ino : I) :
    ino ∈ inodes ↔
      ino ∈ before ∨ ∃ f ∈ list, lstat f = some ino := by
  induction list generalizing before with
  | nil =>
      cases hInodes
      simp
  | cons f list ih =>
      unfold filterInodes at hInodes
      split at hInodes
      · next hStat =>
          rw [ih hInodes]
          simp [hStat]
      · next found hStat =>
          split at hInodes
          · cases hInodes
          · rw [ih hInodes]
            simp only [List.mem_cons, hStat,
              exists_eq_or_imp, Option.some.injEq]
            constructor
            · rintro ((hEq | hMem) | hRest)
              · exact Or.inr (Or.inl hEq.symm)
              · exact Or.inl hMem
              · exact Or.inr (Or.inr hRest)
            · rintro (hMem | hEq | hRest)
              · exact Or.inl (Or.inr hMem)
              · exact Or.inl (Or.inl hEq.symm)
              · exact Or.inr hRest

/- The filter keeps the entries of the listed files. -/
theorem mem_fakerootFilter
    {lstat : Text → Option I}
    {list : List Text}
    {db kept : FakeDb I}
    (hFilter : fakerootFilter lstat list db = some kept)
    (entry : FakeStat I) :
    entry ∈ kept ↔
      entry ∈ db ∧ ∃ f ∈ list, lstat f = some entry.ino := by
  unfold fakerootFilter at hFilter
  rcases Option.map_eq_some_iff.mp hFilter with
    ⟨inodes, hInodes, rfl⟩
  have hMem := mem_filterInodes hInodes entry.ino
  simp only [List.not_mem_nil, false_or] at hMem
  simp [List.mem_filter, hMem]

end Mkrootfs
