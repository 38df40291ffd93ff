import Mkrootfs.Build.Faked
import Mkrootfs.Library.NumberText

/-
  `fakeroot-filter` and the state files of `faked`, with
  the numbers, buffers and lines that they read and write
  (`build-tools/fakeroot-1.14.4`).

  Main declarations:
    * `FakerootFilter.saveDatabase`
    * `FakerootFilter.fakerootFilter`
    * `FakerootFilter.Recognised`
    * `FakerootFilter.filter_keeps_iff`
    * `FakerootFilter.filter_refines`
-/

------------------------------------------------------------
-- The State File
------------------------------------------------------------

namespace Mkrootfs

namespace FakerootFilter

/- `struct fakestat`, as far as it is saved. -/
structure Fakestat where
  uid : UInt32
  gid : UInt32
  ino : UInt64
  dev : UInt64
  rdev : UInt64
  mode : UInt32
  nlink : UInt32
deriving DecidableEq

/- `data_node_t`. -/
structure DataNode where
  buf : Fakestat
  remote : UInt32
deriving DecidableEq

/- What `fprintf` writes before the newline. -/
def saveLine (buf : Fakestat) : Text :=
  "dev=".toList ++ (Nat.toDigits 16 buf.dev.toNat ++
    ",ino=".toList ++ (Nat.toDigits 10 buf.ino.toNat ++
      ",mode=".toList ++ (Nat.toDigits 8 buf.mode.toNat ++
        ",uid=".toList ++ (Nat.toDigits 10 buf.uid.toNat ++
          ",gid=".toList ++ (Nat.toDigits 10 buf.gid.toNat ++
            ",nlink=".toList ++
              (Nat.toDigits 10 buf.nlink.toNat ++
                ",rdev=".toList ++
                  Nat.toDigits 10 buf.rdev.toNat))))))

/- The entries that `save_database` writes. -/
def savedEntries
    (remote : UInt32)
    (nodes : List DataNode) : List Fakestat :=
  (nodes.filter (fun i => i.remote = remote)).map
    DataNode.buf

/- `save_database`. -/
def saveDatabase
    (remote : UInt32)
    (nodes : List DataNode) : Text :=
  Text.unlines ((savedEntries remote nodes).map saveLine)

------------------------------------------------------------
-- The Program
------------------------------------------------------------

/- What `lstat` gives for a path. -/
inductive Lstat where
| found (dev ino : UInt64)
| noent
| failed
deriving DecidableEq

/- `(long)sb.st_ino`. -/
def asLong (width : Nat) (ino : UInt64) : Int :=
  (BitVec.ofNat width ino.toNat).toInt

/- `%ld` stops at the ends of a `long`. -/
def scannedLong
    (width : Nat)
    (negative : Bool)
    (value : Nat) : Int :=
  if negative then
    max (-(value : Int)) (-2 ^ (width - 1))
  else
    min (value : Int) (2 ^ (width - 1) - 1)

/- The two numbers at the start of a line. -/
def scanFields
    (buffer : Text) : Option ((Bool × Nat) × (Bool × Nat)) := do
  let text ← scanLiteral "dev=".toList buffer
  let (devSign, dev, text) ← scanNumber 16 text
  let text ← scanLiteral ",ino=".toList text
  let (inoSign, ino, _) ← scanNumber 10 text
  some ((devSign, dev), (inoSign, ino))

/-
  `sscanf(buffer, "dev=%lx,ino=%ld", &dev, &ino) == 2`, and
  the inode number. The device number is not used.
-/
def scanIno (width : Nat) (buffer : Text) : Option Int :=
  (scanFields buffer).map (fun numbers =>
    scannedLong width numbers.2.1 numbers.2.2)

/- `compar`. -/
def compar (first second : Int) : Int :=
  if first < second then
    -1
  else if first > second then
    1
  else
    0

/- `tfind`, in the tree that `tsearch` grows. -/
def tfind (key : Int) (troot : List Int) : Bool :=
  troot.any (fun other => compar key other = 0)

/- `filename[namelen] = 0`, newline or not. -/
def filename (basedir chunk : Text) : Text :=
  (basedir ++ '/' :: chunk).dropLast

/- The loop over the list. -/
def readList
    (lstat : Text → Lstat)
    (width : Nat)
    (basedir : Text) :
    List Text →
    List Int →
    Option (List Int)
| [], troot => some troot
| chunk :: chunks, troot =>
    match lstat (filename basedir chunk) with
    | .noent => readList lstat width basedir chunks troot
    | .failed => none
    | .found _ ino =>
        let key := asLong width ino
        if tfind key troot then
          none
        else
          readList lstat width basedir chunks (key :: troot)

/- The output, and whether the program exits with success. -/
structure Run where
  output : Text
  success : Bool
deriving DecidableEq

/- The loop over the state. -/
def filterState
    (width : Nat)
    (troot : List Int) :
    List Text →
    Run
| [] => ⟨[], true⟩
| buffer :: buffers =>
    match scanIno width buffer with
    | none => ⟨[], false⟩
    | some ino =>
        let run := filterState width troot buffers
        if tfind ino troot then
          ⟨buffer ++ run.output, run.success⟩
        else
          run

/-
  What `fgets` reads behind `basedir/` in a buffer of `len`
  bytes. The copy of a longer `basedir` would overrun it.
  With room for nothing `fgets` gives up at once, and with
  room for the final NUL only it never gets on.
-/
def listChunks
    (len : Nat)
    (basedir list : Text) : Option (List Text) :=
  let used := basedir.length + 1
  if len < used then
    none
  else if len = used then
    some []
  else if len = used + 1 then
    none
  else
    some (Text.fgets (len - used) list)

/-
  `fakeroot-filter basedir list fakeroot-state`, with the
  files as far as they can be opened.
-/
def fakerootFilter
    (lstat : Text → Lstat)
    (width len : Nat)
    (basedir : Text)
    (list state : Option Text) : Run :=
  let run := do
    let list ← list
    let chunks ← listChunks len basedir list
    let troot ← readList lstat width basedir chunks []
    let state ← state
    some (filterState width troot (Text.fgets 256 state))
  run.getD ⟨[], false⟩

------------------------------------------------------------
-- A Saved Line
------------------------------------------------------------

theorem scanFields_saveLine
    (buf : Fakestat)
    (rest : Text) :
    scanFields (saveLine buf ++ rest) =
      some ((false, buf.dev.toNat),
        (false, buf.ino.toNat)) := by
  unfold scanFields saveLine
  simp only [List.append_assoc, scanLiteral_append,
    Option.bind_eq_bind, Option.bind_some]
  have hIno : ∀ text : Text,
      ",ino=".toList ++ text = ',' :: "ino=".toList ++ text :=
    fun text => rfl
  have hMode : ∀ text : Text,
      ",mode=".toList ++ text =
        ',' :: "mode=".toList ++ text :=
    fun text => rfl
  rw [hIno, List.cons_append,
    scanNumber_toDigits _ _ (by decide) (by decide)]
  simp only [Option.bind_some]
  rw [← List.cons_append, ← hIno, scanLiteral_append]
  simp only [Option.bind_some]
  rw [hMode, List.cons_append,
    scanNumber_toDigits _ _ (by decide) (by decide)]
  rfl

/- The numbers of an entry are known from its line. -/
theorem identity_of_saveLine_eq
    {buf other : Fakestat}
    (hEq : saveLine buf = saveLine other) :
    buf.dev = other.dev ∧ buf.ino = other.ino := by
  have hFields := scanFields_saveLine buf []
  rw [hEq, scanFields_saveLine other []] at hFields
  simp only [Option.some.injEq, Prod.mk.injEq,
    true_and] at hFields
  exact ⟨UInt64.toNat_inj.mp hFields.1.symm,
    UInt64.toNat_inj.mp hFields.2.symm⟩

/- Digits are no newline. -/
theorem newline_not_mem_toDigits
    {base n : Nat}
    (hBase : 1 < base)
    (hSixteen : base ≤ 16) :
    '\n' ∉ Nat.toDigits base n := by
  intro hMem
  have hDigit :=
    digitValue_lt_of_mem_toDigits hBase hSixteen hMem
  have hValue : digitValue '\n' = 16 := by decide
  omega

theorem newline_not_mem_saveLine
    (buf : Fakestat) :
    '\n' ∉ saveLine buf := by
  unfold saveLine
  simp [newline_not_mem_toDigits]

/- Every saved line fits `buffer`. -/
theorem length_saveLine
    (buf : Fakestat) :
    (saveLine buf).length + 1 < 256 := by
  have hDev : (Nat.toDigits 16 buf.dev.toNat).length ≤ 16 :=
    (Nat.length_toDigits_le_iff (by decide)
      (by decide)).mpr buf.dev.toNat_lt
  have hLong : ∀ n : UInt64,
      (Nat.toDigits 10 n.toNat).length ≤ 20 :=
    fun n =>
      (Nat.length_toDigits_le_iff (by decide)
        (by decide)).mpr
        (lt_of_lt_of_le n.toNat_lt (by decide))
  have hShort : ∀ n : UInt32,
      (Nat.toDigits 10 n.toNat).length ≤ 10 :=
    fun n =>
      (Nat.length_toDigits_le_iff (by decide)
        (by decide)).mpr
        (lt_of_lt_of_le n.toNat_lt (by decide))
  have hMode :
      (Nat.toDigits 8 buf.mode.toNat).length ≤ 11 :=
    (Nat.length_toDigits_le_iff (by decide)
      (by decide)).mpr
      (lt_of_lt_of_le buf.mode.toNat_lt (by decide))
  have hIno := hLong buf.ino
  have hRdev := hLong buf.rdev
  have hUid := hShort buf.uid
  have hGid := hShort buf.gid
  have hNlink := hShort buf.nlink
  unfold saveLine
  simp
  omega

/- The state is read line by line. -/
theorem fgets_saveDatabase
    (remote : UInt32)
    (nodes : List DataNode) :
    Text.fgets 256 (saveDatabase remote nodes) =
      (savedEntries remote nodes).map
        (fun buf => saveLine buf ++ ['\n']) := by
  unfold saveDatabase
  rw [Text.fgets_unlines, List.map_map]
  · rfl
  · intro line hLine
    obtain ⟨buf, _, rfl⟩ := List.mem_map.mp hLine
    exact ⟨newline_not_mem_saveLine buf,
      length_saveLine buf⟩

------------------------------------------------------------
-- The Two Loops
------------------------------------------------------------

/- The tree finds what was put in. -/
theorem tfind_iff
    {key : Int}
    {troot : List Int} :
    tfind key troot = true ↔ key ∈ troot := by
  have hCompar :
      ∀ other, compar key other = 0 ↔ key = other := by
    intro other
    unfold compar
    split <;> [skip; split] <;> omega
  simp [tfind, hCompar]

/- The keys after the first loop. -/
theorem mem_readList_iff
    {lstat : Text → Lstat}
    {width : Nat}
    {basedir : Text}
    {chunks : List Text}
    {before troot : List Int}
    (hRead :
      readList lstat width basedir chunks before =
        some troot)
    (key : Int) :
    key ∈ troot ↔
      key ∈ before ∨
        ∃ chunk ∈ chunks, ∃ dev ino,
          lstat (filename basedir chunk) =
              .found dev ino ∧
            asLong width ino = key := by
  induction chunks generalizing before with
  | nil =>
      cases hRead
      simp
  | cons chunk chunks ih =>
      unfold readList at hRead
      cases hStat : lstat (filename basedir chunk) with
      | noent =>
          simp only [hStat] at hRead
          simp [ih hRead, hStat]
      | failed => simp [hStat] at hRead
      | found dev ino =>
          simp only [hStat] at hRead
          split at hRead
          · exact absurd hRead (by simp)
          · rw [ih hRead, List.mem_cons]
            constructor
            · rintro ((rfl | hBefore) | hRest)
              · exact Or.inr ⟨chunk, List.mem_cons_self,
                  dev, ino, hStat, rfl⟩
              · exact Or.inl hBefore
              · obtain ⟨other, hOther, hFound⟩ := hRest
                exact Or.inr ⟨other,
                  List.mem_cons_of_mem chunk hOther,
                  hFound⟩
            · rintro (hBefore | ⟨other, hOther, hFound⟩)
              · exact Or.inl (Or.inr hBefore)
              · rcases List.mem_cons.mp hOther with
                  rfl | hRest
                · obtain ⟨dev', ino', hSame, hKey⟩ := hFound
                  rw [hStat] at hSame
                  cases hSame
                  exact Or.inl (Or.inl hKey.symm)
                · exact Or.inr ⟨other, hRest, hFound⟩

/- The saved lines that the second loop prints. -/
theorem filterState_saved
    (width : Nat)
    (troot : List Int)
    (entries : List Fakestat) :
    filterState width troot
        (entries.map (fun buf => saveLine buf ++ ['\n'])) =
      ⟨Text.unlines ((entries.filter (fun buf =>
          tfind (scannedLong width false buf.ino.toNat)
            troot)).map saveLine),
        true⟩ := by
  induction entries with
  | nil => rfl
  | cons buf entries ih =>
      have hScan :
          scanIno width (saveLine buf ++ ['\n']) =
            some (scannedLong width false
              buf.ino.toNat) := by
        simp [scanIno, scanFields_saveLine]
      rw [List.map_cons, filterState]
      simp only [hScan, ih]
      by_cases hFind :
          tfind (scannedLong width false buf.ino.toNat)
            troot = true
      · simp [hFind]
      · simp [hFind]

------------------------------------------------------------
-- Listed Files
------------------------------------------------------------

/- The entry of an existing file of the list. -/
def Listed
    (lstat : Text → Lstat)
    (basedir list : Text)
    (buf : Fakestat) : Prop :=
  ∃ name ∈ Text.lines list,
    lstat (basedir ++ '/' :: name) =
      .found buf.dev buf.ino

instance
    (lstat : Text → Lstat)
    (basedir list : Text) :
    DecidablePred (Listed lstat basedir list) := by
  unfold Listed
  infer_instance

/- What the program should print. -/
def keptLines
    (lstat : Text → Lstat)
    (basedir list : Text)
    (remote : UInt32)
    (nodes : List DataNode) : Text :=
  Text.unlines
    (((savedEntries remote nodes).filter
        (fun buf => Listed lstat basedir list buf)).map
      saveLine)

/-
  The names as they are read: whole if a newline ends them
  in the buffer, else without the last character, and in
  pieces if they are too long.
-/
def namesRead
    (len : Nat)
    (basedir list : Text) : List Text :=
  ((listChunks len basedir list).getD []).map List.dropLast

/-
  A file that is read has the number of the entry, as far as
  a `long` can tell.
-/
def SharesNumber
    (lstat : Text → Lstat)
    (width len : Nat)
    (basedir list : Text)
    (buf : Fakestat) : Prop :=
  ∃ name ∈ namesRead len basedir list, ∃ dev ino,
    lstat (basedir ++ '/' :: name) = .found dev ino ∧
      asLong width ino =
        scannedLong width false buf.ino.toNat

/- An entry whose number tells whether it is listed. -/
structure Recognised
    (lstat : Text → Lstat)
    (width len : Nat)
    (basedir list : Text)
    (buf : Fakestat) : Prop where
  listed :
    Listed lstat basedir list buf →
      SharesNumber lstat width len basedir list buf
  unlisted :
    ¬ Listed lstat basedir list buf →
      ¬ SharesNumber lstat width len basedir list buf

theorem filename_of_mem
    {len : Nat}
    {basedir list chunk : Text}
    {chunks : List Text}
    (hChunks : listChunks len basedir list = some chunks)
    (hChunk : chunk ∈ chunks) :
    filename basedir chunk =
      basedir ++ '/' :: chunk.dropLast := by
  have hNonempty : chunk ≠ [] := by
    unfold listChunks at hChunks
    simp only at hChunks
    split at hChunks
    · exact absurd hChunks (by simp)
    · split at hChunks
      · cases hChunks
        exact absurd hChunk List.not_mem_nil
      · split at hChunks
        · exact absurd hChunks (by simp)
        · cases hChunks
          exact Text.ne_nil_of_mem_fgetsFrom hChunk
  unfold filename
  rw [List.dropLast_append_of_ne_nil (by simp),
    List.dropLast_cons_of_ne_nil hNonempty]

/- The tree holds the numbers of the files that are read. -/
theorem tfind_iff_sharesNumber
    {lstat : Text → Lstat}
    {width len : Nat}
    {basedir list : Text}
    {chunks : List Text}
    {troot : List Int}
    (hChunks : listChunks len basedir list = some chunks)
    (hRead :
      readList lstat width basedir chunks [] = some troot)
    (buf : Fakestat) :
    tfind (scannedLong width false buf.ino.toNat)
        troot = true ↔
      SharesNumber lstat width len basedir list buf := by
  rw [tfind_iff, mem_readList_iff hRead]
  unfold SharesNumber namesRead
  rw [hChunks, Option.getD_some]
  constructor
  · rintro (hNone | ⟨chunk, hChunk, hFound⟩)
    · exact absurd hNone List.not_mem_nil
    · rw [filename_of_mem hChunks hChunk] at hFound
      exact ⟨chunk.dropLast, List.mem_map_of_mem hChunk,
        hFound⟩
  · rintro ⟨name, hName, hFound⟩
    obtain ⟨chunk, hChunk, rfl⟩ := List.mem_map.mp hName
    rw [← filename_of_mem hChunks hChunk] at hFound
    exact Or.inr ⟨chunk, hChunk, hFound⟩

------------------------------------------------------------
-- The Output
------------------------------------------------------------

/-
  A run that ends well prints the entries of the listed
  files when the numbers in the tree tell them from the
  others.
-/
theorem filter_keeps_iff
    {lstat : Text → Lstat}
    {width len : Nat}
    {basedir list : Text}
    {remote : UInt32}
    {nodes : List DataNode}
    (hSuccess :
      (fakerootFilter lstat width len basedir (some list)
        (some (saveDatabase remote nodes))).success =
          true) :
    (fakerootFilter lstat width len basedir (some list)
        (some (saveDatabase remote nodes))).output =
        keptLines lstat basedir list remote nodes ↔
      ∀ buf ∈ savedEntries remote nodes,
        Recognised lstat width len basedir list buf := by
  cases hChunks : listChunks len basedir list with
  | none => simp [fakerootFilter, hChunks] at hSuccess
  | some chunks =>
      cases hRead :
          readList lstat width basedir chunks [] with
      | none =>
          simp [fakerootFilter, hChunks, hRead] at hSuccess
      | some troot =>
          have hRun :
              fakerootFilter lstat width len basedir
                  (some list)
                  (some (saveDatabase remote nodes)) =
                filterState width troot
                  ((savedEntries remote nodes).map
                    (fun buf => saveLine buf ++ ['\n'])) := by
            simp [fakerootFilter, hChunks, hRead,
              fgets_saveDatabase]
          rw [hRun, filterState_saved]
          unfold keptLines
          rw [Text.unlines_filter_eq_iff]
          · refine forall₂_congr (fun buf _ => ?_)
            rw [Bool.eq_iff_iff,
              tfind_iff_sharesNumber hChunks hRead,
              decide_eq_true_eq]
            constructor
            · intro hSame
              exact ⟨hSame.mpr, fun hUnlisted hShares =>
                hUnlisted (hSame.mp hShares)⟩
            · intro hRecognised
              refine ⟨fun hShares => ?_,
                hRecognised.listed⟩
              by_contra hUnlisted
              exact hRecognised.unlisted hUnlisted hShares
          · intro buf _
            exact newline_not_mem_saveLine buf
          · intro buf other hEq
            rw [(identity_of_saveLine_eq hEq).2]
          · intro buf other hEq
            simp only [Listed,
              (identity_of_saveLine_eq hEq).1,
              (identity_of_saveLine_eq hEq).2]

/- A file system with one file of the package. -/
def stagingLstat (path : Text) : Lstat :=
  if path = "staging/bin/su".toList then
    .found 1 5
  else
    .noent

/- An entry of an inode. -/
def suEntry (dev ino : UInt64) : DataNode :=
  ⟨⟨0, 0, ino, dev, 0, 0o104755, 1⟩, 0⟩

/- The entry of another inode is left out. -/
theorem filter_keeps_su :
    (fakerootFilter stagingLstat 64 4096 "staging".toList
        (some "bin/su\n".toList)
        (some (saveDatabase 0
          [suEntry 1 5, suEntry 1 6]))).output =
        keptLines stagingLstat "staging".toList
          "bin/su\n".toList 0 [suEntry 1 5, suEntry 1 6] ↔
      ∀ buf ∈ savedEntries 0 [suEntry 1 5, suEntry 1 6],
        Recognised stagingLstat 64 4096 "staging".toList
          "bin/su\n".toList buf :=
  filter_keeps_iff (by decide +kernel)

/- The entry of the same inode of another device is kept. -/
theorem filter_keeps_other_device :
    (fakerootFilter stagingLstat 64 4096 "staging".toList
        (some "bin/su\n".toList)
        (some (saveDatabase 0
          [suEntry 1 5, suEntry 2 5]))).success = true ∧
      (fakerootFilter stagingLstat 64 4096
          "staging".toList (some "bin/su\n".toList)
          (some (saveDatabase 0
            [suEntry 1 5, suEntry 2 5]))).output ≠
        keptLines stagingLstat "staging".toList
          "bin/su\n".toList 0
          [suEntry 1 5, suEntry 2 5] := by
  decide +kernel

------------------------------------------------------------
-- Plain Lists
------------------------------------------------------------

/- Names with a newline and room for it are read whole. -/
theorem listChunks_unlines
    {len : Nat}
    {basedir : Text}
    {names : List Text}
    (hRoom : basedir.length + 3 ≤ len)
    (hNames :
      ∀ name ∈ names,
        '\n' ∉ name ∧
          basedir.length + name.length + 3 ≤ len) :
    listChunks len basedir (Text.unlines names) =
      some (names.map (fun name => name ++ ['\n'])) := by
  unfold listChunks
  simp only
  rw [if_neg (by omega), if_neg (by omega),
    if_neg (by omega), Text.fgets_unlines]
  intro name hName
  have hName := hNames name hName
  exact ⟨hName.1, by omega⟩

theorem asLong_of_lt
    {width : Nat}
    {ino : UInt64}
    (hWidth : 0 < width)
    (hIno : ino.toNat < 2 ^ (width - 1)) :
    asLong width ino = ino.toNat := by
  have hPow : 2 ^ width = 2 * 2 ^ (width - 1) := by
    rw [← Nat.pow_succ']
    congr 1
    omega
  unfold asLong
  rw [BitVec.toInt_eq_toNat_of_lt]
  · rw [BitVec.toNat_ofNat, Nat.mod_eq_of_lt (by omega)]
  · rw [BitVec.toNat_ofNat, Nat.mod_eq_of_lt (by omega)]
    omega

theorem scannedLong_of_lt
    {width value : Nat}
    (hValue : value < 2 ^ (width - 1)) :
    scannedLong width false value = value := by
  have hCast :
      (value : Int) < ((2 ^ (width - 1) : Nat) : Int) :=
    Int.ofNat_lt.mpr hValue
  push_cast at hCast
  simp only [scannedLong, Bool.false_eq_true, if_false]
  omega

/-
  With whole names and numbers that fit a `long`, only a
  listed file of another device with the same number makes
  an entry go wrong.
-/
theorem recognised_iff_of_plain
    {lstat : Text → Lstat}
    {width len : Nat}
    {basedir list : Text}
    {buf : Fakestat}
    (hWidth : 0 < width)
    (hNames :
      namesRead len basedir list = Text.lines list)
    (hFiles :
      ∀ name ∈ Text.lines list, ∀ dev ino,
        lstat (basedir ++ '/' :: name) = .found dev ino →
          ino.toNat < 2 ^ (width - 1))
    (hBuf : buf.ino.toNat < 2 ^ (width - 1)) :
    Recognised lstat width len basedir list buf ↔
      ∀ name ∈ Text.lines list, ∀ dev,
        lstat (basedir ++ '/' :: name) =
            .found dev buf.ino →
          Listed lstat basedir list buf := by
  have hShares :
      SharesNumber lstat width len basedir list buf ↔
        ∃ name ∈ Text.lines list, ∃ dev,
          lstat (basedir ++ '/' :: name) =
            .found dev buf.ino := by
    unfold SharesNumber
    rw [hNames]
    constructor
    · rintro ⟨name, hName, dev, ino, hFound, hKey⟩
      rw [asLong_of_lt hWidth (hFiles name hName dev ino
          hFound), scannedLong_of_lt hBuf,
        Int.natCast_inj, UInt64.toNat_inj] at hKey
      exact ⟨name, hName, dev, hKey ▸ hFound⟩
    · rintro ⟨name, hName, dev, hFound⟩
      refine ⟨name, hName, dev, buf.ino, hFound, ?_⟩
      rw [asLong_of_lt hWidth hBuf, scannedLong_of_lt hBuf]
  constructor
  · intro hRecognised name hName dev hFound
    by_contra hUnlisted
    exact hRecognised.unlisted hUnlisted
      (hShares.mpr ⟨name, hName, dev, hFound⟩)
  · intro hAlone
    refine ⟨?_, ?_⟩
    · rintro ⟨name, hName, hFound⟩
      exact hShares.mpr ⟨name, hName, buf.dev, hFound⟩
    · intro hUnlisted hNumber
      obtain ⟨name, hName, dev, hFound⟩ :=
        hShares.mp hNumber
      exact hUnlisted (hAlone name hName dev hFound)

------------------------------------------------------------
-- The Filter By Inodes
------------------------------------------------------------

/- `lstat` where only the inode matters. -/
def inoOf
    (lstat : Text → Lstat)
    (basedir name : Text) : Option UInt64 :=
  match lstat (basedir ++ '/' :: name) with
  | .found _ ino => some ino
  | .noent => none
  | .failed => none

/- Files whose numbers fit a `long`, or that are not there. -/
def PlainFiles
    (lstat : Text → Lstat)
    (width : Nat)
    (basedir : Text)
    (names : List Text) : Prop :=
  ∀ name ∈ names,
    lstat (basedir ++ '/' :: name) ≠ .failed ∧
      ∀ ino, inoOf lstat basedir name = some ino →
        ino.toNat < 2 ^ (width - 1)

theorem tfind_asLong
    {width : Nat}
    {ino : UInt64}
    {inodes : List UInt64}
    (hWidth : 0 < width)
    (hIno : ino.toNat < 2 ^ (width - 1))
    (hInodes :
      ∀ other ∈ inodes, other.toNat < 2 ^ (width - 1)) :
    tfind (asLong width ino)
        (inodes.map (asLong width)) = true ↔
      ino ∈ inodes := by
  rw [tfind_iff, List.mem_map]
  constructor
  · rintro ⟨other, hOther, hSame⟩
    rw [asLong_of_lt hWidth (hInodes other hOther),
      asLong_of_lt hWidth hIno, Int.natCast_inj,
      UInt64.toNat_inj] at hSame
    exact hSame ▸ hOther
  · intro hMem
    exact ⟨ino, hMem, rfl⟩

/- The loop over the list collects inodes. -/
theorem readList_eq_filterInodes
    {lstat : Text → Lstat}
    {width : Nat}
    {basedir : Text}
    {names : List Text}
    {inodes : List UInt64}
    (hWidth : 0 < width)
    (hFiles : PlainFiles lstat width basedir names)
    (hInodes :
      ∀ other ∈ inodes, other.toNat < 2 ^ (width - 1)) :
    readList lstat width basedir
        (names.map (fun name => name ++ ['\n']))
        (inodes.map (asLong width)) =
      (filterInodes (inoOf lstat basedir) names inodes).map
        (List.map (asLong width)) := by
  induction names generalizing inodes with
  | nil => rfl
  | cons name names ih =>
      have hFile := hFiles name List.mem_cons_self
      have hRest : PlainFiles lstat width basedir names :=
        fun other hMem =>
          hFiles other (List.mem_cons_of_mem name hMem)
      have hName :
          filename basedir (name ++ ['\n']) =
            basedir ++ '/' :: name := by
        unfold filename
        rw [← List.cons_append, ← List.append_assoc,
          List.dropLast_concat]
      rw [List.map_cons, readList, hName, filterInodes]
      cases hStat : lstat (basedir ++ '/' :: name) with
      | failed => exact absurd hStat hFile.1
      | noent =>
          have hNone : inoOf lstat basedir name = none := by
            simp [inoOf, hStat]
          simp only [hNone]
          exact ih hRest hInodes
      | found dev ino =>
          have hSome :
              inoOf lstat basedir name = some ino := by
            simp [inoOf, hStat]
          have hIno := hFile.2 ino hSome
          have hFind := tfind_asLong hWidth hIno hInodes
          simp only [hSome]
          by_cases hMem : ino ∈ inodes
          · simp [hFind.mpr hMem, hMem]
          · rw [if_neg (fun h => hMem (hFind.mp h)),
              if_neg hMem, ← List.map_cons,
              ih hRest]
            intro other hOther
            rcases List.mem_cons.mp hOther with
              rfl | hOld
            · exact hIno
            · exact hInodes other hOld

theorem toNat_lt_of_filterInodes
    {lstat : Text → Lstat}
    {width : Nat}
    {basedir : Text}
    {names : List Text}
    {inodes : List UInt64}
    (hFiles : PlainFiles lstat width basedir names)
    (hRead :
      filterInodes (inoOf lstat basedir) names [] =
        some inodes) :
    ∀ ino ∈ inodes, ino.toNat < 2 ^ (width - 1) := by
  intro ino hMem
  rcases (mem_filterInodes hRead ino).mp hMem with
    hNone | ⟨name, hName, hFound⟩
  · cases hNone
  · exact (hFiles name hName).2 ino hFound

/-
  For whole names and numbers that fit a `long`, the program
  is the filter of a data base by inodes.
-/
theorem filter_refines
    {lstat : Text → Lstat}
    {width len : Nat}
    {basedir : Text}
    {names : List Text}
    {remote : UInt32}
    {nodes : List DataNode}
    (hWidth : 0 < width)
    (hRoom : basedir.length + 3 ≤ len)
    (hNames :
      ∀ name ∈ names,
        '\n' ∉ name ∧
          basedir.length + name.length + 3 ≤ len)
    (hFiles : PlainFiles lstat width basedir names)
    (hNodes :
      ∀ buf ∈ savedEntries remote nodes,
        buf.ino.toNat < 2 ^ (width - 1)) :
    fakerootFilter lstat width len basedir
        (some (Text.unlines names))
        (some (saveDatabase remote nodes)) =
      match
        filterInodes (inoOf lstat basedir) names [] with
      | none => ⟨[], false⟩
      | some inodes =>
          ⟨Text.unlines
            (((savedEntries remote nodes).filter
              (fun buf => buf.ino ∈ inodes)).map saveLine),
            true⟩ := by
  have hChunks := listChunks_unlines hRoom hNames
  have hNone :
      ∀ other ∈ ([] : List UInt64),
        other.toNat < 2 ^ (width - 1) := by
    simp
  have hRead :=
    readList_eq_filterInodes hWidth hFiles hNone
  rw [List.map_nil] at hRead
  cases hInodes :
      filterInodes (inoOf lstat basedir) names [] with
  | none =>
      rw [hInodes] at hRead
      simp [fakerootFilter, hChunks, hRead]
  | some inodes =>
      rw [hInodes] at hRead
      have hRun :
          fakerootFilter lstat width len basedir
              (some (Text.unlines names))
              (some (saveDatabase remote nodes)) =
            filterState width (inodes.map (asLong width))
              ((savedEntries remote nodes).map
                (fun buf => saveLine buf ++ ['\n'])) := by
        simp [fakerootFilter, hChunks, hRead,
          fgets_saveDatabase]
      have hSmall := toNat_lt_of_filterInodes hFiles hInodes
      rw [hRun, filterState_saved]
      congr 3
      refine List.filter_congr (fun buf hBuf => ?_)
      have hIno := hNodes buf hBuf
      rw [Bool.eq_iff_iff, scannedLong_of_lt hIno,
        ← asLong_of_lt hWidth hIno,
        tfind_asLong hWidth hIno hSmall, decide_eq_true_eq]

end FakerootFilter

end Mkrootfs
