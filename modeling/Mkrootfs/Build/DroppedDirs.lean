import Mkrootfs.Build.RecordedLists

/-
  The directories that `%/staging` removes because the
  package has dropped them: `comm` on two lists that are
  sorted in descending order.

  Main declarations:
    * `DirectorySet`
    * `RmdirsDropped`, `KeptAboveChanged`
    * `ReadAsDropped`, `QuotedKept`
    * `rmdirsDropped_iff`
-/

------------------------------------------------------------
-- Recorded Directories
------------------------------------------------------------

namespace Mkrootfs

/- The directories that one installation has made. -/
structure DirectorySet where
  paths : List Path
  nodup : paths.Nodup
  files : ∀ path ∈ paths, FilePath path

/- The lines of `.mkr.dirlist`, in their order. -/
def DirectorySet.names (dirs : DirectorySet) : List Text :=
  sortLinesReverse (dirs.paths.map findName)

/-
  The recipe calls `rmdir` for the directories of the old
  list that are missing from the new one, and for no other.
-/
def RmdirsDropped
    (p : Package)
    (old new : DirectorySet)
    (dir : BuildDir) : Prop :=
  ∀ path,
    path ∈ (droppedNames p.dirlist p.newdirlist dir).map
        pathOf ↔
      path ∈ old.paths ∧ path ∉ new.paths

/-
  Every directory that is kept sorts above every directory
  that was dropped or is new.
-/
def KeptAboveChanged (old new : DirectorySet) : Prop :=
  ∀ kept ∈ old.paths, kept ∈ new.paths →
    ∀ changed,
      ((changed ∈ old.paths ∧ changed ∉ new.paths) ∨
        (changed ∈ new.paths ∧ changed ∉ old.paths)) →
      findName changed < findName kept

/- A name without quotes and backslashes. -/
def LiteralPath (path : Path) : Prop :=
  ∀ c ∈ findName path, isTaken isNewline c = true

/- No directory that was dropped has a quote in its name. -/
def DroppedLiteral (old new : DirectorySet) : Prop :=
  ∀ path ∈ old.paths, path ∉ new.paths → LiteralPath path

/-
  A directory with a quote in its name is kept, and sorts
  below one that was dropped or is new.
-/
def QuotedKept (old new : DirectorySet) : Prop :=
  ∃ kept ∈ old.paths,
    kept ∈ new.paths ∧ ¬ LiteralPath kept ∧
      ∃ changed, InOneOf old.paths new.paths changed ∧
        findName kept < findName changed

/-
  What `xargs` makes of the old names from the first change
  on, are the dropped directories.
-/
def ReadAsDropped (old new : DirectorySet) : Prop :=
  ∀ path,
    path ∈ (xargsItems isNewline (Text.unlines
        (linesFromChange old.names new.names))).map pathOf ↔
      path ∈ old.paths ∧ path ∉ new.paths

namespace DirectorySet

variable (dirs : DirectorySet)

theorem mem_names
    {path : Path}
    (hFile : FilePath path) :
    findName path ∈ dirs.names ↔ path ∈ dirs.paths := by
  have hPerm := List.perm_insertionSort
    (fun a b : Text => b ≤ a) (dirs.paths.map findName)
  unfold names sortLinesReverse
  rw [hPerm.mem_iff, List.mem_map]
  constructor
  · rintro ⟨other, hOther, hSame⟩
    rw [← findName_injective (dirs.files other hOther) hFile
      hSame]
    exact hOther
  · intro hMem
    exact ⟨path, hMem, rfl⟩

/- Every line names a directory. -/
theorem exists_of_mem_names
    {name : Text}
    (hMem : name ∈ dirs.names) :
    ∃ path ∈ dirs.paths, findName path = name := by
  have hPerm := List.perm_insertionSort
    (fun a b : Text => b ≤ a) (dirs.paths.map findName)
  exact List.mem_map.mp (hPerm.mem_iff.mp hMem)

theorem names_descending :
    dirs.names.Pairwise (· > ·) := by
  have hPerm := List.perm_insertionSort
    (fun a b : Text => b ≤ a) (dirs.paths.map findName)
  have hSorted := List.pairwise_insertionSort
    (fun a b : Text => b ≤ a) (dirs.paths.map findName)
  have hNodup : dirs.names.Nodup := by
    refine hPerm.nodup_iff.mpr
      (List.Nodup.map_on ?_ dirs.nodup)
    intro path hPath other hOther hSame
    exact findName_injective (dirs.files path hPath)
      (dirs.files other hOther) hSame
  refine (hSorted.and hNodup).imp ?_
  rintro name other ⟨hLe, hNe⟩
  exact lt_of_le_of_ne hLe (Ne.symm hNe)

/- What is read back from the list. -/
theorem lines_dirlistText :
    Text.lines (dirlistText dirs.paths) = dirs.names := by
  apply Text.lines_unlines
  intro name hMem
  rcases dirs.exists_of_mem_names hMem with
    ⟨path, hPath, rfl⟩
  exact newline_not_mem_findName (dirs.files path hPath)

end DirectorySet

/- A name that has changed is that of such a directory. -/
theorem exists_of_inOneOf_names
    {old new : DirectorySet}
    {name : Text}
    (hOne : InOneOf old.names new.names name) :
    ∃ path, InOneOf old.paths new.paths path ∧
      findName path = name := by
  rcases hOne with ⟨hIn, hOut⟩ | ⟨hIn, hOut⟩
  · rcases old.exists_of_mem_names hIn with
      ⟨path, hPath, rfl⟩
    rw [new.mem_names (old.files path hPath)] at hOut
    exact ⟨path, Or.inl ⟨hPath, hOut⟩, rfl⟩
  · rcases new.exists_of_mem_names hIn with
      ⟨path, hPath, rfl⟩
    rw [old.mem_names (new.files path hPath)] at hOut
    exact ⟨path, Or.inr ⟨hPath, hOut⟩, rfl⟩

theorem inOneOf_names
    {old new : DirectorySet}
    {path : Path}
    (hOne : InOneOf old.paths new.paths path) :
    InOneOf old.names new.names (findName path) := by
  rcases hOne with ⟨hIn, hOut⟩ | ⟨hIn, hOut⟩
  · have hFile := old.files path hIn
    exact Or.inl ⟨(old.mem_names hFile).mpr hIn,
      mt (new.mem_names hFile).mp hOut⟩
  · have hFile := new.files path hIn
    exact Or.inr ⟨(new.mem_names hFile).mpr hIn,
      mt (old.mem_names hFile).mp hOut⟩

------------------------------------------------------------
-- The Names For Rmdir
------------------------------------------------------------

/- What `comm` prints begins with the first change. -/
theorem droppedNames_eq
    {p : Package}
    {old new : DirectorySet}
    {dir : BuildDir}
    (hOld : dir.cat p.dirlist = dirlistText old.paths)
    (hNew : dir.cat p.newdirlist = dirlistText new.paths) :
    droppedNames p.dirlist p.newdirlist dir =
      xargsItems isNewline (Text.unlines
        (linesFromChange old.names new.names)) := by
  unfold droppedNames
  rw [hOld, hNew, old.lines_dirlistText,
    new.lines_dirlistText,
    commFirst_descending old.names_descending
      new.names_descending]

/- A directory of the old list, from the first change on. -/
theorem mem_namesFromChange
    {old new : DirectorySet}
    {path : Path}
    (hFile : FilePath path) :
    findName path ∈ linesFromChange old.names new.names ↔
      path ∈ old.paths ∧
        ∃ changed, InOneOf old.paths new.paths changed ∧
          findName path ≤ findName changed := by
  rw [mem_linesFromChange, old.mem_names hFile]
  refine and_congr_right fun _ => ⟨?_, ?_⟩
  · rintro ⟨other, hOther, hLe⟩
    rcases exists_of_inOneOf_names hOther with
      ⟨changed, hChanged, rfl⟩
    exact ⟨changed, hChanged, hLe⟩
  · rintro ⟨changed, hChanged, hLe⟩
    exact ⟨_, inOneOf_names hChanged, hLe⟩

/- The directories of these names. -/
def pathsFromChange (old new : DirectorySet) : List Path :=
  old.paths.filter (fun path =>
    findName path ∈ linesFromChange old.names new.names)

theorem mem_pathsFromChange
    {old new : DirectorySet}
    {path : Path} :
    path ∈ pathsFromChange old new ↔
      path ∈ old.paths ∧
        ∃ changed, InOneOf old.paths new.paths changed ∧
          findName path ≤ findName changed := by
  unfold pathsFromChange
  rw [List.mem_filter, decide_eq_true_eq]
  constructor
  · rintro ⟨hPath, hName⟩
    exact (mem_namesFromChange (old.files path hPath)).mp
      hName
  · intro hPath
    exact ⟨hPath.1,
      (mem_namesFromChange (old.files path hPath.1)).mpr
        hPath⟩

theorem exists_of_mem_linesFromChange
    {old new : DirectorySet}
    {name : Text}
    (hName : name ∈ linesFromChange old.names new.names) :
    ∃ path ∈ pathsFromChange old new,
      findName path = name := by
  rcases old.exists_of_mem_names
      (mem_linesFromChange.mp hName).1 with
    ⟨path, hPath, rfl⟩
  exact ⟨path, List.mem_filter.mpr
    ⟨hPath, decide_eq_true hName⟩, rfl⟩

/- Every dropped directory is among them. -/
theorem mem_pathsFromChange_of_dropped
    {old new : DirectorySet}
    {path : Path}
    (hDropped : path ∈ old.paths ∧ path ∉ new.paths) :
    path ∈ pathsFromChange old new :=
  mem_pathsFromChange.mpr
    ⟨hDropped.1, path, Or.inl hDropped, le_refl _⟩

/- They are the dropped ones if what is kept is above. -/
theorem keptAboveChanged_iff_dropped
    {old new : DirectorySet} :
    KeptAboveChanged old new ↔
      ∀ path ∈ pathsFromChange old new,
        path ∉ new.paths := by
  constructor
  · intro hAbove path hPath hNew
    rcases mem_pathsFromChange.mp hPath with
      ⟨hOld, changed, hChanged, hLe⟩
    exact absurd (hAbove path hOld hNew changed hChanged)
      (not_lt.mpr hLe)
  · intro hDropped kept hOld hNew changed hChanged
    by_contra hNot
    exact hDropped kept (mem_pathsFromChange.mpr
      ⟨hOld, changed, hChanged, not_lt.mp hNot⟩) hNew

/- Without quotes `xargs` hands on what `comm` prints. -/
theorem readAsDropped_iff_of_literal
    {old new : DirectorySet}
    (hLiteral : ∀ path ∈ pathsFromChange old new,
      LiteralPath path) :
    ReadAsDropped old new ↔ KeptAboveChanged old new := by
  have hItems : xargsItems isNewline (Text.unlines
      (linesFromChange old.names new.names)) =
      linesFromChange old.names new.names := by
    apply xargsItems_unlines separators_isNewline
    intro name hName
    rcases exists_of_mem_linesFromChange hName with
      ⟨path, hPath, rfl⟩
    exact ⟨by simp [findName], by simp [findName],
      hLiteral path hPath⟩
  have hMem : ∀ path,
      path ∈ (linesFromChange old.names new.names).map
          pathOf ↔
        path ∈ pathsFromChange old new := by
    intro path
    rw [List.mem_map]
    constructor
    · rintro ⟨name, hName, rfl⟩
      rcases exists_of_mem_linesFromChange hName with
        ⟨path, hPath, rfl⟩
      rw [pathOf_findName_of_filePath
        (old.files path (List.mem_filter.mp hPath).1)]
      exact hPath
    · intro hPath
      rcases List.mem_filter.mp hPath with ⟨hOld, hName⟩
      exact ⟨findName path, of_decide_eq_true hName,
        pathOf_findName_of_filePath (old.files path hOld)⟩
  unfold ReadAsDropped
  rw [hItems, keptAboveChanged_iff_dropped]
  constructor
  · intro hRead path hPath
    exact ((hRead path).mp ((hMem path).mpr hPath)).2
  · intro hDropped path
    rw [hMem path]
    exact ⟨fun hPath => ⟨(List.mem_filter.mp hPath).1,
      hDropped path hPath⟩, mem_pathsFromChange_of_dropped⟩

/-
  A name that `xargs` takes apart cannot come out again: the
  hardest one of all would have to.
-/
theorem literal_of_readAsDropped
    {old new : DirectorySet}
    (hRead : ReadAsDropped old new)
    (hKept : ¬ QuotedKept old new) :
    ∀ path ∈ pathsFromChange old new, LiteralPath path := by
  intro path hPath
  have hFiles : ∀ other ∈ pathsFromChange old new,
      FilePath other :=
    fun other hOther =>
      old.files other (List.mem_filter.mp hOther).1
  rcases exists_hardest isNewline
      (List.ne_nil_of_mem hPath) with ⟨hard, hHard, hMax⟩
  have hZero : pathSpecials isNewline hard = 0 := by
    by_contra hSpecial
    have hNotLiteral : ¬ LiteralPath hard :=
      mt (specials_eq_zero_iff _).mpr hSpecial
    rcases mem_pathsFromChange.mp hHard with
      ⟨hOld, changed, hChanged, hLe⟩
    have hDropped : hard ∉ new.paths := by
      intro hNew
      refine hKept ⟨hard, hOld, hNew, hNotLiteral, changed,
        hChanged, lt_of_le_of_ne hLe ?_⟩
      intro hSame
      rcases hChanged with ⟨hIn, hOut⟩ | ⟨hIn, hOut⟩
      · rw [← findName_injective (hFiles hard hHard)
          (old.files changed hIn) hSame] at hOut
        exact hOut hNew
      · rw [← findName_injective (hFiles hard hHard)
          (new.files changed hIn) hSame] at hOut
        exact hOut hOld
    rcases List.mem_map.mp ((hRead hard).mpr
        ⟨hOld, hDropped⟩) with ⟨item, hItem, hSame⟩
    have hFrom := fromPaths_of_xargs separators_isNewline
      hFiles (fun name hName =>
        exists_of_mem_linesFromChange hName) hItem
    rw [hSame] at hFrom
    rcases hFrom with ⟨part, hPart, hBreak⟩ |
      ⟨other, hOther, ⟨hPlain, hEq⟩ | hLess⟩
    · exact ((hFiles hard hHard).parts part hPart).2.2.2
        hBreak
    · rw [← hEq] at hPlain
      exact hSpecial hPlain
    · have hLe := hMax other hOther
      omega
  have hLe := hMax path hPath
  exact (specials_eq_zero_iff _).mp
    (show pathSpecials isNewline path = 0 by omega)

/-
  Exactly the dropped directories are removed if and only if
  what is kept sorts above what has changed and no dropped
  name has a quote. A quoted name that is kept below may
  also be read as just the right one.
-/
theorem rmdirsDropped_iff
    {p : Package}
    {old new : DirectorySet}
    {dir : BuildDir}
    (hOld : dir.cat p.dirlist = dirlistText old.paths)
    (hNew : dir.cat p.newdirlist = dirlistText new.paths) :
    RmdirsDropped p old new dir ↔
      (KeptAboveChanged old new ∧ DroppedLiteral old new) ∨
        (QuotedKept old new ∧ ReadAsDropped old new) := by
  have hSame : RmdirsDropped p old new dir ↔
      ReadAsDropped old new := by
    unfold RmdirsDropped ReadAsDropped
    rw [droppedNames_eq hOld hNew]
  rw [hSame]
  constructor
  · intro hRead
    by_cases hKept : QuotedKept old new
    · exact Or.inr ⟨hKept, hRead⟩
    · have hLiteral := literal_of_readAsDropped hRead hKept
      refine Or.inl ⟨(readAsDropped_iff_of_literal
        hLiteral).mp hRead, ?_⟩
      intro path hPath hOut
      exact hLiteral path
        (mem_pathsFromChange_of_dropped ⟨hPath, hOut⟩)
  · rintro (⟨hAbove, hLiteral⟩ | ⟨_, hRead⟩)
    · refine (readAsDropped_iff_of_literal ?_).mpr hAbove
      intro path hPath
      exact hLiteral path (List.mem_filter.mp hPath).1
        (keptAboveChanged_iff_dropped.mp hAbove path hPath)
    · exact hRead

------------------------------------------------------------
-- One Dropped Directory
------------------------------------------------------------

/- A directory of the top level. -/
def topDirectory (name : Text) : Path := [name]

theorem filePath_topDirectory
    {name : Text}
    (hName : name ≠ [] ∧ name ≠ ['.'] ∧ '/' ∉ name ∧
      '\n' ∉ name) :
    FilePath (topDirectory name) where
  nonempty := by simp [topDirectory]
  parts part hMem := by
    rw [List.mem_singleton.mp hMem]
    exact hName

def usrOnly : DirectorySet where
  paths := [topDirectory "usr".toList]
  nodup := by decide
  files path hMem := by
    rw [List.mem_singleton.mp hMem]
    exact filePath_topDirectory (by decide)

def binOnly : DirectorySet where
  paths := [topDirectory "bin".toList]
  nodup := by decide
  files path hMem := by
    rw [List.mem_singleton.mp hMem]
    exact filePath_topDirectory (by decide)

def binAndUsr : DirectorySet where
  paths := [topDirectory "bin".toList,
    topDirectory "usr".toList]
  nodup := by decide
  files path hMem := by
    simp only [List.mem_cons, List.not_mem_nil, or_false]
      at hMem
    rcases hMem with rfl | rfl
    · exact filePath_topDirectory (by decide)
    · exact filePath_topDirectory (by decide)

/- A state of the recipe behind the second `sort`. -/
def recordedDirs (old new : DirectorySet) : BuildDir :=
  (AList.insert samplePackage.dirlist
    (.file (dirlistText old.paths)) ∅).insert
      samplePackage.newdirlist
      (.file (dirlistText new.paths))

/- `usr` is dropped, and `bin` goes to `rmdir` with it. -/
theorem dropped_usr_takes_bin :
    (recordedDirs binAndUsr binOnly).cat
        samplePackage.dirlist = dirlistText binAndUsr.paths ∧
      (recordedDirs binAndUsr binOnly).cat
        samplePackage.newdirlist = dirlistText binOnly.paths ∧
      topDirectory "bin".toList ∈
        (droppedNames samplePackage.dirlist
          samplePackage.newdirlist
          (recordedDirs binAndUsr binOnly)).map pathOf ∧
      ¬ RmdirsDropped samplePackage binAndUsr binOnly
        (recordedDirs binAndUsr binOnly) := by
  have hPassed : topDirectory "bin".toList ∈
      (droppedNames samplePackage.dirlist
        samplePackage.newdirlist
        (recordedDirs binAndUsr binOnly)).map pathOf := by
    decide +kernel
  refine ⟨by decide +kernel, by decide +kernel, hPassed, ?_⟩
  intro hDropped
  exact ((hDropped _).mp hPassed).2 (by decide)

/- Dropping `bin` goes right, since `usr` is above it. -/
theorem dropped_bin_keeps_usr :
    RmdirsDropped samplePackage binAndUsr usrOnly
      (recordedDirs binAndUsr usrOnly) := by
  refine (rmdirsDropped_iff (by decide +kernel)
    (by decide +kernel)).mpr (Or.inl ⟨?_, ?_⟩)
  · intro kept _ hKept changed hChanged
    rw [List.mem_singleton.mp hKept]
    have hBin : changed = topDirectory "bin".toList := by
      simp only [binAndUsr, usrOnly, List.mem_cons,
        List.not_mem_nil, or_false] at hChanged
      rcases hChanged with ⟨rfl | rfl, hOut⟩ | ⟨rfl, hOut⟩
      · rfl
      · exact absurd rfl hOut
      · exact absurd (Or.inr rfl) hOut
    rw [hBin]
    decide +kernel
  · intro path hPath _
    simp only [binAndUsr, List.mem_cons, List.not_mem_nil,
      or_false] at hPath
    rcases hPath with rfl | rfl
    · exact List.all_eq_true.mp (by decide +kernel)
    · exact List.all_eq_true.mp (by decide +kernel)

def quoteOnly : DirectorySet where
  paths := [topDirectory "k'".toList]
  nodup := by decide
  files path hMem := by
    rw [List.mem_singleton.mp hMem]
    exact filePath_topDirectory (by decide)

def quoteAndUsr : DirectorySet where
  paths := [topDirectory "k'".toList,
    topDirectory "usr".toList]
  nodup := by decide
  files path hMem := by
    simp only [List.mem_cons, List.not_mem_nil, or_false]
      at hMem
    rcases hMem with rfl | rfl
    · exact filePath_topDirectory (by decide)
    · exact filePath_topDirectory (by decide)

/-
  The second case does occur: `xargs` gives up at the quote
  of the kept `k'`, when only `usr` has been passed on.
-/
example :
    (droppedNames samplePackage.dirlist
      samplePackage.newdirlist
      (recordedDirs quoteAndUsr quoteOnly)).map pathOf =
        [topDirectory "usr".toList] := by
  decide +kernel

end Mkrootfs
