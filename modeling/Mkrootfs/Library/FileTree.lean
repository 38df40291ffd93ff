import Mathlib.Data.List.AList

/-
  Finite trees of directories and files, and the commands
  that change them.

  Main declarations:
    * `FileTree`, `FileTree.read`, `FileTree.isDir`
    * `FileTree.write`, `FileTree.mkdir`, `FileTree.putDir`
    * `FileTree.remove`, `FileTree.removeDir`
    * `FileTree.move`
-/

------------------------------------------------------------
-- Trees
------------------------------------------------------------

namespace Mkrootfs

/- A directory, or anything else with its content. -/
inductive FileNode (D : Type) where
| dir
| file (data : D)
deriving DecidableEq, Repr

/- The nodes of a tree by the names that lead to them. -/
abbrev FileTree (N D : Type) :=
  AList (fun _ : List N => FileNode D)

namespace FileTree

variable {N D : Type} [DecidableEq N]

/- The content of a file. -/
def read
    (tree : FileTree N D)
    (path : List N) : Option D :=
  match tree.lookup path with
  | some (.file data) => some data
  | _ => none

/- Whether a path is a directory. -/
def isDir
    (tree : FileTree N D)
    (path : List N) : Bool :=
  match tree.lookup path with
  | some .dir => true
  | _ => false

/- Whether a directory holds anything. -/
def hasBelow
    (tree : FileTree N D)
    (path : List N) : Bool :=
  tree.entries.any (fun entry =>
    path.isPrefixOf entry.1 && entry.1 ≠ path)

/- What is below a directory, with it, from it on. -/
def nodesBelow
    (tree : FileTree N D)
    (path : List N) : List (List N × FileNode D) :=
  tree.entries.filterMap (fun entry =>
    if path.isPrefixOf entry.1 then
      some (entry.1.drop path.length, entry.2)
    else
      none)

/- The files below a directory. -/
def filesBelow
    (tree : FileTree N D)
    (path : List N) : List (List N) :=
  (tree.nodesBelow path).filterMap (fun entry =>
    match entry.2 with
    | .file _ => some entry.1
    | .dir => none)

/- The directories below a directory, and itself. -/
def dirsBelow
    (tree : FileTree N D)
    (path : List N) : List (List N) :=
  (tree.nodesBelow path).filterMap (fun entry =>
    match entry.2 with
    | .dir => some entry.1
    | .file _ => none)

------------------------------------------------------------
-- Commands
------------------------------------------------------------

/- Write a file, unless a directory is in its place. -/
def write
    (path : List N)
    (data : D)
    (tree : FileTree N D) : FileTree N D :=
  if tree.isDir path then
    tree
  else
    tree.insert path (.file data)

/- Create a directory where nothing is. -/
def mkdir
    (path : List N)
    (tree : FileTree N D) : FileTree N D :=
  if (tree.lookup path).isSome then
    tree
  else
    tree.insert path .dir

/- Create a directory, in place of a file if need be. -/
def putDir
    (path : List N)
    (tree : FileTree N D) : FileTree N D :=
  tree.insert path .dir

/- Remove a file. -/
def remove
    (path : List N)
    (tree : FileTree N D) : FileTree N D :=
  if tree.isDir path then
    tree
  else
    tree.erase path

/- Remove a directory that holds nothing. -/
def removeDir
    (path : List N)
    (tree : FileTree N D) : FileTree N D :=
  if tree.isDir path && !tree.hasBelow path then
    tree.erase path
  else
    tree

/- Rename a file, unless a directory is in the way. -/
def move
    (source target : List N)
    (tree : FileTree N D) : FileTree N D :=
  match tree.read source with
  | some data =>
      if tree.isDir target then
        tree
      else
        (tree.erase source).insert target (.file data)
  | none => tree

------------------------------------------------------------
-- What Is Read Afterwards
------------------------------------------------------------

@[simp] theorem read_empty (path : List N) :
    read (∅ : FileTree N D) path = none := by
  simp [read]

/- A directory is not a file. -/
theorem read_of_isDir
    {tree : FileTree N D}
    {path : List N}
    (hDir : tree.isDir path = true) :
    tree.read path = none := by
  unfold isDir at hDir
  unfold read
  split at hDir
  · next hLookup => rw [hLookup]
  · cases hDir

/- The node of a file that is read. -/
theorem lookup_of_read
    {tree : FileTree N D}
    {path : List N}
    {data : D}
    (hRead : tree.read path = some data) :
    tree.lookup path = some (.file data) := by
  unfold read at hRead
  split at hRead
  · next hLookup =>
      rw [hLookup]
      cases hRead
      rfl
  · cases hRead

/- The entry of a file that is read. -/
theorem mem_entries_of_read
    {tree : FileTree N D}
    {path : List N}
    {data : D}
    (hRead : tree.read path = some data) :
    ⟨path, .file data⟩ ∈ tree.entries :=
  AList.mem_lookup_iff.mp (lookup_of_read hRead)

/- What `nodesBelow` finds. -/
theorem mem_nodesBelow
    (tree : FileTree N D)
    (path rest : List N)
    (node : FileNode D) :
    (rest, node) ∈ tree.nodesBelow path ↔
      tree.lookup (path ++ rest) = some node := by
  have hEntry := AList.mem_lookup_iff (a := path ++ rest)
    (b := node) (s := tree)
  rw [Option.mem_def] at hEntry
  rw [hEntry]
  unfold nodesBelow
  rw [List.mem_filterMap]
  constructor
  · rintro ⟨⟨name, other⟩, hMem, hRest⟩
    simp only [List.isPrefixOf_iff_prefix] at hRest
    split at hRest
    · next hPrefix =>
        rcases hPrefix with ⟨tail, rfl⟩
        simp only [List.drop_left, Option.some.injEq,
          Prod.mk.injEq] at hRest
        rcases hRest with ⟨rfl, rfl⟩
        exact hMem
    · cases hRest
  · intro hMem
    refine ⟨_, hMem, ?_⟩
    simp

/- What `filesBelow` finds. -/
theorem mem_filesBelow
    (tree : FileTree N D)
    (path rest : List N) :
    rest ∈ tree.filesBelow path ↔
      (tree.read (path ++ rest)).isSome = true := by
  unfold filesBelow
  rw [List.mem_filterMap]
  constructor
  · rintro ⟨⟨name, node⟩, hEntry, hRest⟩
    cases node with
    | dir => cases hRest
    | file data =>
        cases hRest
        have hLookup := (tree.mem_nodesBelow path _ _).mp hEntry
        simp [read, hLookup]
  · intro hSome
    rcases Option.isSome_iff_exists.mp hSome with
      ⟨data, hRead⟩
    exact ⟨(rest, .file data),
      (tree.mem_nodesBelow path rest _).mpr
        (lookup_of_read hRead), rfl⟩

/- No file is found twice. -/
theorem nodup_filesBelow
    (tree : FileTree N D)
    (path : List N) :
    (tree.filesBelow path).Nodup := by
  have hNodes : (tree.nodesBelow path).Pairwise
      (fun first second => first.1 ≠ second.1) := by
    apply List.Pairwise.filterMap _ _
      (List.nodupKeys_iff_pairwise.mp tree.nodupKeys)
    intro first second hNe node hFirst other hSecond hSame
    simp only [List.isPrefixOf_iff_prefix] at hFirst hSecond
    split at hFirst
    · next hPrefix =>
        split at hSecond
        · next hOther =>
            cases hFirst
            cases hSecond
            apply hNe
            rw [← List.prefix_iff_eq_append.mp hPrefix,
              ← List.prefix_iff_eq_append.mp hOther]
            exact congrArg (path ++ ·) hSame
        · cases hSecond
    · cases hFirst
  apply List.Pairwise.filterMap _ _ hNodes
  intro first second hNe rest hFirst other hSecond hSame
  rcases first with ⟨firstRest, firstNode⟩
  rcases second with ⟨secondRest, secondNode⟩
  cases firstNode with
  | dir => cases hFirst
  | file data =>
      cases secondNode with
      | dir => cases hSecond
      | file data =>
          cases hFirst
          cases hSecond
          exact hNe hSame

theorem read_insert_file
    (tree : FileTree N D)
    (path other : List N)
    (data : D) :
    read (tree.insert path (.file data)) other =
      if other = path then some data else tree.read other := by
  by_cases hSame : other = path
  · subst hSame
    simp [read]
  · simp [read, AList.lookup_insert_ne hSame, hSame]

theorem read_insert_dir
    (tree : FileTree N D)
    (path other : List N) :
    read (tree.insert path .dir) other =
      if other = path then none else tree.read other := by
  by_cases hSame : other = path
  · subst hSame
    simp [read]
  · simp [read, AList.lookup_insert_ne hSame, hSame]

theorem read_erase
    (tree : FileTree N D)
    (path other : List N) :
    read (tree.erase path) other =
      if other = path then none else tree.read other := by
  by_cases hSame : other = path
  · subst hSame
    simp [read]
  · simp [read, AList.lookup_erase_ne hSame, hSame]

theorem read_write
    (tree : FileTree N D)
    (path other : List N)
    (data : D) :
    read (tree.write path data) other =
      if other = path ∧ tree.isDir path = false then
        some data
      else
        tree.read other := by
  unfold write
  by_cases hDir : tree.isDir path = true
  · simp [hDir]
  · simp [hDir, read_insert_file]

@[simp] theorem read_mkdir
    (tree : FileTree N D)
    (path other : List N) :
    read (tree.mkdir path) other = tree.read other := by
  unfold mkdir
  split
  · rfl
  · next hNone =>
      rw [read_insert_dir]
      split
      · next hSame =>
          subst hSame
          simp only [Option.not_isSome_iff_eq_none] at hNone
          simp [read, hNone]
      · rfl

@[simp] theorem read_putDir
    (tree : FileTree N D)
    (path other : List N) :
    read (tree.putDir path) other =
      if other = path then none else tree.read other :=
  read_insert_dir tree path other

@[simp] theorem read_remove
    (tree : FileTree N D)
    (path other : List N) :
    read (tree.remove path) other =
      if other = path then none else tree.read other := by
  unfold remove
  split
  · next hDir =>
      split
      · next hSame =>
          rw [hSame]
          exact read_of_isDir hDir
      · rfl
  · exact read_erase tree path other

@[simp] theorem read_removeDir
    (tree : FileTree N D)
    (path other : List N) :
    read (tree.removeDir path) other = tree.read other := by
  unfold removeDir
  split
  · next hEmpty =>
      rw [read_erase]
      split
      · next hSame =>
          rw [hSame]
          simp only [Bool.and_eq_true] at hEmpty
          exact (read_of_isDir hEmpty.1).symm
      · rfl
  · rfl

theorem read_move
    {tree : FileTree N D}
    {source target : List N}
    {data : D}
    (hSource : tree.read source = some data)
    (hTarget : tree.isDir target = false)
    (other : List N) :
    read (tree.move source target) other =
      if other = target then
        some data
      else if other = source then
        none
      else
        tree.read other := by
  unfold move
  rw [hSource]
  simp only [hTarget]
  rw [if_neg (by simp), read_insert_file, read_erase]

/- Other files are not renamed. -/
theorem read_move_of_ne
    {tree : FileTree N D}
    {source target other : List N}
    (hSource : other ≠ source)
    (hTarget : other ≠ target) :
    read (tree.move source target) other =
      tree.read other := by
  unfold move
  split
  · split
    · rfl
    · rw [read_insert_file, read_erase, if_neg hTarget,
        if_neg hSource]
  · rfl

------------------------------------------------------------
-- Directories Afterwards
------------------------------------------------------------

theorem isDir_insert_file
    (tree : FileTree N D)
    (path other : List N)
    (data : D) :
    isDir (tree.insert path (.file data)) other =
      if other = path then false else tree.isDir other := by
  by_cases hSame : other = path
  · subst hSame
    simp [isDir]
  · simp [isDir, AList.lookup_insert_ne hSame, hSame]

theorem isDir_insert_dir
    (tree : FileTree N D)
    (path other : List N) :
    isDir (tree.insert path .dir) other =
      if other = path then true else tree.isDir other := by
  by_cases hSame : other = path
  · subst hSame
    simp [isDir]
  · simp [isDir, AList.lookup_insert_ne hSame, hSame]

theorem isDir_erase
    (tree : FileTree N D)
    (path other : List N) :
    isDir (tree.erase path) other =
      if other = path then false else tree.isDir other := by
  by_cases hSame : other = path
  · subst hSame
    simp [isDir]
  · simp [isDir, AList.lookup_erase_ne hSame, hSame]

@[simp] theorem isDir_write
    (tree : FileTree N D)
    (path other : List N)
    (data : D) :
    isDir (tree.write path data) other =
      tree.isDir other := by
  unfold write
  split
  · rfl
  · next hNot =>
      rw [isDir_insert_file]
      split
      · next hSame =>
          rw [hSame]
          simpa using hNot
      · rfl

/- Directories stay where they are. -/
theorem isDir_mkdir_of_isDir
    {tree : FileTree N D}
    {other : List N}
    (path : List N)
    (hDir : tree.isDir other = true) :
    isDir (tree.mkdir path) other = true := by
  unfold mkdir
  split
  · exact hDir
  · rw [isDir_insert_dir]
    split
    · rfl
    · exact hDir

/- Only one directory is new. -/
theorem isDir_mkdir_of_ne
    (tree : FileTree N D)
    {path other : List N}
    (hNe : other ≠ path) :
    isDir (tree.mkdir path) other = tree.isDir other := by
  unfold mkdir
  split
  · rfl
  · rw [isDir_insert_dir, if_neg hNe]

@[simp] theorem isDir_putDir
    (tree : FileTree N D)
    (path other : List N) :
    isDir (tree.putDir path) other =
      if other = path then true else tree.isDir other :=
  isDir_insert_dir tree path other

theorem isDir_putDir_of_isDir
    {tree : FileTree N D}
    {other : List N}
    (path : List N)
    (hDir : tree.isDir other = true) :
    isDir (tree.putDir path) other = true := by
  unfold putDir
  rw [isDir_insert_dir]
  split
  · rfl
  · exact hDir

@[simp] theorem isDir_remove
    (tree : FileTree N D)
    (path other : List N) :
    isDir (tree.remove path) other = tree.isDir other := by
  unfold remove
  split
  · rfl
  · next hNot =>
      rw [isDir_erase]
      split
      · next hSame =>
          rw [hSame]
          simpa using hNot
      · rfl

/- No directory is new. -/
theorem isDir_of_isDir_removeDir
    {tree : FileTree N D}
    {path other : List N}
    (hDir : isDir (tree.removeDir path) other = true) :
    tree.isDir other = true := by
  unfold removeDir at hDir
  split at hDir
  · rw [isDir_erase] at hDir
    split at hDir
    · cases hDir
    · exact hDir
  · exact hDir

/- At most one directory is gone. -/
theorem isDir_removeDir_of_ne
    (tree : FileTree N D)
    {path other : List N}
    (hNe : other ≠ path) :
    isDir (tree.removeDir path) other =
      tree.isDir other := by
  unfold removeDir
  split
  · rw [isDir_erase, if_neg hNe]
  · rfl

/- A file below a directory. -/
theorem hasBelow_of_read
    {tree : FileTree N D}
    {path rest : List N}
    {data : D}
    (hRest : rest ≠ [])
    (hRead : tree.read (path ++ rest) = some data) :
    tree.hasBelow path = true := by
  have hMem := AList.mem_lookup_iff.mp
    (lookup_of_read hRead)
  unfold hasBelow
  rw [List.any_eq_true]
  refine ⟨_, hMem, ?_⟩
  simp [hRest]

/- A directory that holds a file is not removed. -/
theorem isDir_removeDir_of_read
    {tree : FileTree N D}
    {other rest : List N}
    {data : D}
    (path : List N)
    (hRest : rest ≠ [])
    (hRead : tree.read (other ++ rest) = some data)
    (hDir : tree.isDir other = true) :
    isDir (tree.removeDir path) other = true := by
  unfold removeDir
  split
  · next hEmpty =>
      rw [isDir_erase]
      split
      · next hSame =>
          rw [← hSame, hasBelow_of_read hRest hRead] at hEmpty
          simp at hEmpty
      · exact hDir
  · exact hDir

theorem isDir_move
    {tree : FileTree N D}
    {other : List N}
    (source target : List N)
    (hDir : tree.isDir other = true) :
    isDir (tree.move source target) other = true := by
  unfold move
  split
  · next data hSource =>
      split
      · exact hDir
      · next hNotDir =>
          rw [isDir_insert_file, isDir_erase]
          have hNeTarget : other ≠ target := by
            rintro rfl
            exact hNotDir hDir
          have hNeSource : other ≠ source := by
            rintro rfl
            rw [read_of_isDir hDir] at hSource
            cases hSource
          simp [hNeTarget, hNeSource, hDir]
  · exact hDir

/- A renamed file is not a directory. -/
theorem isDir_of_isDir_move
    {tree : FileTree N D}
    {source target other : List N}
    (hDir : isDir (tree.move source target) other = true) :
    tree.isDir other = true := by
  unfold move at hDir
  split at hDir
  · split at hDir
    · exact hDir
    · rw [isDir_insert_file, isDir_erase] at hDir
      split at hDir
      · cases hDir
      · split at hDir
        · cases hDir
        · exact hDir
  · exact hDir

end FileTree

end Mkrootfs
