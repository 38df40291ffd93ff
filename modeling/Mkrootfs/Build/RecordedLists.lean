import Mathlib.Algebra.GroupWithZero.Nat
import Mathlib.Algebra.Order.BigOperators.Group.List
import Mathlib.Algebra.Order.Group.Nat
import Mathlib.Data.Finset.Max
import Mathlib.Data.List.Perm.Subperm
import Mathlib.Data.Prod.Lex
import Mkrootfs.Build.Recipes
import Mkrootfs.Library.TreeRemoval

/-
  The two lists of a package as `%/staging` records them,
  for any names that a file may have, and how `xargs` takes
  them.

  Main declarations:
    * `FilePath`
    * `listText`, `dirlistText`
    * `parentsLast_dirlist`
    * `pathSpecials`, `exists_hardest`
    * `fromPaths_of_xargs`
-/

------------------------------------------------------------
-- File Names
------------------------------------------------------------

namespace Mkrootfs

/- A path that a file may have, without a newline in it. -/
structure FilePath (path : Path) : Prop where
  nonempty : path ≠ []
  parts : ∀ part ∈ path,
    part ≠ [] ∧ part ≠ ['.'] ∧ '/' ∉ part ∧ '\n' ∉ part

/- What `find` prints leads back to the file. -/
theorem pathOf_findName_of_filePath
    {path : Path}
    (hFile : FilePath path) :
    pathOf (findName path) = path := by
  have hSplit : (findName path).splitOn '/' =
      ['.'] :: path :=
    splitOn_slash (by decide : '/' ∉ ['.'])
      (fun part hMem => (hFile.parts part hMem).2.2.1)
  unfold pathOf
  rw [hSplit, List.filter_cons_of_neg (by simp),
    List.filter_eq_self]
  intro part hMem
  have hPart := hFile.parts part hMem
  simp [hPart.1, hPart.2.1]

theorem newline_not_mem_findName
    {path : Path}
    (hFile : FilePath path) :
    '\n' ∉ findName path := by
  intro hMem
  simp only [findName, List.mem_cons, List.mem_flatMap]
    at hMem
  rcases hMem with hMem | ⟨part, hPart, hMem | hMem⟩
  · revert hMem
    decide
  · revert hMem
    decide
  · exact (hFile.parts part hPart).2.2.2 hMem

/- Two files have two names. -/
theorem findName_injective
    {path other : Path}
    (hPath : FilePath path)
    (hOther : FilePath other)
    (hSame : findName path = findName other) :
    path = other := by
  rw [← pathOf_findName_of_filePath hPath, hSame,
    pathOf_findName_of_filePath hOther]

------------------------------------------------------------
-- The Text Of A List
------------------------------------------------------------

/- The list of some files, as `find` and `sort` print it. -/
def listText (paths : List Path) : Text :=
  Text.unlines (sortLines (paths.map findName))

/- The names take as much room in any order. -/
theorem length_listText (paths : List Path) :
    (listText paths).length =
      (paths.map (fun path =>
        (findName path).length + 1)).sum := by
  have hLength : ∀ names : List Text,
      (Text.unlines names).length =
        (names.map (fun name => name.length + 1)).sum := by
    intro names
    induction names with
    | nil => rfl
    | cons name names ih =>
        simp only [Text.unlines_cons, List.length_append,
          List.length_cons, ih, List.map_cons, List.sum_cons]
        omega
  have hSort := List.perm_insertionSort
    (fun a b : Text => a ≤ b) (paths.map findName)
  unfold listText sortLines
  rw [hLength, (hSort.map _).sum_eq, List.map_map]
  rfl

/- So a list of fewer files is another text. -/
theorem perm_of_listText_eq
    {paths others : List Path}
    (hNodup : paths.Nodup)
    (hSubset : paths ⊆ others)
    (hText : listText paths = listText others) :
    paths.Perm others := by
  have hSubperm := List.subperm_ext_iff.mp
    (hNodup.subperm hSubset)
  have hPerm :=
    List.subperm_append_diff_self_of_count_le hSubperm
  have hLength := congrArg List.length hText
  rw [length_listText, length_listText,
    ← (hPerm.map _).sum_eq, List.map_append,
    List.sum_append] at hLength
  have hRest : others.diff paths = [] := by
    cases hDiff : others.diff paths with
    | nil => rfl
    | cons path rest =>
        rw [hDiff, List.map_cons, List.sum_cons] at hLength
        omega
  rw [hRest, List.append_nil] at hPerm
  exact hPerm

/- The list that one run of the recipe leaves. -/
theorem newFilelist_eq
    (p : Package)
    (dir : BuildDir) :
    newFilelist p dir = listText (dir.filesBelow p.pkginst) :=
  rfl

/- The list of some directories. -/
def dirlistText (paths : List Path) : Text :=
  Text.unlines (sortLinesReverse (paths.map findName))

------------------------------------------------------------
-- The Order Of Directories
------------------------------------------------------------

/- Directories with the ones above them. -/
def ClosedUp (paths : List Path) : Prop :=
  ∀ path ∈ paths, ∀ parent, parent ≠ [] →
    parent <+: path → parent ∈ paths

/- A directory comes before what is below it. -/
theorem findName_lt
    (path : Path)
    {rest : Path}
    (hRest : rest ≠ []) :
    findName path < findName (path ++ rest) := by
  cases rest with
  | nil => exact absurd rfl hRest
  | cons part rest =>
      have hName : findName (path ++ part :: rest) =
          findName path ++
            ('/' :: part ++
              rest.flatMap (fun part => '/' :: part)) := by
        simp [findName]
      have hLess : findName path ++ [] <
          findName path ++
            ('/' :: part ++
              rest.flatMap (fun part => '/' :: part)) :=
        List.append_left_lt (List.nil_lt_cons _ _)
      rw [List.append_nil, ← hName] at hLess
      exact hLess

/- So a descending list has its parents last. -/
theorem parentsLast_of_descending
    {names : List Text}
    (hFiles : ∀ name ∈ names,
      ∃ path, FilePath path ∧ findName path = name)
    (hSorted : names.Pairwise (fun a b => b ≤ a)) :
    ParentsLast (names.map pathOf) := by
  induction names with
  | nil => exact trivial
  | cons name names ih =>
      rw [List.pairwise_cons] at hSorted
      refine ⟨?_, ih (fun other hMem => hFiles other
        (List.mem_cons_of_mem name hMem)) hSorted.2⟩
      intro below hMem hPrefix hNe
      exfalso
      rcases List.mem_map.mp hMem with ⟨other, hOther, rfl⟩
      have hLe := hSorted.1 other hOther
      rcases hFiles name List.mem_cons_self with
        ⟨path, hPath, rfl⟩
      rcases hFiles other
          (List.mem_cons_of_mem _ hOther) with
        ⟨child, hChild, rfl⟩
      rw [pathOf_findName_of_filePath hPath,
        pathOf_findName_of_filePath hChild] at hPrefix hNe
      rcases hPrefix with ⟨rest, rfl⟩
      have hRest : rest ≠ [] := by
        rintro rfl
        exact hNe (List.append_nil path).symm
      exact absurd (findName_lt path hRest) (not_lt.mpr hLe)

/- `sort -r` puts the directories behind what is below. -/
theorem parentsLast_dirlist
    {paths : List Path}
    (hFiles : ∀ path ∈ paths, FilePath path) :
    ParentsLast
      ((sortLinesReverse (paths.map findName)).map
        pathOf) := by
  have hPerm := List.perm_insertionSort
    (fun a b : Text => b ≤ a) (paths.map findName)
  apply parentsLast_of_descending
  · intro name hMem
    rcases List.mem_map.mp (hPerm.mem_iff.mp hMem) with
      ⟨path, hPath, hName⟩
    exact ⟨path, hFiles path hPath, hName⟩
  · exact List.pairwise_insertionSort
      (fun a b : Text => b ≤ a) (paths.map findName)

------------------------------------------------------------
-- Names That Xargs Takes Apart
------------------------------------------------------------

variable {isSeparator : Char → Bool}

/- How much of a path `xargs` interprets. -/
def pathSpecials
    (isSeparator : Char → Bool)
    (path : Path) : Nat :=
  specials isSeparator (findName path)

/- A name without its slashes. -/
theorem flatten_splitOn_slash (name : Text) :
    (name.splitOn '/').flatten =
      name.filter (fun c => c ≠ '/') := by
  induction name with
  | nil => rfl
  | cons c name ih =>
      unfold List.splitOn at ih ⊢
      rw [List.splitOnP_cons_eq_if_modifyHead]
      by_cases hSlash : c = '/'
      · simp [hSlash, ih]
      · rw [if_neg (by simpa using hSlash),
          List.filter_cons_of_pos (by simpa using hSlash), ← ih]
        cases hParts : name.splitOnP (fun x => x == '/') with
        | nil => exact absurd hParts (List.splitOnP_ne_nil _ _)
        | cons part parts => rfl

theorem sum_specials (parts : List Text) :
    (parts.map (specials isSeparator)).sum =
      specials isSeparator parts.flatten := by
  induction parts with
  | nil => rfl
  | cons part parts ih =>
      rw [List.map_cons, List.sum_cons, ih,
        List.flatten_cons, specials_append]

theorem specials_cons_of_plain
    (hSeparators : Separators isSeparator)
    {c : Char}
    (hPlain : isPlainChar c = true)
    (name : Text) :
    specials isSeparator (c :: name) =
      specials isSeparator name := by
  have hTaken := isTaken_of_plain hSeparators hPlain
  simp [specials, hTaken]

theorem pathSpecials_eq
    (hSeparators : Separators isSeparator)
    (path : Path) :
    pathSpecials isSeparator path =
      (path.map (specials isSeparator)).sum := by
  unfold pathSpecials findName
  rw [specials_cons_of_plain hSeparators (by decide)]
  induction path with
  | nil => rfl
  | cons part path ih =>
      rw [List.flatMap_cons, List.cons_append,
        specials_cons_of_plain hSeparators (by decide),
        specials_append, ih, List.map_cons, List.sum_cons]

theorem pathSpecials_pathOf_le
    (hSeparators : Separators isSeparator)
    (name : Text) :
    pathSpecials isSeparator (pathOf name) ≤
      specials isSeparator name := by
  have hKept :
      ((pathOf name).map (specials isSeparator)).Sublist
        ((name.splitOn '/').map (specials isSeparator)) :=
    List.filter_sublist.map (specials isSeparator)
  have hParts := flatten_splitOn_slash name
  rw [pathSpecials_eq hSeparators]
  apply (hKept.sum_le_sum (fun _ _ => Nat.zero_le _)).trans
  rw [sum_specials, hParts]
  exact List.filter_sublist.countP_le

/-
  Some path has the most special characters, and is the
  longest one of those.
-/
theorem exists_hardest
    (isSeparator : Char → Bool)
    {paths : List Path}
    (hNonempty : paths ≠ []) :
    ∃ hard ∈ paths, ∀ path ∈ paths,
      pathSpecials isSeparator path <
          pathSpecials isSeparator hard ∨
        (pathSpecials isSeparator path =
            pathSpecials isSeparator hard ∧
          path.length ≤ hard.length) := by
  have hSome : paths.toFinset.Nonempty :=
    List.toFinset_nonempty_iff paths |>.mpr hNonempty
  rcases Finset.exists_max_image paths.toFinset
      (fun path => toLex
        (pathSpecials isSeparator path, path.length))
      hSome with ⟨hard, hMem, hMax⟩
  refine ⟨hard, List.mem_toFinset.mp hMem, ?_⟩
  intro path hPath
  have hLe := hMax path (List.mem_toFinset.mpr hPath)
  rw [Prod.Lex.toLex_le_toLex] at hLe
  exact hLe

/- A path that goes back to some others, or has a newline. -/
def FromPaths
    (isSeparator : Char → Bool)
    (paths : List Path)
    (path : Path) : Prop :=
  (∃ part ∈ path, '\n' ∈ part) ∨
    ∃ other ∈ paths,
      (pathSpecials isSeparator other = 0 ∧ path = other) ∨
        pathSpecials isSeparator path <
          pathSpecials isSeparator other

theorem fromPaths_of_xargs
    (hSeparators : Separators isSeparator)
    {paths : List Path}
    (hFiles : ∀ path ∈ paths, FilePath path)
    {names : List Text}
    (hNames : ∀ name ∈ names,
      ∃ path ∈ paths, findName path = name)
    {item : Text}
    (hItem : item ∈ xargsItems isSeparator
      (Text.unlines names)) :
    FromPaths isSeparator paths (pathOf item) := by
  have hLines : ∀ name ∈ names,
      '\n' ∉ name ∧ KeepsStart isSeparator name := by
    intro name hMem
    rcases hNames name hMem with ⟨path, hPath, rfl⟩
    refine ⟨newline_not_mem_findName (hFiles path hPath), ?_⟩
    intro c hHead hBlank
    obtain rfl : '.' = c := Option.some.inj hHead
    exact absurd hBlank (by decide)
  rcases fromLines_of_xargsItems hSeparators hLines item
      hItem with
    hNewline | ⟨name, hName, hFrom⟩
  · left
    have hParts : '\n' ∈ (item.splitOn '/').flatten := by
      rw [flatten_splitOn_slash]
      simpa using hNewline
    rcases List.mem_flatten.mp hParts with
      ⟨part, hPart, hMem⟩
    refine ⟨part, List.mem_filter.mpr ⟨hPart, ?_⟩, hMem⟩
    have hNil : part ≠ [] := List.ne_nil_of_mem hMem
    have hDot : part ≠ ['.'] := by
      rintro rfl
      rw [List.mem_singleton] at hMem
      revert hMem
      decide
    simp [hNil, hDot]
  · right
    rcases hNames name hName with ⟨path, hPath, rfl⟩
    refine ⟨path, hPath, ?_⟩
    rcases hFrom with ⟨hZero, hSame⟩ | hLess
    · left
      refine ⟨hZero, ?_⟩
      rw [hSame, pathOf_findName_of_filePath
        (hFiles path hPath)]
    · exact Or.inr
        ((pathSpecials_pathOf_le hSeparators item).trans_lt
          hLess)

end Mkrootfs
