import Mkrootfs.Library.FileTree

/-
  Removing many files or directories of a tree, one after
  the other.

  Main declarations:
    * `FileTree.removeAll`, `FileTree.removeDirs`
    * `FileTree.read_removeAll`
    * `ParentsLast`
    * `FileTree.lookup_removeDirs`
-/

------------------------------------------------------------
-- Single Nodes
------------------------------------------------------------

namespace Mkrootfs

namespace FileTree

variable {N D : Type} [DecidableEq N]

theorem isDir_iff
    (tree : FileTree N D)
    (path : List N) :
    tree.isDir path = true ↔
      tree.lookup path = some .dir := by
  unfold isDir
  split
  · next hLookup => simp [hLookup]
  · next hNot => simpa using hNot

/- A path that leads to nothing. -/
theorem lookup_eq_none_iff
    (tree : FileTree N D)
    (path : List N) :
    tree.lookup path = none ↔
      tree.read path = none ∧ tree.isDir path = false := by
  unfold read isDir
  cases tree.lookup path with
  | none => simp
  | some node => cases node <;> simp

/- A node is the file or the directory that is seen there. -/
theorem lookup_congr
    {tree tree' : FileTree N D}
    {path : List N}
    (hRead : tree'.read path = tree.read path)
    (hDir : tree'.isDir path = tree.isDir path) :
    tree'.lookup path = tree.lookup path := by
  unfold read at hRead
  unfold isDir at hDir
  cases hOld : tree.lookup path with
  | none =>
      rw [hOld] at hRead hDir
      cases hNew : tree'.lookup path with
      | none => rfl
      | some node =>
          rw [hNew] at hRead hDir
          cases node <;> simp at hRead hDir
  | some node =>
      rw [hOld] at hRead hDir
      cases hNew : tree'.lookup path with
      | none =>
          rw [hNew] at hRead hDir
          cases node <;> simp at hRead hDir
      | some other =>
          rw [hNew] at hRead hDir
          cases node <;> cases other <;>
            simp at hRead hDir ⊢
          exact hRead

theorem lookup_write_of_ne
    (tree : FileTree N D)
    {path other : List N}
    (data : D)
    (hNe : other ≠ path) :
    (tree.write path data).lookup other =
      tree.lookup other := by
  unfold write
  split
  · rfl
  · exact AList.lookup_insert_ne hNe

theorem lookup_mkdir_of_ne
    (tree : FileTree N D)
    {path other : List N}
    (hNe : other ≠ path) :
    (tree.mkdir path).lookup other = tree.lookup other := by
  unfold mkdir
  split
  · rfl
  · exact AList.lookup_insert_ne hNe

theorem lookup_move_of_ne
    (tree : FileTree N D)
    {source target other : List N}
    (hSource : other ≠ source)
    (hTarget : other ≠ target) :
    (tree.move source target).lookup other =
      tree.lookup other := by
  unfold move
  split
  · split
    · rfl
    · rw [AList.lookup_insert_ne hTarget,
        AList.lookup_erase_ne hSource]
  · rfl

theorem lookup_remove
    (tree : FileTree N D)
    (path other : List N) :
    (tree.remove path).lookup other =
      if other = path ∧ tree.isDir path = false then
        none
      else
        tree.lookup other := by
  unfold remove
  cases hDir : tree.isDir path with
  | true => simp
  | false =>
      by_cases hSame : other = path
      · subst hSame
        simp
      · simp [hSame, AList.lookup_erase_ne hSame]

theorem lookup_removeDir
    (tree : FileTree N D)
    (path other : List N) :
    (tree.removeDir path).lookup other =
      if other = path ∧ tree.isDir path = true ∧
          tree.hasBelow path = false then
        none
      else
        tree.lookup other := by
  unfold removeDir
  by_cases hEmpty : tree.isDir path = true ∧
      tree.hasBelow path = false
  · by_cases hSame : other = path
    · subst hSame
      simp [hEmpty.1, hEmpty.2]
    · simp [hSame, hEmpty.1, hEmpty.2,
        AList.lookup_erase_ne hSame]
  · have hNot : ¬ (tree.isDir path &&
        !tree.hasBelow path) = true := by
      simpa using hEmpty
    rw [if_neg hNot, if_neg (fun h => hEmpty h.2)]

/- Something is strictly below a directory. -/
theorem hasBelow_iff
    (tree : FileTree N D)
    (path : List N) :
    tree.hasBelow path = true ↔
      ∃ other, path <+: other ∧ path ≠ other ∧
        tree.lookup other ≠ none := by
  unfold hasBelow
  rw [List.any_eq_true]
  constructor
  · rintro ⟨entry, hMem, hBelow⟩
    rw [Bool.and_eq_true, List.isPrefixOf_iff_prefix,
      decide_eq_true_eq] at hBelow
    refine ⟨entry.1, hBelow.1, hBelow.2.symm, ?_⟩
    have hLookup : entry.2 ∈ tree.lookup entry.1 :=
      AList.mem_lookup_iff.mpr hMem
    rw [Option.mem_def.mp hLookup]
    exact Option.some_ne_none _
  · rintro ⟨other, hPrefix, hNe, hLookup⟩
    rcases Option.ne_none_iff_exists'.mp hLookup with
      ⟨node, hNode⟩
    refine ⟨⟨other, node⟩, AList.mem_lookup_iff.mp hNode, ?_⟩
    rw [Bool.and_eq_true, List.isPrefixOf_iff_prefix,
      decide_eq_true_eq]
    exact ⟨hPrefix, hNe.symm⟩

------------------------------------------------------------
-- Many Files
------------------------------------------------------------

/- `rm -f` of many paths. -/
def removeAll
    (paths : List (List N))
    (tree : FileTree N D) : FileTree N D :=
  paths.foldl (fun current path => remove path current) tree

@[simp] theorem isDir_removeAll
    (paths : List (List N))
    (tree : FileTree N D)
    (other : List N) :
    isDir (tree.removeAll paths) other =
      tree.isDir other := by
  unfold removeAll
  induction paths generalizing tree with
  | nil => rfl
  | cons path paths ih =>
      rw [List.foldl_cons, ih, isDir_remove]

theorem read_removeAll
    (paths : List (List N))
    (tree : FileTree N D)
    (other : List N) :
    read (tree.removeAll paths) other =
      if other ∈ paths then none else tree.read other := by
  unfold removeAll
  induction paths generalizing tree with
  | nil => simp
  | cons path paths ih =>
      rw [List.foldl_cons, ih, read_remove]
      by_cases hSame : other = path
      · simp [hSame]
      · by_cases hMem : other ∈ paths
        · simp [hMem]
        · simp [hSame, hMem]

/- Only files that are named are gone. -/
theorem lookup_removeAll
    (paths : List (List N))
    (tree : FileTree N D)
    (other : List N) :
    (tree.removeAll paths).lookup other =
      if other ∈ paths ∧ (tree.read other).isSome = true then
        none
      else
        tree.lookup other := by
  by_cases hGone : other ∈ paths ∧
      (tree.read other).isSome = true
  · rw [if_pos hGone, lookup_eq_none_iff, read_removeAll,
      if_pos hGone.1, isDir_removeAll]
    refine ⟨rfl, ?_⟩
    by_contra hDir
    rw [Bool.not_eq_false] at hDir
    rw [read_of_isDir hDir] at hGone
    simp at hGone
  · rw [if_neg hGone]
    apply lookup_congr
    · rw [read_removeAll]
      split
      · next hMem =>
          have hNone : ¬ (tree.read other).isSome = true :=
            fun h => hGone ⟨hMem, h⟩
          rw [Option.not_isSome_iff_eq_none] at hNone
          exact hNone.symm
      · rfl
    · exact isDir_removeAll paths tree other

theorem lookup_removeAll_congr
    {first second : List (List N)}
    {other : List N}
    (hMem : other ∈ first ↔ other ∈ second)
    (tree : FileTree N D) :
    (tree.removeAll first).lookup other =
      (tree.removeAll second).lookup other := by
  rw [lookup_removeAll, lookup_removeAll]
  exact if_congr (and_congr_left (fun _ => hMem)) rfl rfl

theorem removeAll_append
    (first second : List (List N))
    (tree : FileTree N D) :
    tree.removeAll (first ++ second) =
      removeAll second (tree.removeAll first) :=
  List.foldl_append

/- Where there is no file, nothing happens. -/
theorem remove_of_read_none
    {tree : FileTree N D}
    {path : List N}
    (hRead : tree.read path = none) :
    tree.remove path = tree := by
  unfold remove
  split
  · rfl
  · next hDir =>
      have hNone := (lookup_eq_none_iff tree path).mpr
        ⟨hRead, by simpa using hDir⟩
      rw [AList.lookup_eq_none] at hNone
      exact AList.ext (List.kerase_of_notMem_keys hNone)

/- Paths without a file need not be named. -/
theorem removeAll_filter
    {keep : List N → Bool}
    {paths : List (List N)}
    {tree : FileTree N D}
    (hRead : ∀ path ∈ paths, keep path = false →
      tree.read path = none) :
    tree.removeAll (paths.filter keep) =
      tree.removeAll paths := by
  induction paths generalizing tree with
  | nil => rfl
  | cons path paths ih =>
      have hRest : ∀ other ∈ paths, keep other = false →
          (tree.remove path).read other = none := by
        intro other hMem hDrop
        rw [read_remove, hRead other
          (List.mem_cons_of_mem path hMem) hDrop, ite_self]
      have hStep : tree.removeAll (path :: paths) =
          removeAll paths (tree.remove path) :=
        rfl
      rw [hStep]
      cases hKeep : keep path with
      | true =>
          rw [List.filter_cons_of_pos hKeep]
          exact ih hRest
      | false =>
          have hNone := hRead path List.mem_cons_self hKeep
          rw [List.filter_cons_of_neg (by simp [hKeep]),
            remove_of_read_none hNone]
          rw [remove_of_read_none hNone] at hRest
          exact ih hRest

theorem removeAll_of_read_none
    {paths : List (List N)}
    {tree : FileTree N D}
    (hRead : ∀ path ∈ paths, tree.read path = none) :
    tree.removeAll paths = tree := by
  unfold removeAll
  induction paths with
  | nil => rfl
  | cons path paths ih =>
      rw [List.foldl_cons, remove_of_read_none
        (hRead path List.mem_cons_self)]
      exact ih (fun other hMem =>
        hRead other (List.mem_cons_of_mem path hMem))

/- Nothing appears. -/
theorem lookup_removeAll_of_none
    (paths : List (List N))
    {tree : FileTree N D}
    {path : List N}
    (hNone : tree.lookup path = none) :
    (tree.removeAll paths).lookup path = none := by
  rw [lookup_removeAll, hNone, ite_self]

------------------------------------------------------------
-- Many Directories
------------------------------------------------------------

/- `rmdir --ignore-fail-on-non-empty` of many paths. -/
def removeDirs
    (paths : List (List N))
    (tree : FileTree N D) : FileTree N D :=
  paths.foldl (fun current path => removeDir path current)
    tree

@[simp] theorem read_removeDirs
    (paths : List (List N))
    (tree : FileTree N D)
    (other : List N) :
    read (tree.removeDirs paths) other =
      tree.read other := by
  unfold removeDirs
  induction paths generalizing tree with
  | nil => rfl
  | cons path paths ih =>
      rw [List.foldl_cons, ih, read_removeDir]

theorem removeDirs_append
    (first second : List (List N))
    (tree : FileTree N D) :
    tree.removeDirs (first ++ second) =
      removeDirs second (tree.removeDirs first) :=
  List.foldl_append

/- A directory that holds nothing. -/
def EmptyDir
    (tree : FileTree N D)
    (path : List N) : Prop :=
  tree.isDir path = true ∧ tree.hasBelow path = false

theorem removeDir_of_not_empty
    {tree : FileTree N D}
    {path : List N}
    (hKept : ¬ tree.EmptyDir path) :
    tree.removeDir path = tree := by
  unfold removeDir
  rw [if_neg]
  simpa [EmptyDir] using hKept

theorem removeDirs_of_not_empty
    {paths : List (List N)}
    {tree : FileTree N D}
    (hKept : ∀ path ∈ paths, ¬ tree.EmptyDir path) :
    tree.removeDirs paths = tree := by
  unfold removeDirs
  induction paths with
  | nil => rfl
  | cons path paths ih =>
      rw [List.foldl_cons, removeDir_of_not_empty
        (hKept path List.mem_cons_self)]
      exact ih (fun other hMem =>
        hKept other (List.mem_cons_of_mem path hMem))

theorem lookup_removeDir_of_none
    (path : List N)
    {tree : FileTree N D}
    {other : List N}
    (hNone : tree.lookup other = none) :
    (tree.removeDir path).lookup other = none := by
  rw [lookup_removeDir, hNone, ite_self]

theorem lookup_removeDirs_of_none
    (paths : List (List N))
    {tree : FileTree N D}
    {other : List N}
    (hNone : tree.lookup other = none) :
    (tree.removeDirs paths).lookup other = none := by
  unfold removeDirs
  induction paths generalizing tree with
  | nil => exact hNone
  | cons path paths ih =>
      exact ih (lookup_removeDir_of_none path hNone)

theorem lookup_removeDirs_of_not_mem
    {paths : List (List N)}
    (tree : FileTree N D)
    {other : List N}
    (hMem : other ∉ paths) :
    (tree.removeDirs paths).lookup other =
      tree.lookup other := by
  unfold removeDirs
  induction paths generalizing tree with
  | nil => rfl
  | cons path paths ih =>
      rw [List.foldl_cons,
        ih _ (fun h => hMem (List.mem_cons_of_mem path h)),
        lookup_removeDir, if_neg]
      rintro ⟨hSame, _⟩
      exact hMem (hSame ▸ List.mem_cons_self)

/- Another directory stays empty. -/
theorem emptyDir_removeDir
    {tree : FileTree N D}
    {path other : List N}
    (hEmpty : tree.EmptyDir other)
    (hNe : other ≠ path) :
    (tree.removeDir path).EmptyDir other := by
  refine ⟨(isDir_removeDir_of_ne tree hNe).trans hEmpty.1, ?_⟩
  by_contra hNot
  rw [Bool.not_eq_false, hasBelow_iff] at hNot
  rcases hNot with ⟨below, hPrefix, hBelow, hLookup⟩
  have hSome : tree.hasBelow other = true :=
    (hasBelow_iff tree other).mpr ⟨below, hPrefix, hBelow,
      fun h => hLookup (lookup_removeDir_of_none path h)⟩
  rw [hEmpty.2] at hSome
  cases hSome

/- An empty directory that is named is gone. -/
theorem lookup_removeDirs_of_empty
    {paths : List (List N)}
    {tree : FileTree N D}
    {other : List N}
    (hEmpty : tree.EmptyDir other)
    (hMem : other ∈ paths) :
    (tree.removeDirs paths).lookup other = none := by
  unfold removeDirs
  induction paths generalizing tree with
  | nil => cases hMem
  | cons path paths ih =>
      rw [List.foldl_cons]
      by_cases hSame : other = path
      · apply lookup_removeDirs_of_none
        rw [lookup_removeDir, if_pos ⟨hSame, hSame ▸ hEmpty⟩]
      · exact ih (emptyDir_removeDir hEmpty hSame)
          ((List.mem_cons.mp hMem).resolve_left hSame)

/- A tree with nothing else than another one has. -/
def Shrunk (tree smaller : FileTree N D) : Prop :=
  ∀ path, smaller.lookup path = none ∨
    smaller.lookup path = tree.lookup path

theorem shrunk_removeAll
    (paths : List (List N))
    (tree : FileTree N D) :
    tree.Shrunk (tree.removeAll paths) := by
  intro path
  rw [lookup_removeAll]
  split
  · exact Or.inl rfl
  · exact Or.inr rfl

theorem shrunk_removeDirs
    (paths : List (List N))
    (tree : FileTree N D) :
    tree.Shrunk (tree.removeDirs paths) := by
  induction paths generalizing tree with
  | nil => exact fun path => Or.inr rfl
  | cons path paths ih =>
      intro other
      rcases ih (tree.removeDir path) other with hNone | hSame
      · exact Or.inl hNone
      · have hStep := lookup_removeDir tree path other
        split at hStep
        · exact Or.inl (hSame.trans hStep)
        · exact Or.inr (hSame.trans hStep)

theorem Shrunk.trans
    {tree smaller smallest : FileTree N D}
    (hFirst : tree.Shrunk smaller)
    (hSecond : smaller.Shrunk smallest) :
    tree.Shrunk smallest := by
  intro path
  rcases hSecond path with hNone | hSame
  · exact Or.inl hNone
  · rw [hSame]
    exact hFirst path

theorem Shrunk.read
    {tree smaller : FileTree N D}
    (hShrunk : tree.Shrunk smaller)
    (path : List N) :
    smaller.read path = none ∨
      smaller.read path = tree.read path := by
  unfold FileTree.read
  rcases hShrunk path with hNone | hSame
  · rw [hNone]
    exact Or.inl rfl
  · rw [hSame]
    exact Or.inr rfl

end FileTree

/-
  Each directory comes, maybe again, behind the ones that
  are listed below it.
-/
def ParentsLast {N : Type} : List (List N) → Prop
| [] => True
| path :: paths =>
    (∀ other ∈ paths, path <+: other → path ≠ other →
      path ∈ paths) ∧
      ParentsLast paths

namespace FileTree

variable {N D : Type} [DecidableEq N]

/- A directory with nothing but listed directories below. -/
def Emptied
    (tree : FileTree N D)
    (paths : List (List N))
    (path : List N) : Prop :=
  tree.isDir path = true ∧ path ∈ paths ∧
    ∀ other, path <+: other → path ≠ other →
      tree.lookup other ≠ none →
      tree.isDir other = true ∧ other ∈ paths

/- Only what is at a directory and below it matters. -/
theorem emptied_congr
    {tree tree' : FileTree N D}
    {path : List N}
    (hLookup : ∀ other, path <+: other →
      tree'.lookup other = tree.lookup other)
    (paths : List (List N)) :
    tree'.Emptied paths path ↔ tree.Emptied paths path := by
  have hDir : ∀ other, path <+: other →
      tree'.isDir other = tree.isDir other := by
    intro other hPrefix
    unfold isDir
    rw [hLookup other hPrefix]
  unfold Emptied
  rw [hDir path List.prefix_rfl]
  refine and_congr_right (fun _ => and_congr_right (fun _ =>
    forall_congr' (fun other => ?_)))
  refine forall_congr' (fun hPrefix => ?_)
  rw [hLookup other hPrefix, hDir other hPrefix]

/- Trying one more directory before the others. -/
theorem emptied_cons_iff
    {tree : FileTree N D}
    {path : List N}
    {paths : List (List N)}
    (hLast : ∀ other ∈ paths, path <+: other →
      path ≠ other → path ∈ paths)
    (hKept : ¬ (tree.isDir path = true ∧
      tree.hasBelow path = false))
    (other : List N) :
    tree.Emptied (path :: paths) other ↔
      tree.Emptied paths other := by
  -- What was not empty at first has to be listed again.
  have hAgain : tree.isDir path = true →
      (∀ below, path <+: below → path ≠ below →
        tree.lookup below ≠ none →
        tree.isDir below = true ∧ below ∈ path :: paths) →
      path ∈ paths := by
    intro hDir hBelow
    have hSome : tree.hasBelow path = true := by
      by_contra hNot
      exact hKept ⟨hDir, by simpa using hNot⟩
    rcases (hasBelow_iff tree path).mp hSome with
      ⟨below, hPrefix, hNe, hLookup⟩
    rcases List.mem_cons.mp
        (hBelow below hPrefix hNe hLookup).2 with
      hSame | hMem
    · exact absurd hSame.symm hNe
    · exact hLast below hMem hPrefix hNe
  constructor
  · rintro ⟨hDir, hMem, hBelow⟩
    have hPath : path = other ∨ path ∈ paths ∨
        ¬ (other <+: path ∧ tree.lookup path ≠ none) := by
      by_cases hSame : path = other
      · exact Or.inl hSame
      · by_cases hIn : other <+: path ∧
            tree.lookup path ≠ none
        · right
          left
          have hOwn := hBelow path hIn.1 (Ne.symm hSame)
            hIn.2
          apply hAgain hOwn.1
          intro below hPrefix hNe hLookup
          apply hBelow below (hIn.1.trans hPrefix) ?_ hLookup
          rintro rfl
          exact hNe (hPrefix.eq_of_length_le
            hIn.1.length_le)
        · exact Or.inr (Or.inr hIn)
    refine ⟨hDir, ?_, ?_⟩
    · rcases List.mem_cons.mp hMem with hSame | hMem
      · subst hSame
        exact hAgain hDir hBelow
      · exact hMem
    · intro below hPrefix hNe hLookup
      rcases hBelow below hPrefix hNe hLookup with
        ⟨hBelowDir, hBelowMem⟩
      refine ⟨hBelowDir, ?_⟩
      rcases List.mem_cons.mp hBelowMem with hSame | hIn
      · subst hSame
        rcases hPath with hOther | hIn | hOut
        · exact absurd hOther.symm hNe
        · exact hIn
        · exact absurd ⟨hPrefix, hLookup⟩ hOut
      · exact hIn
  · rintro ⟨hDir, hMem, hBelow⟩
    refine ⟨hDir, List.mem_cons_of_mem path hMem, ?_⟩
    intro below hPrefix hNe hLookup
    rcases hBelow below hPrefix hNe hLookup with
      ⟨hBelowDir, hBelowMem⟩
    exact ⟨hBelowDir, List.mem_cons_of_mem path hBelowMem⟩

/- Once an empty directory is gone. -/
theorem emptied_removeDir_iff
    {tree : FileTree N D}
    {path : List N}
    {paths : List (List N)}
    (hGone : tree.isDir path = true ∧
      tree.hasBelow path = false)
    {other : List N}
    (hNe : other ≠ path) :
    (tree.removeDir path).Emptied paths other ↔
      tree.Emptied (path :: paths) other := by
  have hLookup : ∀ below, below ≠ path →
      (tree.removeDir path).lookup below =
        tree.lookup below := by
    intro below hBelow
    rw [lookup_removeDir, if_neg (fun h => hBelow h.1)]
  have hNone : (tree.removeDir path).lookup path = none := by
    rw [lookup_removeDir, if_pos ⟨rfl, hGone⟩]
  have hMem : other ∈ path :: paths ↔ other ∈ paths := by
    simp [hNe]
  unfold Emptied
  rw [isDir_removeDir_of_ne tree hNe, hMem]
  refine and_congr_right (fun _ => and_congr_right (fun _ =>
    forall_congr' (fun below => ?_)))
  by_cases hBelow : below = path
  · subst hBelow
    simp [hNone, hGone.1]
  · rw [hLookup below hBelow,
      isDir_removeDir_of_ne tree hBelow]
    simp [hBelow]

/-
  Which directories are gone, when parents come last: the
  listed ones with nothing but listed ones below.
-/
theorem lookup_removeDirs
    {paths : List (List N)}
    (hLast : ParentsLast paths)
    (tree : FileTree N D)
    (other : List N) :
    (tree.Emptied paths other →
      (tree.removeDirs paths).lookup other = none) ∧
      (¬ tree.Emptied paths other →
        (tree.removeDirs paths).lookup other =
          tree.lookup other) := by
  induction paths generalizing tree with
  | nil =>
      refine ⟨?_, fun _ => rfl⟩
      rintro ⟨_, hMem, _⟩
      cases hMem
  | cons path paths ih =>
      have hRest := ih hLast.2 (tree.removeDir path)
      have hStep : tree.removeDirs (path :: paths) =
          (tree.removeDir path).removeDirs paths := rfl
      rw [hStep]
      by_cases hGone : tree.isDir path = true ∧
          tree.hasBelow path = false
      · by_cases hSame : other = path
        · have hNone :
              (tree.removeDir path).lookup other = none := by
            rw [lookup_removeDir, if_pos ⟨hSame, hGone⟩]
          have hAfter : ((tree.removeDir path).removeDirs
              paths).lookup other = none := by
            by_cases hEmptied :
                (tree.removeDir path).Emptied paths other
            · exact hRest.1 hEmptied
            · rw [hRest.2 hEmptied, hNone]
          refine ⟨fun _ => hAfter, ?_⟩
          intro hNot
          exfalso
          apply hNot
          subst hSame
          refine ⟨hGone.1, List.mem_cons_self, ?_⟩
          intro below hPrefix hNe hLookup
          have hBelow := (hasBelow_iff tree other).mpr
            ⟨below, hPrefix, hNe, hLookup⟩
          rw [hGone.2] at hBelow
          cases hBelow
        · rw [emptied_removeDir_iff hGone hSame] at hRest
          have hLookup : (tree.removeDir path).lookup other =
              tree.lookup other := by
            rw [lookup_removeDir,
              if_neg (fun h => hSame h.1)]
          rw [hLookup] at hRest
          exact hRest
      · have hKept : tree.removeDir path = tree :=
          removeDir_of_not_empty hGone
        rw [hKept] at hRest ⊢
        rw [emptied_cons_iff hLast.1 hGone]
        exact hRest

end FileTree

------------------------------------------------------------
-- Lists With Parents Last
------------------------------------------------------------

variable {N : Type}

/- A list that is closed under parents may be appended. -/
theorem parentsLast_append
    {first second : List (List N)}
    (hFirst : ParentsLast first)
    (hSecond : ParentsLast second)
    (hClosed : ∀ path ∈ first, ∀ other ∈ second,
      path <+: other → path ∈ second) :
    ParentsLast (first ++ second) := by
  induction first with
  | nil => exact hSecond
  | cons path first ih =>
      refine ⟨?_, ih hFirst.2 (fun other hMem =>
        hClosed other (List.mem_cons_of_mem path hMem))⟩
      intro other hMem hPrefix hNe
      rcases List.mem_append.mp hMem with hMem | hMem
      · exact List.mem_append_left second
          (hFirst.1 other hMem hPrefix hNe)
      · exact List.mem_append_right first
          (hClosed path List.mem_cons_self other hMem
            hPrefix)

/- The same paths, from a directory above. -/
theorem parentsLast_map_append
    (base : List N)
    {paths : List (List N)}
    (hLast : ParentsLast paths) :
    ParentsLast (paths.map (fun path => base ++ path)) := by
  induction paths with
  | nil => exact trivial
  | cons path paths ih =>
      refine ⟨?_, ih hLast.2⟩
      intro other hMem hPrefix hNe
      rcases List.mem_map.mp hMem with ⟨below, hBelow, rfl⟩
      rw [List.prefix_append_right_inj] at hPrefix
      apply List.mem_map_of_mem
      exact hLast.1 below hBelow hPrefix
        (fun hSame => hNe (by rw [hSame]))

end Mkrootfs
