import Mkrootfs.Library.SlashPaths

/-
  `relln.sh`: a symbolic link at one absolute path to
  another one, by the shortest way up and down.

  Main declarations:
    * `Relln.dirname`
    * `Relln.climb`, `Relln.relln`
    * `Relln.relln_links`
-/

------------------------------------------------------------
-- The Script
------------------------------------------------------------

namespace Mkrootfs

namespace Relln

/- A path without the slashes at its end. -/
def dropSlashes (path : Text) : Text :=
  (path.reverse.dropWhile (· = '/')).reverse

/- `dirname`. -/
def dirname (path : Text) : Text :=
  let stripped := dropSlashes path
  if stripped = [] then
    if path = [] then ['.'] else ['/']
  else if '/' ∉ stripped then
    ['.']
  else
    let dir := dropSlashes (dropLastPart stripped)
    if dir = [] then ['/'] else dir

/-
  The loop: `common` goes up until it stands above `dest`.
  The bound is for the number of tests.
-/
def climb
    (dest : Text) :
    Nat →
    Text →
    Text →
    Option (Text × Text)
| 0, _, _ => none
| fuel + 1, common, up =>
    if dropStart (common ++ ['/']) dest = dest then
      climb dest fuel (dropLastPart common)
        (['.', '.', '/'] ++ up)
    else
      some (common, up)

/- The text that `ln -s` is given for `dest` and `src`. -/
def relln
    (fuel : Nat)
    (dest src : Text) : Option Text := do
  let srcdir := dirname src
  let common := dropFinalSlash srcdir
  let dest := dropFinalSlash dest ++ ['/']
  let (common, up) ← climb dest fuel common []
  let dest := up ++ dropStart (common ++ ['/']) dest
  let dest := dropFinalSlash dest
  some (if dest = [] then ['.'] else dest)

------------------------------------------------------------
-- The Directory Of The Link
------------------------------------------------------------

theorem dropSlashes_of_part
    (text : Text)
    {part : Text}
    (hPart : NormalPart part) :
    dropSlashes (text ++ part) = text ++ part := by
  unfold dropSlashes
  rw [List.reverse_append]
  rcases List.eq_nil_or_concat part with
    hNil | ⟨front, c, hConcat⟩
  · exact absurd hNil hPart.nonempty
  · have hChar : c ≠ '/' := by
      rintro rfl
      exact hPart.noSlash (by simp [hConcat])
    rw [hConcat]
    simp [hChar]

theorem dropSlashes_joinSlash
    (dirs : NormalPath) :
    dropSlashes (joinSlash dirs.parts) =
      joinSlash dirs.parts := by
  rcases List.eq_nil_or_concat dirs.parts with
    hNil | ⟨front, part, hParts⟩
  · rw [hNil]
    rfl
  · have hPart := dirs.normal part (by simp [hParts])
    rw [hParts, List.concat_eq_append, joinSlash_concat,
      List.append_cons, dropSlashes_of_part _ hPart]

/- `dirname` takes the last component away. -/
theorem dirname_joinSlash
    (dirs : NormalPath)
    {part : Text}
    (hPart : NormalPart part) :
    dirname (joinSlash (dirs.parts ++ [part])) =
      dirs.text := by
  have hStripped : dropSlashes
        (joinSlash (dirs.parts ++ [part])) =
      joinSlash dirs.parts ++ '/' :: part := by
    rw [joinSlash_concat, List.append_cons,
      dropSlashes_of_part _ hPart]
  unfold dirname
  simp only [hStripped]
  rw [if_neg (by simp), if_neg (by simp),
    dropLastPart_append _ hPart, dropSlashes_joinSlash]
  unfold NormalPath.text
  by_cases hRoot : dirs.parts = []
  · simp [hRoot]
  · have hText : joinSlash dirs.parts ≠ [] := by
      cases hParts : dirs.parts with
      | nil => exact absurd hParts hRoot
      | cons first rest => simp
    rw [if_neg hText, if_neg hRoot]

------------------------------------------------------------
-- The Loop
------------------------------------------------------------

/- How far the loop has gone up. -/
def upText (ups : Nat) : Text :=
  (List.replicate ups ['.', '.']).flatMap
    (fun part => part ++ ['/'])

theorem upText_succ (ups : Nat) :
    upText (ups + 1) = ['.', '.', '/'] ++ upText ups := by
  rw [upText, List.replicate_succ, List.flatMap_cons]
  rfl

/- One more test, with the loop at a directory. -/
theorem climb_succ
    {dest common : List Text}
    (hDest : ∀ part ∈ dest, NormalPart part)
    (hCommon : ∀ part ∈ common, NormalPart part)
    (fuel : Nat)
    (up : Text) :
    climb (joinSlash dest ++ ['/']) (fuel + 1)
        (joinSlash common) up =
      if common <+: dest then
        some (joinSlash common, up)
      else
        climb (joinSlash dest ++ ['/']) fuel
          (dropLastPart (joinSlash common))
          (['.', '.', '/'] ++ up) := by
  have hSlash : joinSlash common ++ ['/'] ≠ [] := by
    simp
  have hTest := dropStart_eq_self_iff
    (joinSlash dest ++ ['/']) hSlash
  rw [joinSlash_slash_prefix_iff hCommon hDest] at hTest
  conv_lhs => rw [climb]
  simp only [hTest, ite_not]

/-
  The loop stops at the deepest directory above both, when
  no deeper one was passed.
-/
theorem climb_eq
    {dest srcdir : List Text}
    (hDest : ∀ part ∈ dest, NormalPart part)
    (hSrcdir : ∀ part ∈ srcdir, NormalPart part)
    {common : List Text}
    (hCommon : common <+: srcdir)
    (hPassed : ∀ other, other <+: srcdir →
      common.length < other.length → ¬ other <+: dest) :
    ∃ final,
      DeepestCommon final dest srcdir ∧
      ∀ fuel, common.length + 1 ≤ fuel →
        climb (joinSlash dest ++ ['/']) fuel
            (joinSlash common)
            (upText (srcdir.length - common.length)) =
          some (joinSlash final,
            upText (srcdir.length - final.length)) := by
  induction common using List.reverseRecOn with
  | nil =>
      refine ⟨[], ⟨List.nil_prefix, List.nil_prefix, ?_⟩, ?_⟩
      · intro other hDest hSrcdir
        by_contra hNot
        have hLess : ([] : List Text).length <
            other.length := by
          cases other with
          | nil => exact absurd List.nil_prefix hNot
          | cons part other => simp
        exact hPassed other hSrcdir hLess hDest
      · intro fuel hFuel
        cases fuel with
        | zero => simp at hFuel
        | succ fuel =>
            rw [climb_succ hDest (by simp), if_pos
              List.nil_prefix]
  | append_singleton common part ih =>
      have hShorter : common <+: common ++ [part] :=
        List.prefix_append common [part]
      by_cases hHere : common ++ [part] <+: dest
      · refine ⟨common ++ [part], ⟨hHere, hCommon, ?_⟩, ?_⟩
        · intro other hOther hBelow
          refine List.prefix_of_prefix_length_le hBelow
            hCommon ?_
          by_contra hLonger
          exact hPassed other hBelow (not_le.mp hLonger)
            hOther
        · intro fuel hFuel
          cases fuel with
          | zero => simp at hFuel
          | succ fuel =>
              rw [climb_succ hDest (fun one hMem =>
                hSrcdir one (hCommon.subset hMem)),
                if_pos hHere]
      · have hNext : ∀ other, other <+: srcdir →
            common.length < other.length →
            ¬ other <+: dest := by
          intro other hBelow hLess hOther
          by_cases hLonger :
              (common ++ [part]).length < other.length
          · exact hPassed other hBelow hLonger hOther
          · have hSame : other = common ++ [part] := by
              apply List.IsPrefix.eq_of_length
              · exact List.prefix_of_prefix_length_le hBelow
                  hCommon (not_lt.mp hLonger)
              · rw [List.length_append,
                  List.length_singleton] at hLonger ⊢
                omega
            exact hHere (hSame ▸ hOther)
        rcases ih (hShorter.trans hCommon) hNext with
          ⟨final, hDeepest, hClimb⟩
        refine ⟨final, hDeepest, ?_⟩
        intro fuel hFuel
        have hPart := hSrcdir part
          (hCommon.subset (by simp))
        have hRoom := hCommon.length_le
        rw [List.length_append, List.length_singleton]
          at hFuel hRoom ⊢
        cases fuel with
        | zero => omega
        | succ fuel =>
            have hUp : srcdir.length - common.length =
                srcdir.length - (common.length + 1) + 1 := by
              omega
            rw [climb_succ hDest (fun one hMem =>
              hSrcdir one (hCommon.subset hMem)),
              if_neg hHere, joinSlash_concat,
              dropLastPart_append _ hPart]
            have hRest := hClimb fuel (by omega)
            rw [hUp, upText_succ] at hRest
            exact hRest

/- What is left of the destination behind the loop. -/
theorem dropStart_joinSlash
    (common rest : List Text) :
    dropStart (joinSlash common ++ ['/'])
        (joinSlash (common ++ rest) ++ ['/']) =
      rest.flatMap (fun part => part ++ ['/']) := by
  have hText : joinSlash (common ++ rest) ++ ['/'] =
      (joinSlash common ++ ['/']) ++
        rest.flatMap (fun part => part ++ ['/']) := by
    rw [joinSlash_append, List.append_assoc,
      joinSlash_append_slash rest, List.append_assoc]
    rfl
  rw [hText, dropStart_append]

/- The link text has the components up and down. -/
theorem finish_eq
    (ups : Nat)
    {rest : List Text}
    (hRest : ∀ part ∈ rest, NormalPart part) :
    (let dest := dropFinalSlash (upText ups ++
        rest.flatMap (fun part => part ++ ['/']))
      if dest = [] then ['.'] else dest) =
      linkText (upDown ups rest) := by
  have hParts : upText ups ++
        rest.flatMap (fun part => part ++ ['/']) =
      (upDown ups rest).flatMap
        (fun part => part ++ ['/']) := by
    rw [upText, upDown, List.flatMap_append]
  rw [hParts]
  by_cases hEmpty : upDown ups rest = []
  · rw [hEmpty]
    rfl
  · rw [flatMap_slash_eq hEmpty, dropFinalSlash_append]
    exact if_neg
      (linkText_ne_nil (nonempty_of_mem_upDown hRest))

/-
  For all normal paths the script ends, and the link is
  relative and leads from its directory to the destination;
  it goes up no further than to the deepest directory above
  both.
-/
theorem relln_links
    (dest src : NormalPath)
    (hSrc : src.parts ≠ []) :
    ∃ link,
      (∃ enough, ∀ fuel, enough ≤ fuel →
        relln fuel dest.text src.text = some link) ∧
      ¬ IsAbsolute link ∧
      followLink src.parts.dropLast link = dest.parts ∧
      ∃ common,
        DeepestCommon common dest.parts
          src.parts.dropLast ∧
        leadingUps link =
          src.parts.dropLast.length - common.length := by
  have hParts := (List.dropLast_append_getLast hSrc).symm
  have hPart := src.normal _ (List.getLast_mem hSrc)
  have hDirs : ∀ part ∈ src.parts.dropLast,
      NormalPart part :=
    fun part hMem =>
      src.normal part (List.dropLast_subset _ hMem)
  rcases climb_eq dest.normal hDirs (List.prefix_refl _)
      (fun other hBelow hLonger =>
        absurd hBelow.length_le (not_le.mpr hLonger)) with
    ⟨common, hDeepest, hClimb⟩
  rcases hDeepest.left with ⟨rest, hRest⟩
  have hNormal : ∀ part ∈ rest, NormalPart part := by
    intro part hMem
    refine dest.normal part ?_
    rw [← hRest]
    exact List.mem_append_right common hMem
  have hRoom := hDeepest.right.length_le
  refine ⟨linkText (upDown
    (src.parts.dropLast.length - common.length) rest),
    ⟨src.parts.dropLast.length + 1, ?_⟩,
    not_isAbsolute_linkText (nonempty_of_mem_upDown hNormal)
      (slash_not_mem_upDown hNormal), ?_,
    common, hDeepest, leadingUps_linkText _ hNormal⟩
  · intro fuel hFuel
    have hText : src.text =
        joinSlash (src.parts.dropLast ++
          [src.parts.getLast hSrc]) := by
      rw [NormalPath.text, if_neg hSrc, ← hParts]
    have hSrcdir := dirname_joinSlash
      ⟨src.parts.dropLast, hDirs⟩ hPart
    have hLoop := hClimb fuel hFuel
    have hStart : upText 0 = [] := rfl
    rw [Nat.sub_self, hStart] at hLoop
    unfold relln
    rw [hText, hSrcdir]
    simp only [dropFinalSlash_text, hLoop,
      Option.bind_eq_bind, Option.bind_some]
    rw [← hRest, dropStart_joinSlash]
    exact congrArg some (finish_eq _ hNormal)
  · have hCommon : src.parts.dropLast.take common.length =
        common :=
      (List.prefix_iff_eq_take.mp hDeepest.right).symm
    rw [followLink_linkText _ _ hNormal,
      Nat.sub_sub_self hRoom, hCommon, hRest]

/- The link that stands for the dynamic loader. -/
theorem relln_links_loader :
    ∃ link,
      (∃ enough, ∀ fuel, enough ≤ fuel →
        relln fuel "/inst/lib".toList "/inst/lib64".toList =
          some link) ∧
      ¬ IsAbsolute link ∧
      followLink ["inst".toList] link =
        ["inst".toList, "lib".toList] := by
  rcases relln_links
      ⟨["inst".toList, "lib".toList], by decide⟩
      ⟨["inst".toList, "lib64".toList], by decide⟩
      (by decide) with
    ⟨link, hRun, hRelative, hFollow, -⟩
  exact ⟨link, hRun, hRelative, hFollow⟩

end Relln

end Mkrootfs
