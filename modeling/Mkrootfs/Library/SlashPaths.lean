import Mathlib.Data.List.Infix
import Mathlib.Data.List.TakeWhile
import Mkrootfs.Library.Text

/-
  Paths as texts with slashes: the texts of normal paths,
  what a shell removes from their ends, and links, followed
  without looking at the file system.

  Main declarations:
    * `NormalPath`, `joinSlash`
    * `joinSlash_slash_prefix_iff`
    * `dropFinalSlash`, `dropLastPart`, `dropStart`
    * `IsAbsolute`, `followLink`, `linkText`
    * `followLink_linkText`
    * `DeepestCommon`
-/

------------------------------------------------------------
-- Texts Of Paths
------------------------------------------------------------

namespace Mkrootfs

/- A component of a path that stands for itself. -/
structure NormalPart (part : Text) : Prop where
  nonempty : part ≠ []
  noSlash : '/' ∉ part
  notDot : part ≠ ['.']
  notUp : part ≠ ['.', '.']

instance : DecidablePred NormalPart := fun part =>
  decidable_of_iff
    (part ≠ [] ∧ '/' ∉ part ∧ part ≠ ['.'] ∧
      part ≠ ['.', '.'])
    ⟨fun h => ⟨h.1, h.2.1, h.2.2.1, h.2.2.2⟩,
      fun h => ⟨h.1, h.2, h.3, h.4⟩⟩

/- An absolute path by its components. -/
structure NormalPath where
  parts : List Text
  normal : ∀ part ∈ parts, NormalPart part

/- Each component with the slash before it. -/
def joinSlash (parts : List Text) : Text :=
  parts.flatMap (fun part => '/' :: part)

@[simp] theorem joinSlash_nil : joinSlash [] = [] := rfl

@[simp] theorem joinSlash_cons
    (part : Text)
    (parts : List Text) :
    joinSlash (part :: parts) =
      '/' :: part ++ joinSlash parts := by
  simp [joinSlash]

theorem joinSlash_append
    (first last : List Text) :
    joinSlash (first ++ last) =
      joinSlash first ++ joinSlash last := by
  simp [joinSlash]

theorem joinSlash_concat
    (parts : List Text)
    (part : Text) :
    joinSlash (parts ++ [part]) =
      joinSlash parts ++ '/' :: part := by
  simp [joinSlash]

/- The text of a path; the root is a slash. -/
def NormalPath.text (path : NormalPath) : Text :=
  if path.parts = [] then ['/'] else joinSlash path.parts

/- The same with a slash behind each component. -/
theorem joinSlash_append_slash
    (parts : List Text) :
    joinSlash parts ++ ['/'] =
      '/' :: parts.flatMap (fun part => part ++ ['/']) := by
  induction parts with
  | nil => rfl
  | cons part parts ih =>
      rw [joinSlash_cons, List.append_assoc, ih,
        List.flatMap_cons]
      simp

/- Up to their first slashes two texts are compared whole. -/
theorem prefix_at_slash_iff
    {part other left right : Text}
    (hPart : '/' ∉ part)
    (hOther : '/' ∉ other) :
    part ++ '/' :: left <+: other ++ '/' :: right ↔
      part = other ∧ '/' :: left <+: '/' :: right := by
  constructor
  · rintro ⟨rest, hRest⟩
    rw [List.append_assoc, List.cons_append] at hRest
    have hSame := congrArg (Text.before '/') hRest
    rw [Text.before_append _ hPart,
      Text.before_append _ hOther] at hSame
    subst hSame
    exact ⟨rfl, rest, List.append_cancel_left hRest⟩
  · rintro ⟨rfl, rest, hRest⟩
    exact ⟨rest, by
      rw [List.append_assoc, hRest]⟩

/-
  A text is a prefix of another one, up to a slash behind
  both, exactly when the components are.
-/
theorem joinSlash_slash_prefix_iff
    {parts others : List Text}
    (hParts : ∀ part ∈ parts, NormalPart part)
    (hOthers : ∀ part ∈ others, NormalPart part) :
    joinSlash parts ++ ['/'] <+: joinSlash others ++ ['/'] ↔
      parts <+: others := by
  induction parts generalizing others with
  | nil =>
      rw [joinSlash_append_slash others]
      simp
  | cons part parts ih =>
      cases others with
      | nil =>
          have hPart := hParts part List.mem_cons_self
          refine iff_of_false ?_ (by simp)
          rintro ⟨rest, hRest⟩
          have hLength := congrArg List.length hRest
          have hPos := List.length_pos_iff.mpr hPart.nonempty
          simp only [joinSlash_cons, joinSlash_nil,
            List.length_append, List.length_cons,
            List.length_nil] at hLength
          omega
      | cons other others =>
          have hPart := hParts part List.mem_cons_self
          have hOther := hOthers other List.mem_cons_self
          have hRest := ih
            (fun one hMem => hParts one
              (List.mem_cons_of_mem part hMem))
            (fun one hMem => hOthers one
              (List.mem_cons_of_mem other hMem))
          have hLeft := joinSlash_append_slash parts
          have hRight := joinSlash_append_slash others
          rw [joinSlash_cons, joinSlash_cons,
            List.append_assoc, List.append_assoc, hLeft,
            hRight, List.cons_append, List.cons_append,
            List.cons_prefix_cons,
            prefix_at_slash_iff hPart.noSlash hOther.noSlash,
            ← hLeft, ← hRight, hRest, List.cons_prefix_cons]
          simp

------------------------------------------------------------
-- Removed Suffixes And Prefixes
------------------------------------------------------------

/- `${text%/}` -/
def dropFinalSlash (text : Text) : Text :=
  if text.getLast? = some '/' then text.dropLast else text

/- `${text%/*}` -/
def dropLastPart (text : Text) : Text :=
  if '/' ∈ text then
    (text.reverse.dropWhile (· ≠ '/')).tail.reverse
  else
    text

/- `${text#"$start"}` -/
def dropStart (start text : Text) : Text :=
  if start <+: text then text.drop start.length else text

theorem dropStart_append
    (start text : Text) :
    dropStart start (start ++ text) = text := by
  simp [dropStart]

/- Only a text that is not at the start is left as it is. -/
theorem dropStart_eq_self_iff
    {start : Text}
    (text : Text)
    (hStart : start ≠ []) :
    dropStart start text = text ↔ ¬ start <+: text := by
  constructor
  · rintro hSame ⟨rest, rfl⟩
    rw [dropStart_append] at hSame
    have hLength := congrArg List.length hSame
    have hPos := List.length_pos_iff.mpr hStart
    rw [List.length_append] at hLength
    omega
  · exact fun hNot => if_neg hNot

@[simp] theorem dropFinalSlash_append
    (text : Text) :
    dropFinalSlash (text ++ ['/']) = text := by
  simp [dropFinalSlash]

theorem dropFinalSlash_of_part
    (text : Text)
    {part : Text}
    (hPart : NormalPart part) :
    dropFinalSlash (text ++ part) = text ++ part := by
  unfold dropFinalSlash
  rw [if_neg]
  intro hLast
  rw [List.getLast?_append_of_ne_nil _ hPart.nonempty]
    at hLast
  exact hPart.noSlash (List.mem_of_getLast? hLast)

theorem dropLastPart_append
    (text : Text)
    {part : Text}
    (hPart : NormalPart part) :
    dropLastPart (text ++ '/' :: part) = text := by
  unfold dropLastPart
  rw [if_pos (by simp), List.reverse_append,
    List.reverse_cons, List.append_assoc,
    List.dropWhile_append_of_pos]
  · simp
  · intro c hMem
    rw [List.mem_reverse] at hMem
    rw [decide_eq_true_eq]
    rintro rfl
    exact hPart.noSlash hMem

/- No path but the root ends with a slash. -/
theorem dropFinalSlash_text (path : NormalPath) :
    dropFinalSlash path.text = joinSlash path.parts := by
  unfold NormalPath.text
  split
  · next hRoot =>
      rw [hRoot]
      rfl
  · next hRoot =>
      rcases List.eq_nil_or_concat path.parts with
        hNil | ⟨front, part, hParts⟩
      · exact absurd hNil hRoot
      · have hPart := path.normal part (by simp [hParts])
        rw [hParts, List.concat_eq_append, joinSlash_concat,
          List.append_cons, dropFinalSlash_of_part _ hPart]

------------------------------------------------------------
-- Links
------------------------------------------------------------

/- One component of a link, from a directory on. -/
def followPart
    (dir : List Text)
    (part : Text) : List Text :=
  if part = [] ∨ part = ['.'] then
    dir
  else if part = ['.', '.'] then
    dir.dropLast
  else
    dir ++ [part]

/- A slash in front stands for the root. -/
def IsAbsolute (link : Text) : Prop :=
  link.head? = some '/'

instance (link : Text) : Decidable (IsAbsolute link) :=
  inferInstanceAs (Decidable (_ = _))

/-
  The path that a link in a directory names: from the
  directory on, or from the root.
-/
def followLink
    (dir : List Text)
    (link : Text) : List Text :=
  (link.splitOn '/').foldl followPart
    (if IsAbsolute link then [] else dir)

/- How often the link goes up before anything else. -/
def leadingUps (link : Text) : Nat :=
  ((link.splitOn '/').takeWhile
    (fun part => part = ['.', '.'])).length

/-
  The link with some components, each followed by a slash
  but the last.
-/
def linkText : List Text → Text
| [] => ['.']
| part :: parts => part ++ joinSlash parts

/- Up some times, and down some components. -/
def upDown (ups : Nat) (parts : List Text) : List Text :=
  List.replicate ups ['.', '.'] ++ parts

/- The parts of a text that slashes join. -/
theorem splitOn_slash
    {first : Text}
    {path : List Text}
    (hFirst : '/' ∉ first)
    (hPath : ∀ part ∈ path, '/' ∉ part) :
    (first ++ path.flatMap (fun part => '/' :: part)).splitOn
        '/' =
      first :: path := by
  induction path generalizing first with
  | nil => simpa using List.splitOn_eq_singleton hFirst
  | cons part path ih =>
      rw [List.flatMap_cons, List.cons_append,
        List.splitOn_append_cons_self_of_not_mem hFirst,
        ih (hPath part List.mem_cons_self)
          (fun other hMem =>
            hPath other (List.mem_cons_of_mem part hMem))]

theorem splitOn_linkText
    {parts : List Text}
    (hNonempty : parts ≠ [])
    (hParts : ∀ part ∈ parts, '/' ∉ part) :
    (linkText parts).splitOn '/' = parts := by
  cases parts with
  | nil => exact absurd rfl hNonempty
  | cons part parts =>
      exact splitOn_slash (hParts part List.mem_cons_self)
        (fun other hMem =>
          hParts other (List.mem_cons_of_mem part hMem))

theorem foldl_followPart_ups
    (dir : List Text)
    (ups : Nat) :
    (List.replicate ups ['.', '.']).foldl followPart dir =
      dir.take (dir.length - ups) := by
  induction ups generalizing dir with
  | zero => simp
  | succ ups ih =>
      have hUp : followPart dir ['.', '.'] = dir.dropLast := by
        simp [followPart]
      rw [List.replicate_succ, List.foldl_cons, hUp, ih,
        List.length_dropLast, List.dropLast_eq_take,
        List.take_take]
      congr 1
      omega

theorem foldl_followPart_normal
    (dir : List Text)
    {parts : List Text}
    (hParts : ∀ part ∈ parts, NormalPart part) :
    parts.foldl followPart dir = dir ++ parts := by
  induction parts generalizing dir with
  | nil => simp
  | cons part parts ih =>
      have hPart := hParts part List.mem_cons_self
      have hDown : followPart dir part = dir ++ [part] := by
        simp [followPart, hPart.nonempty, hPart.notDot,
          hPart.notUp]
      rw [List.foldl_cons, hDown, ih _ (fun other hMem =>
        hParts other (List.mem_cons_of_mem part hMem))]
      simp

theorem nonempty_of_mem_upDown
    {ups : Nat}
    {parts : List Text}
    (hParts : ∀ part ∈ parts, NormalPart part) :
    ∀ part ∈ upDown ups parts, part ≠ [] := by
  intro part hMem
  rcases List.mem_append.mp hMem with hMem | hMem
  · rw [List.eq_of_mem_replicate hMem]
    decide
  · exact (hParts part hMem).nonempty

theorem slash_not_mem_upDown
    {ups : Nat}
    {parts : List Text}
    (hParts : ∀ part ∈ parts, NormalPart part) :
    ∀ part ∈ upDown ups parts, '/' ∉ part := by
  intro part hMem
  rcases List.mem_append.mp hMem with hMem | hMem
  · rw [List.eq_of_mem_replicate hMem]
    decide
  · exact (hParts part hMem).noSlash

/- The components in front keep the link relative. -/
theorem not_isAbsolute_linkText
    {parts : List Text}
    (hNonempty : ∀ part ∈ parts, part ≠ [])
    (hParts : ∀ part ∈ parts, '/' ∉ part) :
    ¬ IsAbsolute (linkText parts) := by
  cases parts with
  | nil => decide
  | cons part parts =>
      have hPart := hNonempty part List.mem_cons_self
      have hNoSlash := hParts part List.mem_cons_self
      intro hAbsolute
      rw [IsAbsolute, linkText,
        List.head?_append_of_ne_nil _ hPart] at hAbsolute
      exact hNoSlash (List.mem_of_mem_head? hAbsolute)

/- A link up and down is followed component by component. -/
theorem followLink_linkText
    (dir : List Text)
    (ups : Nat)
    {parts : List Text}
    (hParts : ∀ part ∈ parts, NormalPart part) :
    followLink dir (linkText (upDown ups parts)) =
      dir.take (dir.length - ups) ++ parts := by
  have hRelative : ¬ IsAbsolute (linkText (upDown ups parts)) :=
    not_isAbsolute_linkText
      (nonempty_of_mem_upDown hParts)
      (slash_not_mem_upDown hParts)
  unfold followLink
  rw [if_neg hRelative]
  by_cases hEmpty : upDown ups parts = []
  · rw [hEmpty]
    rcases List.append_eq_nil_iff.mp hEmpty with ⟨hUps, rfl⟩
    rw [List.replicate_eq_nil_iff] at hUps
    subst hUps
    have hDot : (linkText []).splitOn '/' = [['.']] := by
      decide
    rw [hDot]
    simp [followPart]
  · rw [splitOn_linkText hEmpty (slash_not_mem_upDown hParts),
      upDown, List.foldl_append, foldl_followPart_ups,
      foldl_followPart_normal _ hParts]

theorem leadingUps_linkText
    (ups : Nat)
    {parts : List Text}
    (hParts : ∀ part ∈ parts, NormalPart part) :
    leadingUps (linkText (upDown ups parts)) = ups := by
  by_cases hEmpty : upDown ups parts = []
  · rw [hEmpty]
    rcases List.append_eq_nil_iff.mp hEmpty with ⟨hUps, rfl⟩
    rw [List.replicate_eq_nil_iff] at hUps
    subst hUps
    decide
  · have hUps : ∀ part ∈ List.replicate ups ['.', '.'],
        decide (part = ['.', '.']) = true := by
      intro part hMem
      exact decide_eq_true (List.eq_of_mem_replicate hMem)
    have hStop : parts.takeWhile
        (fun part => part = ['.', '.']) = [] := by
      cases parts with
      | nil => rfl
      | cons part parts =>
          have hPart := hParts part List.mem_cons_self
          rw [List.takeWhile_cons_of_neg
            (by simpa using hPart.notUp)]
    unfold leadingUps
    rw [splitOn_linkText hEmpty (slash_not_mem_upDown hParts),
      upDown, List.takeWhile_append_of_pos hUps, hStop]
    simp

/- The same link with a slash behind each component. -/
theorem flatMap_slash_eq
    {parts : List Text}
    (hNonempty : parts ≠ []) :
    parts.flatMap (fun part => part ++ ['/']) =
      linkText parts ++ ['/'] := by
  cases parts with
  | nil => exact absurd rfl hNonempty
  | cons part parts =>
      rw [List.flatMap_cons, linkText, List.append_assoc,
        List.append_assoc, joinSlash_append_slash]
      rfl

theorem linkText_ne_nil
    {parts : List Text}
    (hParts : ∀ part ∈ parts, part ≠ []) :
    linkText parts ≠ [] := by
  cases parts with
  | nil => simp [linkText]
  | cons part parts =>
      simp [linkText, hParts part List.mem_cons_self]

/- The deepest directory above two paths, or one of them. -/
structure DeepestCommon
    (common first second : List Text) : Prop where
  left : common <+: first
  right : common <+: second
  deepest : ∀ other, other <+: first → other <+: second →
    other <+: common

end Mkrootfs
