import Mathlib.Data.List.Sort
import Mathlib.Data.List.TakeWhile
import Mathlib.Order.Bounds.Basic

/-
  `sort`, and `comm -2 -3`: the lines that a merge of two
  files only finds in the first.

  Main declarations:
    * `sortLines`, `sortLinesReverse`
    * `head?_sortLinesReverse`
    * `commFirst`
    * `mem_commFirst_ascending`
    * `mem_commFirst_descending`
    * `linesFromChange`, `commFirst_descending`
-/

------------------------------------------------------------
-- Merge
------------------------------------------------------------

namespace Mkrootfs

variable {L : Type} [LinearOrder L]

/- `sort`. -/
def sortLines (names : List L) : List L :=
  names.insertionSort (fun a b => a ≤ b)

/- `sort -r`. -/
def sortLinesReverse (names : List L) : List L :=
  names.insertionSort (fun a b => b ≤ a)

/- What is related to all entries of a sorted list is first. -/
theorem head?_of_pairwise
    {α : Type}
    {r : α → α → Prop}
    (hAnti : ∀ {a b}, r a b → r b a → a = b)
    {line : α}
    {lines : List α}
    (hLines : lines.Pairwise r)
    (hMem : line ∈ lines)
    (hFirst : ∀ other ∈ lines, r line other) :
    lines.head? = some line := by
  cases lines with
  | nil => cases hMem
  | cons other others =>
      rw [List.head?_cons]
      rcases List.mem_cons.mp hMem with rfl | hRest
      · rfl
      · have hBefore : r other line :=
          List.rel_of_pairwise_cons hLines hRest
        rw [hAnti hBefore (hFirst other List.mem_cons_self)]

/- `sort -r | head -n 1` prints the greatest line. -/
theorem head?_sortLinesReverse
    {names : List L}
    {top : L}
    (hTop : IsGreatest {name | name ∈ names} top) :
    (sortLinesReverse names).head? = some top := by
  have hSorted :
      (sortLinesReverse names).Pairwise (fun a b => b ≤ a) :=
    List.pairwise_insertionSort (fun a b : L => b ≤ a) names
  have hMem : top ∈ sortLinesReverse names :=
    (List.mem_insertionSort _).mpr hTop.1
  refine head?_of_pairwise (fun hab hba => le_antisymm hba hab)
    hSorted hMem ?_
  intro other hOther
  exact hTop.2 ((List.mem_insertionSort _).mp hOther)

/-
  The merge skips the lines of the second file that come
  before the current one of the first file, and pairs equal
  lines.
-/
def commFirst : List L → List L → List L
| [], _ => []
| line :: first, second =>
    let rest := second.dropWhile (fun other => other < line)
    if rest.head? = some line then
      commFirst first rest.tail
    else
      line :: commFirst first rest

/- Every printed line is one of the first file. -/
theorem commFirst_sublist
    (first second : List L) :
    (commFirst first second).Sublist first := by
  induction first generalizing second with
  | nil => exact List.Sublist.refl []
  | cons head first ih =>
      simp only [commFirst]
      split
      · exact (ih _).cons head
      · exact (ih _).cons_cons head

theorem mem_of_mem_commFirst
    {line : L}
    {first second : List L}
    (hMem : line ∈ commFirst first second) :
    line ∈ first :=
  (commFirst_sublist first second).subset hMem

/- No line is lost that the second file lacks. -/
theorem mem_commFirst_of_not_mem
    {line : L}
    {first second : List L}
    (hFirst : line ∈ first)
    (hSecond : line ∉ second) :
    line ∈ commFirst first second := by
  induction first generalizing second with
  | nil => cases hFirst
  | cons head first ih =>
      have hRest :
          line ∉ second.dropWhile (fun other => other < head) :=
        fun hMem =>
          hSecond ((List.dropWhile_suffix _).subset hMem)
      simp only [commFirst]
      split
      · next hHead =>
          have hNe : line ≠ head := by
            rintro rfl
            exact hRest (List.mem_of_mem_head? hHead)
          exact ih ((List.mem_cons.mp hFirst).resolve_left hNe)
            (fun hMem => hRest (List.mem_of_mem_tail hMem))
      · rcases List.mem_cons.mp hFirst with rfl | hFirst
        · exact List.mem_cons_self
        · exact List.mem_cons_of_mem head (ih hFirst hRest)

------------------------------------------------------------
-- Ascending Files
------------------------------------------------------------

/- The lines that a sorted file has from some line on. -/
theorem mem_dropWhile_ascending
    {second : List L}
    (hSecond : second.Pairwise (fun a b => a ≤ b))
    (head line : L) :
    line ∈ second.dropWhile (fun other => other < head) ↔
      line ∈ second ∧ head ≤ line := by
  induction second with
  | nil => simp
  | cons other second ih =>
      by_cases hBelow : other < head
      · have hStep := ih (List.Pairwise.of_cons hSecond)
        rw [List.dropWhile_cons_of_pos (by simpa using hBelow),
          hStep]
        constructor
        · exact fun h => ⟨List.mem_cons_of_mem other h.1, h.2⟩
        · rintro ⟨hMem, hLe⟩
          refine ⟨?_, hLe⟩
          rcases List.mem_cons.mp hMem with rfl | hMem
          · exact absurd hBelow (not_lt_of_ge hLe)
          · exact hMem
      · rw [List.dropWhile_cons_of_neg (by simpa using hBelow)]
        refine ⟨fun hMem => ⟨hMem, ?_⟩, fun h => h.1⟩
        have hHead := le_of_not_gt hBelow
        rcases List.mem_cons.mp hMem with rfl | hMem
        · exact hHead
        · exact hHead.trans
            (List.rel_of_pairwise_cons hSecond hMem)

/- A merge of sorted files pairs all lines that both have. -/
theorem mem_commFirst_ascending
    {first second : List L}
    (hFirst : first.Pairwise (fun a b => a < b))
    (hSecond : second.Pairwise (fun a b => a ≤ b))
    (line : L) :
    line ∈ commFirst first second ↔
      line ∈ first ∧ line ∉ second := by
  refine ⟨?_, fun h => mem_commFirst_of_not_mem h.1 h.2⟩
  induction first generalizing second with
  | nil =>
      intro hMem
      cases hMem
  | cons head first ih =>
      let rest := second.dropWhile (fun other => other < head)
      have hRest : rest.Pairwise (fun a b => a ≤ b) :=
        hSecond.sublist (List.dropWhile_sublist _)
      have hLater := List.Pairwise.of_cons hFirst
      have hAbove : ∀ other ∈ first, head < other :=
        fun _ hMem => List.rel_of_pairwise_cons hFirst hMem
      have hInRest : ∀ other, head ≤ other →
          other ∈ second → other ∈ rest :=
        fun other hLe hIn =>
          (mem_dropWhile_ascending hSecond head other).mpr
            ⟨hIn, hLe⟩
      intro hMem
      simp only [commFirst] at hMem
      split at hMem
      · next hHead =>
          have hLine := ih hLater
            (hRest.sublist (List.tail_sublist rest)) hMem
          have hLt := hAbove line hLine.1
          refine ⟨List.mem_cons_of_mem head hLine.1, ?_⟩
          intro hIn
          have hCons : head :: rest.tail = rest :=
            List.cons_head?_tail hHead
          have hBoth := hInRest line hLt.le hIn
          rw [← hCons] at hBoth
          exact hLine.2
            ((List.mem_cons.mp hBoth).resolve_left hLt.ne')
      · next hHead =>
          rcases List.mem_cons.mp hMem with rfl | hMem
          · refine ⟨List.mem_cons_self, ?_⟩
            intro hIn
            apply hHead
            apply head?_of_pairwise le_antisymm hRest
              (hInRest line le_rfl hIn)
            intro other hOther
            exact ((mem_dropWhile_ascending hSecond line
              other).mp hOther).2
          · have hLine := ih hLater hRest hMem
            have hLe := (hAbove line hLine.1).le
            exact ⟨List.mem_cons_of_mem head hLine.1,
              fun hIn => hLine.2 (hInRest line hLe hIn)⟩

------------------------------------------------------------
-- Descending Files
------------------------------------------------------------

/- A line that only one of two files has. -/
def InOneOf (first second : List L) (line : L) : Prop :=
  (line ∈ first ∧ line ∉ second) ∨
    (line ∈ second ∧ line ∉ first)

instance
    (first second : List L)
    (line : L) :
    Decidable (InOneOf first second line) :=
  inferInstanceAs (Decidable (_ ∨ _))

/- Without a partner every line is printed. -/
theorem commFirst_nil
    (first : List L) :
    commFirst first [] = first := by
  induction first with
  | nil => rfl
  | cons line first ih => simp [commFirst, ih]

/- Lines that are all below the first one pair with none. -/
theorem commFirst_of_below
    {head : L}
    {second : List L}
    (first : List L)
    (hBelow : ∀ other ∈ second, other < head) :
    commFirst (head :: first) second = head :: first := by
  have hRest :
      second.dropWhile (fun other => other < head) = [] := by
    rw [List.dropWhile_eq_nil_iff]
    intro other hOther
    exact decide_eq_true (hBelow other hOther)
  simp only [commFirst, hRest, List.head?_nil, reduceCtorEq,
    if_false, commFirst_nil]

/- A pair above both files adds no difference. -/
theorem inOneOf_cons
    {head : L}
    {first second : List L}
    (hFirst : ∀ other ∈ first, other < head)
    (hSecond : ∀ other ∈ second, other < head)
    (other : L) :
    InOneOf (head :: first) (head :: second) other ↔
      InOneOf first second other := by
  by_cases hSame : other = head
  · subst hSame
    refine iff_of_false (by simp [InOneOf]) ?_
    rintro (⟨hMem, -⟩ | ⟨hMem, -⟩)
    · exact lt_irrefl _ (hFirst other hMem)
    · exact lt_irrefl _ (hSecond other hMem)
  · simp [InOneOf, hSame]

/- A difference at or above the first line is above all. -/
theorem iff_and_exists_inOneOf
    {head line other : L}
    {first second printed : List L}
    (hHead : ∀ below ∈ first, below < head)
    (hOne : InOneOf (head :: first) second other)
    (hLe : head ≤ other)
    (hPrinted : line ∈ printed ↔ line ∈ head :: first) :
    line ∈ printed ↔
      line ∈ head :: first ∧
        ∃ other, InOneOf (head :: first) second other ∧
          line ≤ other := by
  rw [hPrinted, iff_self_and]
  intro hLine
  refine ⟨other, hOne, ?_⟩
  rcases List.mem_cons.mp hLine with rfl | hLine
  · exact hLe
  · exact (hHead line hLine).le.trans hLe

/-
  On descending files the merge stays together up to the
  first difference.  It prints all lines of the first file
  from there on.
-/
theorem mem_commFirst_descending
    {first second : List L}
    (hFirst : first.Pairwise (· > ·))
    (hSecond : second.Pairwise (· > ·))
    (line : L) :
    line ∈ commFirst first second ↔
      line ∈ first ∧
        ∃ other, InOneOf first second other ∧
          line ≤ other := by
  induction first generalizing second with
  | nil => simp [commFirst]
  | cons head first ih =>
      rw [List.pairwise_cons] at hFirst
      rcases hFirst with ⟨hHead, hFirst⟩
      cases second with
      | nil =>
          rw [commFirst_nil]
          exact iff_and_exists_inOneOf hHead
            (Or.inl ⟨List.mem_cons_self, by simp⟩) le_rfl
            Iff.rfl
      | cons partner second =>
          have hBoth := hSecond
          rw [List.pairwise_cons] at hSecond
          rcases hSecond with ⟨hPartner, hSecond⟩
          rcases lt_trichotomy partner head with
            hLess | rfl | hGreater
          · -- the second file is used up
            have hBelow : ∀ other ∈ partner :: second,
                other < head := by
              intro other hOther
              rcases List.mem_cons.mp hOther with
                rfl | hOther
              · exact hLess
              · exact (hPartner other hOther).trans hLess
            rw [commFirst_of_below first hBelow]
            refine iff_and_exists_inOneOf hHead
              (Or.inl ⟨List.mem_cons_self, ?_⟩) le_rfl Iff.rfl
            intro hMem
            exact lt_irrefl head (hBelow head hMem)
          · -- a pair
            have hPaired :
                commFirst (partner :: first)
                  (partner :: second) =
                commFirst first second := by
              simp [commFirst]
            simp only [hPaired, ih hFirst hSecond,
              inOneOf_cons hHead hPartner]
            constructor
            · rintro ⟨hLine, hOther⟩
              exact ⟨List.mem_cons_of_mem _ hLine, hOther⟩
            · rintro ⟨hLine, other, hOther, hLe⟩
              refine ⟨?_, other, hOther, hLe⟩
              have hLess : other < partner := by
                rcases hOther with ⟨hMem, -⟩ | ⟨hMem, -⟩
                · exact hHead other hMem
                · exact hPartner other hMem
              exact (List.mem_cons.mp hLine).resolve_left
                (hLe.trans_lt hLess).ne
          · -- the first file is used up
            have hAbove : ∀ other ∈ head :: first,
                other < partner := by
              intro other hOther
              rcases List.mem_cons.mp hOther with
                rfl | hOther
              · exact hGreater
              · exact (hHead other hOther).trans hGreater
            have hNot : ∀ {lines : List L},
                lines ⊆ head :: first → partner ∉ lines :=
              fun hSub hMem =>
                lt_irrefl _ (hAbove partner (hSub hMem))
            have hKept :
                commFirst (head :: first)
                  (partner :: second) =
                head :: commFirst first
                  (partner :: second) := by
              simp [commFirst, hGreater.not_gt, hGreater.ne']
            refine iff_and_exists_inOneOf hHead
              (Or.inr ⟨List.mem_cons_self,
                hNot (List.Subset.refl _)⟩) hGreater.le ?_
            rw [hKept, List.mem_cons, List.mem_cons,
              ih hFirst hBoth]
            refine or_congr_right (and_iff_left_of_imp ?_)
            intro hLine
            exact ⟨partner, Or.inr ⟨List.mem_cons_self,
                hNot (List.subset_cons_self head first)⟩,
              (hAbove line
                (List.mem_cons_of_mem head hLine)).le⟩

/- The lines of a descending file from its change on. -/
def linesFromChange (first second : List L) : List L :=
  first.filter (fun line =>
    (first ++ second).any (fun other =>
      InOneOf first second other ∧ line ≤ other))

theorem mem_linesFromChange
    {first second : List L}
    {line : L} :
    line ∈ linesFromChange first second ↔
      line ∈ first ∧
        ∃ other, InOneOf first second other ∧
          line ≤ other := by
  simp only [linesFromChange, List.mem_filter, List.any_eq_true,
    decide_eq_true_eq]
  refine and_congr_right fun _ => exists_congr fun other => ?_
  refine and_iff_right_of_imp fun hOther => ?_
  rcases hOther.1 with hOne | hOne
  · exact List.mem_append_left second hOne.1
  · exact List.mem_append_right first hOne.1

/- These are the lines that the merge prints. -/
theorem commFirst_descending
    {first second : List L}
    (hFirst : first.Pairwise (· > ·))
    (hSecond : second.Pairwise (· > ·)) :
    commFirst first second =
      linesFromChange first second := by
  have hPrinted : (commFirst first second).Pairwise (· > ·) :=
    hFirst.sublist (commFirst_sublist first second)
  have hLines :
      (linesFromChange first second).Pairwise (· > ·) :=
    hFirst.sublist List.filter_sublist
  apply hPrinted.eq_of_mem_iff hLines
  intro line
  rw [mem_commFirst_descending hFirst hSecond,
    mem_linesFromChange]

end Mkrootfs
