import Mkrootfs.Library.Xargs
import Mathlib.Data.List.Nodup

/-
  The words that a shell makes of an unquoted text: a
  pattern stands for the paths that match it, or for itself.

  Main declarations:
    * `Literal`, `joinBlank`
    * `PathExpansion`, `PathExpansion.expandWord`
    * `PathExpansion.paths_of_literal`
    * `globMatch`, `PathExpansion.ofFiles`
-/

------------------------------------------------------------
-- Words
------------------------------------------------------------

namespace Mkrootfs

/- The characters that make a word a pattern. -/
def isPatternChar (c : Char) : Bool :=
  c == '*' || c == '?' || c == '[' || c == backslash

/- A word that stands for itself. -/
def Literal (word : Text) : Prop :=
  ∀ c ∈ word, isPatternChar c = false

theorem literal_of_not_mem
    {word : Text}
    (hStar : '*' ∉ word)
    (hMark : '?' ∉ word)
    (hBracket : '[' ∉ word)
    (hBackslash : backslash ∉ word) :
    Literal word := by
  intro c hMem
  by_contra hPattern
  simp only [isPatternChar, Bool.not_eq_false,
    Bool.or_eq_true, beq_iff_eq] at hPattern
  rcases hPattern with ((rfl | rfl) | rfl) | rfl
  · exact hStar hMem
  · exact hMark hMem
  · exact hBracket hMem
  · exact hBackslash hMem

/- Words as `echo` prints them. -/
def joinBlank (words : List Text) : Text :=
  [' '].intercalate words

theorem not_mem_joinBlank
    {c : Char}
    {words : List Text}
    (hBlank : c ≠ ' ')
    (hWords : ∀ word ∈ words, c ∉ word) :
    c ∉ joinBlank words := by
  unfold joinBlank
  induction words with
  | nil => simp
  | cons word words ih =>
      have hWord := hWords word List.mem_cons_self
      have hRest := ih (fun other hMem =>
        hWords other (List.mem_cons_of_mem word hMem))
      cases words with
      | nil => simpa using hWord
      | cons next words =>
          rw [List.intercalate_cons_cons]
          simp [hWord, hBlank, hRest]

theorem length_le_joinBlank
    {word : Text}
    {words : List Text}
    (hWord : word ∈ words) :
    word.length ≤ (joinBlank words).length := by
  unfold joinBlank
  induction words with
  | nil => simp at hWord
  | cons first words ih =>
      cases words with
      | nil => simp_all
      | cons next words =>
          rw [List.intercalate_cons_cons]
          rcases List.mem_cons.mp hWord with rfl | hRest
          · simp
          · have hLength := ih hRest
            simp only [List.length_append]
            omega

/- Only one word alone is printed as that word. -/
theorem eq_singleton_of_joinBlank
    {word : Text}
    {words : List Text}
    (hMem : word ∈ words)
    (hJoined : joinBlank words = word) :
    words = [word] := by
  cases words with
  | nil => simp at hMem
  | cons first words =>
      cases words with
      | nil => simpa [eq_comm] using hMem
      | cons next words =>
          have hLength := congrArg List.length hJoined
          unfold joinBlank at hLength
          rw [List.intercalate_cons_cons] at hLength
          simp only [List.length_append,
            List.length_singleton] at hLength
          rcases List.mem_cons.mp hMem with rfl | hRest
          · omega
          · have hLe := length_le_joinBlank hRest
            unfold joinBlank at hLe
            omega

------------------------------------------------------------
-- Path Expansion
------------------------------------------------------------

/-
  The paths of a file system, and those that match a quoted
  text followed by a pattern.
-/
structure PathExpansion where
  present : Text → Bool
  paths : Text → Text → List Text
  nodup :
    ∀ quoted pattern, (paths quoted pattern).Nodup
  present_of_mem :
    ∀ {quoted pattern path},
      path ∈ paths quoted pattern → present path = true
  quoted_isPrefix :
    ∀ {quoted pattern path},
      path ∈ paths quoted pattern → quoted <+: path
  paths_nil :
    ∀ quoted,
      paths quoted [] =
        if present quoted then [quoted] else []
  paths_cons :
    ∀ {c} quoted pattern,
      isPatternChar c = false →
        paths quoted (c :: pattern) =
          paths (quoted ++ [c]) pattern
  mem_paths_self :
    ∀ {quoted pattern},
      '[' ∉ pattern →
        backslash ∉ pattern →
          present (quoted ++ pattern) = true →
            quoted ++ pattern ∈ paths quoted pattern

namespace PathExpansion

variable (fs : PathExpansion)

/- A pattern that nothing matches is left as it is. -/
def expandWord (quoted pattern : Text) : List Text :=
  if fs.paths quoted pattern = [] then
    [quoted ++ pattern]
  else
    fs.paths quoted pattern

/- Nothing but its own path matches a literal. -/
theorem paths_of_literal
    (quoted : Text)
    {pattern : Text}
    (hPattern : Literal pattern) :
    fs.paths quoted pattern =
      if fs.present (quoted ++ pattern) then
        [quoted ++ pattern]
      else
        [] := by
  induction pattern generalizing quoted with
  | nil => simpa using fs.paths_nil quoted
  | cons c pattern ih =>
      rw [fs.paths_cons quoted pattern
          (hPattern c List.mem_cons_self),
        ih _ (fun d hMem =>
          hPattern d (List.mem_cons_of_mem c hMem)),
        List.append_assoc, List.singleton_append]

theorem expandWord_of_literal
    (quoted : Text)
    {pattern : Text}
    (hPattern : Literal pattern) :
    fs.expandWord quoted pattern = [quoted ++ pattern] := by
  unfold expandWord
  rw [fs.paths_of_literal quoted hPattern]
  by_cases hPresent : fs.present (quoted ++ pattern)
  · simp [hPresent]
  · simp [hPresent]

theorem expandWord_ne_nil
    (quoted pattern : Text) :
    fs.expandWord quoted pattern ≠ [] := by
  unfold expandWord
  split
  · simp
  · assumption

/- Every word starts with the quoted text. -/
theorem isPrefix_of_mem_expandWord
    {quoted pattern word : Text}
    (hWord : word ∈ fs.expandWord quoted pattern) :
    quoted <+: word := by
  unfold expandWord at hWord
  split at hWord
  · rw [List.mem_singleton] at hWord
    exact hWord ▸ List.prefix_append quoted pattern
  · exact fs.quoted_isPrefix hWord

/-
  Of the words of a pattern that may be its own match, those
  that exist are its matches.
-/
theorem filter_expandWord
    (quoted : Text)
    {pattern : Text}
    (hBracket : '[' ∉ pattern)
    (hBackslash : backslash ∉ pattern) :
    (fs.expandWord quoted pattern).filter fs.present =
      fs.paths quoted pattern := by
  unfold expandWord
  split
  · next hNone =>
      have hAbsent :
          fs.present (quoted ++ pattern) = false := by
        by_contra hPresent
        have hMem := fs.mem_paths_self hBracket hBackslash
          (by simpa using hPresent)
        rw [hNone] at hMem
        exact absurd hMem List.not_mem_nil
      rw [hNone]
      simp [hAbsent]
  · exact List.filter_eq_self.mpr
      (fun path hPath => fs.present_of_mem hPath)

/- A word that only matches itself stands for itself. -/
theorem expandWord_eq_self
    {word : Text}
    (hAlone : ∀ path ∈ fs.paths [] word, path = word) :
    fs.expandWord [] word = [word] := by
  unfold expandWord
  split
  · rfl
  · next hSome =>
      cases hPaths : fs.paths [] word with
      | nil => exact absurd hPaths hSome
      | cons path rest =>
          have hNodup := fs.nodup [] word
          rw [hPaths] at hAlone hNodup
          have hPath := hAlone path List.mem_cons_self
          have hRest : rest = [] := by
            rw [List.eq_nil_iff_forall_not_mem]
            intro other hOther
            have hSame := hAlone other
              (List.mem_cons_of_mem path hOther)
            exact (List.nodup_cons.mp hNodup).1
              (hPath.trans hSame.symm ▸ hOther)
          rw [hPath, hRest]

end PathExpansion

------------------------------------------------------------
-- A Given Set Of Files
------------------------------------------------------------

/-
  A pattern with `*` and `?`, which stand for no slash. File
  names that start with a dot are not told apart.
-/
def globMatch : Text → Text → Bool
| [], text => text.isEmpty
| p :: pattern, text =>
    if p = '*' then
      (List.range (text.length + 1)).any (fun n =>
        !(text.take n).contains '/' &&
          globMatch pattern (text.drop n))
    else
      match text with
      | [] => false
      | c :: text =>
          (if p = '?' then c != '/' else p == c) &&
            globMatch pattern text

theorem globMatch_self
    (pattern : Text) :
    globMatch pattern pattern = true := by
  induction pattern with
  | nil => rfl
  | cons p pattern ih =>
      unfold globMatch
      split
      · next hStar =>
          rw [List.any_eq_true]
          refine ⟨1, by simp, ?_⟩
          simp [hStar, ih]
      · by_cases hAny : p = '?'
        · simp [hAny, ih]
        · simp [hAny, ih]

/- An ordinary character of a pattern is itself. -/
theorem globMatch_cons
    {p c : Char}
    {pattern text : Text}
    (hOrdinary : isPatternChar p = false) :
    globMatch (p :: pattern) (c :: text) =
      (p == c && globMatch pattern text) := by
  simp only [isPatternChar, Bool.or_eq_false_iff,
    beq_eq_false_iff_ne] at hOrdinary
  simp [globMatch, hOrdinary.1.1.1, hOrdinary.1.1.2]

theorem not_globMatch_nil
    {p : Char}
    {pattern : Text}
    (hOrdinary : isPatternChar p = false) :
    globMatch (p :: pattern) [] = false := by
  simp only [isPatternChar, Bool.or_eq_false_iff,
    beq_eq_false_iff_ne] at hOrdinary
  simp [globMatch, hOrdinary.1.1.1]

/- The paths that match a pattern after a quoted text. -/
def matchesAfter (quoted pattern path : Text) : Bool :=
  quoted.isPrefixOf path &&
    globMatch pattern (path.drop quoted.length)

theorem matchesAfter_nil
    (quoted path : Text) :
    matchesAfter quoted [] path = (path == quoted) := by
  rw [Bool.eq_iff_iff]
  simp only [matchesAfter, globMatch, Bool.and_eq_true,
    List.isPrefixOf_iff_prefix, List.isEmpty_iff,
    List.drop_eq_nil_iff, beq_iff_eq]
  constructor
  · rintro ⟨hPrefix, hLength⟩
    exact (hPrefix.eq_of_length_le hLength).symm
  · rintro rfl
    exact ⟨List.prefix_refl path, le_refl _⟩

theorem matchesAfter_cons
    {c : Char}
    (quoted pattern path : Text)
    (hOrdinary : isPatternChar c = false) :
    matchesAfter quoted (c :: pattern) path =
      matchesAfter (quoted ++ [c]) pattern path := by
  rw [Bool.eq_iff_iff]
  simp only [matchesAfter, Bool.and_eq_true,
    List.isPrefixOf_iff_prefix]
  constructor
  · rintro ⟨⟨rest, rfl⟩, hMatch⟩
    rw [List.drop_left] at hMatch
    cases rest with
    | nil =>
        rw [not_globMatch_nil hOrdinary] at hMatch
        exact absurd hMatch Bool.false_ne_true
    | cons d rest =>
        rw [globMatch_cons hOrdinary, Bool.and_eq_true,
          beq_iff_eq] at hMatch
        obtain ⟨rfl, hRest⟩ := hMatch
        rw [List.append_cons quoted c rest,
          List.drop_left]
        exact ⟨List.prefix_append _ _, hRest⟩
  · rintro ⟨⟨rest, rfl⟩, hMatch⟩
    rw [List.drop_left] at hMatch
    rw [← List.append_cons, List.drop_left,
      globMatch_cons hOrdinary]
    exact ⟨List.prefix_append _ _, by simpa using hMatch⟩

/- The expansion over the files of a list. -/
def PathExpansion.ofFiles
    (files : List Text)
    (hFiles : files.Nodup) :
    PathExpansion where
  present path := decide (path ∈ files)
  paths quoted pattern :=
    files.filter (matchesAfter quoted pattern)
  nodup _ _ := hFiles.filter _
  present_of_mem hPath :=
    decide_eq_true (List.mem_filter.mp hPath).1
  quoted_isPrefix hPath := by
    have hMatch := (List.mem_filter.mp hPath).2
    simp only [matchesAfter, Bool.and_eq_true,
      List.isPrefixOf_iff_prefix] at hMatch
    exact hMatch.1
  paths_nil quoted := by
    have hEq :
        matchesAfter quoted [] = (· == quoted) :=
      funext (matchesAfter_nil quoted)
    rw [hEq, List.filter_beq]
    by_cases hMem : quoted ∈ files
    · simp [hMem, List.count_eq_one_of_mem hFiles hMem]
    · simp [hMem, List.count_eq_zero_of_not_mem hMem]
  paths_cons quoted pattern hOrdinary := by
    refine List.filter_congr (fun path _ => ?_)
    exact matchesAfter_cons quoted pattern path hOrdinary
  mem_paths_self _ _ hPresent := by
    rw [List.mem_filter]
    refine ⟨of_decide_eq_true hPresent, ?_⟩
    simp [matchesAfter, globMatch_self]

end Mkrootfs
