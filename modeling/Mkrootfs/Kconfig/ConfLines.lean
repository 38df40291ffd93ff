import Mkrootfs.Kconfig.ConfData

/-
  What the reader makes of single lines: chunk by chunk, and
  for the lines that `conf_write` and `conf_write_autoconf`
  print.

  Main declarations:
    * `parseConfLine_unset`, `parseConfLine_assigned`
    * `fileLineReadings`
    * `fileLineReadings_assignmentLine`
    * `fileLineReadings_notSetLine`
-/

------------------------------------------------------------
-- Chunks
------------------------------------------------------------

namespace Mkrootfs

/-
  An unset name is spelled out in its chunk, behind the
  prefix and before the closing words.
-/
theorem parseConfLine_unset
    {chunk name : Text}
    (hParse : parseConfLine chunk = .unset name) :
    name.length + 17 ≤ chunk.length ∧
      ∀ c ∈ name, c ∈ chunk := by
  unfold parseConfLine at hParse
  split at hParse
  · next tail =>
      split at hParse
      · cases hParse
      · split at hParse
        · cases hParse
        · next hSpace =>
            split at hParse
            · next hOff =>
                have hName := ConfLine.unset.inj hParse
                have hCut := Text.before_append_after
                  (not_not.mp hSpace)
                have hLength := congrArg List.length hCut
                have hOffLength := hOff.length_le
                rw [hName] at hLength
                constructor
                · simp only [List.length_append,
                    List.length_drop, isNotSet,
                    List.length_cons, List.length_nil]
                    at hLength hOffLength ⊢
                  omega
                · intro c hc
                  rw [← hName] at hc
                  exact List.mem_of_mem_drop
                    ((Text.before_sublist _ _).subset hc)
            · cases hParse
  · split at hParse
    · cases hParse
    · split at hParse
      · cases hParse
      · cases hParse
  · cases hParse
  · cases hParse
  · cases hParse
  · cases hParse

/- The value is a part of what follows the equals sign. -/
theorem confLineValue_length_le
    (p : Text) :
    (confLineValue p).length ≤ p.length := by
  have hTake : (Text.before '\n' p).length ≤ p.length :=
    (Text.before_sublist _ _).length_le
  unfold confLineValue
  split
  · exact Nat.le_refl _
  · split
    · simp only [List.length_dropLast]
      omega
    · exact hTake

/- An assignment is spelled out in its chunk. -/
theorem parseConfLine_assigned
    {chunk name value : Text}
    (hParse : parseConfLine chunk = .assigned name value) :
    name.length + value.length + 5 ≤ chunk.length ∧
      '=' ∈ chunk ∧ ∀ c ∈ name, c ∈ chunk := by
  unfold parseConfLine at hParse
  split at hParse
  · split at hParse
    · cases hParse
    · split at hParse
      · cases hParse
      · split at hParse
        · cases hParse
        · cases hParse
  · next tail =>
      split at hParse
      · cases hParse
      · split at hParse
        · cases hParse
        · next hEquals =>
            rcases ConfLine.assigned.inj hParse with
              ⟨hName, hValue⟩
            have hMem := not_not.mp hEquals
            have hCut := Text.before_append_after hMem
            have hLength := congrArg List.length hCut
            have hLe := confLineValue_length_le
              (Text.after '=' (('M' :: tail).drop 4))
            rw [hName] at hLength
            rw [hValue] at hLe
            refine ⟨?_, List.mem_of_mem_drop hMem, ?_⟩
            · simp only [List.length_append,
                List.length_cons, List.length_drop]
                at hLength ⊢
              omega
            · intro c hc
              rw [← hName] at hc
              exact List.mem_of_mem_drop
                ((Text.before_sublist _ _).subset hc)
  · cases hParse
  · cases hParse
  · cases hParse
  · cases hParse

/- A chunk that assigns a value. -/
theorem parseConfLine_assignment
    {name : Text}
    (p : Text)
    (hName : '=' ∉ name) :
    parseConfLine (optionPrefix ++ name ++ '=' :: p) =
      .assigned name (confLineValue p) := by
  simp [parseConfLine, optionPrefix,
    Text.before_append p hName, Text.after_append p hName]

/- A chunk that says that an option is off. -/
theorem parseConfLine_notSet
    {name : Text}
    (rest : Text)
    (hName : ' ' ∉ name) :
    parseConfLine (notSetLine name ++ rest) =
      .unset name := by
  have hPrefix : isNotSet <+: isNotSet ++ rest :=
    List.prefix_append _ _
  simp [parseConfLine, notSetLine, optionPrefix,
    Text.before_append _ hName, Text.after_append _ hName,
    hPrefix]

/- A value that is followed by the newline of its line. -/
theorem confLineValue_newline
    {value : Text}
    (hValue : '\n' ∉ value) :
    confLineValue (value ++ ['\n']) =
      if value.getLast? = some '\r' then
        value.dropLast
      else
        value := by
  simp [confLineValue, Text.before_append [] hValue]

/- A value whose newline did not fit the chunk. -/
theorem confLineValue_full
    {value : Text}
    (hValue : '\n' ∉ value) :
    confLineValue value = value := by
  simp [confLineValue, hValue]

------------------------------------------------------------
-- Lines Of A File
------------------------------------------------------------

/- What the reader makes of one line of a file. -/
def fileLineReadings (line : Text) : List ConfLine :=
  confLines (line ++ ['\n'])

/- A file is read line by line. -/
theorem confLines_unlines
    (ls : List Text) :
    confLines (Text.unlines ls) =
      ls.flatMap fileLineReadings := by
  unfold confLines fileLineReadings
  rw [Text.fgets_unlines_eq_flatMap, List.map_flatMap]
  rfl

/- A line that fits the buffer is one chunk. -/
theorem fileLineReadings_of_lt
    {line : Text}
    (hLine : '\n' ∉ line)
    (hLength : line.length + 1 < confLineSize) :
    fileLineReadings line =
      [parseConfLine (line ++ ['\n'])] := by
  unfold fileLineReadings confLines
  rw [Text.fgets_append_newline confLineSize line []
    hLine hLength]
  simp

/-
  A line that fills the buffer is one chunk, and its newline
  is another one, without effect.
-/
theorem fileLineReadings_of_eq
    {line : Text}
    (hLine : '\n' ∉ line)
    (hLength : line.length + 1 = confLineSize) :
    fileLineReadings line =
      [parseConfLine line, .skipped] := by
  have hNonempty : line ≠ [] := by
    rintro rfl
    exact absurd hLength (by decide)
  have hNewline :
      Text.fgets confLineSize ['\n'] = [['\n']] := by
    decide
  unfold fileLineReadings confLines
  rw [Text.fgets_full confLineSize line ['\n'] hLine
    hNonempty hLength, hNewline]
  rfl

/- Every reading comes from a short chunk of the line. -/
theorem fileLineReadings_chunk
    {line : Text}
    {reading : ConfLine}
    (hReading : reading ∈ fileLineReadings line) :
    ∃ chunk,
      parseConfLine chunk = reading ∧
      chunk.length < confLineSize ∧
      ∀ c ∈ chunk, c ∈ line ++ ['\n'] := by
  rcases List.mem_map.mp hReading with
    ⟨chunk, hChunk, hParse⟩
  have hShort := Text.fgets_chunk (by decide) hChunk
  exact ⟨chunk, hParse, hShort.1, hShort.2⟩

/-
  An assignment line that fits, or just fills, the buffer is
  read as its own assignment; only when it fits is a carriage
  return at its end dropped.
-/
theorem fileLineReadings_assignmentLine
    {name value : Text}
    (hName : '=' ∉ name ∧ '\n' ∉ name)
    (hValue : '\n' ∉ value)
    (hLength :
      (assignmentLine name value).length < confLineSize) :
    ∃ others,
      fileLineReadings (assignmentLine name value) =
        .assigned name
          (if (assignmentLine name value).length + 1 <
              confLineSize ∧
              value.getLast? = some '\r' then
            value.dropLast
          else
            value) :: others ∧
      ∀ reading ∈ others, reading = .skipped := by
  have hLine : '\n' ∉ assignmentLine name value := by
    simp [assignmentLine, optionPrefix, hName.2, hValue]
  by_cases hFits :
      (assignmentLine name value).length + 1 < confLineSize
  · refine ⟨[], ?_, by simp⟩
    rw [fileLineReadings_of_lt hLine hFits]
    have hText :
        assignmentLine name value ++ ['\n'] =
          optionPrefix ++ name ++ '=' :: (value ++ ['\n']) := by
      simp [assignmentLine]
    rw [hText, parseConfLine_assignment _ hName.1,
      confLineValue_newline hValue]
    simp [hFits]
  · refine ⟨[.skipped], ?_, by simp⟩
    rw [fileLineReadings_of_eq hLine (by omega)]
    simp only [hFits, false_and, if_false]
    rw [assignmentLine,
      parseConfLine_assignment _ hName.1,
      confLineValue_full hValue]

/- The same for a line that says that an option is off. -/
theorem fileLineReadings_notSetLine
    {name : Text}
    (hName : ' ' ∉ name ∧ '\n' ∉ name)
    (hLength :
      (notSetLine name).length < confLineSize) :
    ∃ others,
      fileLineReadings (notSetLine name) =
        .unset name :: others ∧
      ∀ reading ∈ others, reading = .skipped := by
  have hLine : '\n' ∉ notSetLine name := by
    simp [notSetLine, optionPrefix, isNotSet, hName.2]
  by_cases hFits :
      (notSetLine name).length + 1 < confLineSize
  · refine ⟨[], ?_, by simp⟩
    rw [fileLineReadings_of_lt hLine hFits,
      parseConfLine_notSet _ hName.1]
  · refine ⟨[.skipped], ?_, by simp⟩
    have hParse := parseConfLine_notSet [] hName.1
    rw [List.append_nil] at hParse
    rw [fileLineReadings_of_eq hLine (by omega), hParse]

/- A comment line that does not speak of an option. -/
structure CommentLine where
  text : Text
  noNewline : '\n' ∉ text
  fits : text.length + 4 ≤ confLineSize
  noOption : ¬ optionPrefix <+: text

/- Such a comment has no effect. -/
theorem fileLineReadings_comment
    (comment : CommentLine) :
    fileLineReadings ('#' :: ' ' :: comment.text) =
      [.skipped] := by
  have hLine : '\n' ∉ '#' :: ' ' :: comment.text := by
    simp [comment.noNewline]
  have hFits :
      ('#' :: ' ' :: comment.text).length + 1 <
        confLineSize := by
    have := comment.fits
    simp only [List.length_cons]
    omega
  rw [fileLineReadings_of_lt hLine hFits]
  have hOther :
      ¬ optionPrefix <+: comment.text ++ ['\n'] := by
    intro hLong
    rcases List.prefix_concat_iff.mp hLong with h | h
    · have hLast : '\n' ∈ optionPrefix := by simp [h]
      exact absurd hLast (by decide)
    · exact comment.noOption h
  simp [parseConfLine, hOther]

/- The header of the file says nothing about options. -/
theorem confHeader_reading
    {ctime : Option CommentLine}
    {line : Text}
    {reading : ConfLine}
    (hLine : line ∈ confHeader (ctime.map CommentLine.text))
    (hReading : reading ∈ fileLineReadings line) :
    reading.name = none := by
  have hHash : fileLineReadings ['#'] = [.skipped] := by
    decide
  have hBanner :
      fileLineReadings confBanner = [.skipped] := by
    decide
  have hSkipped : reading ∈ [ConfLine.skipped] →
      reading.name = none := by
    intro hMem
    rw [List.mem_singleton.mp hMem]
    rfl
  simp only [confHeader, List.mem_append, List.mem_cons,
    List.not_mem_nil, or_false] at hLine
  rcases hLine with ((rfl | rfl) | hTime) | rfl
  · exact hSkipped (hHash ▸ hReading)
  · exact hSkipped (hBanner ▸ hReading)
  · cases ctime with
    | none => cases hTime
    | some comment =>
        have hEq : line = '#' :: ' ' :: comment.text := by
          simpa using hTime
        rw [hEq, fileLineReadings_comment] at hReading
        exact hSkipped hReading
  · exact hSkipped (hHash ▸ hReading)

end Mkrootfs
