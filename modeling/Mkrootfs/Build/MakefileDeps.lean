import Mathlib.Data.List.Dedup
import Mkrootfs.Library.Scan
import Mkrootfs.Kconfig.ConfigPath

/-
  The option dependencies `makefile-deps.awk` lists for a
  package Makefile, compared with the files that
  `conf_split_config` touches.

  Main declarations:
    * `awkMatch` and `scanRecord`
    * `mkrOptdeps`
    * `scanRecord_eq`
    * `mem_mkrOptdeps_iff`
-/

------------------------------------------------------------
-- The awk Program
------------------------------------------------------------

namespace Mkrootfs

/- The tokens of the regular expression `MKR_[0-9A-Z_]*`. -/
def optionScanner : Scanner Char where
  first := 'M'
  more := ['K', 'R', '_']
  cls := isOptionChar

/-
  `match(text, /MKR_([0-9A-Z_]*)/)`: the one-based `RSTART`
  and the `RLENGTH` of the leftmost longest match.
-/
def awkMatch : Text → Option (Nat × Nat)
| [] => none
| c :: cs =>
    if optionScanner.literal <+: c :: cs then
      let body :=
        (c :: cs).drop optionScanner.literal.length
      some (1, optionScanner.literal.length +
        (body.takeWhile isOptionChar).length)
    else
      (awkMatch cs).map
        (fun found => (found.1 + 1, found.2))

/- `substr(text, start, length)` for a one-based start. -/
def substr (text : Text) (start length : Nat) : Text :=
  (text.drop (start - 1)).take length

/- `substr(text, start)` for a one-based start. -/
def substrFrom (text : Text) (start : Nat) : Text :=
  text.drop (start - 1)

/- `gsub(/^mkr_/, "", sym)`. -/
def dropMkrPrefix (sym : Text) : Text :=
  if ['m', 'k', 'r', '_'] <+: sym then
    sym.drop 4
  else
    sym

/- `gsub(/_/, "/", sym)`. -/
def underscoresToSlashes (sym : Text) : Text :=
  sym.map (fun c => if c = '_' then '/' else c)

/- The list index computed from one match. -/
def optionIndex (found : Text) : Text :=
  underscoresToSlashes
    (dropMkrPrefix (found.map Char.toLower))

theorem awkMatch_nonempty
    {text : Text}
    {start length : Nat}
    (hMatch : awkMatch text = some (start, length)) :
    1 ≤ start ∧ text ≠ [] := by
  cases text with
  | nil => cases hMatch
  | cons c cs =>
      refine ⟨?_, by simp⟩
      unfold awkMatch at hMatch
      split at hMatch
      · simp only [Option.some.injEq,
          Prod.mk.injEq] at hMatch
        omega
      · rcases Option.map_eq_some_iff.mp hMatch with
          ⟨found, _, hFound⟩
        simp only [Prod.mk.injEq] at hFound
        omega

/-
  The `do ... while` loop over one record: after a match the
  scan goes on one character behind its end.
-/
def scanRecord (rest : Text) : List Text :=
  match hMatch : awkMatch rest with
  | none => []
  | some (start, length) =>
      optionIndex (substr rest start length) ::
        scanRecord (substrFrom rest (start + length + 1))
termination_by rest.length
decreasing_by
  have hStart := awkMatch_nonempty hMatch
  have hPos := List.length_pos_iff.mpr hStart.2
  simp only [substrFrom, List.length_drop]
  omega

/- The path listed for an index, relative to `$(O)`. -/
def optdepPath (index : Text) : Text :=
  configDirectory ++ '/' :: (index ++ ['.', 'h'])

/-
  The paths in `mkr-optdeps`: one for each index of the awk
  array `list` after all records of the Makefile.
-/
def mkrOptdeps (makefile : Text) : List Text :=
  ((Text.lines makefile).flatMap scanRecord).dedup.map
    optdepPath

------------------------------------------------------------
-- One Record
------------------------------------------------------------

/- The index of a match is the path of the option's name. -/
theorem optionIndex_literal
    (run : Text) :
    optionIndex (optionScanner.literal ++ run) =
      configPathBody run := by
  have hLower :
      (optionScanner.literal ++ run).map Char.toLower =
        ['m', 'k', 'r', '_'] ++ run.map Char.toLower := by
    rw [List.map_append]
    rfl
  unfold optionIndex
  rw [hLower]
  simp [dropMkrPrefix, underscoresToSlashes,
    configPathBody, configPathChar]

/- A record without a match holds no token. -/
theorem tokens_of_awkMatch_none
    {text : Text}
    (hMatch : awkMatch text = none) :
    optionScanner.tokens text = [] := by
  induction text with
  | nil => simp
  | cons c cs ih =>
      unfold awkMatch at hMatch
      split at hMatch
      · cases hMatch
      · next hHere =>
          rw [optionScanner.tokens_of_tokenHere_none
            (by simp [Scanner.tokenHere, hHere])]
          apply ih
          simpa using hMatch

/-
  A match is the first token of the record, and the scan may
  skip the character behind it.
-/
theorem tokens_of_awkMatch_some
    {text : Text}
    {start length : Nat}
    (hMatch : awkMatch text = some (start, length)) :
    ∃ before run rest,
      text =
        before ++ (optionScanner.literal ++ run) ++ rest ∧
      start = before.length + 1 ∧
      length = (optionScanner.literal ++ run).length ∧
      optionScanner.tokens text =
        run :: optionScanner.tokens rest ∧
      optionScanner.tokens (rest.drop 1) =
        optionScanner.tokens rest := by
  induction text generalizing start with
  | nil => cases hMatch
  | cons c cs ih =>
      unfold awkMatch at hMatch
      split at hMatch
      · next hHere =>
          rcases hHere with ⟨body, hBody⟩
          simp only [← hBody, List.drop_left,
            Option.some.injEq, Prod.mk.injEq] at hMatch
          refine ⟨[], body.takeWhile isOptionChar,
            body.dropWhile isOptionChar, ?_,
            hMatch.1.symm, ?_, ?_, ?_⟩
          · simp [← hBody]
          · rw [List.length_append]
            exact hMatch.2.symm
          · rw [← hBody]
            exact optionScanner.tokens_literal body
          · exact optionScanner.tokens_drop_one body
              (by decide)
      · next hHere =>
          rcases Option.map_eq_some_iff.mp hMatch with
            ⟨found, hFound, hPair⟩
          simp only [Prod.mk.injEq] at hPair
          have hRest : awkMatch cs = some (found.1, length) := by
            rw [hFound, ← hPair.2]
          rcases ih hRest with
            ⟨before, run, rest, hText, hStart, hLength,
              hTokens, hSkip⟩
          refine ⟨c :: before, run, rest, by simp [hText],
            by simp; omega, hLength, ?_, hSkip⟩
          rw [optionScanner.tokens_of_tokenHere_none
            (by simp [Scanner.tokenHere, hHere])]
          exact hTokens

/- `substr` on the middle part of a text. -/
theorem substr_append
    (before found rest : Text) :
    substr (before ++ found ++ rest)
      (before.length + 1) found.length = found := by
  simp [substr]

/- `substr` behind the middle part skips one character. -/
theorem substrFrom_append
    (before found rest : Text) :
    substrFrom (before ++ found ++ rest)
      (before.length + 1 + found.length + 1) =
        rest.drop 1 := by
  have hStart :
      before.length + 1 + found.length + 1 - 1 =
        (before ++ found).length + 1 := by
    simp only [List.length_append]
    omega
  rw [substrFrom, hStart, ← List.drop_drop,
    List.drop_left]

/- The loop finds the tokens of its record, in order. -/
theorem scanRecord_eq
    (rest : Text) :
    scanRecord rest =
      (optionScanner.tokens rest).map configPathBody := by
  induction hLength : rest.length
      using Nat.strong_induction_on generalizing rest with
  | _ n ih =>
      rw [scanRecord]
      split
      · next hMatch =>
          simp [tokens_of_awkMatch_none hMatch]
      · next start length hMatch =>
          rcases tokens_of_awkMatch_some hMatch with
            ⟨before, run, after, hText, hStart, hLen,
              hTokens, hSkip⟩
          have hShort : (after.drop 1).length < n := by
            simp only [hText, Scanner.literal,
              List.length_append, List.length_cons]
              at hLength
            simp only [List.length_drop]
            omega
          have hFound :
              substr rest start length =
                optionScanner.literal ++ run := by
            rw [hStart, hLen, hText, substr_append]
          have hNext :
              substrFrom rest (start + length + 1) =
                after.drop 1 := by
            rw [hStart, hLen, hText, substrFrom_append]
          rw [hFound, hNext, hTokens, optionIndex_literal,
            ih _ hShort _ rfl, hSkip, List.map_cons]

------------------------------------------------------------
-- The Whole Makefile
------------------------------------------------------------

/- Records are scanned like the whole text. -/
theorem flatMap_tokens_lines
    (makefile : Text) :
    (Text.lines makefile).flatMap optionScanner.tokens =
      optionScanner.tokens makefile := by
  induction hLength : makefile.length
      using Nat.strong_induction_on
      generalizing makefile with
  | _ n ih =>
      rcases Text.newline_cases makefile with
        hNone | ⟨line, rest, hText, hLine⟩
      · by_cases hEmpty : makefile = []
        · subst makefile
          simp [Text.lines]
        · rw [Text.lines_of_not_mem _ hNone hEmpty]
          simp
      · have hShort : rest.length < n := by
          simp only [hText, List.length_append,
            List.length_cons] at hLength
          omega
        rw [hText, Text.lines_append_newline _ _ hLine,
          List.flatMap_cons, ih _ hShort _ rfl,
          Scanner.tokens_append_separator
            (by decide) (by decide)]

/- The listed paths are those of the scanned tokens. -/
theorem mem_mkrOptdeps_iff
    (makefile path : Text) :
    path ∈ mkrOptdeps makefile ↔
      ∃ name ∈ optionScanner.tokens makefile,
        path = optdepPath (configPathBody name) := by
  have hScan :
      (Text.lines makefile).flatMap scanRecord =
        (optionScanner.tokens makefile).map
          configPathBody := by
    rw [← flatMap_tokens_lines, List.map_flatMap]
    exact List.flatMap_congr (fun _ _ => scanRecord_eq _)
  unfold mkrOptdeps
  rw [hScan]
  simp only [List.mem_map, List.mem_dedup]
  constructor
  · rintro ⟨index, ⟨name, hName, rfl⟩, rfl⟩
    exact ⟨name, hName, rfl⟩
  · rintro ⟨name, hName, rfl⟩
    exact ⟨_, ⟨name, hName, rfl⟩, rfl⟩

------------------------------------------------------------
-- Agreement With The Touched Files
------------------------------------------------------------

/- A symbol name over `[A-Z0-9_]+`. -/
structure OptionName where
  chars : Text
  nonempty : chars ≠ []
  valid : ∀ c ∈ chars, isOptionChar c = true

/-
  The listing is exact, and a listed path is the file that
  `conf_split_config` touches exactly for the names that fit
  its buffer and do not start with an underscore.
-/
theorem mkrOptdeps_agree
    (makefile : Text)
    (name : OptionName) :
    (∀ path, path ∈ mkrOptdeps makefile ↔
      ∃ found ∈ optionScanner.tokens makefile,
        path = optdepPath (configPathBody found)) ∧
    (touchedFile name.chars =
        some (.build
          (optdepPath (configPathBody name.chars))) ↔
      name.chars.length ≤ 125 ∧
        name.chars.head? ≠ some '_') :=
  ⟨fun path => mem_mkrOptdeps_iff makefile path,
    touchedFile_eq_build_iff name.nonempty name.valid⟩

/-
  A Makefile that mentions `MKR__FOO` lists
  `include/config//foo.h`, while the touched file is
  `/foo.h` in the root directory.
-/
theorem mkrOptdeps_leading_underscore :
    let makefile : Text :=
      ['M', 'K', 'R', '_', '_', 'F', 'O', 'O']
    let name : Text := ['_', 'F', 'O', 'O']
    name ∈ optionScanner.tokens makefile ∧
      optdepPath ['/', 'f', 'o', 'o'] ∈
        mkrOptdeps makefile ∧
      configPathBody name = ['/', 'f', 'o', 'o'] ∧
      touchedFile name =
        some (.absolute
          ['/', 'f', 'o', 'o', '.', 'h']) ∧
      touchedFile name ≠
        some (.build
          (optdepPath (configPathBody name))) := by
  intro makefile name
  have hToken : name ∈ optionScanner.tokens makefile := by
    have hMakefile :
        makefile = optionScanner.literal ++ name := rfl
    rw [hMakefile, optionScanner.tokens_literal]
    exact List.mem_cons_self
  refine ⟨hToken, ?_, by decide, by decide, by decide⟩
  exact (mem_mkrOptdeps_iff _ _).mpr
    ⟨name, hToken, by decide⟩

end Mkrootfs
