import Mkrootfs.Library.Xargs

/-
  `fixdep`: the dependency file of a compiler, with the
  options that the prerequisites mention.

  The scanner looks for the four aligned words that occur in
  `CONFIG_`, and then for the text `MKR_`.

  Main declarations:
    * `Fixdep.scanWord`, `Fixdep.parseConfigFile`
    * `Fixdep.depNames`, `Fixdep.fixdep`
    * `Fixdep.MentionsOption`
    * `Fixdep.options_printed_iff`
-/

------------------------------------------------------------
-- Recorded Options
------------------------------------------------------------

namespace Mkrootfs

namespace Fixdep

/- What the program prints, one call of `printf` each. -/
inductive Line
| cmd (target cmdline : Text)
| deps (target : Text)
| file (name : Text)
| wildcard (path : Text)
| rule (target : Text)
deriving DecidableEq

/- The printed text. -/
def Line.text : Line → Text
| .cmd target cmdline =>
    "cmd_".toList ++ target ++ " := ".toList ++ cmdline ++
      "\n\n".toList
| .deps target =>
    "deps_".toList ++ target ++ " := ".toList ++
      [backslash, '\n']
| .file name =>
    "  ".toList ++ name ++ [' ', backslash, '\n']
| .wildcard path =>
    "    $(wildcard include/config/".toList ++ path ++
      ".h) ".toList ++ [backslash, '\n']
| .rule target =>
    "\n".toList ++ target ++ ": $(deps_".toList ++ target ++
      ")\n\n$(deps_".toList ++ target ++ "):\n".toList

/- `str_config`, and the output so far. -/
structure State where
  config : Text
  lines : List Line
deriving DecidableEq

/- `is_defined_config`. -/
def isDefinedConfig (config name : Text) : Bool :=
  (List.range (config.length - name.length)).any
    (fun start =>
      start ≠ 0 &&
      config.getD (start - 1) ' ' = '\n' &&
      config.getD (start + name.length) ' ' = '\n' &&
      (config.drop start).take name.length = name)

/- `define_config`. -/
def defineConfig (config name : Text) : Text :=
  config ++ name ++ ['\n']

/- `clear_config`. -/
def clearConfig : Text := defineConfig [] []

/- The change of letters in `use_config`. -/
def useConfigChar (c : Char) : Char :=
  if c = '_' then '/' else c.toLower

/- `use_config`. -/
def useConfig (name : Text) (s : State) : State :=
  if isDefinedConfig s.config name then
    s
  else
    { config := defineConfig s.config name
      lines := s.lines ++
        [.wildcard (name.map useConfigChar)] }

------------------------------------------------------------
-- The Scanner
------------------------------------------------------------

/- `isalnum(c) || c == '_'` -/
def isWordChar (c : Char) : Bool :=
  c.isAlphanum || c == '_'

/- Some bytes of a mapped file, zero behind its end. -/
def bytesAt (map : Text) (start count : Nat) : Text :=
  (List.range count).map
    (fun k => map.getD (start + k) (Char.ofNat 0))

/- `INT_CONF` and its shifts: how far the match is back. -/
def confShift (word : Text) : Option Nat :=
  if word = "CONF".toList then
    some 0
  else if word = "ONFI".toList then
    some 1
  else if word = "NFIG".toList then
    some 2
  else if word = "FIG_".toList then
    some 3
  else
    none

/-
  The seven bytes that a match is compared with: the literal,
  its zero, and what follows in memory.
-/
def comparedBytes (beyond : Char × Char) : Text :=
  "MKR_".toList ++ [Char.ofNat 0, beyond.1, beyond.2]

/- The first byte behind a run of word characters. -/
def runEnd (map : Text) (start : Nat) : Option Nat :=
  ((map.drop start).findIdx? (fun c => !isWordChar c)).map
    (fun length => start + length)

/- One turn of the loop, for the word at `i`. -/
def scanWord
    (beyond : Char × Char)
    (map : Text)
    (s : State)
    (i : Nat) : State :=
  match confShift (bytesAt map i 4) with
  | none => s
  | some shift =>
      let p := i - shift
      if map.length < p + 7 then
        s
      else if bytesAt map p 7 ≠ comparedBytes beyond then
        s
      else
        match runEnd map (p + 7) with
        | none => s
        | some q =>
            let q :=
              if bytesAt map (q - 7) 7 =
                  "_MODULE".toList then
                q - 7
              else
                q
            if q < p + 7 then
              s
            else
              useConfig (bytesAt map (p + 7) (q - p - 7)) s

/- `parse_config_file`: the words from the second one on. -/
def parseConfigFile
    (beyond : Char × Char)
    (map : Text)
    (s : State) : State :=
  ((List.range ((map.length + 3) / 4)).drop 1).foldl
    (fun s m => scanWord beyond map s (4 * m)) s

------------------------------------------------------------
-- The Dependency File
------------------------------------------------------------

/- The blanks before a name. -/
def isSkipped (c : Char) : Bool :=
  c = ' ' || c = backslash || c = '\n'

theorem length_start_le (rest : Text) :
    (rest.dropWhile isSkipped).length ≤ rest.length :=
  (List.dropWhile_sublist _).length_le

/-
  The names from here to the end, and whether the program
  survives them: the last name is cut behind its last letter
  or digit, and without one the length of the copy wraps
  around.
-/
def depNames (rest : Text) : List Text × Bool :=
  if _hRest : rest = [] then
    ([], true)
  else
    let start := rest.dropWhile isSkipped
    let name := start.takeWhile (· ≠ ' ')
    let behind := start.dropWhile (· ≠ ' ')
    if behind ≠ [] then
      let (names, survives) := depNames behind.tail
      (name :: names, survives)
    else
      let cut := (name.reverse.dropWhile
        (fun c => !c.isAlphanum)).reverse
      if cut = [] then
        ([], false)
      else
        let (names, survives) :=
          depNames (name.drop (cut.length + 1))
        (cut :: names, survives)
termination_by rest.length
decreasing_by
  · have hStart := length_start_le rest
    have hBehind := (List.dropWhile_sublist (· ≠ ' ')
      (l := rest.dropWhile isSkipped)).length_le
    have hPos := List.length_pos_iff.mpr _hRest
    rw [List.length_tail]
    omega
  · have hStart := length_start_le rest
    have hName := (List.takeWhile_sublist (· ≠ ' ')
      (l := rest.dropWhile isSkipped)).length_le
    have hPos := List.length_pos_iff.mpr _hRest
    rw [List.length_drop]
    omega

/- The prerequisites that are left out. -/
def isFiltered (name : Text) : Bool :=
  "include/generated/autoconf.h".toList <:+ name ||
  "arch/um/include/uml-config.h".toList <:+ name ||
  ".ver".toList <:+ name

/- How the program ends. -/
inductive End
| exit (code : Nat)
| crash
deriving DecidableEq

/- The loop over the names, until a file cannot be opened. -/
def parseNames
    (beyond : Char × Char)
    (files : Text → Option Text) :
    List Text →
    State →
    State × Option End
| [], s => (s, none)
| name :: names, s =>
    if isFiltered name then
      parseNames beyond files names s
    else
      let s := { s with lines := s.lines ++ [.file name] }
      match files name with
      | none => (s, some (.exit 2))
      | some map =>
          parseNames beyond files names
            (parseConfigFile beyond map s)

/- `parse_dep_file`, behind the colon. -/
def parseDepFile
    (beyond : Char × Char)
    (files : Text → Option Text)
    (target rest : Text)
    (lines : List Line) : List Line × End :=
  let (names, survives) := depNames rest
  let (s, ended) := parseNames beyond files names
    { config := clearConfig
      lines := lines ++ [.deps target] }
  match ended with
  | some final => (s.lines, final)
  | none =>
      if survives then
        (s.lines ++ [.rule target], .exit 0)
      else
        (s.lines, .crash)

/- `main`, called with its three arguments. -/
def fixdep
    (beyond : Char × Char)
    (files : Text → Option Text)
    (depfile target cmdline : Text) : List Line × End :=
  let lines := [Line.cmd target cmdline]
  match files depfile with
  | none => (lines, .exit 2)
  | some [] => (lines, .exit 0)
  | some map =>
      if ':' ∈ map.takeWhile (· ≠ Char.ofNat 0) then
        parseDepFile beyond files target
          (Text.after ':' map) lines
      else
        (lines, .exit 1)

------------------------------------------------------------
-- Options That Are Mentioned
------------------------------------------------------------

/-
  The text mentions the option `name`: a token of `MKR_` and
  the longest run of word characters behind it, from the
  fifth byte on.
-/
def MentionsOption (map name : Text) : Prop :=
  ∃ front stop rest,
    map = front ++ ("MKR_".toList ++ name) ++ stop :: rest ∧
    4 ≤ front.length ∧
    name ≠ [] ∧
    (∀ c ∈ name, isWordChar c = true) ∧
    isWordChar stop = false ∧
    ¬ "_MODULE".toList <:+ "MKR_".toList ++ name

/- The file that stands for an option, without its suffix. -/
def optionPath (name : Text) : Text :=
  name.map useConfigChar

/-
  A call prints the options that one of the prerequisites
  mentions, each of them once.
-/
def PrintsOptions
    (lines : List Line)
    (map : Text) : Prop :=
  ∀ name, MentionsOption map name →
    lines.count (.wildcard (optionPath name)) = 1

theorem getElem?_bytesAt
    (map : Text)
    (start : Nat)
    {count k : Nat}
    (hk : k < count) :
    (bytesAt map start count)[k]? =
      some (map.getD (start + k) (Char.ofNat 0)) := by
  unfold bytesAt
  rw [List.getElem?_map, List.getElem?_range hk]
  rfl

/- The first letter of a matching word tells its shift. -/
theorem confShift_eq_some
    {word : Text}
    {shift : Nat}
    (hShift : confShift word = some shift) :
    shift < 4 ∧ word[0]? = "CONF".toList[shift]? := by
  unfold confShift at hShift
  split_ifs at hShift with hConf hOnfi hNfig hFig
  · cases hShift
    rw [hConf]
    decide
  · cases hShift
    rw [hOnfi]
    decide
  · cases hShift
    rw [hNfig]
    decide
  · cases hShift
    rw [hFig]
    decide

/-
  Wherever a word matches, its first letter is a letter of
  `CONF`, and `MKR_` has another one in that place.
-/
theorem bytesAt_ne_comparedBytes
    (beyond : Char × Char)
    {map : Text}
    {i shift : Nat}
    (hShift : confShift (bytesAt map i 4) = some shift)
    (hStart : 4 ≤ i) :
    bytesAt map (i - shift) 7 ≠ comparedBytes beyond := by
  intro hSame
  rcases confShift_eq_some hShift with ⟨hLess, hLetter⟩
  rw [getElem?_bytesAt map i (by decide), Nat.add_zero]
    at hLetter
  have hRoom : shift < 7 := by
    omega
  have hPlace := getElem?_bytesAt map (i - shift) hRoom
  rw [hSame, Nat.sub_add_cancel (by omega), hLetter] at hPlace
  have hShifts : shift = 0 ∨ shift = 1 ∨ shift = 2 ∨
      shift = 3 := by
    omega
  rcases hShifts with rfl | rfl | rfl | rfl
  all_goals
    simp [comparedBytes] at hPlace

/- So no word of the text changes anything. -/
theorem scanWord_eq
    (beyond : Char × Char)
    (map : Text)
    (s : State)
    {i : Nat}
    (hStart : 4 ≤ i) :
    scanWord beyond map s i = s := by
  unfold scanWord
  split
  · rfl
  · next shift hShift =>
      have hNe := bytesAt_ne_comparedBytes beyond
        hShift hStart
      dsimp only
      rw [if_pos hNe, ite_self]

theorem parseConfigFile_eq
    (beyond : Char × Char)
    (map : Text)
    (s : State) :
    parseConfigFile beyond map s = s := by
  have hWords : ∀ words : List Nat,
      (∀ m ∈ words, 1 ≤ m) →
      words.foldl
        (fun s m => scanWord beyond map s (4 * m)) s =
        s := by
    intro words hWords
    induction words with
    | nil => rfl
    | cons m words ih =>
        have hFirst := hWords m List.mem_cons_self
        rw [List.foldl_cons,
          scanWord_eq beyond map s (by omega)]
        exact ih (fun other hMem =>
          hWords other (List.mem_cons_of_mem m hMem))
  apply hWords
  intro m hMem
  rcases List.mem_iff_getElem.mp hMem with ⟨k, hk, rfl⟩
  rw [List.getElem_drop, List.getElem_range]
  omega

/- An option among the printed lines. -/
def HasWildcard (lines : List Line) : Prop :=
  ∃ path, Line.wildcard path ∈ lines

theorem not_hasWildcard_append
    {lines more : List Line}
    (hLines : ¬ HasWildcard lines)
    (hMore : ¬ HasWildcard more) :
    ¬ HasWildcard (lines ++ more) := by
  rintro ⟨path, hMem⟩
  rcases List.mem_append.mp hMem with hMem | hMem
  · exact hLines ⟨path, hMem⟩
  · exact hMore ⟨path, hMem⟩

theorem parseNames_not_hasWildcard
    (beyond : Char × Char)
    (files : Text → Option Text)
    (names : List Text)
    {s : State}
    (hLines : ¬ HasWildcard s.lines) :
    ¬ HasWildcard
      (parseNames beyond files names s).1.lines := by
  induction names generalizing s with
  | nil => exact hLines
  | cons name names ih =>
      unfold parseNames
      have hFile : ¬ HasWildcard
          (s.lines ++ [.file name]) :=
        not_hasWildcard_append hLines (by simp [HasWildcard])
      split
      · exact ih hLines
      · dsimp only
        split
        · exact hFile
        · rw [parseConfigFile_eq]
          exact ih hFile

/- No call ever prints an option. -/
theorem fixdep_not_hasWildcard
    (beyond : Char × Char)
    (files : Text → Option Text)
    (depfile target cmdline : Text) :
    ¬ HasWildcard
      (fixdep beyond files depfile target cmdline).1 := by
  have hCmd : ¬ HasWildcard [Line.cmd target cmdline] := by
    simp [HasWildcard]
  unfold fixdep
  dsimp only
  split
  · exact hCmd
  · exact hCmd
  · next map _ _ =>
      split
      · have hNames := parseNames_not_hasWildcard
          beyond files (depNames (Text.after ':' map)).1
          (s :=
            { config := clearConfig
              lines := [Line.cmd target cmdline] ++
                [.deps target] })
          (by simp [HasWildcard])
        unfold parseDepFile
        dsimp only
        split
        · exact hNames
        · split
          · exact not_hasWildcard_append hNames
              (by simp [HasWildcard])
          · exact hNames
      · exact hCmd

/-
  The options of a prerequisite are printed exactly when it
  mentions none.
-/
theorem options_printed_iff
    (beyond : Char × Char)
    (files : Text → Option Text)
    (depfile target cmdline map : Text) :
    PrintsOptions
        (fixdep beyond files depfile target cmdline).1 map ↔
      ¬ ∃ name, MentionsOption map name := by
  have hNone := fixdep_not_hasWildcard beyond files depfile
    target cmdline
  constructor
  · rintro hPrints ⟨name, hMentions⟩
    have hCount := hPrints name hMentions
    refine hNone ⟨optionPath name, ?_⟩
    exact List.count_pos_iff.mp (by omega)
  · intro hNot name hMentions
    exact absurd ⟨name, hMentions⟩ hNot

/- A dependency file with one prerequisite. -/
def oneFile : Text → Option Text
| name =>
    if name = ".a.o.d".toList then
      some "a.o: a.c\n".toList
    else if name = "a.c".toList then
      some "#if MKR_FOO\n".toList
    else
      none

/- The option is mentioned, and it is not printed. -/
theorem foo_not_printed :
    MentionsOption "#if MKR_FOO\n".toList "FOO".toList ∧
      fixdep ('M', 'K') oneFile ".a.o.d".toList "a.o".toList
          "gcc -c a.c".toList =
        ([.cmd "a.o".toList "gcc -c a.c".toList,
            .deps "a.o".toList, .file "a.c".toList,
            .rule "a.o".toList],
          .exit 0) ∧
      ¬ PrintsOptions
        (fixdep ('M', 'K') oneFile ".a.o.d".toList
          "a.o".toList "gcc -c a.c".toList).1
        "#if MKR_FOO\n".toList := by
  have hMentions : MentionsOption "#if MKR_FOO\n".toList
      "FOO".toList :=
    ⟨"#if ".toList, '\n', [], by decide, by decide,
      by decide, List.all_eq_true.mp (by decide), by decide,
      by decide⟩
  have hRun : fixdep ('M', 'K') oneFile ".a.o.d".toList
        "a.o".toList "gcc -c a.c".toList =
      ([.cmd "a.o".toList "gcc -c a.c".toList,
          .deps "a.o".toList, .file "a.c".toList,
          .rule "a.o".toList],
        .exit 0) := by
    decide +kernel
  refine ⟨hMentions, hRun, ?_⟩
  intro hPrints
  have hCount := hPrints "FOO".toList hMentions
  rw [hRun] at hCount
  revert hCount
  decide +kernel

end Fixdep

end Mkrootfs
