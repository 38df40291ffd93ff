import Mkrootfs.Kconfig.ConfLines
import Mkrootfs.Kconfig.ConfRead

/-
  Writing a configuration and reading it back.

  Main declarations:
    * `SavedConfig`
    * `SavedConfig.RoundTrips`
    * `SavedConfig.ReadsBack`
    * `SavedConfig.roundTrips_iff_readsBack`
-/

------------------------------------------------------------
-- Configurations
------------------------------------------------------------

namespace Mkrootfs

/- The characters of the words that name symbols. -/
def isWordChar (c : Char) : Bool :=
  c.isAlphanum || c ∈ ['_', '-', '/', '.']

/- A current value is valid for the type of its symbol. -/
def ValidValue (s : Symbol) : Prop :=
  match s.type with
  | .boolean => s.curr.tri ≠ .mod
  | .string => '\n' ∉ s.curr.val
  | .int | .hex => symStringValid s.type s.curr.val = true
  | .tristate | .unknown | .other => True

/-
  What `conf_write` prints: symbols with valid values, the
  menus it goes through, and a time stamp.  Entries have the
  names the grammar allows, and the titles of menus do not
  look like lines about options.
-/
structure SavedConfig where
  symbols : SymbolTable
  menus : List MenuLine
  ctime : Option CommentLine
  nodup : (symbols.map Symbol.id).Nodup
  entries : ∀ id, .entry id ∈ menus →
    id.isChoice = true ∨
      ∃ name, id = .named name ∧
        ∀ c ∈ name, isWordChar c = true
  titles : ∀ prompt, .title prompt ∈ menus →
    ∀ reading ∈ fileLineReadings ('#' :: ' ' :: prompt),
      reading.name = none
  values : ∀ s ∈ symbols, ValidValue s

namespace SavedConfig

variable (config : SavedConfig)

/- The `.config` file. -/
def file : Text :=
  confWrite (config.ctime.map CommentLine.text)
    config.symbols config.menus

/- The symbols after `conf_read_simple(name, S_DEF_USER)`. -/
def reread : SymbolTable :=
  (confReadSimple .user config.file config.symbols 0).symbols

/- The symbol is written, with this line. -/
structure Prints (s : Symbol) (line : Text) : Prop where
  mem : s ∈ config.symbols
  entry : .entry s.id ∈ config.menus
  notChoice : s.id.isChoice = false
  write : s.write = true
  printed : confSymbolLine s = some line

/- The symbol is written. -/
def Written (s : Symbol) : Prop :=
  ∃ line, config.Prints s line

/-
  Every written symbol gets back its value as its user value
  and no other symbol gets one.  A choice has no line of its
  own: it stays undecided unless a member is written as on.
-/
structure RoundTrips : Prop where
  written : ∀ s, config.Written s →
    ∃ s', getSymbol config.reread s.id = some s' ∧
      s'.type = s.type ∧
      savedValue .user s' = storedValue s.type s.curr
  unwritten : ∀ s ∈ config.symbols,
    ¬ config.Written s →
    s.isVisited = true →
    s.id.isChoice = false →
    ∃ s', getSymbol config.reread s.id = some s' ∧
      s'.hasUser = false
  choices : ∀ c cs,
    getSymbol config.symbols (.choice c) = some cs →
    cs.isVisited = true →
    (∀ s, config.Written s →
      s.choiceOf = some c → s.curr.tri = .no) →
    ∃ cs', getSymbol config.reread (.choice c) = some cs' ∧
      cs'.defUser = .empty

/-
  The reader sees the line of a symbol whole, takes no
  carriage return from its end, and finds the symbol by the
  printed name.
-/
def ReadsBack (s : Symbol) (line : Text) : Prop :=
  symFind config.symbols (printedName s.id) = some s.id ∧
    (line.length + 1 = confLineSize ∨
      line.length + 1 < confLineSize ∧
        line.getLast? ≠ some '\r')

end SavedConfig

------------------------------------------------------------
-- Printed Lines
------------------------------------------------------------

/-
  The text `p` gives the symbol its current value, which is
  not off, and no shorter text does.
-/
structure SpellsValue (s : Symbol) (p : Text) : Prop where
  noNewline : '\n' ∉ p
  isOn : storedValue s.type s.curr ≠ some (.tri .no)
  gives : ∀ name, lineSays s.type (.assigned name p) =
    storedValue s.type s.curr
  shortest : ∀ name q, lineSays s.type (.assigned name q) =
    storedValue s.type s.curr → p.length ≤ q.length

/-
  The line of a valid symbol either says that the symbol is
  off, or spells its value out behind the equals sign.
-/
inductive PrintedAs (s : Symbol) : Text → Prop where
| off :
    s.type = .boolean ∨ s.type = .tristate →
    s.curr.tri = .no →
    PrintedAs s (notSetLine (printedName s.id))
| value (p : Text) :
    SpellsValue s p →
    PrintedAs s (assignmentLine (printedName s.id) p)

theorem newline_not_mem_of_intDigitsValid
    {p : Text}
    (hValid : intDigitsValid p = true) :
    '\n' ∉ p := by
  unfold intDigitsValid at hValid
  split at hValid
  · cases hValid
  · next rest =>
      have hEmpty : rest = [] := by simpa using hValid
      simp [hEmpty]
  · intro hMem
    have hDigit := List.all_eq_true.mp hValid _ hMem
    exact absurd hDigit (by decide)

theorem newline_not_mem_of_hexDigits
    {p : Text}
    (hValid : p.all isHexDigit = true) :
    '\n' ∉ p := by
  intro hMem
  have hDigit := List.all_eq_true.mp hValid _ hMem
  exact absurd hDigit (by decide)

/- Valid integers and hexadecimals are on one line. -/
theorem newline_not_mem_of_valid
    {type : SymbolType}
    {p : Text}
    (hType : type = .int ∨ type = .hex)
    (hValid : symStringValid type p = true) :
    '\n' ∉ p := by
  rcases hType with rfl | rfl
  · unfold symStringValid at hValid
    dsimp only at hValid
    split at hValid
    · simpa using newline_not_mem_of_intDigitsValid hValid
    · exact newline_not_mem_of_intDigitsValid hValid
  · unfold symStringValid at hValid
    dsimp only at hValid
    rw [Bool.and_eq_true] at hValid
    have hDigits := newline_not_mem_of_hexDigits hValid.2
    split at hDigits
    · simpa using hDigits
    · simpa using hDigits
    · exact hDigits

theorem printedAs_of_confSymbolLine
    {s : Symbol}
    {line : Text}
    (hValid : ValidValue s)
    (hLine : confSymbolLine s = some line) :
    PrintedAs s line := by
  have hOn : ∀ c,
      s.type = .boolean ∨ s.type = .tristate →
      s.curr.tri ≠ .no →
      c ≠ '\n' →
      (∀ name, lineSays s.type (.assigned name [c]) =
        some (.tri s.curr.tri)) →
      line = assignmentLine (printedName s.id) [c] →
      PrintedAs s line := by
    intro c hType hTri hNewline hSays hEq
    have hStored :
        storedValue s.type s.curr =
          some (.tri s.curr.tri) := by
      rcases hType with h | h <;> simp [h, storedValue]
    rw [hEq]
    refine PrintedAs.value [c] ⟨?_, ?_, ?_, ?_⟩
    · simpa using hNewline.symm
    · simpa [hStored] using hTri
    · intro name
      rw [hSays, hStored]
    · intro name q hq
      cases q with
      | nil =>
          rw [hStored] at hq
          rcases hType with h | h <;>
            simp [h, lineSays, booleanSays] at hq
      | cons d q => simp
  have hText : ∀ type,
      s.type = type →
      type = .string ∨ type = .int ∨ type = .hex →
      symStringValid type s.curr.val = true →
      '\n' ∉ s.curr.val →
      line = assignmentLine (printedName s.id) s.curr.val →
      PrintedAs s line := by
    intro type hType hCases hOk hNewline hEq
    rw [hEq]
    refine PrintedAs.value s.curr.val ⟨?_, ?_, ?_, ?_⟩
    · exact hNewline
    · rcases hCases with rfl | rfl | rfl <;>
        simp [hType, storedValue]
    · intro name
      rcases hCases with rfl | rfl | rfl <;>
        simp [hType, storedValue, lineSays, textSays, hOk]
    · intro name q hSays
      have hBoth :
          symStringValid type q = true ∧ q = s.curr.val := by
        rcases hCases with rfl | rfl | rfl <;>
          simpa [hType, storedValue, lineSays, textSays]
            using hSays
      rw [hBoth.2]
  unfold confSymbolLine at hLine
  unfold ValidValue at hValid
  cases hType : s.type with
  | unknown => simp [hType] at hLine
  | other => simp [hType] at hLine
  | boolean =>
      simp only [hType] at hLine hValid
      cases hTri : s.curr.tri with
      | no =>
          simp only [hTri, Option.some.injEq] at hLine
          rw [← hLine]
          exact PrintedAs.off (Or.inl hType) hTri
      | mod => exact absurd hTri hValid
      | yes =>
          simp only [hTri, Option.some.injEq] at hLine
          refine hOn 'y' (Or.inl hType) (by simp [hTri])
            (by decide) ?_ hLine.symm
          simp [hType, hTri, lineSays, booleanSays]
  | tristate =>
      simp only [hType] at hLine
      cases hTri : s.curr.tri with
      | no =>
          simp only [hTri, Option.some.injEq] at hLine
          rw [← hLine]
          exact PrintedAs.off (Or.inr hType) hTri
      | mod =>
          simp only [hTri, Option.some.injEq] at hLine
          refine hOn 'm' (Or.inr hType) (by simp [hTri])
            (by decide) ?_ hLine.symm
          simp [hType, hTri, lineSays]
      | yes =>
          simp only [hTri, Option.some.injEq] at hLine
          refine hOn 'y' (Or.inr hType) (by simp [hTri])
            (by decide) ?_ hLine.symm
          simp [hType, hTri, lineSays, booleanSays]
  | string =>
      simp only [hType] at hLine hValid
      exact hText _ hType (by simp) rfl hValid
        (Option.some.inj hLine).symm
  | int =>
      simp only [hType] at hLine hValid
      exact hText _ hType (by simp) hValid
        (newline_not_mem_of_valid (by simp) hValid)
        (Option.some.inj hLine).symm
  | hex =>
      simp only [hType] at hLine hValid
      exact hText _ hType (by simp) hValid
        (newline_not_mem_of_valid (by simp) hValid)
        (Option.some.inj hLine).symm

------------------------------------------------------------
-- Lines Of The File
------------------------------------------------------------

/- The frame of a visible menu or comment. -/
def titleLines (prompt : Text) : List Text :=
  [[], ['#'], '#' :: ' ' :: prompt, ['#']]

/- A symbol that the traversal can still print. -/
structure Printable
    (t : SymbolTable)
    (menus : List MenuLine)
    (s : Symbol)
    (line : Text) : Prop where
  entry : .entry s.id ∈ menus
  get : getSymbol t s.id = some s
  notChoice : s.id.isChoice = false
  write : s.write = true
  printed : confSymbolLine s = some line

/- A printed symbol is not printed again. -/
theorem getSymbol_clear_write
    (t : SymbolTable)
    (id other : SymId) :
    getSymbol
        (modifySymbol t id
          (fun s => { s with write := false })) other =
      if other = id then
        (getSymbol t id).map
          (fun s => { s with write := false })
      else
        getSymbol t other :=
  getSymbol_modifySymbol t id other _ (fun _ h => h)

theorem confMenuLines_sound
    {t : SymbolTable}
    {menus : List MenuLine}
    {line : Text}
    (hLine : line ∈ confMenuLines t menus) :
    (∃ prompt, .title prompt ∈ menus ∧
        line ∈ titleLines prompt) ∨
      ∃ s, Printable t menus s line := by
  induction menus generalizing t with
  | nil => cases hLine
  | cons menu menus ih =>
      have hLater : ∀ u, line ∈ confMenuLines u menus →
          (∀ s, getSymbol u s.id = some s →
            s.write = true → getSymbol t s.id = some s) →
          (∃ prompt, .title prompt ∈ menu :: menus ∧
              line ∈ titleLines prompt) ∨
            ∃ s, Printable t (menu :: menus) s line := by
        intro u hu hSame
        rcases ih hu with ⟨prompt, hMem, hTitle⟩ | ⟨s, hs⟩
        · exact Or.inl ⟨prompt, by simp [hMem], hTitle⟩
        · exact Or.inr
            ⟨s, by simp [hs.entry],
              hSame s hs.get hs.write, hs.notChoice,
              hs.write, hs.printed⟩
      cases menu with
      | title prompt =>
          rw [confMenuLines, List.mem_append] at hLine
          rcases hLine with hHere | hRest
          · exact Or.inl ⟨prompt, by simp, hHere⟩
          · exact hLater t hRest (fun _ h _ => h)
      | entry id =>
          rw [confMenuLines] at hLine
          split at hLine
          · exact hLater t hLine (fun _ h _ => h)
          · next s hGet =>
              have hId := getSymbol_id hGet
              split at hLine
              · exact hLater t hLine (fun _ h _ => h)
              · next hPrint =>
                  simp only [Bool.or_eq_true,
                    Bool.not_eq_true', not_or,
                    Bool.not_eq_true, Bool.not_eq_false]
                    at hPrint
                  rw [List.mem_append] at hLine
                  rcases hLine with hHere | hRest
                  · right
                    refine ⟨s, by simp [hId], ?_, hPrint.1,
                      hPrint.2, by simpa using hHere⟩
                    rw [hId]
                    exact hGet
                  · apply hLater _ hRest
                    intro other hOther hWrite
                    rw [getSymbol_clear_write] at hOther
                    split at hOther
                    · next hSelf =>
                        rw [hGet] at hOther
                        rw [← Option.some.inj hOther]
                          at hWrite
                        cases hWrite
                    · exact hOther

theorem confMenuLines_complete
    {t : SymbolTable}
    {menus : List MenuLine}
    {s : Symbol}
    {line : Text}
    (hPrintable : Printable t menus s line) :
    line ∈ confMenuLines t menus := by
  induction menus generalizing t with
  | nil => cases hPrintable.entry
  | cons menu menus ih =>
      cases menu with
      | title prompt =>
          rw [confMenuLines, List.mem_append]
          right
          exact ih
            ⟨by simpa using hPrintable.entry,
              hPrintable.get, hPrintable.notChoice,
              hPrintable.write, hPrintable.printed⟩
      | entry id =>
          rw [confMenuLines]
          by_cases hSelf : id = s.id
          · subst id
            simp [hPrintable.get, hPrintable.notChoice,
              hPrintable.write, hPrintable.printed]
          · have hNe : s.id ≠ id := fun h => hSelf h.symm
            have hEntry : MenuLine.entry s.id ∈ menus := by
              simpa [hNe] using hPrintable.entry
            have hRest : ∀ u,
                getSymbol u s.id = some s →
                  line ∈ confMenuLines u menus := by
              intro u hGet
              exact ih ⟨hEntry, hGet, hPrintable.notChoice,
                hPrintable.write, hPrintable.printed⟩
            split
            · exact hRest t hPrintable.get
            · split
              · exact hRest t hPrintable.get
              · rw [List.mem_append]
                right
                apply hRest
                rw [getSymbol_clear_write, if_neg hNe]
                exact hPrintable.get

namespace SavedConfig

variable {config : SavedConfig}

theorem Prints.get
    {s : Symbol}
    {line : Text}
    (hPrints : config.Prints s line) :
    getSymbol config.symbols s.id = some s :=
  getSymbol_of_mem config.nodup hPrints.mem

/- What the file says about options, symbols say. -/
theorem exists_prints_of_reading
    {reading : ConfLine}
    (hReading : reading ∈ confLines config.file)
    (hName : reading.name ≠ none) :
    ∃ s line, config.Prints s line ∧
      reading ∈ fileLineReadings line := by
  have hHash : fileLineReadings ['#'] = [.skipped] := by
    decide
  have hBlank : fileLineReadings [] = [.skipped] := by
    decide
  unfold file confWrite at hReading
  rw [confLines_unlines, List.mem_flatMap] at hReading
  rcases hReading with ⟨line, hLine, hIn⟩
  rcases List.mem_append.mp hLine with hHeader | hMenu
  · exact absurd (confHeader_reading hHeader hIn) hName
  · rcases confMenuLines_sound hMenu with
      ⟨prompt, hMem, hTitle⟩ | ⟨s, hs⟩
    · simp only [titleLines, List.mem_cons,
        List.not_mem_nil, or_false] at hTitle
      rcases hTitle with rfl | rfl | rfl | rfl
      · rw [hBlank, List.mem_singleton] at hIn
        exact absurd (by rw [hIn]; rfl) hName
      · rw [hHash, List.mem_singleton] at hIn
        exact absurd (by rw [hIn]; rfl) hName
      · exact absurd (config.titles prompt hMem _ hIn) hName
      · rw [hHash, List.mem_singleton] at hIn
        exact absurd (by rw [hIn]; rfl) hName
    · exact ⟨s, line,
        ⟨getSymbol_mem hs.get, hs.entry, hs.notChoice,
          hs.write, hs.printed⟩, hIn⟩

/- The readings of a printed line are in the file. -/
theorem Prints.reading_mem
    {s : Symbol}
    {line : Text}
    (hPrints : config.Prints s line)
    {reading : ConfLine}
    (hReading : reading ∈ fileLineReadings line) :
    reading ∈ confLines config.file := by
  have hLine :
      line ∈ confMenuLines config.symbols config.menus :=
    confMenuLines_complete
      ⟨hPrints.entry, hPrints.get, hPrints.notChoice,
        hPrints.write, hPrints.printed⟩
  unfold file confWrite
  rw [confLines_unlines, List.mem_flatMap]
  exact ⟨line, List.mem_append_right _ hLine, hReading⟩

/- Printed symbols have names made of word characters. -/
theorem Prints.named
    {s : Symbol}
    {line : Text}
    (hPrints : config.Prints s line) :
    s.id = .named (printedName s.id) ∧
      ∀ c ∈ printedName s.id, isWordChar c = true := by
  rcases config.entries s.id hPrints.entry with
    hChoice | ⟨name, hName, hWord⟩
  · rw [hPrints.notChoice] at hChoice
    cases hChoice
  · rw [hName]
    exact ⟨rfl, hWord⟩

/- Such a name holds no character that lines are cut at. -/
theorem Prints.not_mem_name
    {s : Symbol}
    {line : Text}
    (hPrints : config.Prints s line)
    {c : Char}
    (hOther : isWordChar c = false) :
    c ∉ printedName s.id := by
  intro hMem
  rw [hPrints.named.2 c hMem] at hOther
  cases hOther

/- Two printed symbols with one name are the same. -/
theorem Prints.unique
    {s other : Symbol}
    {line otherLine : Text}
    (hPrints : config.Prints s line)
    (hOther : config.Prints other otherLine)
    (hName : printedName other.id = printedName s.id) :
    other = s ∧ otherLine = line := by
  have hId : other.id = s.id := by
    rw [hOther.named.1, hPrints.named.1, hName]
  have hGet := hOther.get
  rw [hId, hPrints.get] at hGet
  have hSame := Option.some.inj hGet
  subst other
  have hLines := hOther.printed
  rw [hPrints.printed] at hLines
  exact ⟨rfl, (Option.some.inj hLines).symm⟩

theorem Prints.printedAs
    {s : Symbol}
    {line : Text}
    (hPrints : config.Prints s line) :
    PrintedAs s line :=
  printedAs_of_confSymbolLine
    (config.values s hPrints.mem) hPrints.printed

/- Printed symbols have a settled type. -/
theorem Prints.settled
    {s : Symbol}
    {line : Text}
    (hPrints : config.Prints s line) :
    s.type.isSettled = true := by
  have hLine := hPrints.printed
  unfold confSymbolLine at hLine
  cases hType : s.type with
  | unknown => simp [hType] at hLine
  | other => simp [hType] at hLine
  | boolean => rfl
  | tristate => rfl
  | int => rfl
  | hex => rfl
  | string => rfl

theorem Prints.visited
    {s : Symbol}
    {line : Text}
    (hPrints : config.Prints s line) :
    s.isVisited = true := by
  have hSettled := hPrints.settled
  unfold Symbol.isVisited
  rw [hPrints.named.1]
  cases hType : s.type <;>
    simp_all [SymId.isHashed, SymbolType.isSettled]

/- A line that is off speaks of no assignment. -/
theorem Prints.not_assigned
    {s : Symbol}
    (hPrints : config.Prints s
      (notSetLine (printedName s.id)))
    {name p : Text} :
    ConfLine.assigned name p ∉
      fileLineReadings (notSetLine (printedName s.id)) := by
  intro hReading
  rcases fileLineReadings_chunk hReading with
    ⟨chunk, hParse, _, hMem⟩
  have hEquals :=
    hMem '=' (parseConfLine_assigned hParse).2.1
  have hName := hPrints.not_mem_name
    (c := '=') (by decide)
  simp [notSetLine, optionPrefix, isNotSet, hName]
    at hEquals

------------------------------------------------------------
-- What Reading Back Needs
------------------------------------------------------------

/- The user value a symbol of the file gets. -/
theorem Prints.savedValue_reread
    {s : Symbol}
    {line : Text}
    (hPrints : config.Prints s line) :
    ∃ s', getSymbol config.reread s.id = some s' ∧
      s'.type = s.type ∧
      savedValue .user s' =
        ((linesAbout config.symbols s.id
          config.file).filterMap
            (lineSays s.type)).getLast? := by
  have hSettled := hPrints.settled
  have hVisited := hPrints.visited
  have hReset : savedValue .user (resetDef .user s) =
      none := by
    unfold savedValue
    rw [resetDef_hasDef .user hVisited, hPrints.notChoice]
    rfl
  have hFold := savedValue_foldl_lineUpdate .user
    (linesAbout config.symbols s.id config.file)
    (s := resetDef .user s) (by simpa using hSettled)
  rw [hReset, resetDef_type, Option.or_none] at hFold
  refine ⟨_, ?_, hFold.2, hFold.1⟩
  unfold reread
  rw [getSymbol_confReadSimple_user _ _ _
    hPrints.notChoice, hPrints.get]
  rfl

theorem Prints.storedValue
    {s : Symbol}
    {line : Text}
    (hPrints : config.Prints s line) :
    ∃ v, storedValue s.type s.curr = some v := by
  have hSettled := hPrints.settled
  cases hType : s.type <;>
    simp_all [SymbolType.isSettled, Mkrootfs.storedValue]

/- A symbol that got its value back was named by a line. -/
theorem RoundTrips.exists_reading
    (hTrip : config.RoundTrips)
    {s : Symbol}
    {line : Text}
    (hPrints : config.Prints s line) :
    symFind config.symbols (printedName s.id) =
        some s.id ∧
      ∃ reading ∈ confLines config.file,
        reading.name = some (printedName s.id) ∧
        lineSays s.type reading =
          Mkrootfs.storedValue s.type s.curr := by
  rcases hPrints.savedValue_reread with
    ⟨s', hGet, _, hSaved⟩
  rcases hTrip.written s ⟨line, hPrints⟩ with
    ⟨s'', hGet', _, hValue⟩
  rw [hGet] at hGet'
  rw [← Option.some.inj hGet', hSaved] at hValue
  rcases hPrints.storedValue with ⟨v, hv⟩
  rw [hv] at hValue
  rcases List.mem_filterMap.mp
      (List.mem_of_getLast? hValue) with
    ⟨reading, hReading, hSays⟩
  rcases List.mem_filter.mp hReading with ⟨hMem, hTarget⟩
  have hFind :
      reading.name.bind (symFind config.symbols) =
        some s.id :=
    of_decide_eq_true hTarget
  rcases Option.bind_eq_some_iff.mp hFind with
    ⟨name, hName, hSym⟩
  have hSame : printedName s.id = name := by
    rw [printedName, symFind_name hSym]
    rfl
  rw [hSame]
  exact ⟨hSym, reading, hMem, hName, hSays.trans hv.symm⟩

/- A symbol that is on got its value from an assignment. -/
theorem RoundTrips.exists_assigned
    (hTrip : config.RoundTrips)
    {s : Symbol}
    {line p : Text}
    (hPrints : config.Prints s line)
    (hValue : SpellsValue s p) :
    ∃ q, .assigned (printedName s.id) q ∈
        confLines config.file ∧
      p.length ≤ q.length := by
  rcases (hTrip.exists_reading hPrints).2 with
    ⟨reading, hMem, hName, hSays⟩
  cases reading with
  | skipped => cases hName
  | unexpected => cases hName
  | unset name =>
      exfalso
      apply hValue.isOn
      rw [← hSays]
      rcases hPrints.storedValue with ⟨v, hv⟩
      rw [hv] at hSays
      cases hType : s.type <;> simp [hType, lineSays] at hSays ⊢
  | assigned name q =>
      have hSame := Option.some.inj hName
      subst hSame
      exact ⟨q, hMem, hValue.shortest _ q hSays⟩

/- A value that came back fitted the buffer. -/
theorem RoundTrips.value_fits
    (hTrip : config.RoundTrips)
    {s : Symbol}
    {line p : Text}
    (hPrints : config.Prints s line)
    (hValue : SpellsValue s p) :
    (assignmentLine (printedName s.id) p).length <
      confLineSize := by
  rcases hTrip.exists_assigned hPrints hValue with
    ⟨q, hMem, hLonger⟩
  rcases exists_prints_of_reading hMem
      (by simp [ConfLine.name]) with ⟨_, _, _, hIn⟩
  rcases fileLineReadings_chunk hIn with
    ⟨chunk, hParse, hLength, _⟩
  have hSpelled := (parseConfLine_assigned hParse).1
  simp only [assignmentLine, optionPrefix,
    List.length_append, List.length_cons, List.length_nil]
  omega

/- A printed line that fits is read as its own symbol's. -/
theorem Prints.name_of_fits
    {s : Symbol}
    {line : Text}
    (hPrints : config.Prints s line)
    (hFits : line.length < confLineSize)
    {reading : ConfLine}
    (hReading : reading ∈ fileLineReadings line)
    (hName : reading.name ≠ none) :
    reading.name = some (printedName s.id) := by
  have hNot : ∀ c, isWordChar c = false →
      c ∉ printedName s.id :=
    fun c hc => hPrints.not_mem_name hc
  have hOwn : ∀ own : ConfLine, ∀ others,
      own.name = some (printedName s.id) →
      fileLineReadings line = own :: others →
      (∀ other ∈ others, other = .skipped) →
        reading.name = some (printedName s.id) := by
    intro own others hOwnName hAll hOthers
    rw [hAll] at hReading
    rcases List.mem_cons.mp hReading with rfl | hOther
    · exact hOwnName
    · rw [hOthers _ hOther] at hName
      exact absurd rfl hName
  cases hPrints.printedAs with
  | off hType hNo =>
      rcases fileLineReadings_notSetLine
          ⟨hNot ' ' (by decide), hNot '\n' (by decide)⟩
          hFits with ⟨others, hAll, hOthers⟩
      exact hOwn _ others rfl hAll hOthers
  | value p hValue =>
      rcases fileLineReadings_assignmentLine
          ⟨hNot '=' (by decide), hNot '\n' (by decide)⟩
          hValue.noNewline hFits with
        ⟨others, hAll, hOthers⟩
      exact hOwn _ others rfl hAll hOthers

/- Readings that name a symbol are readings of its line. -/
theorem Prints.reading_of_name
    {s : Symbol}
    {line : Text}
    (hPrints : config.Prints s line)
    {reading : ConfLine}
    (hMem : reading ∈ confLines config.file)
    (hName : reading.name = some (printedName s.id))
    (hFits : ∀ other otherLine,
      config.Prints other otherLine →
      reading ∈ fileLineReadings otherLine →
        otherLine.length < confLineSize) :
    reading ∈ fileLineReadings line := by
  rcases exists_prints_of_reading hMem (by simp [hName])
    with ⟨other, otherLine, hOther, hIn⟩
  have hOtherName := hOther.name_of_fits
    (hFits other otherLine hOther hIn) hIn (by simp [hName])
  rw [hName] at hOtherName
  have hSame := hPrints.unique hOther
    (Option.some.inj hOtherName).symm
  rw [← hSame.2]
  exact hIn

/- Every symbol that came back had a line that fitted. -/
theorem RoundTrips.line_fits
    (hTrip : config.RoundTrips)
    {s : Symbol}
    {line : Text}
    (hPrints : config.Prints s line) :
    line.length < confLineSize := by
  cases hPrints.printedAs with
  | value p hValue => exact hTrip.value_fits hPrints hValue
  | off hType hNo =>
      rcases (hTrip.exists_reading hPrints).2 with
        ⟨reading, hMem, hName, _⟩
      cases reading with
      | skipped => cases hName
      | unexpected => cases hName
      | unset name =>
          have hSame := Option.some.inj hName
          subst hSame
          rcases exists_prints_of_reading hMem
              (by simp [ConfLine.name]) with ⟨_, _, _, hIn⟩
          rcases fileLineReadings_chunk hIn with
            ⟨chunk, hParse, hLength, _⟩
          have hSpelled := (parseConfLine_unset hParse).1
          simp only [notSetLine, optionPrefix, isNotSet,
            List.length_append, List.length_cons,
            List.length_nil]
          omega
      | assigned name q =>
          -- only a short value line could say this, and
          -- that would be the line of the symbol itself
          have hIn := hPrints.reading_of_name hMem hName (by
            intro other otherLine hOther hIn
            cases hOther.printedAs with
            | off _ _ => exact absurd hIn hOther.not_assigned
            | value p hValue =>
                exact hTrip.value_fits hOther hValue)
          exact absurd hIn hPrints.not_assigned

theorem getLast?_assignmentLine
    {name p : Text}
    {c : Char}
    (hLast : (assignmentLine name p).getLast? = some c)
    (hOther : c ≠ '=') :
    p.getLast? = some c := by
  cases hp : p.getLast? with
  | none =>
      have hNil : p = [] := by simpa using hp
      subst p
      simp only [assignmentLine, List.getLast?_append,
        List.getLast?_singleton, Option.some_or,
        Option.some.injEq] at hLast
      exact absurd hLast.symm hOther
  | some d =>
      simp only [assignmentLine, List.getLast?_append,
        List.getLast?_cons, hp, Option.getD_some,
        Option.some_or, Option.some.injEq] at hLast
      rw [hLast]

theorem getLast?_notSetLine
    (name : Text) :
    (notSetLine name).getLast? = some 't' := by
  have hText : notSetLine name =
      ('#' :: ' ' :: (optionPrefix ++ name ++
        [' ', 'i', 's', ' ', 'n', 'o', 't', ' ', 's', 'e']))
        ++ ['t'] := by
    simp [notSetLine, isNotSet]
  rw [hText, List.getLast?_append]
  rfl

theorem RoundTrips.readsBack
    (hTrip : config.RoundTrips)
    {s : Symbol}
    {line : Text}
    (hPrints : config.Prints s line) :
    config.ReadsBack s line := by
  have hFits : ∀ other otherLine,
      config.Prints other otherLine →
        otherLine.length < confLineSize :=
    fun _ _ hOther => hTrip.line_fits hOther
  have hShort := hFits s line hPrints
  refine ⟨(hTrip.exists_reading hPrints).1, ?_⟩
  by_cases hFull : line.length + 1 = confLineSize
  · exact Or.inl hFull
  right
  refine ⟨by omega, ?_⟩
  intro hReturn
  cases hPrints.printedAs with
  | off hType hNo =>
      rw [getLast?_notSetLine] at hReturn
      exact absurd hReturn (by decide)
  | value p hValue =>
      have hLast :=
        getLast?_assignmentLine hReturn (by decide)
      rcases hTrip.exists_assigned hPrints hValue with
        ⟨q, hMem, hLonger⟩
      have hIn := hPrints.reading_of_name hMem rfl
        (fun other otherLine hOther _ =>
          hFits other otherLine hOther)
      rcases fileLineReadings_assignmentLine
          ⟨hPrints.not_mem_name (by decide),
            hPrints.not_mem_name (by decide)⟩
          hValue.noNewline hShort with
        ⟨others, hAll, hOthers⟩
      rw [hAll, if_pos ⟨by omega, hLast⟩] at hIn
      rcases List.mem_cons.mp hIn with hOwn | hOther
      · have hEq := (ConfLine.assigned.inj hOwn).2
        have hPos : p ≠ [] := by
          rintro rfl
          cases hLast
        have hLength := List.length_pos_iff.mpr hPos
        rw [hEq, List.length_dropLast] at hLonger
        omega
      · cases hOthers _ hOther

------------------------------------------------------------
-- What Reading Back Gives
------------------------------------------------------------

/- Every printed symbol is read back. -/
def AllReadBack (config : SavedConfig) : Prop :=
  ∀ s line, config.Prints s line → config.ReadsBack s line

theorem ReadsBack.fits
    {s : Symbol}
    {line : Text}
    (hReads : config.ReadsBack s line) :
    line.length < confLineSize := by
  rcases hReads.2 with hFull | hRoom
  · omega
  · omega

/- The line of a symbol gives it its value. -/
theorem Prints.reading_of_readsBack
    {s : Symbol}
    {line : Text}
    (hPrints : config.Prints s line)
    (hReads : config.ReadsBack s line) :
    ∃ own others,
      fileLineReadings line = own :: others ∧
      (∀ other ∈ others, other = .skipped) ∧
      own.name = some (printedName s.id) ∧
      lineSays s.type own =
        Mkrootfs.storedValue s.type s.curr ∧
      (s.curr.tri = .no → IsQuiet s.type own) := by
  have hFits := hReads.fits
  cases hPrints.printedAs with
  | off hType hNo =>
      rcases fileLineReadings_notSetLine
          ⟨hPrints.not_mem_name (by decide),
            hPrints.not_mem_name (by decide)⟩
          hFits with ⟨others, hAll, hOthers⟩
      refine ⟨_, others, hAll, hOthers, rfl, ?_,
        fun _ => Or.inr ⟨_, rfl⟩⟩
      rcases hType with h | h
      · simp [h, lineSays, Mkrootfs.storedValue, hNo]
      · simp [h, lineSays, Mkrootfs.storedValue, hNo]
  | value p hValue =>
      rcases fileLineReadings_assignmentLine
          ⟨hPrints.not_mem_name (by decide),
            hPrints.not_mem_name (by decide)⟩
          hValue.noNewline hFits with
        ⟨others, hAll, hOthers⟩
      have hKept :
          ¬ ((assignmentLine (printedName s.id) p).length
                + 1 < confLineSize ∧
              p.getLast? = some '\r') := by
        rintro ⟨hRoom, hReturn⟩
        rcases hReads.2 with hFull | ⟨_, hLast⟩
        · omega
        · apply hLast
          simp [assignmentLine, List.getLast?_append,
            List.getLast?_cons, hReturn]
      rw [if_neg hKept] at hAll
      refine ⟨_, others, hAll, hOthers, rfl,
        hValue.gives _, ?_⟩
      intro hNo
      left
      have hOn := hValue.isOn
      have hSettled := hPrints.settled
      cases hType : s.type <;>
        simp_all [Mkrootfs.storedValue,
          SymbolType.isSettled]

/- Only its own line is about a printed symbol. -/
theorem AllReadBack.reading_of_target
    (hAll : AllReadBack config)
    {reading : ConfLine}
    (hMem : reading ∈ confLines config.file)
    {id : SymId}
    (hTarget : lineTarget .user config.symbols reading =
      some id) :
    ∃ s line, config.Prints s line ∧ s.id = id ∧
      lineSays s.type reading =
        Mkrootfs.storedValue s.type s.curr ∧
      (s.curr.tri = .no → IsQuiet s.type reading) := by
  rcases Option.bind_eq_some_iff.mp hTarget with
    ⟨name, hName, hFind⟩
  rcases exists_prints_of_reading hMem (by simp [hName])
    with ⟨s, line, hPrints, hIn⟩
  have hReads := hAll s line hPrints
  have hOwnName := hPrints.name_of_fits hReads.fits hIn
    (by simp [hName])
  rw [hName] at hOwnName
  have hSame : s.id = id := by
    have hBack := hReads.1
    rw [← Option.some.inj hOwnName, hFind] at hBack
    exact (Option.some.inj hBack).symm
  rcases hPrints.reading_of_readsBack hReads with
    ⟨own, others, hLine, hOthers, _, hSays, hQuiet⟩
  rw [hLine] at hIn
  rcases List.mem_cons.mp hIn with rfl | hOther
  · exact ⟨s, line, hPrints, hSame, hSays, hQuiet⟩
  · rw [hOthers _ hOther] at hName
    cases hName

theorem AllReadBack.written
    (hAll : AllReadBack config)
    {s : Symbol}
    (hWritten : config.Written s) :
    ∃ s', getSymbol config.reread s.id = some s' ∧
      s'.type = s.type ∧
      savedValue .user s' =
        Mkrootfs.storedValue s.type s.curr := by
  rcases hWritten with ⟨line, hPrints⟩
  rcases hPrints.savedValue_reread with
    ⟨s', hGet, hType, hSaved⟩
  refine ⟨s', hGet, hType, ?_⟩
  rcases hPrints.storedValue with ⟨v, hv⟩
  have hReads := hAll s line hPrints
  rcases hPrints.reading_of_readsBack hReads with
    ⟨own, others, hLine, _, hName, hOwn, _⟩
  have hOwnMem : own ∈ linesAbout config.symbols s.id
      config.file := by
    apply List.mem_filter.mpr
    refine ⟨hPrints.reading_mem (by simp [hLine]), ?_⟩
    simp [lineTarget, hName, hReads.1]
  have hSaid : v ∈ (linesAbout config.symbols s.id
      config.file).filterMap (lineSays s.type) :=
    List.mem_filterMap.mpr ⟨own, hOwnMem, hOwn.trans hv⟩
  have hOnly : ∀ w ∈ (linesAbout config.symbols s.id
      config.file).filterMap (lineSays s.type),
        w = v := by
    intro w hw
    rcases List.mem_filterMap.mp hw with
      ⟨reading, hReading, hSays⟩
    rcases List.mem_filter.mp hReading with
      ⟨hMem, hTarget⟩
    rcases hAll.reading_of_target hMem
        (of_decide_eq_true hTarget) with
      ⟨other, otherLine, hOther, hSame, hValue, _⟩
    have hEq : other = s := by
      have hOtherGet := hOther.get
      rw [hSame, hPrints.get] at hOtherGet
      exact (Option.some.inj hOtherGet).symm
    subst other
    rw [hSays, hv] at hValue
    exact Option.some.inj hValue
  rw [hSaved, hv]
  cases hLast : ((linesAbout config.symbols s.id
      config.file).filterMap (lineSays s.type)).getLast? with
  | none =>
      rw [List.getLast?_eq_none_iff.mp hLast] at hSaid
      cases hSaid
  | some w =>
      rw [hOnly w (List.mem_of_getLast? hLast)]

theorem AllReadBack.unwritten
    (hAll : AllReadBack config)
    {s : Symbol}
    (hMem : s ∈ config.symbols)
    (hWritten : ¬ config.Written s)
    (hVisited : s.isVisited = true)
    (hChoice : s.id.isChoice = false) :
    ∃ s', getSymbol config.reread s.id = some s' ∧
      s'.hasUser = false := by
  have hGet := getSymbol_of_mem config.nodup hMem
  have hNone :
      linesAbout config.symbols s.id config.file = [] := by
    rw [List.eq_nil_iff_forall_not_mem]
    intro reading hReading
    rcases List.mem_filter.mp hReading with ⟨hIn, hTarget⟩
    rcases hAll.reading_of_target hIn
        (of_decide_eq_true hTarget) with
      ⟨other, line, hOther, hSame, _⟩
    have hOtherGet := hOther.get
    rw [hSame, hGet] at hOtherGet
    rw [Option.some.inj hOtherGet] at hWritten
    exact hWritten ⟨line, hOther⟩
  refine ⟨resetDef .user s, ?_, ?_⟩
  · unfold reread
    rw [getSymbol_confReadSimple_user _ _ _ hChoice, hGet,
      hNone]
    rfl
  · exact (resetDef_hasDef .user hVisited).trans hChoice

theorem AllReadBack.choices
    (hAll : AllReadBack config)
    {c : ChoiceId}
    {cs : Symbol}
    (hGet : getSymbol config.symbols (.choice c) = some cs)
    (hVisited : cs.isVisited = true)
    (hOff : ∀ s, config.Written s →
      s.choiceOf = some c → s.curr.tri = .no) :
    ∃ cs', getSymbol config.reread (.choice c) = some cs' ∧
      cs'.defUser = .empty := by
  have hQuiet : QuietLines c
      (config.symbols.map (resetDef .user))
      (confLines config.file) := by
    intro reading hMem id hTarget
    rw [lineTarget_resetDef] at hTarget
    rcases hAll.reading_of_target hMem hTarget with
      ⟨s, line, hPrints, rfl, _, hLine⟩
    refine ⟨hPrints.notChoice, ?_⟩
    intro s' hGet'
    rw [getSymbol_resetDef, hPrints.get] at hGet'
    have hReset := Option.some.inj hGet'
    subst s'
    rw [resetDef_type]
    refine ⟨hPrints.settled, ?_⟩
    unfold resetDef
    rw [if_pos hPrints.visited]
    intro hMember
    exact ⟨rfl, hLine (hOff s ⟨line, hPrints⟩ hMember)⟩
  have hStart : QuietLines c
      (ReadState.mk (config.symbols.map (resetDef .user)) 0
        0).symbols (confLines config.file) :=
    hQuiet
  have hSame :=
    getSymbol_foldl_applyConfLine_choice _ hStart
  refine ⟨resetDef .user cs, ?_, ?_⟩
  · unfold reread confReadSimple
    rw [hSame, getSymbol_resetDef, hGet]
    rfl
  · unfold resetDef
    rw [if_pos hVisited]
    rfl

/-
  The round trip holds exactly when every printed line fits
  the buffer with no carriage return taken from its end, and
  its name leads back to its symbol.
-/
theorem roundTrips_iff_readsBack
    (config : SavedConfig) :
    config.RoundTrips ↔
      ∀ s line, config.Prints s line →
        config.ReadsBack s line := by
  constructor
  · intro hTrip s line hPrints
    exact hTrip.readsBack hPrints
  · intro hAll
    have hBack : AllReadBack config := hAll
    exact
      ⟨fun s hWritten => hBack.written hWritten,
        fun s hMem hWritten hVisited hChoice =>
          hBack.unwritten hMem hWritten hVisited hChoice,
        fun c cs hGet hVisited hOff =>
          hBack.choices hGet hVisited hOff⟩

/- A string option with a value. -/
def stringOption (value : Text) : Symbol :=
  { Symbol.alloc (.named ['S']) none with
    type := .string
    write := true
    curr := { SymbolValue.empty with val := value } }

/- A configuration that is this option. -/
def stringConfig
    (value : Text)
    (hValue : '\n' ∉ value) : SavedConfig where
  symbols := [stringOption value]
  menus := [.entry (.named ['S'])]
  ctime := none
  nodup := by simp
  entries := by
    intro id hEntry
    right
    have hId : id = .named ['S'] := by simpa using hEntry
    exact ⟨['S'], hId, List.forall_mem_singleton.mpr rfl⟩
  titles := by
    intro prompt hTitle
    simp at hTitle
  values := by
    intro s hMem
    rw [List.mem_singleton.mp hMem]
    exact hValue

theorem stringConfig_prints
    (value : Text)
    (hValue : '\n' ∉ value) :
    (stringConfig value hValue).Prints
      (stringOption value) (assignmentLine ['S'] value) :=
  ⟨List.mem_singleton.mpr rfl, List.mem_singleton.mpr rfl,
    rfl, rfl, rfl⟩

/- A value of 1024 characters. -/
def longValue : Text :=
  List.replicate 1024 'a'

theorem newline_not_mem_longValue :
    '\n' ∉ longValue := by
  intro hMem
  exact absurd (List.eq_of_mem_replicate hMem) (by decide)

/- It does not come back. -/
theorem stringConfig_not_roundTrips :
    ¬ (stringConfig longValue
      newline_not_mem_longValue).RoundTrips := by
  intro hTrip
  have hFits := hTrip.line_fits
    (stringConfig_prints longValue newline_not_mem_longValue)
  rw [assignmentLine, List.length_append, List.length_cons,
    longValue, List.length_replicate] at hFits
  exact absurd hFits (by decide)

end SavedConfig

end Mkrootfs
