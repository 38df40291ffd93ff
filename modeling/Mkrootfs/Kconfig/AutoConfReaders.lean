import Mkrootfs.Kconfig.AutoConfTouched
import Mkrootfs.Library.MakeLines

/-
  The two readers of `auto.conf`: `make`, which includes it,
  and `conf_read_simple(name, S_DEF_AUTO)`.

  Main declarations:
    * `AutoReaders`
    * `AutoReaders.SameMap`
    * `AutoReaders.sameMap_iff`
-/

------------------------------------------------------------
-- Readers
------------------------------------------------------------

namespace Mkrootfs

/- A number is one that `sym_string_valid` accepts. -/
def validNumber (type : SymbolType) (p : Text) : Bool :=
  match type with
  | .int | .hex => symStringValid type p
  | _ => true

/-
  An `auto.conf` and a tree that has the options written in
  it. The names are words of the grammar, the values have no
  `$`, and the parser leaves no symbol of type `S_OTHER`.
-/
structure AutoReaders extends AutoRun where
  ctimeEnds : Text.continues ctime.text = false
  words : ∀ line ∈ autoconfAssignments oldSymbols,
    Text.PlainName line.1
  noDollar : ∀ line ∈ autoconfAssignments oldSymbols,
    '$' ∉ line.2
  booleans : ∀ s ∈ oldSymbols, s.type = .boolean →
    s.curr.tri ≠ .mod
  sameTree : ∀ s ∈ oldSymbols,
    autoconfAssignment s ≠ none →
      ∃ r ∈ symbols, r.id = s.id ∧ r.type = s.type
  noOther : ∀ s ∈ symbols, s.type ≠ .other

namespace AutoReaders

variable (run : AutoReaders)

/- The value that `conf_read_simple` gives to an option. -/
def readerValue (name : Text) : Option Text :=
  (getSymbol run.read (.named name)).bind (fun s =>
    (savedValue .auto s).bind StoredValue.printed)

/- Both readers find the same value for each option. -/
def SameMap : Prop :=
  ∀ name,
    Text.makeValue run.file (optionPrefix ++ name) =
      run.readerValue name

------------------------------------------------------------
-- The File
------------------------------------------------------------

/- The line of an option. -/
def makeLine (line : Text × Text) : Text × Text :=
  (optionPrefix ++ line.1, line.2)

theorem confHeader_isComment
    (ctime : CommentLine)
    (hEnds : Text.continues ctime.text = false)
    {line : Text}
    (hLine : line ∈ confHeader (some ctime.text)) :
    line.head? = some '#' ∧ Text.continues line = false ∧
      '\n' ∉ line := by
  have hHash : Text.continues ['#'] = false := by decide
  have hBanner : Text.continues confBanner = false := by
    decide
  simp only [confHeader, List.mem_append, List.mem_cons,
    List.not_mem_nil, or_false, Option.map_some,
    Option.toList_some] at hLine
  rcases hLine with ((rfl | rfl) | rfl) | rfl
  · exact ⟨rfl, hHash, by decide⟩
  · exact ⟨rfl, hBanner, by decide⟩
  · refine ⟨rfl, ?_, by simp [ctime.noNewline]⟩
    have hSame := Text.endSlashes_append_cons
      (show Text.isSlash ' ' = false from rfl) ['#']
      ctime.text
    unfold Text.continues at hEnds ⊢
    rw [show '#' :: ' ' :: ctime.text =
      ['#'] ++ ' ' :: ctime.text from rfl, hSame]
    exact hEnds
  · exact ⟨rfl, hHash, by decide⟩

/- `auto.conf` as a file of assignments. -/
def assignmentFile : Text.AssignmentFile where
  comments := confHeader (some run.ctime.text)
  assigned :=
    (autoconfAssignments run.oldSymbols).map makeLine
  isComment _ hLine :=
    confHeader_isComment run.ctime run.ctimeEnds hLine
  plainNames := by
    intro line hLine
    rcases List.mem_map.mp hLine with ⟨old, hOld, rfl⟩
    intro c hc
    rcases List.mem_append.mp hc with hIn | hIn
    · simp only [optionPrefix, List.mem_cons,
        List.not_mem_nil, or_false] at hIn
      rcases hIn with rfl | rfl | rfl | rfl <;> decide
    · exact run.words old hOld c hIn
  newlines := by
    intro line hLine
    rcases List.mem_map.mp hLine with ⟨old, hOld, rfl⟩
    rcases List.mem_filterMap.mp hOld with ⟨s, hs, hSome⟩
    have hBoth := (autoconfAssignment_eq_some_iff
      (AutoRun.oldNamedWritten s hs)).mp hSome
    rcases run.oldNamed s hs hBoth.2.2.1 hBoth.2.1
        (by simp [hBoth.1, SymId.name]) with
      ⟨name, hId, _, _, hNewline⟩
    have hName : old.1 = name := by
      have hIds := hBoth.1.symm.trans hId
      simpa using hIds
    refine ⟨?_, (run.oldLines old hOld).1⟩
    simp [makeLine, optionPrefix, hName, hNewline]
  nodup := by
    have hNames := autoconfAssignments_nodup run.oldNodup
      AutoRun.oldNamedWritten
    have hMap : ((autoconfAssignments run.oldSymbols).map
          makeLine).map Prod.fst =
        ((autoconfAssignments run.oldSymbols).map
          Prod.fst).map (optionPrefix ++ ·) := by
      rw [List.map_map, List.map_map]
      rfl
    rw [hMap]
    exact hNames.map (List.append_right_injective optionPrefix)

theorem assignmentFile_text :
    run.assignmentFile.text = run.file := by
  unfold Text.AssignmentFile.text AutoRun.file
    confWriteAutoconf
  congr 2
  change ((autoconfAssignments run.oldSymbols).map
    makeLine).map Text.assignLine = _
  rw [List.map_map]
  rfl

------------------------------------------------------------
-- Values
------------------------------------------------------------

/- A printed value is read unless it is no valid number. -/
theorem lineSays_validNumber
    {type : SymbolType}
    {v : SymbolValue}
    {x : StoredValue}
    {p : Text}
    (name : Text)
    (hStored : storedValue type v = some x)
    (hMod : type = .boolean → v.tri ≠ .mod)
    (hPrinted : x.printed = some p) :
    lineSays type (.assigned name p) =
      if validNumber type p then some x else none := by
  have hText : ∀ type, x = .text v.val →
      textSays type p =
        if symStringValid type p then some x else none := by
    intro type hx
    rw [hx] at hPrinted ⊢
    rw [← Option.some.inj hPrinted]
    rfl
  have hBoolean : ∀ tri, x = .tri tri →
      lineSays type (.assigned name p) ≠ none →
      lineSays type (.assigned name p) = some x := by
    intro tri hx hRead
    exact (AutoRun.lineSays_printed name hStored hMod
      hPrinted).resolve_right hRead
  have hLetter : ∀ tri, x = .tri tri →
      p = ['m'] ∧ tri = .mod ∨ p = ['y'] := by
    intro tri hx
    rw [hx] at hPrinted
    cases tri with
    | no => cases hPrinted
    | mod => exact Or.inl ⟨(Option.some.inj hPrinted).symm, rfl⟩
    | yes => exact Or.inr (Option.some.inj hPrinted).symm
  cases type with
  | unknown => cases hStored
  | other => cases hStored
  | boolean =>
      have hx := (Option.some.inj hStored).symm
      refine hBoolean v.tri hx ?_
      rcases hLetter v.tri hx with ⟨_, hMode⟩ | hp
      · exact absurd hMode (hMod rfl)
      · rw [hp]
        exact Option.some_ne_none _
  | tristate =>
      have hx := (Option.some.inj hStored).symm
      refine hBoolean v.tri hx ?_
      rcases hLetter v.tri hx with ⟨hp, _⟩ | hp
      · rw [hp]
        exact Option.some_ne_none _
      · rw [hp]
        exact Option.some_ne_none _
  | int => exact hText .int (Option.some.inj hStored).symm
  | hex => exact hText .hex (Option.some.inj hStored).symm
  | string => exact hText .string (Option.some.inj hStored).symm

/- An option that is not in the file has no value. -/
theorem readerValue_of_none
    {name : Text}
    (hOld : run.old name = none) :
    run.readerValue name = none := by
  unfold readerValue
  rw [AutoRun.getSymbol_read, hOld]
  cases hGet : getSymbol run.symbols (.named name) with
  | none => rfl
  | some s =>
      have hVisited : s.isVisited = true := by
        unfold Symbol.isVisited
        rw [getSymbol_id hGet]
        simp [SymId.isHashed,
          run.noOther s (getSymbol_mem hGet)]
      have hHas := resetDef_hasDef .auto hVisited
      rw [getSymbol_id hGet] at hHas
      have hHasNot : (resetDef .auto s).hasDef .auto = false :=
        hHas
      simp [savedValue, hHasNot]

/- The other options have their value, or no valid one. -/
theorem readerValue_of_mem
    {s : Symbol}
    {name p : Text}
    (hs : s ∈ run.oldSymbols)
    (hLine : autoconfAssignment s = some (name, p)) :
    run.readerValue name =
      if validNumber s.type p then some p else none := by
  have hBoth := (autoconfAssignment_eq_some_iff
    (AutoRun.oldNamedWritten s hs)).mp hLine
  have hGetOld := getSymbol_of_mem run.oldNodup hs
  rw [hBoth.1] at hGetOld
  have hOld : run.old name = some p := by
    unfold AutoRun.old
    rw [valueIn_autoconfAssignments run.oldNodup
      AutoRun.oldNamedWritten, hGetOld]
    simp [hBoth.2.1, hBoth.2.2.1, hBoth.2.2.2]
  have hValue := hBoth.2.2.2
  rw [AutoRun.autoconfValue_eq] at hValue
  rcases Option.bind_eq_some_iff.mp hValue with
    ⟨x, hStored, hPrinted⟩
  rcases run.sameTree s hs (by rw [hLine]; simp) with
    ⟨r, hr, hId, hType⟩
  have hGet := getSymbol_of_mem run.nodup hr
  rw [hId, hBoth.1] at hGet
  have hSettled : r.type.isSettled = true := by
    rw [hType]
    cases hCase : s.type with
    | unknown => rw [hCase] at hStored; cases hStored
    | other => rw [hCase] at hStored; cases hStored
    | _ => rfl
  rcases AutoRun.start_of_settled hGet hSettled with
    ⟨hStart, hNone⟩
  have hStartType : (run.start name).type = s.type := by
    rw [hStart, resetDef_type, hType]
  have hUpdate := savedValue_lineUpdate .auto
    (.assigned name p) (s := run.start name)
    (by rw [hStartType, ← hType]; exact hSettled)
  rw [hNone, hStartType, Option.or_none] at hUpdate
  unfold readerValue
  rw [AutoRun.getSymbol_read, hOld]
  simp only [Option.bind_some]
  rw [hUpdate.1, lineSays_validNumber name hStored
    (run.booleans s hs) hPrinted]
  split
  · exact hPrinted
  · rfl

------------------------------------------------------------
-- Same Values
------------------------------------------------------------

/- Both readers take a value as it stands. -/
def ReadAlike (s : Symbol) (p : Text) : Prop :=
  Text.PlainValue p ∧ validNumber s.type p = true

theorem readAlike_of_sameMap
    {run : AutoReaders}
    (hSame : run.SameMap)
    {before after : List (Text × Text)}
    (hLines : autoconfAssignments run.oldSymbols =
      before ++ after) :
    ∀ line ∈ before, ∀ s ∈ run.oldSymbols,
      autoconfAssignment s = some line →
      ReadAlike s line.2 := by
  induction before using List.reverseRecOn
    generalizing after with
  | nil => exact fun _ hLine => nomatch hLine
  | append_singleton before last ih =>
      rw [List.append_assoc] at hLines
      have hBefore := ih hLines
      intro line hLine s hs hSome
      rcases List.mem_append.mp hLine with hIn | hIn
      · exact hBefore line hIn s hs hSome
      · rw [List.mem_singleton] at hIn
        subst hIn
        have hPlain : ∀ other ∈ before.map makeLine,
            Text.PlainValue other.2 := by
          intro other hOther
          rcases List.mem_map.mp hOther with ⟨old, hOld, rfl⟩
          have hMem : old ∈
              autoconfAssignments run.oldSymbols := by
            rw [hLines]
            exact List.mem_append_left _ hOld
          rcases List.mem_filterMap.mp hMem with
            ⟨t, ht, hLine⟩
          exact (hBefore old hOld t ht hLine).1
        have hAssigned : run.assignmentFile.assigned =
            before.map makeLine ++
              (optionPrefix ++ line.1, line.2) ::
                after.map makeLine := by
          simp [assignmentFile, hLines, makeLine]
        rcases run.assignmentFile.makeValue_first hAssigned
            hPlain with ⟨next, hNext, hMake⟩
        have hReader := hSame line.1
        rw [run.readerValue_of_mem hs hSome,
          ← run.assignmentFile_text, hMake] at hReader
        split at hReader
        · next hValid =>
            exact ⟨Text.plain_of_readValue hNext
              (Option.some.inj hReader), hValid⟩
        · cases hReader

/-
  The two maps are the same exactly when the values hold no
  `#`, do not start with a blank or end in an unquoted
  backslash, and the numbers are valid ones.
-/
theorem sameMap_iff :
    run.SameMap ↔
      ∀ s ∈ run.oldSymbols, ∀ name p,
        autoconfAssignment s = some (name, p) →
        ReadAlike s p := by
  constructor
  · intro hSame s hs name p hLine
    exact readAlike_of_sameMap hSame
      (List.append_nil _).symm (name, p)
      (List.mem_filterMap.mpr ⟨s, hs, hLine⟩) s hs hLine
  · intro hAlike name
    have hPlain : ∀ line ∈ run.assignmentFile.assigned,
        Text.PlainValue line.2 := by
      intro line hLine
      rcases List.mem_map.mp hLine with ⟨old, hOld, rfl⟩
      rcases List.mem_filterMap.mp hOld with ⟨s, hs, hSome⟩
      exact (hAlike s hs old.1 old.2 hSome).1
    have hMake : Text.makeValue run.file
        (optionPrefix ++ name) = run.old name := by
      rw [← run.assignmentFile_text,
        run.assignmentFile.makeValue_of_plain hPlain]
      have hNames : (fun line : Text × Text =>
            decide (line.1 = optionPrefix ++ name)) ∘ makeLine =
          fun line => decide (line.1 = name) := by
        funext line
        simp [makeLine]
      unfold AutoRun.old valueIn assignmentFile
      rw [List.find?_map, Option.map_map, hNames]
      rfl
    rw [hMake]
    cases hOld : run.old name with
    | none => exact (run.readerValue_of_none hOld).symm
    | some p =>
        rcases Option.map_eq_some_iff.mp hOld with
          ⟨line, hFind, rfl⟩
        have hName : line.1 = name := by
          simpa using List.find?_some hFind
        rcases List.mem_filterMap.mp
            (List.mem_of_find?_eq_some hFind) with
          ⟨s, hs, hSome⟩
        rw [← hName, run.readerValue_of_mem hs hSome,
          (hAlike s hs line.1 line.2 hSome).2, if_pos rfl]

------------------------------------------------------------
-- A Comment
------------------------------------------------------------

/- A string with a `#`. -/
def hashString : Symbol :=
  { Symbol.alloc (.named ['S']) none with
    type := .string
    curr := { SymbolValue.empty with val := ['a', '#', 'b'] }
    write := true }

def hashReaders : AutoReaders where
  values := AutoRun.keptValues
  ctime := AutoRun.thursday
  oldSymbols := [hashString]
  symbols := [hashString]
  oldNodup := by decide
  oldNamed := by
    intro s hs _ _ _
    rw [List.mem_singleton.mp hs]
    exact ⟨['S'], rfl, by decide, by decide, by decide⟩
  oldLines := by decide
  nodup := by decide
  choiceAuto := by decide
  constUnknown := by decide
  ctimeEnds := by decide
  words := by
    intro line hLine
    have hOnly : autoconfAssignments [hashString] =
        [(['S'], ['a', '#', 'b'])] := by
      decide
    rw [hOnly, List.mem_singleton] at hLine
    rw [hLine]
    intro c hc
    rw [List.mem_singleton] at hc
    rw [hc]
    decide
  noDollar := by decide
  booleans := by decide
  sameTree s hs _ := ⟨s, hs, rfl, rfl⟩
  noOther := by decide

/- `make` reads `a`, `conf_read_simple` reads `a#b`. -/
theorem hashReaders_not_sameMap :
    Text.makeValue hashReaders.file (optionPrefix ++ ['S']) =
        some ['a'] ∧
      hashReaders.readerValue ['S'] =
        some ['a', '#', 'b'] ∧
      ¬ hashReaders.SameMap := by
  have hMake : Text.makeValue hashReaders.file
      (optionPrefix ++ ['S']) = some ['a'] := by
    decide
  have hReader : hashReaders.readerValue ['S'] =
      some ['a', '#', 'b'] := by
    decide
  refine ⟨hMake, hReader, ?_⟩
  intro hSame
  have hEqual := hSame ['S']
  rw [hMake, hReader] at hEqual
  cases hEqual

end AutoReaders

end Mkrootfs
