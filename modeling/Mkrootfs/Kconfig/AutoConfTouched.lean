import Mathlib.Data.List.Nodup
import Mkrootfs.Kconfig.AutoConf
import Mkrootfs.Kconfig.ConfLines

/-
  Which of the files of single options are opened when a new
  `auto.conf` replaces an earlier one.

  Main declarations:
    * `AutoRun`
    * `AutoRun.TouchedExactly`
    * `AutoRun.Missed`, `AutoRun.Spurious`
    * `AutoRun.touches_iff`
    * `AutoRun.touchedExactly_iff`
-/

------------------------------------------------------------
-- Runs
------------------------------------------------------------

namespace Mkrootfs

/- How `auto.conf` spells a value. -/
def StoredValue.printed : StoredValue → Option Text
| tri .no => none
| tri .mod => some ['m']
| tri .yes => some ['y']
| text p => some p

/-
  An earlier tree whose `auto.conf` exists, and a new tree.
  Choices carry `SYMBOL_AUTO` and constants have no type, as
  the parser leaves them.
-/
structure AutoRun where
  values : SymCalc
  ctime : CommentLine
  oldSymbols : SymbolTable
  symbols : SymbolTable
  oldNodup : (oldSymbols.map Symbol.id).Nodup
  oldNamed : ∀ s ∈ oldSymbols, s.write = true →
    s.isVisited = true → s.id.name ≠ none →
      ∃ name, s.id = .named name ∧
        builtinOfName name = none ∧
        '=' ∉ name ∧ '\n' ∉ name
  oldLines : ∀ line ∈ autoconfAssignments oldSymbols,
    '\n' ∉ line.2 ∧ '\r' ∉ line.2 ∧
      (assignmentLine line.1 line.2).length < confLineSize
  nodup : (symbols.map Symbol.id).Nodup
  choiceAuto : ∀ s ∈ symbols, s.id.isChoice = true →
    s.auto = true
  constUnknown : ∀ s ∈ symbols, s.id.isConst = true →
    s.type = .unknown

namespace AutoRun

variable (run : AutoRun)

/- The earlier `auto.conf`. -/
def file : Text :=
  confWriteAutoconf run.ctime.text run.oldSymbols

/- The symbols after `conf_read_simple(name, S_DEF_AUTO)`. -/
def read : SymbolTable :=
  (confReadSimple .auto run.file run.symbols 0).symbols

/- The symbols with their new values. -/
def calculated : SymbolTable :=
  run.values.calcAll run.read

/- The value of an option in the earlier `auto.conf`. -/
def old (name : Text) : Option Text :=
  valueIn (autoconfAssignments run.oldSymbols) name

/- The value of an option in the new `auto.conf`. -/
def new (name : Text) : Option Text :=
  valueIn (autoconfAssignments run.calculated) name

/- The files that are opened are those of changed options. -/
def TouchedExactly : Prop :=
  ∀ path,
    path ∈ confSplitConfig run.values run.file run.symbols ↔
      ∃ name, configPath name = some path ∧
        run.old name ≠ run.new name

/- The state of an option that is written. -/
def newState (name : Text) : Option StoredValue :=
  (getSymbol run.calculated (.named name)).bind (fun s =>
    if s.isVisited && s.write then
      storedValue s.type s.curr
    else
      none)

/-
  A changed option whose file stays closed, by what the
  reader makes of the earlier value:
    * an unknown or removed option takes it for a quoted text,
    * the option is now one with `SYMBOL_AUTO`,
    * its type rejects the value, and it is unset now,
    * a boolean takes a longer text, or a written `n`, for
      the value it now has.
-/
inductive Missed (name : Text) : Prop where
| quoted (p : Text) :
    run.old name = some p →
    p.head? = some '"' →
    (∀ s, getSymbol run.symbols (.named name) = some s →
      s.type.isSettled = false) →
    Missed name
| generated (p : Text) (s : Symbol) :
    run.old name = some p →
    getSymbol run.symbols (.named name) = some s →
    s.auto = true →
    Missed name
| rejected (p : Text) (s : Symbol) :
    run.old name = some p →
    getSymbol run.symbols (.named name) = some s →
    s.type.isSettled = true →
    lineSays s.type (.assigned name p) = none →
    run.new name = none →
    Missed name
| lookalike (p : Text) (s : Symbol) (tri : Tristate) :
    run.old name = some p →
    getSymbol run.symbols (.named name) = some s →
    s.type.isSettled = true →
    lineSays s.type (.assigned name p) = some (.tri tri) →
    (StoredValue.tri tri).printed ≠ some p →
    run.newState name = some (.tri tri) →
    Missed name

/-
  An unchanged option whose file is opened: its type rejects
  the value that it keeps.
-/
structure Spurious (name : Text) : Prop where
  rejected : ∃ p s,
    run.old name = some p ∧
    getSymbol run.symbols (.named name) = some s ∧
    s.type.isSettled = true ∧
    lineSays s.type (.assigned name p) = none ∧
    run.new name = some p

/- The loop opens a file for the option. -/
def Touches (name : Text) : Prop :=
  ∃ s, getSymbol run.calculated (.named name) = some s ∧
    s.isVisited = true ∧ splitTouches s = true

end AutoRun

------------------------------------------------------------
-- Lines Of `auto.conf`
------------------------------------------------------------

/- Only named symbols are written. -/
def OnlyNamedWritten (t : SymbolTable) : Prop :=
  ∀ s ∈ t, s.write = true → s.isVisited = true →
    s.id.name ≠ none → ∃ name, s.id = .named name

theorem autoconfAssignment_eq_some_iff
    {s : Symbol}
    {name p : Text}
    (hNamed : s.write = true → s.isVisited = true →
      s.id.name ≠ none → ∃ name, s.id = .named name) :
    autoconfAssignment s = some (name, p) ↔
      s.id = .named name ∧ s.isVisited = true ∧
        s.write = true ∧ autoconfValue s = some p := by
  unfold autoconfAssignment
  by_cases hBoth : s.isVisited = true ∧ s.write = true
  · by_cases hName : s.id.name = none
    · have hNe : s.id ≠ .named name := by
        intro h
        rw [h] at hName
        cases hName
      simp [hBoth.1, hBoth.2, hName, hNe]
    · rcases hNamed hBoth.2 hBoth.1 hName with ⟨own, hOwn⟩
      simp [hBoth.1, hBoth.2, hOwn, SymId.name]
      tauto
  · constructor
    · intro hSome
      rw [if_neg (by simpa using hBoth)] at hSome
      cases hSome
    · rintro ⟨_, hVisited, hWrite, _⟩
      exact absurd ⟨hVisited, hWrite⟩ hBoth

/- The names of the lines are those of different symbols. -/
theorem autoconfAssignments_sublist
    {t : SymbolTable}
    (hNamed : OnlyNamedWritten t) :
    ((autoconfAssignments t).map
      (fun line => SymId.named line.1)).Sublist
        (t.map Symbol.id) := by
  induction t with
  | nil => exact List.Sublist.refl _
  | cons s t ih =>
      have hTail : OnlyNamedWritten t :=
        fun other hOther =>
          hNamed other (List.mem_cons_of_mem _ hOther)
      unfold autoconfAssignments at ih ⊢
      cases hLine : autoconfAssignment s with
      | none =>
          rw [List.filterMap_cons_none hLine, List.map_cons]
          exact (ih hTail).cons _
      | some line =>
          have hId :=
            (autoconfAssignment_eq_some_iff
              (hNamed s (by simp))).mp
                (hLine.trans rfl : _ = some (line.1, line.2))
          rw [List.filterMap_cons_some hLine, List.map_cons,
            List.map_cons, hId.1]
          exact (ih hTail).cons_cons _

theorem autoconfAssignments_nodup
    {t : SymbolTable}
    (hNodup : (t.map Symbol.id).Nodup)
    (hNamed : OnlyNamedWritten t) :
    ((autoconfAssignments t).map Prod.fst).Nodup := by
  have hIds :=
    hNodup.sublist (autoconfAssignments_sublist hNamed)
  have hMap :
      (autoconfAssignments t).map
          (fun line => SymId.named line.1) =
        ((autoconfAssignments t).map Prod.fst).map
          SymId.named := by
    rw [List.map_map]
    rfl
  rw [hMap] at hIds
  exact List.Nodup.of_map _ hIds

/- Lines with different names hold one value for a name. -/
theorem filter_name_eq
    {lines : List (Text × Text)}
    (hNodup : (lines.map Prod.fst).Nodup)
    (name : Text) :
    lines.filter (fun line => line.1 = name) =
      (valueIn lines name).toList.map
        (fun p => (name, p)) := by
  induction lines with
  | nil => rfl
  | cons line lines ih =>
      rw [List.map_cons, List.nodup_cons] at hNodup
      by_cases hHere : line.1 = name
      · have hNone : lines.filter
            (fun line => line.1 = name) = [] := by
          rw [List.filter_eq_nil_iff]
          intro other hOther
          simp only [decide_eq_true_eq]
          intro hSame
          apply hNodup.1
          rw [hHere, ← hSame]
          exact List.mem_map_of_mem hOther
        subst name
        simp [valueIn, hNone]
      · have hRest := ih hNodup.2
        simpa [valueIn, hHere] using hRest

/- The value of an option is the one of its symbol. -/
theorem valueIn_autoconfAssignments
    {t : SymbolTable}
    (hNodup : (t.map Symbol.id).Nodup)
    (hNamed : OnlyNamedWritten t)
    (name : Text) :
    valueIn (autoconfAssignments t) name =
      (getSymbol t (.named name)).bind (fun s =>
        if s.isVisited && s.write then
          autoconfValue s
        else
          none) := by
  have hFilter := filter_name_eq
    (autoconfAssignments_nodup hNodup hNamed) name
  apply Option.ext
  intro p
  have hMem :
      valueIn (autoconfAssignments t) name = some p ↔
        (name, p) ∈ autoconfAssignments t := by
    have hList : (name, p) ∈ (autoconfAssignments t).filter
          (fun line => line.1 = name) ↔
        valueIn (autoconfAssignments t) name = some p := by
      rw [hFilter]
      simp
    rw [← hList]
    simp
  rw [hMem]
  unfold autoconfAssignments
  rw [List.mem_filterMap]
  constructor
  · rintro ⟨s, hs, hLine⟩
    rcases (autoconfAssignment_eq_some_iff
        (hNamed s hs)).mp hLine with
      ⟨hId, hVisited, hWrite, hValue⟩
    have hGet := getSymbol_of_mem hNodup hs
    rw [hId] at hGet
    simp [hGet, hVisited, hWrite, hValue]
  · intro hBind
    rcases Option.bind_eq_some_iff.mp hBind with
      ⟨s, hGet, hValue⟩
    have hs := getSymbol_mem hGet
    refine ⟨s, hs, ?_⟩
    rw [autoconfAssignment_eq_some_iff (hNamed s hs)]
    split at hValue
    · next hBoth =>
        rw [Bool.and_eq_true] at hBoth
        exact ⟨getSymbol_id hGet, hBoth.1, hBoth.2, hValue⟩
    · cases hValue

namespace AutoRun

variable {run : AutoRun}

theorem oldNamedWritten :
    OnlyNamedWritten run.oldSymbols := by
  intro s hs hWrite hVisited hName
  rcases run.oldNamed s hs hWrite hVisited hName with
    ⟨name, hId, _⟩
  exact ⟨name, hId⟩

/- Each line of the earlier file is read as it stands. -/
theorem oldLine_readings
    {line : Text × Text}
    (hLine : line ∈ autoconfAssignments run.oldSymbols) :
    builtinOfName line.1 = none ∧
      ∃ others,
        fileLineReadings (assignmentLine line.1 line.2) =
          .assigned line.1 line.2 :: others ∧
        ∀ other ∈ others, other = .skipped := by
  rcases List.mem_filterMap.mp hLine with ⟨s, hs, hSome⟩
  have hBoth :=
    (autoconfAssignment_eq_some_iff
      (run.oldNamedWritten s hs)).mp hSome
  rcases run.oldNamed s hs hBoth.2.2.1 hBoth.2.1
      (by simp [hBoth.1, SymId.name]) with
    ⟨name, hName, hBuiltin, hEquals, hNewline⟩
  have hSame : name = line.1 := by
    have hId := hBoth.1
    rw [hName] at hId
    exact SymId.named.inj hId
  subst name
  refine ⟨hBuiltin, ?_⟩
  rcases run.oldLines line hLine with
    ⟨hValue, hReturn, hFits⟩
  rcases fileLineReadings_assignmentLine
      ⟨hEquals, hNewline⟩ hValue hFits with
    ⟨others, hAll, hOthers⟩
  have hNoReturn : line.2.getLast? ≠ some '\r' := by
    intro hLast
    exact hReturn (List.mem_of_getLast? hLast)
  refine ⟨others, ?_, hOthers⟩
  rw [hAll, if_neg (fun h => hNoReturn h.2)]

/- The lines of the earlier file that are about an option. -/
theorem filter_confLines_file
    (name : Text) :
    (confLines run.file).filter
        (lineTarget .auto (run.symbols.map (resetDef .auto)) ·
          = some (.named name)) =
      (run.old name).toList.map
        (fun p => ConfLine.assigned name p) := by
  have hHeader :
      ((confHeader (some run.ctime.text)).flatMap
          fileLineReadings).filter
        (lineTarget .auto (run.symbols.map (resetDef .auto)) ·
          = some (.named name)) = [] := by
    rw [List.filter_eq_nil_iff]
    intro reading hReading
    rcases List.mem_flatMap.mp hReading with
      ⟨line, hLine, hIn⟩
    have hOption : line ∈
        confHeader ((some run.ctime).map CommentLine.text) :=
      hLine
    have hNone : reading.name = none :=
      confHeader_reading hOption hIn
    simp [lineTarget, hNone]
  have hLines : ∀ lines : List (Text × Text),
      (∀ line ∈ lines,
        line ∈ autoconfAssignments run.oldSymbols) →
      ((lines.map (fun line =>
          assignmentLine line.1 line.2)).flatMap
            fileLineReadings).filter
          (lineTarget .auto
            (run.symbols.map (resetDef .auto)) ·
              = some (.named name)) =
        (lines.filter (fun line => line.1 = name)).map
          (fun line => .assigned name line.2) := by
    intro lines hSub
    induction lines with
    | nil => rfl
    | cons line lines ih =>
        rcases run.oldLine_readings (hSub line (by simp))
          with ⟨hBuiltin, others, hAll, hOthers⟩
        have hSkipped : others.filter
            (lineTarget .auto
              (run.symbols.map (resetDef .auto)) ·
                = some (.named name)) = [] := by
          rw [List.filter_eq_nil_iff]
          intro other hOther
          simp [hOthers other hOther, lineTarget,
            ConfLine.name]
        have hRest := ih (fun other hOther =>
          hSub other (List.mem_cons_of_mem _ hOther))
        have hOwn :
            lineTarget .auto
                (run.symbols.map (resetDef .auto))
                (.assigned line.1 line.2) =
              some (.named line.1) := by
          simp [lineTarget, ConfLine.name, symLookupId,
            hBuiltin]
        rw [List.map_cons, List.flatMap_cons,
          List.filter_append, hRest, hAll, List.filter_cons,
          hOwn, hSkipped]
        by_cases hHere : line.1 = name
        · simp [hHere]
        · simp [hHere]
  unfold file confWriteAutoconf
  rw [confLines_unlines, List.flatMap_append,
    List.filter_append, hHeader, List.nil_append,
    hLines _ (fun _ h => h),
    filter_name_eq (autoconfAssignments_nodup run.oldNodup
      run.oldNamedWritten), List.map_map]
  rfl

------------------------------------------------------------
-- Symbols After The Earlier File
------------------------------------------------------------

/- The symbol of an option as the earlier value finds it. -/
def start (run : AutoRun) (name : Text) : Symbol :=
  let found :=
    ((getSymbol run.symbols (.named name)).map
      (resetDef .auto)).getD
        (Symbol.alloc (.named name) none)
  if found.type = .unknown then
    { found with type := .other }
  else
    found

theorem getSymbol_read
    (name : Text) :
    getSymbol run.read (.named name) =
      match run.old name with
      | none =>
          (getSymbol run.symbols (.named name)).map
            (resetDef .auto)
      | some p =>
          some (lineUpdate .auto (.assigned name p)
            (run.start name)) := by
  have hRead := getSymbol_foldl_applyConfLine .auto
    (confLines run.file)
    ⟨run.symbols.map (resetDef .auto), 0, 0⟩
    (rfl : (SymId.named name).isChoice = false)
  unfold read confReadSimple
  rw [hRead, readSymbol, filter_confLines_file,
    getSymbol_resetDef]
  cases run.old name with
  | none => rfl
  | some p => rfl

theorem read_nodup :
    (run.read.map Symbol.id).Nodup := by
  unfold read confReadSimple
  apply foldl_applyConfLine_auto_nodup
  rw [resetDef_ids]
  exact run.nodup

theorem getSymbol_calculated
    (id : SymId) :
    getSymbol run.calculated id =
      (getSymbol run.read id).map
        (run.values.calcSymbol run.read) := by
  unfold calculated SymCalc.calcAll getSymbol
  rw [List.find?_map]
  rfl

theorem calculated_nodup :
    (run.calculated.map Symbol.id).Nodup := by
  unfold calculated SymCalc.calcAll
  rw [List.map_map]
  exact run.read_nodup

/- Symbols that are neither named nor a choice. -/
theorem getSymbol_read_const
    {id : SymId}
    (hConst : id.isConst = true)
    (hHashed : id.isHashed = true) :
    getSymbol run.read id =
      (getSymbol run.symbols id).map (resetDef .auto) := by
  have hChoice : id.isChoice = false := by
    cases id <;> first | rfl | cases hConst
  have hRead := getSymbol_foldl_applyConfLine .auto
    (confLines run.file)
    ⟨run.symbols.map (resetDef .auto), 0, 0⟩ hChoice
  unfold read confReadSimple
  rw [hRead, readSymbol, getSymbol_resetDef]
  have hNone : (confLines run.file).filter
      (lineTarget .auto (run.symbols.map (resetDef .auto)) ·
        = some id) = [] := by
    rw [List.filter_eq_nil_iff]
    intro line _
    simp only [lineTarget, decide_eq_true_eq,
      Option.map_eq_some_iff, not_exists, not_and]
    intro name _
    rcases symLookupId_plain name with ⟨tri, h⟩ | h
    · rw [h]
      rintro rfl
      cases hHashed
    · rw [h]
      rintro rfl
      cases hConst
  rw [hNone]
  rfl

/- Only named symbols without `SYMBOL_AUTO` take part. -/
theorem named_of_writes
    {s : Symbol}
    (hs : s ∈ run.calculated)
    (hVisited : s.isVisited = true)
    (hAuto : s.auto = false)
    (hName : s.id.name ≠ none)
    (hActive : s.write = true ∨ s.hasAuto = true) :
    ∃ name, s.id = .named name := by
  have hGet := getSymbol_of_mem run.calculated_nodup hs
  rw [getSymbol_calculated] at hGet
  rcases Option.map_eq_some_iff.mp hGet with
    ⟨s1, hRead, rfl⟩
  have hHashed : s1.id.isHashed = true := by
    unfold Symbol.isVisited at hVisited
    rw [Bool.and_eq_true] at hVisited
    exact hVisited.1
  cases hId : s1.id with
  | named name => exact ⟨name, hId⟩
  | builtin tri => simp [hId, SymId.isHashed] at hHashed
  | modules => simp [SymCalc.calcSymbol, hId, SymId.name] at hName
  | choice c =>
      -- a choice keeps the flag that its entry gave it
      have hFlag := foldl_applyConfLine_choice_auto
        (confLines run.file)
        ⟨run.symbols.map (resetDef .auto), 0, 0⟩ c
      rw [getSymbol_resetDef] at hFlag
      have hRead' : getSymbol run.read (.choice c) =
          some s1 := by
        rw [← hId]
        exact hRead
      unfold read confReadSimple at hRead'
      rw [hRead'] at hFlag
      rcases Option.map_eq_some_iff.mp hFlag.symm with
        ⟨cs, hReset, hSame⟩
      rcases Option.map_eq_some_iff.mp hReset with
        ⟨cs0, hGet0, rfl⟩
      have hCs := run.choiceAuto cs0 (getSymbol_mem hGet0)
        (by rw [getSymbol_id hGet0]; rfl)
      have hDeclared := congrArg (·.1)
        (resetDef_declared .auto cs0)
      have hOn : s1.auto = true :=
        hSame.symm.trans (hDeclared.trans hCs)
      have hOff : s1.auto = false := hAuto
      rw [hOn] at hOff
      cases hOff
  | const text =>
      have hHere := hRead
      rw [SymCalc.calcSymbol, hId,
        getSymbol_read_const rfl rfl] at hHere
      rcases Option.map_eq_some_iff.mp hHere with
        ⟨s0, hGet0, rfl⟩
      have hUnknown := run.constUnknown s0
        (getSymbol_mem hGet0) (by rw [getSymbol_id hGet0]; rfl)
      have hVisited0 : s0.isVisited = true := by
        unfold Symbol.isVisited
        rw [getSymbol_id hGet0, hUnknown]
        rfl
      rcases hActive with hWrite | hHas
      · have hSettled :=
          run.values.settled_of_writes _ _ hWrite
        rw [resetDef_type, hUnknown] at hSettled
        cases hSettled
      · have hReset := resetDef_hasDef .auto hVisited0
        rw [getSymbol_id hGet0] at hReset
        have hHas' : (resetDef .auto s0).hasAuto = true :=
          hHas
        rw [show (resetDef .auto s0).hasAuto = false
          from hReset] at hHas'
        cases hHas'

theorem onlyNamedWritten :
    OnlyNamedWritten run.calculated := by
  intro s hs hWrite hVisited hName
  refine named_of_writes hs hVisited ?_ hName
    (Or.inl hWrite)
  have hGet := getSymbol_of_mem run.calculated_nodup hs
  rw [getSymbol_calculated] at hGet
  rcases Option.map_eq_some_iff.mp hGet with ⟨s1, _, rfl⟩
  exact run.values.notAuto_of_writes run.read s1 hWrite

/- The value of an option in the new `auto.conf`. -/
theorem new_eq
    (name : Text) :
    run.new name =
      (getSymbol run.calculated (.named name)).bind (fun s =>
        if s.isVisited && s.write then
          autoconfValue s
        else
          none) :=
  valueIn_autoconfAssignments run.calculated_nodup
    run.onlyNamedWritten name

/- The file is opened for a named symbol. -/
theorem mem_confSplitConfig
    (path : Text) :
    path ∈ confSplitConfig run.values run.file run.symbols ↔
      ∃ name, configPath name = some path ∧
        run.Touches name := by
  have hCalculated :
      run.values.calcAll
          (confReadSimple .auto run.file run.symbols
            0).symbols = run.calculated := rfl
  unfold confSplitConfig splitPaths
  rw [hCalculated, List.mem_filterMap]
  constructor
  · rintro ⟨s, hs, hPath⟩
    rw [List.mem_filter, Bool.and_eq_true] at hs
    rcases hs with ⟨hMem, hVisited, hTouches⟩
    have hActive : s.auto = false ∧ s.id.name ≠ none ∧
        (s.write = true ∨ s.hasAuto = true) := by
      unfold splitTouches at hTouches
      split at hTouches
      · cases hTouches
      · next hNot =>
          simp only [Bool.or_eq_true, not_or,
            Bool.not_eq_true, Option.isNone_eq_false_iff]
            at hNot
          refine ⟨hNot.1, Option.isSome_iff_ne_none.mp hNot.2,
            ?_⟩
          split at hTouches
          · next hWrite => exact Or.inl hWrite
          · exact Or.inr hTouches
    rcases named_of_writes hMem hVisited hActive.1
        hActive.2.1 hActive.2.2 with ⟨name, hId⟩
    rw [hId] at hPath
    have hGet := getSymbol_of_mem run.calculated_nodup hMem
    rw [hId] at hGet
    exact ⟨name, hPath, s, hGet, hVisited, hTouches⟩
  · rintro ⟨name, hPath, s, hGet, hVisited, hTouches⟩
    refine ⟨s, ?_, ?_⟩
    · rw [List.mem_filter, hVisited, hTouches]
      exact ⟨getSymbol_mem hGet, rfl⟩
    · rw [getSymbol_id hGet]
      exact hPath

theorem autoconfValue_eq
    (s : Symbol) :
    autoconfValue s =
      (storedValue s.type s.curr).bind
        StoredValue.printed := by
  unfold autoconfValue
  cases hType : s.type with
  | boolean =>
      cases hTri : s.curr.tri <;>
        simp [storedValue, StoredValue.printed, hTri]
  | tristate =>
      cases hTri : s.curr.tri <;>
        simp [storedValue, StoredValue.printed, hTri]
  | int => rfl
  | hex => rfl
  | string => rfl
  | unknown => rfl
  | other => rfl

theorem new_eq_newState
    (name : Text) :
    run.new name =
      (run.newState name).bind StoredValue.printed := by
  rw [new_eq, newState, Option.bind_assoc]
  congr 1
  funext s
  split
  · exact autoconfValue_eq s
  · rfl

/-
  For a symbol of a known type the loop compares its state
  with what was read, an unread one counting as off.
-/
theorem splitTouches_iff
    {s : Symbol}
    (hAuto : s.auto = false)
    (hName : s.id.name ≠ none)
    (hType : s.type.isSettled = true) :
    splitTouches s = true ↔
      if s.write then
        storedValue s.type s.curr ≠
          (savedValue .auto s).or (some (.tri .no))
      else
        (savedValue .auto s).isSome := by
  have hSome : s.id.name.isNone = false := by
    cases hId : s.id.name with
    | none => exact absurd hId hName
    | some name => rfl
  unfold splitTouches savedValue
  cases hCase : s.type <;>
    cases s.write <;>
    cases hHas : s.hasAuto <;>
    simp_all [Symbol.hasDef, Symbol.defVal, storedValue,
      SymbolType.isSettled]

theorem storedValue_settled
    {type : SymbolType}
    (v : SymbolValue)
    (hType : type.isSettled = true) :
    ∃ x, storedValue type v = some x := by
  cases type <;> simp_all [storedValue, SymbolType.isSettled]

/- A text that is read is read as it stands. -/
theorem lineSays_text
    {type : SymbolType}
    {name p q : Text}
    (hSays : lineSays type (.assigned name p) =
      some (.text q)) :
    q = p := by
  have hBoolean : booleanSays p ≠ some (.text q) := by
    unfold booleanSays
    split <;> simp
  have hText : ∀ type, textSays type p = some (.text q) →
      q = p := by
    intro type h
    unfold textSays at h
    split at h
    · simpa using h.symm
    · cases h
  cases type with
  | unknown => cases hSays
  | other => cases hSays
  | boolean => exact absurd hSays hBoolean
  | tristate =>
      simp only [lineSays] at hSays
      split at hSays
      · cases hSays
      · exact absurd hSays hBoolean
  | int => exact hText .int hSays
  | hex => exact hText .hex hSays
  | string => exact hText .string hSays

/- A printed value is read as itself, or rejected. -/
theorem lineSays_printed
    {type : SymbolType}
    {v : SymbolValue}
    {x : StoredValue}
    {p : Text}
    (name : Text)
    (hStored : storedValue type v = some x)
    (hMod : type = .boolean → v.tri ≠ .mod)
    (hPrinted : x.printed = some p) :
    lineSays type (.assigned name p) = some x ∨
      lineSays type (.assigned name p) = none := by
  have hText : ∀ type q, x = .text q →
      textSays type p = some x ∨ textSays type p = none := by
    intro type q hx
    rw [hx] at hPrinted ⊢
    have hq : q = p := Option.some.inj hPrinted
    unfold textSays
    split
    · exact Or.inl (by rw [hq])
    · exact Or.inr rfl
  cases type with
  | unknown => cases hStored
  | other => cases hStored
  | boolean =>
      have hx : x = .tri v.tri :=
        (Option.some.inj hStored).symm
      rw [hx] at hPrinted ⊢
      cases hTri : v.tri with
      | no => simp [hTri, StoredValue.printed] at hPrinted
      | mod => exact absurd hTri (hMod rfl)
      | yes =>
          have hp : p = ['y'] := by
            simpa [hTri, StoredValue.printed]
              using hPrinted.symm
          exact Or.inl (by rw [hp]; rfl)
  | tristate =>
      have hx : x = .tri v.tri :=
        (Option.some.inj hStored).symm
      rw [hx] at hPrinted ⊢
      left
      cases hTri : v.tri with
      | no => simp [hTri, StoredValue.printed] at hPrinted
      | mod =>
          have hp : p = ['m'] := by
            simpa [hTri, StoredValue.printed]
              using hPrinted.symm
          rw [hp]
          rfl
      | yes =>
          have hp : p = ['y'] := by
            simpa [hTri, StoredValue.printed]
              using hPrinted.symm
          rw [hp]
          rfl
  | int => exact hText .int v.val (Option.some.inj hStored).symm
  | hex => exact hText .hex v.val (Option.some.inj hStored).symm
  | string =>
      exact hText .string v.val (Option.some.inj hStored).symm

/- The earlier value is taken for the new one. -/
def Overlooked
    (run : AutoRun)
    (name : Text)
    (type : SymbolType) : Prop :=
  ∃ p, run.old name = some p ∧
    (lineSays type (.assigned name p) = none ∧
        run.new name = none ∨
      ∃ tri, lineSays type (.assigned name p) =
          some (.tri tri) ∧
        (StoredValue.tri tri).printed ≠ some p ∧
        run.newState name = some (.tri tri))

/- The earlier value is rejected and is the new one. -/
def Rejected
    (run : AutoRun)
    (name : Text)
    (type : SymbolType) : Prop :=
  ∃ p, run.old name = some p ∧
    lineSays type (.assigned name p) = none ∧
    run.new name = some p

theorem printed_eq_none_iff
    (x : StoredValue) :
    x.printed = none ↔ x = .tri .no := by
  cases x with
  | text p => simp [StoredValue.printed]
  | tri t => cases t <;> simp [StoredValue.printed]

/- The state differs from what was read, if it was. -/
def Differs
    (read : Option StoredValue) :
    Option StoredValue → Prop
| some x => some x ≠ read.or (some (.tri .no))
| none => read.isSome = true

/-
  The comparison of the loop, for an earlier value `old`, a
  reader `reads` and the new state of an option.
-/
theorem compare_iff
    {old : Option Text}
    {reads : Text → Option StoredValue}
    {state : Option StoredValue}
    (hText : ∀ p q, reads p = some (.text q) → q = p)
    (hPrinted : ∀ x p, state = some x →
      x.printed = some p →
        reads p = some x ∨ reads p = none) :
    Differs (old.bind reads) state ↔
      old ≠ state.bind StoredValue.printed ∧
          (¬ ∃ p, old = some p ∧
            (reads p = none ∧
                state.bind StoredValue.printed = none ∨
              ∃ tri, reads p = some (.tri tri) ∧
                (StoredValue.tri tri).printed ≠ some p ∧
                state = some (.tri tri))) ∨
        ∃ p, old = some p ∧ reads p = none ∧
          state.bind StoredValue.printed = some p := by
  cases old with
  | none =>
      cases state with
      | none => simp [Differs]
      | some x =>
          have hNone := printed_eq_none_iff x
          simp [Differs, eq_comm (a := none), hNone]
  | some p =>
      cases hReads : reads p with
      | none =>
          cases state with
          | none => simp [Differs, hReads]
          | some x =>
              have hNone := printed_eq_none_iff x
              cases hx : x.printed with
              | none =>
                  simp [Differs, hReads, hNone.mp hx]
                  simp [StoredValue.printed]
              | some q =>
                  have hNe : x ≠ .tri .no := by
                    intro h
                    rw [hNone.mpr h] at hx
                    cases hx
                  simp [Differs, hReads, hx, hNe]
                  tauto
      | some y =>
          cases state with
          | none => simp [Differs, hReads]
          | some x =>
              by_cases hSame : x = y
              · subst y
                cases x with
                | text q =>
                    have hq := hText p q hReads
                    simp [Differs, hReads,
                      StoredValue.printed, hq]
                | tri t =>
                    simp [Differs, hReads, eq_comm]
              · have hNe : x.printed ≠ some p := by
                  intro hx
                  rcases hPrinted x p rfl hx with h | h
                  · rw [hReads] at h
                    exact hSame (Option.some.inj h).symm
                  · rw [hReads] at h
                    cases h
                have hNot : ∀ t, y = .tri t →
                    x ≠ .tri t := by
                  intro t hy hx
                  exact hSame (hx.trans hy.symm)
                simp only [Differs, Option.bind_some, hReads,
                  Option.some_or, ne_eq, Option.some.injEq,
                  hSame, not_false_eq_true, true_iff]
                left
                refine ⟨fun h => hNe h.symm, ?_⟩
                rintro ⟨q, hq, h | ⟨t, hy, _, hx⟩⟩
                · rw [← hq, hReads] at h
                  cases h.1
                · rw [← hq, hReads] at hy
                  exact hNot t (Option.some.inj hy) hx

/- The comparison of the loop, by what was read. -/
theorem splitTouches_of_reads
    {name : Text}
    {s : Symbol}
    (hGet : getSymbol run.calculated (.named name) = some s)
    (hVisited : s.isVisited = true)
    (hAuto : s.auto = false)
    (hType : s.type.isSettled = true)
    (hReads : savedValue .auto s =
      (run.old name).bind (fun p =>
        lineSays s.type (.assigned name p))) :
    splitTouches s = true ↔
      run.old name ≠ run.new name ∧
          ¬ Overlooked run name s.type ∨
        Rejected run name s.type := by
  have hName : s.id.name ≠ none := by
    rw [getSymbol_id hGet]
    simp [SymId.name]
  rw [splitTouches_iff hAuto hName hType, hReads]
  rcases storedValue_settled s.curr hType with ⟨x, hx⟩
  have hMod : s.type = .boolean → s.curr.tri ≠ .mod := by
    rw [getSymbol_calculated] at hGet
    rcases Option.map_eq_some_iff.mp hGet with ⟨s1, _, rfl⟩
    exact run.values.boolean_value run.read s1
  have hState : run.newState name =
      if s.write then some x else none := by
    rw [newState, hGet, Option.bind_some, hVisited, hx]
    rfl
  have hNew := run.new_eq_newState name
  have hPrinted : ∀ y p, run.newState name = some y →
      y.printed = some p →
      lineSays s.type (.assigned name p) = some y ∨
        lineSays s.type (.assigned name p) = none := by
    intro y p hy hPrinted
    rw [hState] at hy
    split at hy
    · rw [← Option.some.inj hy] at hPrinted ⊢
      exact lineSays_printed name hx hMod hPrinted
    · cases hy
  have hText : ∀ p q,
      lineSays s.type (.assigned name p) = some (.text q) →
      q = p :=
    fun p q h => lineSays_text h
  have hTable := @compare_iff (run.old name) _ _ hText hPrinted
  rw [← hNew] at hTable
  rw [hx]
  unfold Overlooked Rejected
  rw [← hTable, hState]
  cases s.write with
  | false => rfl
  | true => rfl

------------------------------------------------------------
-- Opened Files And Changed Options
------------------------------------------------------------

/- A symbol that has neither an old nor a new value. -/
def Inert (s : Symbol) : Prop :=
  s.auto = true ∨ s.isVisited = false ∨
    s.type.isSettled = false ∧ s.hasAuto = false

theorem not_touches_of_inert
    {name : Text}
    (hInert : ∀ s,
      getSymbol run.read (.named name) = some s → Inert s) :
    ¬ run.Touches name ∧ run.new name = none := by
  have hCalc := run.getSymbol_calculated (.named name)
  have hWrites : ∀ s, Inert s → s.isVisited = true →
      run.values.writes run.read s = false := by
    intro s hs hVisited
    cases hWrite : run.values.writes run.read s with
    | false => rfl
    | true =>
        have hOff :=
          run.values.notAuto_of_writes run.read s hWrite
        have hSettled :=
          run.values.settled_of_writes run.read s hWrite
        rcases hs with h | h | h
        · rw [h] at hOff
          cases hOff
        · rw [h] at hVisited
          cases hVisited
        · rw [h.1] at hSettled
          cases hSettled
  constructor
  · rintro ⟨s, hGet, hVisited, hTouches⟩
    rw [hCalc] at hGet
    rcases Option.map_eq_some_iff.mp hGet with
      ⟨s1, hRead, rfl⟩
    have hWrite := hWrites s1 (hInert s1 hRead) hVisited
    unfold splitTouches SymCalc.calcSymbol at hTouches
    rcases hInert s1 hRead with h | h | h
    · simp [h] at hTouches
    · rw [show s1.isVisited = true from hVisited] at h
      cases h
    · simp [hWrite, h.2] at hTouches
  · rw [new_eq, hCalc]
    cases hRead : getSymbol run.read (.named name) with
    | none => rfl
    | some s1 =>
        rw [Option.map_some, Option.bind_some]
        cases hVisited : s1.isVisited with
        | false =>
            rw [if_neg]
            simp [show (run.values.calcSymbol run.read
              s1).isVisited = false from hVisited]
        | true =>
            rw [if_neg]
            simp [SymCalc.calcSymbol,
              hWrites s1 (hInert s1 hRead) hVisited]

/- A symbol that both loops look at. -/
theorem touches_of_read
    {name : Text}
    {s : Symbol}
    (hRead : getSymbol run.read (.named name) = some s)
    (hAuto : s.auto = false)
    (hType : s.type.isSettled = true)
    (hReads : savedValue .auto s =
      (run.old name).bind (fun p =>
        lineSays s.type (.assigned name p))) :
    run.Touches name ↔
      run.old name ≠ run.new name ∧
          ¬ Overlooked run name s.type ∨
        Rejected run name s.type := by
  have hGet : getSymbol run.calculated (.named name) =
      some (run.values.calcSymbol run.read s) := by
    rw [getSymbol_calculated, hRead]
    rfl
  have hVisited : s.isVisited = true := by
    unfold Symbol.isVisited
    rw [getSymbol_id hRead]
    cases hCase : s.type <;>
      simp_all [SymId.isHashed, SymbolType.isSettled]
  have hSplit := splitTouches_of_reads hGet hVisited hAuto
    hType hReads
  refine Iff.trans ?_ hSplit
  constructor
  · rintro ⟨other, hOther, _, hTouches⟩
    rw [hGet] at hOther
    rw [Option.some.inj hOther]
    exact hTouches
  · intro hTouches
    exact ⟨_, hGet, hVisited, hTouches⟩

/- Nothing is missed without an earlier value. -/
theorem old_ne_none_of_missed
    {name : Text}
    (hMissed : run.Missed name) :
    run.old name ≠ none := by
  cases hMissed with
  | quoted p hOld => simp [hOld]
  | generated p s hOld => simp [hOld]
  | rejected p s hOld => simp [hOld]
  | lookalike p s tri hOld => simp [hOld]

/- An option without an earlier value. -/
theorem touches_of_old_none
    {name : Text}
    (hOld : run.old name = none) :
    run.Touches name ↔
      run.old name ≠ run.new name ∧ ¬ run.Missed name ∨
        run.Spurious name := by
  have hMissed : ¬ run.Missed name :=
    fun h => old_ne_none_of_missed h hOld
  have hSpurious : ¬ run.Spurious name := by
    rintro ⟨p, s, hSome, _⟩
    rw [hOld] at hSome
    cases hSome
  have hRead := run.getSymbol_read name
  rw [hOld] at hRead
  dsimp only at hRead
  have hInert : (∀ s,
      getSymbol run.read (.named name) = some s →
        Inert s) →
      (run.Touches name ↔
        run.old name ≠ run.new name ∧ ¬ run.Missed name ∨
          run.Spurious name) := by
    intro h
    rcases not_touches_of_inert h with ⟨hNot, hNone⟩
    simp [hNot, hNone, hOld, hSpurious]
  cases hGet : getSymbol run.symbols (.named name) with
  | none =>
      apply hInert
      intro s hs
      rw [hRead, hGet] at hs
      cases hs
  | some p =>
      rw [hGet, Option.map_some] at hRead
      have hHas : p.isVisited = true →
          (resetDef .auto p).hasAuto = false := by
        intro hVisited
        have h := resetDef_hasDef .auto hVisited
        rw [getSymbol_id hGet] at h
        exact h
      by_cases hActive :
          p.auto = false ∧ p.type.isSettled = true
      · have hVisited : p.isVisited = true := by
          unfold Symbol.isVisited
          rw [getSymbol_id hGet]
          cases hCase : p.type <;>
            simp_all [SymId.isHashed, SymbolType.isSettled]
        have hAuto : (resetDef .auto p).auto = false :=
          (congrArg (·.1)
            (resetDef_declared .auto p)).trans hActive.1
        rw [touches_of_read hRead hAuto
          (by simpa using hActive.2)]
        · simp [Overlooked, Rejected, hOld, hMissed,
            hSpurious]
        · simp [savedValue, Symbol.hasDef, hHas hVisited,
            hOld]
      · apply hInert
        intro s hs
        rw [hRead] at hs
        rw [← Option.some.inj hs]
        unfold Inert
        have hAuto : (resetDef .auto p).auto = p.auto :=
          congrArg (·.1) (resetDef_declared .auto p)
        have hSame : (resetDef .auto p).isVisited =
            p.isVisited := by
          unfold Symbol.isVisited
          rw [resetDef_id, resetDef_type]
        rw [hAuto, hSame, resetDef_type]
        cases hCase : p.auto with
        | true => exact Or.inl rfl
        | false =>
            cases hVisited : p.isVisited with
            | false => exact Or.inr (Or.inl rfl)
            | true =>
                right
                right
                exact ⟨by simpa [hCase] using hActive,
                  hHas hVisited⟩

/- The symbol that an earlier value is read into. -/
theorem start_of_settled
    {name : Text}
    {s : Symbol}
    (hGet : getSymbol run.symbols (.named name) = some s)
    (hType : s.type.isSettled = true) :
    run.start name = resetDef .auto s ∧
      savedValue .auto (run.start name) = none := by
  have hKnown : s.type ≠ .unknown := by
    intro h
    rw [h] at hType
    cases hType
  have hStart : run.start name = resetDef .auto s := by
    simp [start, hGet, hKnown]
  have hVisited : s.isVisited = true := by
    unfold Symbol.isVisited
    rw [getSymbol_id hGet]
    cases hCase : s.type <;>
      simp_all [SymId.isHashed, SymbolType.isSettled]
  refine ⟨hStart, ?_⟩
  have hHas := resetDef_hasDef .auto hVisited
  rw [getSymbol_id hGet] at hHas
  rw [hStart, savedValue, hHas]
  rfl

theorem start_of_unsettled
    {name : Text}
    (hUnsettled : ∀ s,
      getSymbol run.symbols (.named name) = some s →
        s.type.isSettled = false) :
    (run.start name).type = .other := by
  unfold start
  cases hGet : getSymbol run.symbols (.named name) with
  | none => rfl
  | some s =>
      have hType := hUnsettled s hGet
      simp only [Option.map_some, Option.getD_some,
        resetDef_type]
      cases hCase : s.type <;>
        simp_all [SymbolType.isSettled]

theorem start_auto
    (name : Text) :
    (run.start name).auto =
      ((getSymbol run.symbols (.named name)).map
        Symbol.auto).getD false := by
  unfold start
  cases hGet : getSymbol run.symbols (.named name) with
  | none => rfl
  | some s =>
      have hAuto : (resetDef .auto s).auto = s.auto :=
        congrArg (·.1) (resetDef_declared .auto s)
      simp only [Option.map_some, Option.getD_some]
      split
      · exact hAuto
      · exact hAuto

/- An unknown option becomes a string, except by a quote. -/
theorem lineUpdate_other
    {s : Symbol}
    (name : Text)
    {p : Text}
    (hType : s.type = .other) :
    if p.head? = some '"' then
      lineUpdate .auto (.assigned name p) s = s
    else
      (lineUpdate .auto (.assigned name p) s).type =
          .string ∧
        savedValue .auto
            (lineUpdate .auto (.assigned name p) s) =
          some (.text p) := by
  split
  · next hQuote =>
      simp [lineUpdate, confSetSymVal, hType, hQuote,
        confSetString, symStringValid]
  · next hQuote =>
      simp [lineUpdate, confSetSymVal, hType, hQuote,
        confSetString, symStringValid, setDefString,
        Symbol.setHasDef, Symbol.setDefVal, savedValue,
        Symbol.hasDef, Symbol.defVal, storedValue]

/- An option of a known type with an earlier value. -/
theorem touches_of_settled
    {name p : Text}
    {s : Symbol}
    (hOld : run.old name = some p)
    (hAuto : (run.start name).auto = false)
    (hGet : getSymbol run.symbols (.named name) = some s)
    (hType : s.type.isSettled = true) :
    run.Touches name ↔
      run.old name ≠ run.new name ∧ ¬ run.Missed name ∨
        run.Spurious name := by
  have hRead := run.getSymbol_read name
  rw [hOld] at hRead
  rcases start_of_settled hGet hType with ⟨hStart, hNone⟩
  have hStartType : (run.start name).type = s.type := by
    rw [hStart, resetDef_type]
  have hUpdate := savedValue_lineUpdate .auto
    (.assigned name p) (s := run.start name)
    (by rw [hStartType]; exact hType)
  rw [hNone, hStartType, Option.or_none] at hUpdate
  have hMissed :
      Overlooked run name s.type ↔ run.Missed name := by
    constructor
    · rintro ⟨q, hq, ⟨hSays, hNew⟩ |
        ⟨tri, hSays, hPrinted, hState⟩⟩
      · exact .rejected q s hq hGet hType hSays hNew
      · exact .lookalike q s tri hq hGet hType hSays hPrinted
          hState
    · intro h
      cases h with
      | quoted q hq _ hUnsettled =>
          rw [hUnsettled s hGet] at hType
          cases hType
      | generated q s' hq hGet' hOn =>
          rw [start_auto, hGet', Option.map_some,
            Option.getD_some, hOn] at hAuto
          cases hAuto
      | rejected q s' hq hGet' _ hSays hNew =>
          rw [hGet] at hGet'
          rw [← Option.some.inj hGet'] at hSays
          exact ⟨q, hq, Or.inl ⟨hSays, hNew⟩⟩
      | lookalike q s' tri hq hGet' _ hSays hPrinted hState =>
          rw [hGet] at hGet'
          rw [← Option.some.inj hGet'] at hSays
          exact ⟨q, hq,
            Or.inr ⟨tri, hSays, hPrinted, hState⟩⟩
  have hSpurious :
      Rejected run name s.type ↔ run.Spurious name := by
    constructor
    · rintro ⟨q, hq, hSays, hNew⟩
      exact ⟨q, s, hq, hGet, hType, hSays, hNew⟩
    · rintro ⟨q, s', hq, hGet', _, hSays, hNew⟩
      rw [hGet] at hGet'
      rw [← Option.some.inj hGet'] at hSays
      exact ⟨q, hq, hSays, hNew⟩
  rw [touches_of_read hRead
    ((lineUpdate_auto .auto _ _).trans hAuto)
    (by rw [hUpdate.2]; exact hType)
    (by rw [hUpdate.1, hUpdate.2, hOld]; rfl),
    hUpdate.2, hMissed, hSpurious]

/- An option without a known type, with an earlier value. -/
theorem touches_of_unsettled
    {name p : Text}
    (hOld : run.old name = some p)
    (hAuto : (run.start name).auto = false)
    (hUnsettled : ∀ s,
      getSymbol run.symbols (.named name) = some s →
        s.type.isSettled = false) :
    run.Touches name ↔
      run.old name ≠ run.new name ∧ ¬ run.Missed name ∨
        run.Spurious name := by
  have hRead := run.getSymbol_read name
  rw [hOld] at hRead
  dsimp only at hRead
  have hSpurious : ¬ run.Spurious name := by
    rintro ⟨_, s, _, hGet, hType, _⟩
    rw [hUnsettled s hGet] at hType
    cases hType
  have hOther := lineUpdate_other name (p := p)
    (start_of_unsettled hUnsettled)
  by_cases hQuote : p.head? = some '"'
  · rw [if_pos hQuote] at hOther
    rw [hOther] at hRead
    have hInert : ∀ s,
        getSymbol run.read (.named name) = some s →
          Inert s := by
      intro s hs
      rw [hRead] at hs
      rw [← Option.some.inj hs]
      right
      left
      unfold Symbol.isVisited
      rw [start_of_unsettled hUnsettled]
      simp
    rcases not_touches_of_inert hInert with ⟨hNot, _⟩
    have hMissed : run.Missed name :=
      .quoted p hOld hQuote hUnsettled
    simp [hNot, hMissed, hSpurious]
  · rw [if_neg hQuote] at hOther
    have hMissed : ¬ run.Missed name := by
      intro h
      cases h with
      | quoted q hq hHead _ =>
          rw [hOld] at hq
          rw [← Option.some.inj hq] at hHead
          exact hQuote hHead
      | generated q s hq hGet hOn =>
          rw [start_auto, hGet, Option.map_some,
            Option.getD_some, hOn] at hAuto
          cases hAuto
      | rejected q s hq hGet hType _ _ =>
          rw [hUnsettled s hGet] at hType
          cases hType
      | lookalike q s tri hq hGet hType _ _ _ =>
          rw [hUnsettled s hGet] at hType
          cases hType
    have hSays : lineSays .string (.assigned name p) =
        some (.text p) := rfl
    rw [touches_of_read hRead
      ((lineUpdate_auto .auto _ _).trans hAuto)
      (by rw [hOther.1]; rfl)
      (by rw [hOther.1, hOther.2, hOld]; rfl), hOther.1]
    simp [Overlooked, Rejected, hOld, hMissed, hSpurious,
      hSays]

/- An option with an earlier value. -/
theorem touches_of_old_some
    {name p : Text}
    (hOld : run.old name = some p) :
    run.Touches name ↔
      run.old name ≠ run.new name ∧ ¬ run.Missed name ∨
        run.Spurious name := by
  have hRead := run.getSymbol_read name
  rw [hOld] at hRead
  dsimp only at hRead
  by_cases hAuto : (run.start name).auto = true
  · -- the option is now one with `SYMBOL_AUTO`
    have hInert : ∀ s,
        getSymbol run.read (.named name) = some s →
          Inert s := by
      intro s hs
      rw [hRead] at hs
      rw [← Option.some.inj hs]
      exact Or.inl ((lineUpdate_auto .auto _ _).trans hAuto)
    rcases not_touches_of_inert hInert with ⟨hNot, hNone⟩
    rw [start_auto] at hAuto
    cases hGet : getSymbol run.symbols (.named name) with
    | none =>
        rw [hGet] at hAuto
        cases hAuto
    | some s =>
        rw [hGet] at hAuto
        have hMissed : run.Missed name :=
          .generated p s hOld hGet hAuto
        have hSpurious : ¬ run.Spurious name := by
          rintro ⟨q, _, _, _, _, _, hNew⟩
          rw [hNone] at hNew
          cases hNew
        simp [hNot, hMissed, hSpurious]
  · have hOff : (run.start name).auto = false := by
      simpa using hAuto
    by_cases hSettled : ∃ s,
        getSymbol run.symbols (.named name) = some s ∧
          s.type.isSettled = true
    · rcases hSettled with ⟨s, hGet, hType⟩
      exact touches_of_settled hOld hOff hGet hType
    · apply touches_of_unsettled hOld hOff
      intro s hGet
      cases hType : s.type.isSettled with
      | false => rfl
      | true => exact absurd ⟨s, hGet, hType⟩ hSettled

/-
  The loop opens the file of an option exactly when the
  option changed and is not missed, or is touched for no
  reason.
-/
theorem touches_iff
    (name : Text) :
    run.Touches name ↔
      run.old name ≠ run.new name ∧ ¬ run.Missed name ∨
        run.Spurious name := by
  cases hOld : run.old name with
  | none =>
      rw [← hOld]
      exact touches_of_old_none hOld
  | some p =>
      rw [← hOld]
      exact touches_of_old_some hOld

/-
  Every misread option shares its path with another option
  that makes up for it: a missed one with one that is touched
  and a needlessly touched one with one that has changed.
-/
structure MisreadsCovered (run : AutoRun) : Prop where
  missed : ∀ name path, configPath name = some path →
    run.old name ≠ run.new name →
    run.Missed name →
    ∃ other, configPath other = some path ∧
      (run.old other ≠ run.new other ∧ ¬ run.Missed other ∨
        run.Spurious other)
  spurious : ∀ name path, configPath name = some path →
    run.Spurious name →
    ∃ other, configPath other = some path ∧
      run.old other ≠ run.new other

/- Values that are calculated already. -/
def keptValues : SymCalc where
  value _ s :=
    if s.type = .boolean ∧ s.curr.tri = .mod then
      { s.curr with tri := .yes }
    else
      s.curr
  writes _ s := s.write && s.type.isSettled && !s.auto
  settled_of_writes := by
    intro t s hWrites
    simp only [Bool.and_eq_true] at hWrites
    exact hWrites.1.2
  notAuto_of_writes := by
    intro t s hWrites
    rw [Bool.and_eq_true, Bool.not_eq_true'] at hWrites
    exact hWrites.2
  boolean_value := by
    intro t s hType
    split
    · simp
    · next hNot => simpa [hType] using hNot

/- A visible integer without a value. -/
def emptyInteger : Symbol :=
  { Symbol.alloc (.named ['N']) none with
    type := .int
    write := true }

/- The time of a run. -/
def thursday : CommentLine where
  text := ['T', 'h', 'u']
  noNewline := by decide
  fits := by decide
  noOption := by decide

/- The same configuration is generated a second time. -/
def emptyIntegerRun : AutoRun where
  values := keptValues
  ctime := thursday
  oldSymbols := [emptyInteger]
  symbols := [emptyInteger]
  oldNodup := by decide
  oldNamed := by
    intro s hs _ _ _
    rw [List.mem_singleton.mp hs]
    exact ⟨['N'], rfl, by decide, by decide, by decide⟩
  oldLines := by decide
  nodup := by decide
  choiceAuto := by decide
  constUnknown := by decide

end AutoRun

end Mkrootfs
