import Mkrootfs.Kconfig.ConfData

/-
  What reading a configuration file does to one symbol: only
  the lines about the symbol matter, and of these the last
  one whose value it accepts.

  Main declarations:
    * `lineTarget`, `lineStart`, `lineUpdate`
    * `getSymbol_applyConfLine`
    * `readSymbol`, `getSymbol_foldl_applyConfLine`
    * `linesAbout`, `getSymbol_confReadSimple_user`
    * `lineSays`, `savedValue_foldl_lineUpdate`
-/

------------------------------------------------------------
-- The Effect Of One Line
------------------------------------------------------------

namespace Mkrootfs

/- The type a line suggests for a symbol it introduces. -/
def ConfLine.suggested : ConfLine → SymbolType
| .assigned _ _ => .other
| _ => .boolean

/- The symbol a line is about. -/
def lineTarget
    (d : DefIndex)
    (t : SymbolTable)
    (line : ConfLine) : Option SymId :=
  match d with
  | .user => line.name.bind (symFind t)
  | .auto => line.name.map (symLookupId · .plain)

/- The symbol as it is before the value of a line is set. -/
def lineStart
    (d : DefIndex)
    (id : SymId)
    (line : ConfLine)
    (s : Option Symbol) : Option Symbol :=
  match d with
  | .user => s
  | .auto =>
      let found := s.getD (Symbol.alloc id none)
      some (if found.type = .unknown then
        { found with type := line.suggested }
      else
        found)

/- The symbol with the value of a line set. -/
def lineUpdate
    (d : DefIndex)
    (line : ConfLine)
    (s : Symbol) : Symbol :=
  match line with
  | .unset _ =>
      if s.type = .boolean ∨ s.type = .tristate then
        setDefTri s d .no
      else
        s
  | .assigned _ value => (confSetSymVal s d value).sym
  | _ => s

@[simp] theorem setDefTri_id
    (s : Symbol)
    (d : DefIndex)
    (tri : Tristate) :
    (setDefTri s d tri).id = s.id := by
  cases d <;> rfl

@[simp] theorem setDefString_id
    (s : Symbol)
    (d : DefIndex)
    (p : Text) :
    (setDefString s d p).id = s.id := by
  cases d <;> rfl

theorem confSetString_id
    (s : Symbol)
    (d : DefIndex)
    (p : Text) :
    (confSetString s d p).sym.id = s.id := by
  unfold confSetString
  split
  · exact setDefString_id s d p
  · rfl

theorem confSetBoolean_id
    (s : Symbol)
    (d : DefIndex)
    (p : Text) :
    (confSetBoolean s d p).sym.id = s.id := by
  unfold confSetBoolean
  split
  · exact setDefTri_id s d .yes
  · exact setDefTri_id s d .no
  · rfl

theorem confSetSymVal_id
    (s : Symbol)
    (d : DefIndex)
    (p : Text) :
    (confSetSymVal s d p).sym.id = s.id := by
  unfold confSetSymVal
  split
  · split
    · exact setDefTri_id s d .mod
    · exact confSetBoolean_id s d p
  · exact confSetBoolean_id s d p
  · split
    · exact confSetString_id s d p
    · exact confSetString_id _ d p
  · exact confSetString_id s d p
  · exact confSetString_id s d p
  · exact confSetString_id s d p
  · rfl

@[simp] theorem lineUpdate_id
    (d : DefIndex)
    (line : ConfLine)
    (s : Symbol) :
    (lineUpdate d line s).id = s.id := by
  unfold lineUpdate
  split
  · split
    · exact setDefTri_id s d .no
    · rfl
  · exact confSetSymVal_id s d _
  · rfl

/-
  The parts of a symbol that come from its entries and that
  no line changes.
-/
def Symbol.declared (s : Symbol) :
    Bool × List Property × Option Expr × Option ChoiceId :=
  (s.auto, s.props, s.revDep, s.choiceOf)

theorem lineUpdate_declared
    (d : DefIndex)
    (line : ConfLine)
    (s : Symbol) :
    (lineUpdate d line s).declared = s.declared := by
  unfold lineUpdate
  split
  · split
    · cases d <;> rfl
    · rfl
  · simp only [confSetSymVal, confSetBoolean,
      confSetString]
    split <;> (try split) <;> (try split) <;>
      cases d <;> rfl
  · rfl

/- Reading a value does not move a symbol between choices. -/
@[simp] theorem lineUpdate_choiceOf
    (d : DefIndex)
    (line : ConfLine)
    (s : Symbol) :
    (lineUpdate d line s).choiceOf = s.choiceOf :=
  congrArg (·.2.2.2) (lineUpdate_declared d line s)

@[simp] theorem lineUpdate_auto
    (d : DefIndex)
    (line : ConfLine)
    (s : Symbol) :
    (lineUpdate d line s).auto = s.auto :=
  congrArg (·.1) (lineUpdate_declared d line s)

------------------------------------------------------------
-- Parts Of One Iteration
------------------------------------------------------------

theorem getSymbol_storeSymbol
    (t : SymbolTable)
    (s : Symbol)
    (id : SymId) :
    getSymbol (storeSymbol t s) id =
      if id = s.id then
        (getSymbol t id).map (fun _ => s)
      else
        getSymbol t id := by
  unfold storeSymbol
  rw [getSymbol_modifySymbol t s.id id _ (fun _ _ => rfl)]
  split
  · next hSelf => rw [hSelf]
  · rfl

@[simp] theorem choiceNoted_id
    (d : DefIndex)
    (s cs : Symbol) :
    (choiceNoted d s cs).id = cs.id := by
  cases d with
  | user =>
      simp only [choiceNoted, Symbol.setDefVal]
      split
      · rfl
      · rfl
  | auto =>
      simp only [choiceNoted, Symbol.setDefVal]
      split
      · rfl
      · rfl

/- A choice value is noted at its choice and nowhere else. -/
theorem getSymbol_noteChoiceValue
    (d : DefIndex)
    (s : Symbol)
    (st : ReadState)
    {id : SymId}
    (hId : id.isChoice = false) :
    getSymbol (noteChoiceValue d s st).symbols id =
      getSymbol st.symbols id := by
  unfold noteChoiceValue
  split
  · rfl
  · next c _ =>
      split
      · rfl
      · have hNe : id ≠ .choice c := by
          rintro rfl
          cases hId
        dsimp only
        rw [getSymbol_modifySymbol, if_neg hNe]
        intro cs hSelf
        rw [choiceNoted_id, hSelf]

theorem noteChoiceValue_ids
    (d : DefIndex)
    (s : Symbol)
    (st : ReadState) :
    (noteChoiceValue d s st).symbols.map Symbol.id =
      st.symbols.map Symbol.id := by
  unfold noteChoiceValue
  split
  · rfl
  · split
    · rfl
    · apply modifySymbol_map_id
      intro cs hSelf
      rw [choiceNoted_id, hSelf]

theorem storeSymbol_ids
    (t : SymbolTable)
    (s : Symbol) :
    (storeSymbol t s).map Symbol.id = t.map Symbol.id :=
  modifySymbol_map_id t s.id _ (fun _ _ => rfl)

theorem getSymbol_symLookup
    (t : SymbolTable)
    (name : Text)
    (cls : LookupClass)
    (file : Option Text)
    (id : SymId) :
    getSymbol (symLookup t name cls file).1 id =
      if id = symLookupId name cls then
        some ((getSymbol t id).getD (Symbol.alloc id file))
      else
        getSymbol t id := by
  unfold symLookup
  dsimp only
  split
  · next hAny =>
      split
      · next hSelf =>
          have hSome : (getSymbol t id).isSome := by
            rw [hSelf, getSymbol, List.find?_isSome]
            simpa using hAny
          rcases Option.isSome_iff_exists.mp hSome with
            ⟨s, hGet⟩
          simp [hGet]
      · rfl
  · next hAny =>
      split
      · next hSelf =>
          have hNone : getSymbol t id = none := by
            rw [hSelf, getSymbol, List.find?_eq_none]
            simpa using hAny
          simp only [hNone, Option.getD_none]
          simp [getSymbol, Symbol.alloc, hSelf]
      · next hSelf =>
          have hNe : symLookupId name cls ≠ id :=
            fun h => hSelf h.symm
          simp [getSymbol, Symbol.alloc, hNe]

@[simp] theorem symLookup_snd
    (t : SymbolTable)
    (name : Text)
    (cls : LookupClass)
    (file : Option Text) :
    (symLookup t name cls file).2 =
      symLookupId name cls := by
  unfold symLookup
  dsimp only
  split
  · rfl
  · rfl

/-
  The table after the lookup of a line: the symbol the line
  is about is as `lineStart` says, the others are unchanged.
-/
theorem getSymbol_confLineSymbol
    (d : DefIndex)
    {t : SymbolTable}
    {line : ConfLine}
    {name : Text}
    (hName : line.name = some name)
    (id : SymId) :
    (confLineSymbol d name line.suggested t).2 =
        lineTarget d t line ∧
      getSymbol (confLineSymbol d name line.suggested t).1
          id =
        if lineTarget d t line = some id then
          lineStart d id line (getSymbol t id)
        else
          getSymbol t id := by
  cases d with
  | user =>
      simp [confLineSymbol, lineTarget, lineStart, hName]
  | auto =>
      have hKeep : ∀ s : Symbol,
          s.id = symLookupId name .plain →
          (if s.type = .unknown then
              { s with type := line.suggested }
            else
              s).id = symLookupId name .plain := by
        intro s hSelf
        split
        · exact hSelf
        · exact hSelf
      simp only [confLineSymbol, lineTarget, hName,
        Option.map_some, symLookup_snd, true_and,
        Option.some.injEq]
      rw [getSymbol_modifySymbol _ _ _ _ hKeep,
        getSymbol_symLookup]
      by_cases hSelf : id = symLookupId name .plain
      · subst id
        rw [getSymbol_symLookup]
        simp [lineStart]
      · have hNe : symLookupId name .plain ≠ id :=
          fun h => hSelf h.symm
        simp [getSymbol_symLookup, hSelf, hNe]

/- Storing an updated version of a symbol. -/
theorem getSymbol_storeSymbol_of_get
    {t : SymbolTable}
    {target : SymId}
    {s : Symbol}
    (hGet : getSymbol t target = some s)
    {f : Symbol → Symbol}
    (hKeep : (f s).id = s.id)
    (id : SymId) :
    getSymbol (storeSymbol t (f s)) id =
      if target = id then
        (getSymbol t id).map f
      else
        getSymbol t id := by
  have hTarget := getSymbol_id hGet
  rw [getSymbol_storeSymbol, hKeep, hTarget]
  by_cases hSelf : target = id
  · subst id
    simp [hGet]
  · have hNe : id ≠ target := fun h => hSelf h.symm
    simp [hSelf, hNe]

section Lookup

variable {d : DefIndex} {t : SymbolTable}
variable {line : ConfLine} {name : Text}

/- A line about no symbol leaves every symbol as it is. -/
theorem getSymbol_confLineSymbol_of_none
    (hName : line.name = some name)
    (hNone :
      (lineTarget d t line).bind
        (getSymbol
          (confLineSymbol d name line.suggested t).1) = none)
    (id : SymId) :
    getSymbol (confLineSymbol d name line.suggested t).1 id =
      if lineTarget d t line = some id then
        (lineStart d id line (getSymbol t id)).map
          (lineUpdate d line)
      else
        getSymbol t id := by
  have hFound := (getSymbol_confLineSymbol d hName id
    (t := t)).2
  split
  · next hTarget =>
      rw [hTarget, Option.bind_some] at hNone
      rw [if_pos hTarget, hNone] at hFound
      rw [hNone, ← hFound]
      rfl
  · next hTarget => rw [hFound, if_neg hTarget]

/- A line about a symbol updates it. -/
theorem getSymbol_storeSymbol_lineUpdate
    {s : Symbol}
    (hName : line.name = some name)
    (hSome :
      (lineTarget d t line).bind
        (getSymbol
          (confLineSymbol d name line.suggested t).1) =
            some s)
    (id : SymId) :
    getSymbol
        (storeSymbol
          (confLineSymbol d name line.suggested t).1
          (lineUpdate d line s)) id =
      if lineTarget d t line = some id then
        (lineStart d id line (getSymbol t id)).map
          (lineUpdate d line)
      else
        getSymbol t id := by
  rcases Option.bind_eq_some_iff.mp hSome with
    ⟨target, hTarget, hGet⟩
  have hFound := (getSymbol_confLineSymbol d hName id
    (t := t)).2
  rw [getSymbol_storeSymbol_of_get hGet
    (lineUpdate_id d line s), hFound, hTarget]
  by_cases hSelf : target = id
  · simp [hSelf]
  · simp [hSelf]

end Lookup

/-
  One iteration updates the symbol the line is about and no
  other one, except that a choice learns the values of its
  members.
-/
theorem getSymbol_applyConfLine
    (d : DefIndex)
    (st : ReadState)
    (line : ConfLine)
    {id : SymId}
    (hId : id.isChoice = false) :
    getSymbol (applyConfLine d st line).symbols id =
      if lineTarget d st.symbols line = some id then
        (lineStart d id line (getSymbol st.symbols id)).map
          (lineUpdate d line)
      else
        getSymbol st.symbols id := by
  cases line with
  | skipped => cases d <;> rfl
  | unexpected => cases d <;> rfl
  | unset name =>
      have hName :
          (ConfLine.unset name).name = some name := rfl
      have hFound := (getSymbol_confLineSymbol d hName id
        (t := st.symbols)).1
      unfold applyConfLine
      dsimp only
      split
      · next hNone =>
          exact getSymbol_confLineSymbol_of_none hName
            (hFound ▸ hNone) id
      · next s hSome =>
          rw [getSymbol_noteChoiceValue _ _ _ hId]
          exact getSymbol_storeSymbol_lineUpdate hName
            (hFound ▸ hSome) id
  | assigned name value =>
      have hName :
          (ConfLine.assigned name value).name = some name :=
        rfl
      have hFound := (getSymbol_confLineSymbol d hName id
        (t := st.symbols)).1
      unfold applyConfLine
      dsimp only
      split
      · next hNone =>
          exact getSymbol_confLineSymbol_of_none hName
            (hFound ▸ hNone) id
      · next s hSome =>
          have hStored := getSymbol_storeSymbol_lineUpdate
            hName (hFound ▸ hSome) id
          split
          · exact hStored
          · rw [getSymbol_noteChoiceValue _ _ _ hId]
            exact hStored

------------------------------------------------------------
-- A Whole File
------------------------------------------------------------

/- No symbol is added when a user configuration is read. -/
theorem applyConfLine_user_ids
    (st : ReadState)
    (line : ConfLine) :
    (applyConfLine .user st line).symbols.map Symbol.id =
      st.symbols.map Symbol.id := by
  cases line with
  | skipped => rfl
  | unexpected => rfl
  | unset name =>
      simp only [applyConfLine, confLineSymbol]
      split
      · rfl
      · rw [noteChoiceValue_ids]
        exact storeSymbol_ids _ _
  | assigned name value =>
      simp only [applyConfLine, confLineSymbol]
      split
      · rfl
      · split
        · exact storeSymbol_ids _ _
        · rw [noteChoiceValue_ids]
          exact storeSymbol_ids _ _

/- What a line is about stays the same during the reading. -/
theorem lineTarget_applyConfLine
    (d : DefIndex)
    (st : ReadState)
    (line other : ConfLine) :
    lineTarget d (applyConfLine d st line).symbols other =
      lineTarget d st.symbols other := by
  cases d with
  | user =>
      have hFind := symFind_congr
        (applyConfLine_user_ids st line)
      simp only [lineTarget, funext hFind]
  | auto => rfl

/- The effect of the lines about one symbol. -/
def readSymbol
    (d : DefIndex)
    (t : SymbolTable)
    (id : SymId)
    (lines : List ConfLine)
    (s : Option Symbol) : Option Symbol :=
  (lines.filter (lineTarget d t · = some id)).foldl
    (fun s line =>
      (lineStart d id line s).map (lineUpdate d line)) s

/- Reading does to each symbol what its lines say. -/
theorem getSymbol_foldl_applyConfLine
    (d : DefIndex)
    (lines : List ConfLine)
    (st : ReadState)
    {id : SymId}
    (hId : id.isChoice = false) :
    getSymbol (lines.foldl (applyConfLine d) st).symbols id =
      readSymbol d st.symbols id lines
        (getSymbol st.symbols id) := by
  induction lines generalizing st with
  | nil => rfl
  | cons line lines ih =>
      rw [List.foldl_cons, ih]
      simp only [readSymbol, lineTarget_applyConfLine]
      rw [getSymbol_applyConfLine d st line hId]
      by_cases hTarget :
          lineTarget d st.symbols line = some id
      · simp [hTarget]
      · simp [hTarget]

/- For a user configuration, lines only update symbols. -/
theorem readSymbol_user
    (t : SymbolTable)
    (id : SymId)
    (lines : List ConfLine)
    (s : Option Symbol) :
    readSymbol .user t id lines s =
      s.map (fun s =>
        (lines.filter (lineTarget .user t · = some id)).foldl
          (fun s line => lineUpdate .user line s) s) := by
  unfold readSymbol
  induction lines.filter (lineTarget .user t · = some id)
      generalizing s with
  | nil => simp
  | cons line lines ih =>
      rw [List.foldl_cons, ih]
      simp [lineStart, Option.map_map, Function.comp_def]

theorem resetDef_declared
    (d : DefIndex)
    (s : Symbol) :
    (resetDef d s).declared = s.declared := by
  unfold resetDef
  split
  · cases d <;> rfl
  · rfl

/- The start of the reading keeps identities and types. -/
@[simp] theorem resetDef_id
    (d : DefIndex)
    (s : Symbol) :
    (resetDef d s).id = s.id := by
  unfold resetDef
  split
  · cases d <;> rfl
  · rfl

@[simp] theorem resetDef_type
    (d : DefIndex)
    (s : Symbol) :
    (resetDef d s).type = s.type := by
  unfold resetDef
  split
  · cases d <;> rfl
  · rfl

theorem resetDef_ids
    (d : DefIndex)
    (t : SymbolTable) :
    (t.map (resetDef d)).map Symbol.id =
      t.map Symbol.id := by
  rw [List.map_map]
  exact List.map_congr_left (fun s _ => resetDef_id d s)

theorem getSymbol_resetDef
    (d : DefIndex)
    (t : SymbolTable)
    (id : SymId) :
    getSymbol (t.map (resetDef d)) id =
      (getSymbol t id).map (resetDef d) := by
  unfold getSymbol
  rw [List.find?_map]
  simp only [Function.comp_def, resetDef_id]

theorem lineTarget_resetDef
    (d : DefIndex)
    (t : SymbolTable) :
    lineTarget d (t.map (resetDef d)) = lineTarget d t := by
  cases d with
  | user =>
      funext line
      simp only [lineTarget,
        funext (symFind_congr (resetDef_ids .user t))]
  | auto => rfl

/- A symbol that no longer has a value from the file. -/
theorem resetDef_hasDef
    (d : DefIndex)
    {s : Symbol}
    (hVisited : s.isVisited = true) :
    (resetDef d s).hasDef d = s.id.isChoice := by
  unfold resetDef
  rw [if_pos hVisited]
  cases d <;> rfl

/- The lines of a file that are about a symbol. -/
def linesAbout
    (t : SymbolTable)
    (id : SymId)
    (file : Text) : List ConfLine :=
  (confLines file).filter (lineTarget .user t · = some id)

/- A symbol after the user configuration was read. -/
theorem getSymbol_confReadSimple_user
    (file : Text)
    (t : SymbolTable)
    (changeCount : Nat)
    {id : SymId}
    (hId : id.isChoice = false) :
    getSymbol
        (confReadSimple .user file t changeCount).symbols
        id =
      (getSymbol t id).map (fun s =>
        (linesAbout t id file).foldl
          (fun s line => lineUpdate .user line s)
          (resetDef .user s)) := by
  unfold confReadSimple linesAbout
  rw [getSymbol_foldl_applyConfLine .user _ _ hId,
    readSymbol_user, getSymbol_resetDef, Option.map_map,
    lineTarget_resetDef]
  rfl

------------------------------------------------------------
-- Values
------------------------------------------------------------

/- A value as the type of its symbol has it. -/
inductive StoredValue where
| tri : Tristate → StoredValue
| text : Text → StoredValue
deriving DecidableEq, Repr

/- The part of a `struct symbol_value` that a type uses. -/
def storedValue
    (type : SymbolType)
    (v : SymbolValue) : Option StoredValue :=
  match type with
  | .boolean | .tristate => some (.tri v.tri)
  | .string | .int | .hex => some (.text v.val)
  | .unknown | .other => none

/- The value a symbol has in a file that was read. -/
def savedValue (d : DefIndex) (s : Symbol) :
    Option StoredValue :=
  if s.hasDef d then
    storedValue s.type (s.defVal d)
  else
    none

/- The value a text gives to a boolean. -/
def booleanSays (p : Text) : Option StoredValue :=
  match p.head? with
  | some 'y' => some (.tri .yes)
  | some 'n' => some (.tri .no)
  | _ => none

/- The value a text gives to a symbol with a text value. -/
def textSays
    (type : SymbolType)
    (p : Text) : Option StoredValue :=
  if symStringValid type p then some (.text p) else none

/- The value a line gives to a symbol of a type. -/
def lineSays
    (type : SymbolType)
    (line : ConfLine) : Option StoredValue :=
  match line, type with
  | .unset _, .boolean => some (.tri .no)
  | .unset _, .tristate => some (.tri .no)
  | .assigned _ p, .boolean => booleanSays p
  | .assigned _ p, .tristate =>
      if p.head? = some 'm' then
        some (.tri .mod)
      else
        booleanSays p
  | .assigned _ p, .string => textSays .string p
  | .assigned _ p, .int => textSays .int p
  | .assigned _ p, .hex => textSays .hex p
  | _, _ => none

/- Types that a symbol keeps while a file is read. -/
def SymbolType.isSettled : SymbolType → Bool
| .unknown => false
| .other => false
| _ => true

theorem savedValue_setDefTri
    (d : DefIndex)
    {s : Symbol}
    (tri : Tristate)
    (hType : s.type = .boolean ∨ s.type = .tristate) :
    savedValue d (setDefTri s d tri) = some (.tri tri) ∧
      (setDefTri s d tri).type = s.type := by
  cases d <;> rcases hType with h | h <;>
    simp [savedValue, setDefTri, Symbol.setHasDef,
      Symbol.setDefVal, Symbol.hasDef, Symbol.defVal,
      storedValue, h]

theorem savedValue_confSetBoolean
    (d : DefIndex)
    {s : Symbol}
    (p : Text)
    (hType : s.type = .boolean ∨ s.type = .tristate) :
    savedValue d (confSetBoolean s d p).sym =
        (booleanSays p).or (savedValue d s) ∧
      (confSetBoolean s d p).sym.type = s.type := by
  by_cases hYes : p.head? = some 'y'
  · simp only [confSetBoolean, booleanSays, hYes]
    exact savedValue_setDefTri d .yes hType
  · by_cases hNo : p.head? = some 'n'
    · simp only [confSetBoolean, booleanSays, hNo]
      exact savedValue_setDefTri d .no hType
    · have hSays : booleanSays p = none := by
        unfold booleanSays
        split
        · contradiction
        · contradiction
        · rfl
      have hKept : (confSetBoolean s d p).sym = s := by
        unfold confSetBoolean
        split
        · contradiction
        · contradiction
        · rfl
      rw [hSays, hKept]
      exact ⟨rfl, rfl⟩

theorem savedValue_confSetString
    (d : DefIndex)
    {s : Symbol}
    (p : Text)
    (hType : s.type = .string ∨ s.type = .int ∨
      s.type = .hex) :
    savedValue d (confSetString s d p).sym =
        (textSays s.type p).or (savedValue d s) ∧
      (confSetString s d p).sym.type = s.type := by
  unfold confSetString textSays
  split
  · cases d <;> rcases hType with h | h | h <;>
      simp [savedValue, setDefString, Symbol.setHasDef,
        Symbol.setDefVal, Symbol.hasDef, Symbol.defVal,
        storedValue, h]
  · exact ⟨rfl, rfl⟩

/- A line sets the value it says, or none. -/
theorem savedValue_lineUpdate
    (d : DefIndex)
    (line : ConfLine)
    {s : Symbol}
    (hType : s.type.isSettled = true) :
    savedValue d (lineUpdate d line s) =
        (lineSays s.type line).or (savedValue d s) ∧
      (lineUpdate d line s).type = s.type := by
  cases line with
  | skipped => simp [lineUpdate, lineSays]
  | unexpected => simp [lineUpdate, lineSays]
  | unset name =>
      cases hCase : s.type with
      | unknown => simp [hCase, SymbolType.isSettled] at hType
      | other => simp [hCase, SymbolType.isSettled] at hType
      | boolean =>
          have hSet := savedValue_setDefTri d .no
            (Or.inl hCase)
          simp [lineUpdate, lineSays, hCase, hSet]
      | tristate =>
          have hSet := savedValue_setDefTri d .no
            (Or.inr hCase)
          simp [lineUpdate, lineSays, hCase, hSet]
      | string => simp [lineUpdate, lineSays, hCase]
      | int => simp [lineUpdate, lineSays, hCase]
      | hex => simp [lineUpdate, lineSays, hCase]
  | assigned name p =>
      cases hCase : s.type with
      | unknown => simp [hCase, SymbolType.isSettled] at hType
      | other => simp [hCase, SymbolType.isSettled] at hType
      | boolean =>
          have hSet := savedValue_confSetBoolean d p
            (Or.inl hCase)
          simp [lineUpdate, confSetSymVal, lineSays, hCase,
            hSet]
      | tristate =>
          have hSet := savedValue_confSetBoolean d p
            (Or.inr hCase)
          have hMod := savedValue_setDefTri d .mod
            (Or.inr hCase)
          by_cases hHead : p.head? = some 'm'
          · simp [lineUpdate, confSetSymVal, lineSays, hCase,
              hHead, hMod]
          · simp [lineUpdate, confSetSymVal, lineSays, hCase,
              hHead, hSet]
      | string =>
          have hSet := savedValue_confSetString d p
            (Or.inl hCase)
          simp [lineUpdate, confSetSymVal, lineSays, hCase,
            hSet]
      | int =>
          have hSet := savedValue_confSetString d p
            (Or.inr (Or.inl hCase))
          simp [lineUpdate, confSetSymVal, lineSays, hCase,
            hSet]
      | hex =>
          have hSet := savedValue_confSetString d p
            (Or.inr (Or.inr hCase))
          simp [lineUpdate, confSetSymVal, lineSays, hCase,
            hSet]

/- After many lines a symbol has the value last said. -/
theorem savedValue_foldl_lineUpdate
    (d : DefIndex)
    (lines : List ConfLine)
    {s : Symbol}
    (hType : s.type.isSettled = true) :
    savedValue d
          (lines.foldl (fun s line => lineUpdate d line s)
            s) =
        (lines.filterMap (lineSays s.type)).getLast?.or
          (savedValue d s) ∧
      (lines.foldl (fun s line => lineUpdate d line s)
        s).type = s.type := by
  induction lines generalizing s with
  | nil => simp
  | cons line lines ih =>
      rcases savedValue_lineUpdate d line hType with
        ⟨hValue, hSame⟩
      have hNext :
          (lineUpdate d line s).type.isSettled = true := by
        rw [hSame]
        exact hType
      rcases ih hNext with ⟨hRest, hRestSame⟩
      rw [List.foldl_cons, hRest, hRestSame, hValue, hSame]
      refine ⟨?_, rfl⟩
      cases hSays : lineSays s.type line with
      | none => simp [hSays]
      | some v =>
          rw [List.filterMap_cons_some hSays]
          cases hLast : (lines.filterMap
              (lineSays s.type)).getLast? with
          | none => simp [List.getLast?_cons, hLast]
          | some w => simp [List.getLast?_cons, hLast]

------------------------------------------------------------
-- Choices
------------------------------------------------------------

/- A member that is off tells its choice nothing. -/
theorem choiceNoted_of_no
    (d : DefIndex)
    {s : Symbol}
    (cs : Symbol)
    (hNo : (s.defVal d).tri = .no) :
    choiceNoted d s cs = cs := by
  have hOr : ∀ tri : Tristate, tri.or .no = tri := by
    intro tri
    cases tri <;> rfl
  cases d with
  | user =>
      simp only [choiceNoted, hNo, reduceCtorEq, false_and,
        if_false, hOr]
      rfl
  | auto =>
      simp only [choiceNoted, hNo, reduceCtorEq, false_and,
        if_false, hOr]
      rfl

theorem getSymbol_noteChoiceValue_choice
    (d : DefIndex)
    {s : Symbol}
    (st : ReadState)
    {c : ChoiceId}
    (hNo : s.choiceOf = some c → (s.defVal d).tri = .no) :
    getSymbol (noteChoiceValue d s st).symbols (.choice c) =
      getSymbol st.symbols (.choice c) := by
  unfold noteChoiceValue
  split
  · rfl
  · next other hOther =>
      split
      · rfl
      · dsimp only
        rw [getSymbol_modifySymbol]
        · split
          · next hSelf =>
              have hChoice := SymId.choice.inj hSelf
              subst other
              have hSame : choiceNoted d s = id :=
                funext fun cs =>
                  choiceNoted_of_no d cs (hNo hOther)
              rw [hSame, Option.map_id]
              rfl
          · rfl
        · intro cs hSelf
          rw [choiceNoted_id, hSelf]

/- The line turns no symbol of the type on. -/
def IsQuiet (type : SymbolType) (line : ConfLine) : Prop :=
  (type = .string ∨ type = .int ∨ type = .hex) ∨
    ∃ name, line = .unset name

theorem lineUpdate_quiet
    {line : ConfLine}
    {s : Symbol}
    (hQuiet : IsQuiet s.type line)
    (hNo : s.defUser.tri = .no) :
    (lineUpdate .user line s).defUser.tri = .no := by
  have hString : ∀ p,
      (confSetString s .user p).sym.defUser.tri = .no := by
    intro p
    unfold confSetString
    split
    · exact hNo
    · exact hNo
  cases line with
  | skipped => exact hNo
  | unexpected => exact hNo
  | unset name =>
      unfold lineUpdate
      dsimp only
      split
      · rfl
      · exact hNo
  | assigned name p =>
      rcases hQuiet with (h | h | h) | ⟨other, h⟩
      · simpa [lineUpdate, confSetSymVal, h] using hString p
      · simpa [lineUpdate, confSetSymVal, h] using hString p
      · simpa [lineUpdate, confSetSymVal, h] using hString p
      · cases h

/-
  The lines only concern existing symbols whose types are
  settled, and turn no member of the choice `c` on.
-/
def QuietLines
    (c : ChoiceId)
    (t : SymbolTable)
    (lines : List ConfLine) : Prop :=
  ∀ line ∈ lines, ∀ id,
    lineTarget .user t line = some id →
      id.isChoice = false ∧
        ∀ s, getSymbol t id = some s →
          s.type.isSettled = true ∧
            (s.choiceOf = some c →
              s.defUser.tri = .no ∧ IsQuiet s.type line)

theorem getSymbol_applyConfLine_choice
    {c : ChoiceId}
    {st : ReadState}
    {line : ConfLine}
    {lines : List ConfLine}
    (hQuiet : QuietLines c st.symbols (line :: lines)) :
    getSymbol (applyConfLine .user st line).symbols
        (.choice c) =
      getSymbol st.symbols (.choice c) := by
  have hUpdate : ∀ target s,
      lineTarget .user st.symbols line = some target →
      getSymbol st.symbols target = some s →
        s.id.isChoice = false ∧
          ((lineUpdate .user line s).choiceOf = some c →
            (lineUpdate .user line s).defUser.tri = .no) := by
    intro target s hTarget hGet
    rcases hQuiet line (by simp) target hTarget with
      ⟨hId, hOld⟩
    rw [getSymbol_id hGet]
    refine ⟨hId, ?_⟩
    intro hChoice
    rw [lineUpdate_choiceOf] at hChoice
    rcases (hOld s hGet).2 hChoice with ⟨hNo, hLine⟩
    exact lineUpdate_quiet hLine hNo
  have hStore : ∀ s : Symbol, s.id.isChoice = false →
      getSymbol (storeSymbol st.symbols
          (lineUpdate .user line s)) (.choice c) =
        getSymbol st.symbols (.choice c) := by
    intro s hId
    have hNe : SymId.choice c ≠ s.id := by
      intro h
      rw [← h] at hId
      cases hId
    rw [getSymbol_storeSymbol, lineUpdate_id, if_neg hNe]
  cases line with
  | skipped => rfl
  | unexpected => rfl
  | unset name =>
      simp only [applyConfLine, confLineSymbol]
      split
      · rfl
      · next s hSome =>
          rcases Option.bind_eq_some_iff.mp hSome with
            ⟨target, hTarget, hGet⟩
          rcases hUpdate target s hTarget hGet with
            ⟨hId, hNo⟩
          exact
            (getSymbol_noteChoiceValue_choice .user _
              hNo).trans (hStore s hId)
  | assigned name p =>
      simp only [applyConfLine, confLineSymbol]
      split
      · rfl
      · next s hSome =>
          rcases Option.bind_eq_some_iff.mp hSome with
            ⟨target, hTarget, hGet⟩
          rcases hUpdate target s hTarget hGet with
            ⟨hId, hNo⟩
          split
          · exact hStore s hId
          · exact
              (getSymbol_noteChoiceValue_choice .user _
                hNo).trans (hStore s hId)

theorem QuietLines.tail
    {c : ChoiceId}
    {st : ReadState}
    {line : ConfLine}
    {lines : List ConfLine}
    (hQuiet : QuietLines c st.symbols (line :: lines)) :
    QuietLines c (applyConfLine .user st line).symbols
      lines := by
  intro other hOther id hTarget
  rw [lineTarget_applyConfLine] at hTarget
  rcases hQuiet other (List.mem_cons_of_mem _ hOther) id
    hTarget with ⟨hId, hOld⟩
  refine ⟨hId, ?_⟩
  intro s hGet
  rw [getSymbol_applyConfLine .user st line hId] at hGet
  split at hGet
  · next hSelf =>
      rcases Option.map_eq_some_iff.mp hGet with
        ⟨old, hOldGet, rfl⟩
      simp only [lineStart] at hOldGet
      rcases hOld old hOldGet with ⟨hSettled, hMember⟩
      have hSame :=
        (savedValue_lineUpdate .user line hSettled).2
      rw [hSame, lineUpdate_choiceOf]
      refine ⟨hSettled, fun hChoice => ?_⟩
      rcases hMember hChoice with ⟨hNo, hOtherQuiet⟩
      have hLine := hQuiet line (by simp) id hSelf
      have hLineQuiet :=
        ((hLine.2 old hOldGet).2 hChoice).2
      exact ⟨lineUpdate_quiet hLineQuiet hNo, hOtherQuiet⟩
  · exact hOld s hGet

/- A choice without an active member stays undecided. -/
theorem getSymbol_foldl_applyConfLine_choice
    {c : ChoiceId}
    (lines : List ConfLine)
    {st : ReadState}
    (hQuiet : QuietLines c st.symbols lines) :
    getSymbol
        (lines.foldl (applyConfLine .user) st).symbols
        (.choice c) =
      getSymbol st.symbols (.choice c) := by
  induction lines generalizing st with
  | nil => rfl
  | cons line lines ih =>
      rw [List.foldl_cons, ih hQuiet.tail]
      exact getSymbol_applyConfLine_choice hQuiet

------------------------------------------------------------
-- Tables That Grow
------------------------------------------------------------

/- A lookup adds no second symbol of an identity. -/
theorem symLookup_nodup
    {t : SymbolTable}
    (name : Text)
    (cls : LookupClass)
    (file : Option Text)
    (hNodup : (t.map Symbol.id).Nodup) :
    ((symLookup t name cls file).1.map Symbol.id).Nodup := by
  unfold symLookup
  dsimp only
  split
  · exact hNodup
  · next hAny =>
      simp only [List.map_cons, List.nodup_cons]
      refine ⟨?_, hNodup⟩
      intro hMem
      rcases List.mem_map.mp hMem with ⟨s, hs, hId⟩
      apply hAny
      rw [List.any_eq_true]
      exact ⟨s, hs, by simpa [Symbol.alloc] using hId⟩

/- Reading a file keeps identities apart. -/
theorem applyConfLine_auto_nodup
    {st : ReadState}
    (line : ConfLine)
    (hNodup : (st.symbols.map Symbol.id).Nodup) :
    ((applyConfLine .auto st line).symbols.map
      Symbol.id).Nodup := by
  have hFound : ∀ name type,
      ((confLineSymbol .auto name type st.symbols).1.map
        Symbol.id).Nodup := by
    intro name type
    unfold confLineSymbol
    dsimp only
    rw [modifySymbol_map_id]
    · exact symLookup_nodup name .plain none hNodup
    · intro s hSelf
      split
      · exact hSelf
      · exact hSelf
  cases line with
  | skipped => exact hNodup
  | unexpected => exact hNodup
  | unset name =>
      simp only [applyConfLine]
      split
      · exact hFound name .boolean
      · rw [noteChoiceValue_ids, storeSymbol_ids]
        exact hFound name .boolean
  | assigned name p =>
      simp only [applyConfLine]
      split
      · exact hFound name .other
      · split
        · rw [storeSymbol_ids]
          exact hFound name .other
        · rw [noteChoiceValue_ids, storeSymbol_ids]
          exact hFound name .other

theorem foldl_applyConfLine_auto_nodup
    (lines : List ConfLine)
    {st : ReadState}
    (hNodup : (st.symbols.map Symbol.id).Nodup) :
    ((lines.foldl (applyConfLine .auto) st).symbols.map
      Symbol.id).Nodup := by
  induction lines generalizing st with
  | nil => exact hNodup
  | cons line lines ih =>
      exact ih (applyConfLine_auto_nodup line hNodup)

theorem choiceNoted_auto
    (d : DefIndex)
    (s cs : Symbol) :
    (choiceNoted d s cs).auto = cs.auto := by
  cases d with
  | user =>
      simp only [choiceNoted, Symbol.setDefVal]
      split
      · rfl
      · rfl
  | auto =>
      simp only [choiceNoted, Symbol.setDefVal]
      split
      · rfl
      · rfl

theorem getSymbol_noteChoiceValue_auto
    (d : DefIndex)
    (s : Symbol)
    (st : ReadState)
    (id : SymId) :
    (getSymbol (noteChoiceValue d s st).symbols id).map
        Symbol.auto =
      (getSymbol st.symbols id).map Symbol.auto := by
  unfold noteChoiceValue
  split
  · rfl
  · split
    · rfl
    · dsimp only
      rw [getSymbol_modifySymbol]
      · split
        · next hSelf =>
            rw [hSelf, Option.map_map]
            exact congrArg (Option.map · _)
              (funext (choiceNoted_auto d s))
        · rfl
      · intro cs hSelf
        rw [choiceNoted_id, hSelf]

theorem symLookupId_plain_notChoice
    (name : Text) :
    (symLookupId name .plain).isChoice = false := by
  rcases symLookupId_plain name with ⟨tri, h⟩ | h
  · rw [h]
    rfl
  · rw [h]
    rfl

/- The lookups for `auto.conf` find no choice. -/
theorem confLineSymbol_auto_choice
    (name : Text)
    (type : SymbolType)
    (t : SymbolTable)
    (c : ChoiceId) :
    getSymbol (confLineSymbol .auto name type t).1
        (.choice c) =
      getSymbol t (.choice c) := by
  have hNe : SymId.choice c ≠ symLookupId name .plain := by
    intro h
    have hChoice := symLookupId_plain_notChoice name
    rw [← h] at hChoice
    cases hChoice
  unfold confLineSymbol
  dsimp only
  rw [getSymbol_modifySymbol, symLookup_snd, if_neg hNe,
    getSymbol_symLookup, if_neg hNe]
  intro s hSelf
  split
  · exact hSelf
  · exact hSelf

theorem storeSymbol_auto_choice
    {name : Text}
    {type : SymbolType}
    {t : SymbolTable}
    {s s' : Symbol}
    (hSome :
      (confLineSymbol .auto name type t).2.bind
        (getSymbol (confLineSymbol .auto name type t).1) =
          some s)
    (hId : s'.id = s.id)
    (c : ChoiceId) :
    getSymbol
        (storeSymbol (confLineSymbol .auto name type t).1 s')
        (.choice c) =
      getSymbol t (.choice c) := by
  rcases Option.bind_eq_some_iff.mp hSome with
    ⟨target, hTarget, hGet⟩
  have hNe : SymId.choice c ≠ s'.id := by
    intro h
    have hPlain : target = symLookupId name .plain := by
      simpa [confLineSymbol] using hTarget.symm
    have hChoice := symLookupId_plain_notChoice name
    rw [← hPlain, ← getSymbol_id hGet, ← hId, ← h]
      at hChoice
    cases hChoice
  rw [getSymbol_storeSymbol, if_neg hNe]
  exact confLineSymbol_auto_choice name type t c

/- Reading `auto.conf` says nothing about `SYMBOL_AUTO`. -/
theorem applyConfLine_choice_auto
    (st : ReadState)
    (line : ConfLine)
    (c : ChoiceId) :
    (getSymbol (applyConfLine .auto st line).symbols
        (.choice c)).map Symbol.auto =
      (getSymbol st.symbols (.choice c)).map
        Symbol.auto := by
  cases line with
  | skipped => rfl
  | unexpected => rfl
  | unset name =>
      simp only [applyConfLine]
      split
      · rw [confLineSymbol_auto_choice]
      · next s hSome =>
          rw [getSymbol_noteChoiceValue_auto,
            storeSymbol_auto_choice hSome]
          split
          · exact setDefTri_id s .auto .no
          · rfl
  | assigned name p =>
      simp only [applyConfLine]
      split
      · rw [confLineSymbol_auto_choice]
      · next s hSome =>
          have hId := confSetSymVal_id s .auto p
          split
          · rw [storeSymbol_auto_choice hSome hId]
          · rw [getSymbol_noteChoiceValue_auto,
              storeSymbol_auto_choice hSome hId]

theorem foldl_applyConfLine_choice_auto
    (lines : List ConfLine)
    (st : ReadState)
    (c : ChoiceId) :
    (getSymbol
        (lines.foldl (applyConfLine .auto) st).symbols
        (.choice c)).map Symbol.auto =
      (getSymbol st.symbols (.choice c)).map
        Symbol.auto := by
  induction lines generalizing st with
  | nil => rfl
  | cons line lines ih =>
      rw [List.foldl_cons, ih, applyConfLine_choice_auto]

end Mkrootfs
