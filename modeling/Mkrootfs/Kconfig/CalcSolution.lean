import Mkrootfs.Kconfig.CalcRun

/-
  Whole runs of the calculator: after `sym_clear_all_valid`
  calls for any symbols in any order give each symbol the
  value that the equations determine.

  Main declarations:
    * `Idle`, `symClearAllValid_settles`
    * `calcRun_settles`
    * `calcRun_solution`
-/

------------------------------------------------------------
-- Between Calls
------------------------------------------------------------

namespace Mkrootfs

namespace CalcTable

/-
  A state that belongs to no user settings in particular: the
  static symbols have their values, and `modules_val` is that
  of `modules_sym`.
-/
structure Idle (t : CalcTable) (st : CalcState) : Prop where
  builtin : ∀ tri, st.valid (.builtin tri) = true ∧
    st.curr (.builtin tri) = ⟨tri.text, none, tri⟩
  other : ∀ s, st.valid s = true → s.isHashed = true →
    t.type s = .other →
    st.curr s = ⟨s.name.getD [], none, .no⟩
  rev_value : ∀ s, t.isChoiceValue s = true →
    st.revTri s = .no
  modules : st.modulesVal = (st.curr .modules).tri

variable {t : CalcTable}
variable {rank : SymId → Nat}
variable {v : SymId → SymbolValue}
variable {st st' : CalcState}

theorem idle_initial (t : CalcTable) :
    Idle t CalcState.initial := by
  refine ⟨fun tri => ⟨rfl, rfl⟩, ?_, fun _ _ => rfl, rfl⟩
  intro s hValid hHashed
  simp [CalcState.initial, hHashed] at hValid

/- The equations of the symbols that keep their values. -/
theorem value_of_other
    (hSolves : t.equations.Solves v)
    {s : SymId}
    (hOther : t.type s = .other)
    (hHashed : s.isHashed = true) :
    v s = ⟨s.name.getD [], none, .no⟩ := by
  rw [hSolves s]
  show t.valueIn v s = _
  unfold valueIn
  split
  · cases hHashed
  · simp [hOther, SymbolType.startValue]

theorem value_of_builtin
    (hSolves : t.equations.Solves v)
    (tri : Tristate) :
    v (.builtin tri) = ⟨tri.text, none, tri⟩ :=
  hSolves (.builtin tri)

/- What is settled is ready for other settings. -/
theorem Settled.idle
    (hSolves : t.equations.Solves v)
    (hSettled : Settled t v [] st) :
    Idle t st := by
  refine ⟨?_, ?_, hSettled.rev_value, ?_⟩
  · intro tri
    have hValid := hSettled.builtin tri
    refine ⟨hValid, ?_⟩
    rw [hSettled.done _ hValid List.not_mem_nil,
      value_of_builtin hSolves]
  · intro s hValid hHashed hOther
    rw [hSettled.done s hValid List.not_mem_nil,
      value_of_other hSolves hOther hHashed]
  · cases hValid : st.valid .modules with
    | false => exact hSettled.fresh hValid
    | true =>
        rw [hSettled.modules hValid List.not_mem_nil,
          hSettled.done _ hValid List.not_mem_nil]

/- Only symbols without a value are valid after the loop. -/
theorem Idle.settled
    (hWell : WellFormed t)
    (hSolves : t.equations.Solves v)
    (hIdle : Idle t st) :
    Settled t v [] (t.clearValid st) := by
  have hLeft : ∀ s, (t.clearValid st).valid s = true →
      st.valid s = true ∧
        (s.isHashed = false ∨ t.type s = .other) := by
    intro s hs
    simpa [clearValid, imp_iff_not_or] using hs
  have hUntyped : ∀ s, (t.clearValid st).valid s = true →
      t.isTyped s = false := by
    intro s hs
    rcases (hLeft s hs).2 with hPlain | hOther
    · simp [isTyped, hPlain]
    · simp [isTyped, hOther, SymbolType.startValue]
  have hModules :
      (t.clearValid st).valid .modules = false := by
    simp [clearValid, SymId.isHashed, hWell.modules_boolean]
  refine ⟨?_, by simp, ?_, ?_, ?_, hIdle.rev_value, ?_,
    fun _ => hIdle.modules⟩
  · intro tri
    simp [clearValid, SymId.isHashed, (hIdle.builtin tri).1]
  · intro s hs _
    rcases hLeft s hs with ⟨hValid, hKind⟩
    cases s with
    | builtin tri =>
        rw [value_of_builtin hSolves]
        exact (hIdle.builtin tri).2
    | _ =>
        rcases hKind with hPlain | hOther
        · cases hPlain
        · rw [value_of_other hSolves hOther rfl]
          exact hIdle.other _ hValid rfl hOther
  · intro s hs _ hTyped
    simp [hUntyped s hs] at hTyped
  · intro s c _ hs _ hTyped
    simp [hUntyped s hs] at hTyped
  · intro hs
    simp [hModules] at hs

------------------------------------------------------------
-- Runs
------------------------------------------------------------

/- `sym_clear_all_valid` settles the modules. -/
theorem symClearAllValid_settles
    (hWell : WellFormed t)
    (hRank : t.equations.Ranked rank)
    (hSolves : t.equations.Solves v)
    (hIdle : Idle t st)
    {fuel : Nat}
    (hFuel : rank .modules < fuel) :
    Settled t v [] (t.symClearAllValid fuel st) ∧
      (t.symClearAllValid fuel st).valid .modules = true := by
  have hCallable :
      Callable rank [] (t.clearValid st) .modules :=
    ⟨(fun _ h => nomatch h), Or.inr (Nat.le_refl _)⟩
  rcases symCalcValue_settles hWell hRank hSolves fuel hFuel
      (hIdle.settled hWell hSolves) hCallable with
    ⟨hFollows, hValid⟩
  exact ⟨hFollows.settled, hValid⟩

/- Calls for any symbols, once the modules are settled. -/
theorem calcRun_settles
    (hWell : WellFormed t)
    (hRank : t.equations.Ranked rank)
    (hSolves : t.equations.Solves v)
    {fuel : Nat}
    (run : List SymId)
    {st : CalcState}
    (hFuel : ∀ s ∈ run, rank s < fuel)
    (hSettled : Settled t v [] st)
    (hModules : st.valid .modules = true) :
    Follows t v [] st (t.calcRun fuel run st) ∧
      ∀ s ∈ run, (t.calcRun fuel run st).valid s = true := by
  induction run generalizing st with
  | nil => exact ⟨.refl hSettled, fun _ h => nomatch h⟩
  | cons s run ih =>
      have hCallable : Callable rank [] st s :=
        ⟨(fun _ h => nomatch h),
          Or.inl ⟨hModules, List.not_mem_nil⟩⟩
      rcases symCalcValue_settles hWell hRank hSolves fuel
          (hFuel s List.mem_cons_self) hSettled hCallable with
        ⟨hFirst, hValid⟩
      rcases ih (fun r hr => hFuel r
            (List.mem_cons_of_mem s hr)) hFirst.settled
          (hFirst.keeps.valid _ hModules) with
        ⟨hRest, hAll⟩
      refine ⟨hFirst.trans hRest, ?_⟩
      intro r hr
      rcases List.mem_cons.mp hr with rfl | hLater
      · exact hRest.keeps.valid r hValid
      · exact hAll r hLater

------------------------------------------------------------
-- Tables Of The Parser
------------------------------------------------------------

section OfTable

variable (symbols : SymbolTable)
variable (ranges : SymId → List RangeProp)
variable (values : ChoiceId → List SymId)
variable (longBits : Nat)

theorem ofTable_choiceOf (s : SymId) :
    ((ofTable symbols ranges values longBits).symbol
        s).choiceOf =
      choiceOf symbols s := by
  simp only [ofTable, choiceOf]
  cases getSymbol symbols s <;> rfl

/- A symbol of the table, or one without any property. -/
theorem ofTable_symbol (s : SymId) :
    (∃ sym ∈ symbols, sym.id = s ∧
        (ofTable symbols ranges values longBits).symbol s =
          sym) ∨
      (s ∉ symbols.map Symbol.id ∧
        (ofTable symbols ranges values longBits).symbol s =
          Symbol.alloc s none) := by
  cases hGet : getSymbol symbols s with
  | some sym =>
      exact Or.inl ⟨sym, getSymbol_mem hGet, getSymbol_id hGet,
        by simp [ofTable, hGet]⟩
  | none =>
      refine Or.inr ⟨?_, by simp [ofTable, hGet]⟩
      intro hMem
      rcases List.mem_map.mp hMem with ⟨sym, hSym, hId⟩
      have hNone := List.find?_eq_none.mp hGet sym hSym
      simp [hId] at hNone

variable {symbols ranges values longBits}

/- The prompts, the choices and the modules of a table. -/
theorem wellFormed_ofTable
    (hPrompt : ∀ sym ∈ symbols, ∀ c ∈ sym.choiceOf,
      .choice c ∈ (sym.props.filter Property.hasText).flatMap
        (fun p => optSyms p.visible))
    (hUser : ∀ sym ∈ symbols, sym.id.isChoice = true →
      ∀ value ∈ sym.defUser.chosen,
        (choiceOf symbols value).map .choice = some sym.id)
    (hDefault : ∀ sym ∈ symbols, sym.id.isChoice = true →
      ∀ p ∈ sym.props, p.type = .default →
      ∀ value ∈ p.symbol,
        (choiceOf symbols value).map .choice = some sym.id)
    (hValues : ∀ c, ∀ value ∈ values c,
      choiceOf symbols value = some c)
    (hPlain : ∀ sym ∈ symbols, sym.id.isChoice = true →
      sym.choiceOf = none)
    (hModules : (getSymbol symbols .modules).map Symbol.type =
      some .boolean) :
    WellFormed (ofTable symbols ranges values longBits) := by
  have hSymbol := ofTable_symbol symbols ranges values longBits
  have hSame : ∀ {value c},
      (choiceOf symbols value).map SymId.choice =
        some (.choice c) →
      choiceOf symbols value = some c := by
    intro value c hMap
    rcases Option.map_eq_some_iff.mp hMap with ⟨d, hd, hEq⟩
    cases hEq
    exact hd
  refine ⟨?_, ?_, ?_, ?_⟩
  · intro s c hChoice
    rcases hSymbol s with ⟨sym, hSym, _, hEq⟩ | ⟨_, hEq⟩
    · rw [hEq] at hChoice
      rw [prompts, hEq]
      exact hPrompt sym hSym c hChoice
    · rw [hEq] at hChoice
      cases hChoice
  · intro c candidate hCandidate
    rw [ofTable_choiceOf]
    simp only [candidates, List.mem_append, List.mem_map,
      List.mem_filterMap, Option.mem_toList, defaults,
      List.mem_filter, beq_iff_eq, Option.map_eq_some_iff]
      at hCandidate
    rcases hSymbol (.choice c) with
      ⟨sym, hSym, hId, hEq⟩ | ⟨_, hEq⟩
    · rw [hEq] at hCandidate
      have hIs : sym.id.isChoice = true := by
        rw [hId]
        rfl
      rcases hCandidate with
        (⟨value, hValue, rfl⟩ | ⟨p, hp, value, hValue, rfl⟩) |
          ⟨value, hValue, rfl⟩
      · exact hSame (hId ▸ hUser sym hSym hIs value hValue)
      · exact hSame
          (hId ▸ hDefault sym hSym hIs p hp.1 hp.2 value hValue)
      · exact hValues c value hValue
    · rw [hEq] at hCandidate
      rcases hCandidate with
        (⟨value, hValue, _⟩ | ⟨p, hp, _⟩) | ⟨value, hValue, rfl⟩
      · cases hValue
      · cases hp.1
      · exact hValues c value hValue
  · intro c
    rcases hSymbol (.choice c) with
      ⟨sym, hSym, hId, hEq⟩ | ⟨_, hEq⟩
    · rw [hEq]
      exact hPlain sym hSym (by rw [hId]; rfl)
    · rw [hEq]
      rfl
  · rcases Option.map_eq_some_iff.mp hModules with
      ⟨sym, hGet, hType⟩
    simp [type, ofTable, hGet, hType]

/- An order in which the symbols can be calculated. -/
theorem ranked_ofTable
    {order : List SymId}
    (hOrder : respects
      (ofTable symbols ranges values longBits).reads [] order =
        true)
    (hAll : ∀ sym ∈ symbols, sym.id ∈ order) :
    (ofTable symbols ranges values longBits).equations.Ranked
      (fun s => order.idxOf s) := by
  intro s r hr
  by_cases hMem : s ∈ order
  · exact rank_lt_of_respects hOrder hMem hr
  · rcases ofTable_symbol symbols ranges values longBits s with
      ⟨sym, hSym, hId, _⟩ | ⟨_, hEq⟩
    · exact absurd (hId ▸ hAll sym hSym) hMem
    · simp [equations, reads, isTyped, type, hEq, Symbol.alloc,
        SymbolType.startValue] at hr

end OfTable

------------------------------------------------------------
-- A Choice, A Tristate And A Number
------------------------------------------------------------

/- A boolean choice between `A` and `B`. -/
def letterChoice : SymId := .choice (.anonymous 0)

def letter (c : Char) : SymId := .named [c]

def promptIf (cond : Option Expr) : Property :=
  ⟨.prompt, cond, none, some 0, none⟩

def defaultTo (s : SymId) : Property :=
  ⟨.default, none, some (.symbol s), some 0, none⟩

/-
  `A` and `B` are the values of a choice, the tristate `X`
  depends on `A`, and the number `N` on `X`.
-/
def letterSymbols : SymbolTable :=
  [{ Symbol.alloc .modules none with
      type := .boolean
      auto := true
      props := [defaultTo (letter 'M')] },
    { Symbol.alloc (letter 'M') none with
      type := .boolean
      props := [promptIf none] },
    { Symbol.alloc letterChoice none with
      type := .boolean
      props := [promptIf none]
      revDep := some (.symbol (.builtin .mod)) },
    { Symbol.alloc (letter 'A') none with
      type := .boolean
      choiceOf := some (.anonymous 0)
      props := [promptIf (some (.symbol letterChoice))] },
    { Symbol.alloc (letter 'B') none with
      type := .boolean
      choiceOf := some (.anonymous 0)
      props := [promptIf (some (.symbol letterChoice))] },
    { Symbol.alloc (letter 'X') none with
      type := .tristate
      props := [promptIf (some (.symbol (letter 'A')))] },
    { Symbol.alloc (letter 'N') none with
      type := .int
      props := [promptIf (some (.symbol (letter 'X'))),
        defaultTo (.const ['5'])] }]

def letterTable : CalcTable :=
  ofTable letterSymbols
    (fun s =>
      if s = letter 'N' then
        [⟨none, .const ['1', '0'], .const ['2', '0']⟩]
      else
        [])
    (choiceValues letterSymbols) 64

def letterOrder : List SymId :=
  [.builtin .mod, letter 'M', .modules, letterChoice,
    letter 'A', letter 'B', letter 'X', .const ['5'],
    .const ['1', '0'], .const ['2', '0'], letter 'N']

theorem letterTable_wellFormed : WellFormed letterTable := by
  refine wellFormed_ofTable ?_ ?_ ?_ ?_ ?_ ?_
  · decide
  · decide
  · decide
  · intro c value hValue
    simpa using (List.mem_filter.mp hValue).2
  · decide
  · decide

theorem letterTable_ranked :
    letterTable.equations.Ranked
      (fun s => letterOrder.idxOf s) :=
  ranked_ofTable (by decide) (by decide)

------------------------------------------------------------
-- The Solution
------------------------------------------------------------

/-
  Exactly one assignment solves all equations, and calls for
  any symbols in any order find it: each symbol that was
  called, or is valid for another reason, has its value and
  the visibility and the selection of that assignment.
-/
theorem calcRun_solution
    (t : CalcTable)
    (hWell : WellFormed t)
    (hRank : t.equations.Ranked rank) :
    ∃ v, t.equations.Solves v ∧
      (∀ w, t.equations.Solves w → w = v) ∧
      ∀ (st : CalcState) (fuel : Nat) (run : List SymId),
        Idle t st →
        (∀ s ∈ .modules :: run, rank s < fuel) →
        let st' :=
          t.calcRun fuel run (t.symClearAllValid fuel st)
        (∀ s ∈ run, st'.valid s = true) ∧
          ∀ s, st'.valid s = true →
            st'.curr s = v s ∧
              (t.isTyped s = true →
                st'.visible s = t.visibleIn v s ∧
                  st'.revTri s = t.revIn v s) := by
  have hSolves := Equations.solves_solution
    (fun _ => SymbolValue.empty) hRank
  generalize t.equations.solution
    (fun _ => SymbolValue.empty) rank = v at hSolves
  refine ⟨v, hSolves,
    fun w hw => Equations.solves_unique hRank hw hSolves, ?_⟩
  intro st fuel run hIdle hFuel
  rcases symClearAllValid_settles hWell hRank hSolves hIdle
      (hFuel .modules List.mem_cons_self) with
    ⟨hClear, hModules⟩
  rcases calcRun_settles hWell hRank hSolves run
      (fun s hs => hFuel s (List.mem_cons_of_mem _ hs))
      hClear hModules with
    ⟨hRun, hAll⟩
  refine ⟨hAll, ?_⟩
  intro s hs
  exact ⟨hRun.settled.done s hs List.not_mem_nil,
    hRun.settled.shown s hs List.not_mem_nil⟩

/- The number of the sample, reached through the choice. -/
theorem letterTable_solution :
    ∃ v, letterTable.equations.Solves v ∧
      (letterTable.calcRun 12 [letter 'N', letter 'B']
        (letterTable.symClearAllValid 12 .initial)).curr
          (letter 'N') = v (letter 'N') := by
  rcases calcRun_solution letterTable letterTable_wellFormed
    letterTable_ranked with ⟨v, hSolves, _, hRuns⟩
  rcases hRuns .initial 12 [letter 'N', letter 'B']
    (idle_initial letterTable) (by decide) with ⟨hAll, hValues⟩
  exact ⟨v, hSolves,
    (hValues _ (hAll _ List.mem_cons_self)).1⟩

/-
  Without a rank the order matters: where the value `A` asks
  for a symbol `X` that asks for the choice, `A` is chosen if
  the choice is called first, and `B` if `X` is.
-/
example :
    let t :=
      ofTable
        [{ Symbol.alloc (letter 'X') none with
            type := .boolean
            props := [⟨.default, some (.symbol letterChoice),
              some (.symbol (.builtin .yes)), none, none⟩] },
          { Symbol.alloc (letter 'A') none with
            type := .boolean
            choiceOf := some (.anonymous 0)
            props := [promptIf (some (.and
              (.symbol letterChoice)
              (.symbol (letter 'X'))))] },
          { Symbol.alloc (letter 'B') none with
            type := .boolean
            choiceOf := some (.anonymous 0)
            props := [promptIf (some (.symbol letterChoice))] },
          { Symbol.alloc letterChoice none with
            type := .boolean
            props := [promptIf none]
            revDep := some (.symbol (.builtin .mod)) }]
        (fun _ => [])
        (fun _ => [letter 'A', letter 'B']) 64
    let chosen := fun run =>
      ((t.calcRun 9 run .initial).curr letterChoice).chosen
    chosen [letterChoice, letter 'X'] = some (letter 'A') ∧
      chosen [letter 'X', letterChoice] = some (letter 'B') := by
  decide

end CalcTable

end Mkrootfs
