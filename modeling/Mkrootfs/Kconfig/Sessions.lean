import Mkrootfs.Kconfig.AdoptedValues
import Mkrootfs.Kconfig.NewSymbols

/-
  Whole sessions of a configuration program: after any calls
  and any changes, all that is valid follows from the user's
  settings, and a change that is accepted is calculated.

  Setting the value or the text that a symbol already has
  only marks it as set by the user; nothing is calculated
  again then, and such steps are no part of a session. Nor is
  the random mode of `conf_set_all_new_symbols`, which keeps
  what was calculated before it picks the values of choices.

  Main declarations:
    * `Session`, `Configured`
    * `Session.get_of_set`, `Session.get_of_toggle`
    * `Session.get_of_setText`, `Session.get_of_setAll`
    * `Session.choice_one`
-/

------------------------------------------------------------
-- Sessions
------------------------------------------------------------

namespace Mkrootfs

namespace CalcTable

/-
  The settings and the states that are reached from `t₀` and
  `st₀` by calculating symbols and by changing values. To
  set a value that a symbol has already is no step.
-/
inductive Session
    (fuel : Nat)
    (t₀ : CalcTable)
    (st₀ : CalcState) : CalcTable → CalcState → Prop where
| start : Session fuel t₀ st₀ t₀ (t₀.symClearAllValid fuel st₀)
| get {t : CalcTable} {st : CalcState} (s : SymId) :
    Session fuel t₀ st₀ t st →
    Session fuel t₀ st₀ t (t.symCalcValue fuel s st)
| set {t : CalcTable} {st : CalcState}
    (s : SymId) (val : Tristate) :
    Session fuel t₀ st₀ t st →
    (st.curr s).tri ≠ val →
    Session fuel t₀ st₀
      (t.symSetTristateValue fuel s val st).2.1
      (t.symSetTristateValue fuel s val st).2.2
| setText {t : CalcTable} {st : CalcState}
    (s : SymId) (oldval : Option Text) (newval : Text) :
    Session fuel t₀ st₀ t st →
    (t.type s).isText = true →
    (oldval = some newval →
      lacksMark (t.type s) newval = true) →
    Session fuel t₀ st₀
      (t.symSetStringValue fuel s oldval newval st).2.1
      (t.symSetStringValue fuel s oldval newval st).2.2
| setAll {t : CalcTable} {st : CalcState}
    (mode : DefMode) (rand pick : SymId → Nat)
    (symbols : List SymId) :
    Session fuel t₀ st₀ t st →
    mode ≠ .random →
    Session fuel t₀ st₀
      (t.confSetAllNewSymbols fuel mode rand pick symbols st).1
      (t.confSetAllNewSymbols fuel mode rand pick symbols st).2

/- The calls of a run are steps of a session. -/
theorem Session.calcRun
    {t t₀ : CalcTable}
    {st st₀ : CalcState}
    {fuel : Nat}
    (hSession : Session fuel t₀ st₀ t st)
    (run : List SymId) :
    Session fuel t₀ st₀ t (t.calcRun fuel run st) := by
  induction run generalizing st with
  | nil => exact hSession
  | cons s run ih => exact ih (hSession.get s)

/- A table in whose order symbols can be calculated. -/
structure Orderly
    (rank : SymId → Nat)
    (t : CalcTable) : Prop where
  well : WellFormed t
  grouped : Grouped t
  ranked : t.equations.Ranked rank

/- All that is valid follows from the settings. -/
structure Configured
    (rank : SymId → Nat)
    (t : CalcTable)
    (st : CalcState) : Prop where
  orderly : Orderly rank t
  modules : st.valid .modules = true
  settled : ∃ v, t.equations.Solves v ∧ Settled t v [] st

variable {t t₀ : CalcTable}
variable {rank : SymId → Nat}
variable {st st₀ : CalcState}
variable {fuel : Nat}
variable {s : SymId}
variable {val : Tristate}

/- `sym_clear_all_valid` configures any idle state. -/
theorem configured_clear
    (hOrderly : Orderly rank t)
    (hFuel : ∀ s, rank s < fuel)
    (hIdle : Idle t st) :
    Configured rank t (t.symClearAllValid fuel st) := by
  have hSolves := Equations.solves_solution
    (fun _ => SymbolValue.empty) hOrderly.ranked
  rcases symClearAllValid_settles hOrderly.well
      hOrderly.ranked hSolves hIdle (hFuel .modules) with
    ⟨hSettled, hModules⟩
  exact ⟨hOrderly, hModules, _, hSolves, hSettled⟩

theorem Orderly.new
    {t' : CalcTable}
    (hNew : NewSettings t t')
    (hOrderly : Orderly rank t) :
    Orderly rank t' :=
  ⟨hNew.wellFormed hOrderly.well,
    hOrderly.grouped.of_same hNew.toSameText,
    hNew.ranked hOrderly.ranked⟩

theorem Idle.of_same
    {t' : CalcTable}
    (hSame : SameText t t')
    (hIdle : Idle t st) :
    Idle t' st := by
  refine ⟨hIdle.builtin, ?_, ?_, hIdle.modules⟩
  · intro r hValid hHashed hOther
    rw [hSame.type_eq] at hOther
    exact hIdle.other r hValid hHashed hOther
  · intro r hr
    rw [hSame.isChoiceValue_eq] at hr
    exact hIdle.rev_value r hr

namespace Configured

variable (hConfigured : Configured rank t st)

include hConfigured

theorem idle : Idle t st := by
  rcases hConfigured.settled with ⟨v, hSolves, hSettled⟩
  exact hSettled.idle hSolves

/- What only calculates keeps what is configured. -/
theorem of_follows
    {v : SymId → SymbolValue}
    {st' : CalcState}
    (hSolves : t.equations.Solves v)
    (hFollows : Follows t v [] st st') :
    Configured rank t st' :=
  ⟨hConfigured.orderly,
    hFollows.keeps.valid _ hConfigured.modules,
    v, hSolves, hFollows.settled⟩

/- `sym_string_within_range` may calculate, but no more. -/
theorem within
    (hFuel : ∀ s, rank s < fuel)
    (hText : (t.type s).isText = true)
    (newval : Text) :
    Configured rank t
      (t.symStringWithinRange (t.symCalcValue fuel) s newval
        st).2 := by
  rcases hConfigured.settled with ⟨v, hSolves, hSettled⟩
  rcases symStringWithinRange_settles
      (calls_symCalcValue hConfigured.orderly.well
        hConfigured.orderly.ranked hSolves hFuel)
      hSettled hConfigured.modules hText with
    ⟨hFollows, _⟩
  exact hConfigured.of_follows hSolves hFollows

/- A call keeps what is configured. -/
theorem get
    (hFuel : ∀ s, rank s < fuel)
    (s : SymId) :
    Configured rank t (t.symCalcValue fuel s st) := by
  rcases hConfigured.settled with ⟨v, hSolves, hSettled⟩
  have hCallable : Callable rank [] st s :=
    ⟨fun _ h => absurd h List.not_mem_nil,
      Or.inl ⟨hConfigured.modules, List.not_mem_nil⟩⟩
  rcases symCalcValue_settles hConfigured.orderly.well
      hConfigured.orderly.ranked hSolves fuel (hFuel s)
      hSettled hCallable with
    ⟨hFollows, _⟩
  exact hConfigured.of_follows hSolves hFollows

/- A change configures everything anew, or is refused. -/
theorem set
    (hFuel : ∀ s, rank s < fuel)
    (hChange : (st.curr s).tri ≠ val) :
    Configured rank (t.symSetTristateValue fuel s val st).2.1
      (t.symSetTristateValue fuel s val st).2.2 := by
  unfold symSetTristateValue
  simp only
  split
  · exact hConfigured
  · have hNew := NewSettings.of_withTri s val st
      hConfigured.orderly.grouped
    exact configured_clear (hConfigured.orderly.new hNew)
      hFuel (hConfigured.idle.of_same hNew.toSameText)

/- A change of a text does the same. -/
theorem setText
    (hFuel : ∀ s, rank s < fuel)
    {oldval : Option Text}
    {newval : Text}
    (hText : (t.type s).isText = true)
    (hChange : oldval = some newval →
      lacksMark (t.type s) newval = true) :
    Configured rank
      (t.symSetStringValue fuel s oldval newval st).2.1
      (t.symSetStringValue fuel s oldval newval st).2.2 := by
  have hWithin :=
    hConfigured.within hFuel hText newval
  have hNew := NewSettings.of_withText t s newval
  rw [symSetStringValue_of_change hText hChange]
  simp only
  split
  · exact hWithin
  · exact configured_clear (hConfigured.orderly.new hNew)
      hFuel (hWithin.idle.of_same hNew.toSameText)

/- All new symbols at once are new settings too. -/
theorem setAll
    (hFuel : ∀ s, rank s < fuel)
    {mode : DefMode}
    {rand pick : SymId → Nat}
    {symbols : List SymId}
    (hMode : mode ≠ .random) :
    let set :=
      t.confSetAllNewSymbols fuel mode rand pick symbols st
    Configured rank set.1 set.2 := by
  have hNew := NewSettings.of_withNew t mode rand symbols st
  unfold confSetAllNewSymbols
  simp only [if_pos hMode]
  exact configured_clear (hConfigured.orderly.new hNew) hFuel
    (hConfigured.idle.of_same hNew.toSameText)

/-
  What later calls give in new settings solves the equations
  of these settings.
-/
theorem settled_after
    {t' : CalcTable}
    (hFuel : ∀ s, rank s < fuel)
    (hNew : NewSettings t t')
    (run : List SymId)
    (hRun : s ∈ run) :
    let after := t'.calcRun fuel run (t'.symClearAllValid fuel st)
    ∃ v', t'.equations.Solves v' ∧ Settled t' v' [] after ∧
      after.valid .modules = true ∧
      after.valid s = true ∧ after.curr s = v' s := by
  have hOrder := hConfigured.orderly.new hNew
  have hSolves := Equations.solves_solution
    (fun _ => SymbolValue.empty) hOrder.ranked
  rcases symClearAllValid_settles hOrder.well hOrder.ranked
      hSolves (hConfigured.idle.of_same hNew.toSameText)
      (hFuel .modules) with
    ⟨hClear, hModules⟩
  rcases calcRun_settles hOrder.well hOrder.ranked hSolves run
      (fun r _ => hFuel r) hClear hModules with
    ⟨hAfter, hAll⟩
  exact ⟨_, hSolves, hAfter.settled,
    hAfter.keeps.valid _ hModules, hAll s hRun,
    hAfter.settled.done s (hAll s hRun) List.not_mem_nil⟩

end Configured

/- Every state of a session is configured. -/
theorem Session.configured
    (hOrderly : Orderly rank t₀)
    (hFuel : ∀ s, rank s < fuel)
    (hIdle : Idle t₀ st₀)
    (hSession : Session fuel t₀ st₀ t st) :
    Configured rank t st := by
  induction hSession with
  | start => exact configured_clear hOrderly hFuel hIdle
  | get s _ ih => exact ih.get hFuel s
  | set s val _ hChange ih => exact ih.set hFuel hChange
  | setText s oldval newval _ hText hChange ih =>
      exact ih.setText hFuel hText hChange
  | setAll mode rand pick symbols _ hMode ih =>
      exact ih.setAll hFuel hMode

------------------------------------------------------------
-- A Session
------------------------------------------------------------

/- The values of the choice of letters are grouped. -/
theorem letterTable_grouped : Grouped letterTable :=
  (adopted_ofTable (by decide)).grouped

theorem letterTable_orderly :
    Orderly (fun s => letterOrder.idxOf s) letterTable :=
  ⟨letterTable_wellFormed, letterTable_grouped,
    letterTable_ranked⟩

theorem letterOrder_lt (s : SymId) :
    letterOrder.idxOf s < 12 :=
  Nat.lt_succ_of_le List.idxOf_le_length

/- The session in which the values of the choice are read. -/
theorem letterTable_session :
    Session 12 letterTable .initial letterTable
      (letterTable.calcRun 12 [letter 'A', letter 'B']
        (letterTable.symClearAllValid 12 .initial)) :=
  Session.start.calcRun [letter 'A', letter 'B']

------------------------------------------------------------
-- Reading What Was Set
------------------------------------------------------------

/- A change that is accepted leaves the new settings. -/
theorem symSetTristateValue_of_change
    (hChange : (st.curr s).tri ≠ val)
    (hAccepted :
      (t.symSetTristateValue fuel s val st).1 = true) :
    t.symTristateWithinRange st s val = true ∧
      (t.symSetTristateValue fuel s val st).2 =
        (t.withTri s val st,
          (t.withTri s val st).symClearAllValid fuel st) := by
  unfold symSetTristateValue at hAccepted ⊢
  simp only at hAccepted ⊢
  split at hAccepted
  · cases hAccepted
  · next hNot =>
      rw [if_neg hNot]
      simp only [if_pos hChange, and_true]
      by_contra hRefused
      exact hNot ⟨hChange, by simpa using hRefused⟩

/-
  Where a value is within the range of a calculated symbol,
  its equation has that value with the new settings.
-/
theorem Configured.get_of_withTri
    (hConfigured : Configured rank t st)
    (hFuel : ∀ s, rank s < fuel)
    (hTyped : t.isTyped s = true)
    (hPlain : s.isChoice = false)
    (hValid : st.valid s = true)
    (hWithin : t.symTristateWithinRange st s val = true)
    (run : List SymId)
    (hRun : s ∈ run) :
    let t' := t.withTri s val st
    ((t'.calcRun fuel run (t'.symClearAllValid fuel st)).curr
      s).tri = val := by
  rcases hConfigured.settled with ⟨v, hSolves, hSettled⟩
  have hOrder := hConfigured.orderly
  have hRange := InRange.of_withinRange hSettled
    hConfigured.modules hTyped hValid hWithin
  rcases hConfigured.settled_after hFuel
      (NewSettings.of_withTri s val st hOrder.grouped) run
      hRun with
    ⟨v', hSolves', _, _, _, hCurr⟩
  simp only
  rw [hCurr]
  exact value_withTri hOrder.well hOrder.grouped
    hOrder.ranked hSolves hSolves' hTyped hPlain hRange

/-
  In every session: where a change of a calculated boolean or
  tristate symbol is accepted, each later call for the symbol
  gives the new value, after any other calls.
-/
theorem Session.get_of_set
    (hOrderly : Orderly rank t₀)
    (hFuel : ∀ s, rank s < fuel)
    (hIdle : Idle t₀ st₀)
    (hSession : Session fuel t₀ st₀ t st)
    (hTyped : t.isTyped s = true)
    (hPlain : s.isChoice = false)
    (hValid : st.valid s = true)
    (hChange : (st.curr s).tri ≠ val)
    (hAccepted :
      (t.symSetTristateValue fuel s val st).1 = true)
    (run : List SymId)
    (hRun : s ∈ run) :
    let set := t.symSetTristateValue fuel s val st
    ((set.2.1.calcRun fuel run set.2.2).curr s).tri = val := by
  rcases symSetTristateValue_of_change hChange hAccepted with
    ⟨hWithin, hSet⟩
  simp only [hSet]
  exact (hSession.configured hOrderly hFuel hIdle
    ).get_of_withTri hFuel hTyped hPlain hValid hWithin run
      hRun

/- `B` is chosen instead of `A`, and is `y` from then on. -/
theorem letterTable_get_of_set :
    let st := letterTable.calcRun 12 [letter 'A', letter 'B']
      (letterTable.symClearAllValid 12 .initial)
    let set := letterTable.symSetTristateValue 12 (letter 'B')
      .yes st
    ((set.2.1.calcRun 12 [letter 'N', letter 'A', letter 'B']
      set.2.2).curr (letter 'B')).tri = .yes := by
  refine Session.get_of_set letterTable_orderly letterOrder_lt
    (idle_initial letterTable) letterTable_session ?_ ?_ ?_ ?_
    ?_ _ ?_
  · decide
  · decide
  · decide
  · decide
  · decide
  · decide

/-
  `sym_toggle_tristate_value` ends, with a value that is
  accepted; it is the old one only where all others are
  refused.
-/
theorem symToggleTristateValue_spec
    (t : CalcTable)
    (fuel : Nat)
    (s : SymId)
    (st : CalcState) :
    ∃ val,
      t.symToggleTristateValue fuel s st =
          some (val,
            (t.symSetTristateValue fuel s val st).2) ∧
        (t.symSetTristateValue fuel s val st).1 = true ∧
        (val = (st.curr s).tri →
          ∀ other, other ≠ val →
            (t.symSetTristateValue fuel s other st).1 =
              false) := by
  have hSame : ∀ val, (st.curr s).tri = val →
      (t.symSetTristateValue fuel s val st).1 = true := by
    intro val hVal
    simp [symSetTristateValue, hVal]
  have hTwo : nextTri (nextTri (nextTri (st.curr s).tri)) =
      (st.curr s).tri := by
    cases (st.curr s).tri <;> rfl
  have hCover : ∀ other, other ≠ (st.curr s).tri →
      other = nextTri (st.curr s).tri ∨
        other = nextTri (nextTri (st.curr s).tri) := by
    intro other hOther
    revert hOther
    cases other <;> cases (st.curr s).tri <;> decide
  have hFirst : nextTri (st.curr s).tri ≠ (st.curr s).tri := by
    cases (st.curr s).tri <;> decide
  have hSecond : nextTri (nextTri (st.curr s).tri) ≠
      (st.curr s).tri := by
    cases (st.curr s).tri <;> decide
  unfold symToggleTristateValue
  generalize hOld : (st.curr s).tri = old
    at hTwo hCover hFirst hSecond
  cases hOne : (t.symSetTristateValue fuel s
      (nextTri old) st).1 with
  | true =>
      refine ⟨nextTri old, ?_, hOne,
        fun hEq => absurd hEq hFirst⟩
      simp [toggleFrom, hOne]
  | false =>
      cases hNext : (t.symSetTristateValue fuel s
          (nextTri (nextTri old)) st).1 with
      | true =>
          refine ⟨nextTri (nextTri old), ?_, hNext,
            fun hEq => absurd hEq hSecond⟩
          simp [toggleFrom, hOne, hNext, Ne.symm hFirst]
      | false =>
          refine ⟨old, ?_, hSame old hOld, ?_⟩
          · simp [toggleFrom, hOne, hNext, hTwo,
              Ne.symm hFirst, Ne.symm hSecond]
          · intro _ other hOther
            rcases hCover other hOther with rfl | rfl
            · exact hOne
            · exact hNext

/-
  In every session: a toggle of a calculated symbol ends, and
  gives either the value that each later call has or the old
  one, where every other value is refused.
-/
theorem Session.get_of_toggle
    (hOrderly : Orderly rank t₀)
    (hFuel : ∀ s, rank s < fuel)
    (hIdle : Idle t₀ st₀)
    (hSession : Session fuel t₀ st₀ t st)
    (hTyped : t.isTyped s = true)
    (hPlain : s.isChoice = false)
    (hValid : st.valid s = true)
    (run : List SymId)
    (hRun : s ∈ run) :
    ∃ val t' st',
      t.symToggleTristateValue fuel s st =
          some (val, t', st') ∧
        (if val = (st.curr s).tri then
          ∀ other, other ≠ val →
            (t.symSetTristateValue fuel s other st).1 = false
        else
          ((t'.calcRun fuel run st').curr s).tri = val) := by
  rcases symToggleTristateValue_spec t fuel s st with
    ⟨val, hToggle, hAccepted, hOld⟩
  refine ⟨val, (t.symSetTristateValue fuel s val st).2.1,
    (t.symSetTristateValue fuel s val st).2.2, hToggle, ?_⟩
  split
  · next hSame => exact hOld hSame
  · next hChange =>
      rcases symSetTristateValue_of_change
          (Ne.symm hChange) hAccepted with
        ⟨hWithin, hSet⟩
      rw [hSet]
      exact (hSession.configured hOrderly hFuel hIdle
        ).get_of_withTri hFuel hTyped hPlain hValid hWithin run
          hRun

/- The toggle of `B` makes it `y`. -/
theorem letterTable_get_of_toggle :
    let st := letterTable.calcRun 12 [letter 'A', letter 'B']
      (letterTable.symClearAllValid 12 .initial)
    ∃ val t' st',
      letterTable.symToggleTristateValue 12 (letter 'B') st =
          some (val, t', st') ∧
        (if val = (st.curr (letter 'B')).tri then
          ∀ other, other ≠ val →
            (letterTable.symSetTristateValue 12 (letter 'B')
              other st).1 = false
        else
          ((t'.calcRun 12 [letter 'B'] st').curr
            (letter 'B')).tri = val) := by
  refine Session.get_of_toggle letterTable_orderly
    letterOrder_lt (idle_initial letterTable)
    letterTable_session ?_ ?_ ?_ _ ?_
  · decide
  · decide
  · decide
  · decide

/-
  In every session: where a change of a calculated text or
  number that can be seen is accepted, each later call for
  the symbol gives the text that is stored, after any other
  calls.
-/
theorem Session.get_of_setText
    (hOrderly : Orderly rank t₀)
    (hFuel : ∀ s, rank s < fuel)
    (hIdle : Idle t₀ st₀)
    (hSession : Session fuel t₀ st₀ t st)
    (hTyped : t.isTyped s = true)
    (hPlain : s.isChoice = false)
    (hText : (t.type s).isText = true)
    (hValid : st.valid s = true)
    (hVisible : st.visible s ≠ .no)
    (oldval : Option Text)
    (newval : Text)
    (hChange : oldval = some newval →
      lacksMark (t.type s) newval = true)
    (hAccepted :
      (t.symSetStringValue fuel s oldval newval st).1 = true)
    (run : List SymId)
    (hRun : s ∈ run) :
    let set := t.symSetStringValue fuel s oldval newval st
    ((set.2.1.calcRun fuel run set.2.2).curr s).val =
      storedText (t.type s) newval := by
  have hConfigured :=
    hSession.configured hOrderly hFuel hIdle
  have hOrder := hConfigured.orderly
  rcases hConfigured.settled with ⟨v, hSolves, hSettled⟩
  rcases symStringWithinRange_settles
      (calls_symCalcValue hOrder.well hOrder.ranked hSolves
        hFuel)
      hSettled hConfigured.modules hText with
    ⟨_, hRange⟩
  have hSeen : t.visibleIn v s ≠ .no :=
    (hSettled.shown s hValid List.not_mem_nil hTyped).1 ▸
      hVisible
  rw [symSetStringValue_of_change hText hChange]
    at hAccepted ⊢
  simp only at hAccepted ⊢
  split at hAccepted
  · cases hAccepted
  · next hWithin =>
      rw [if_neg hWithin]
      rw [Bool.not_eq_false] at hWithin
      have hKept := hConfigured.within hFuel hText newval
      rcases hKept.settled_after hFuel
          (NewSettings.of_withText t s newval) run hRun with
        ⟨v', hSolves', _, _, _, hCurr⟩
      rw [hCurr]
      exact value_withText hOrder.ranked hSolves hSolves'
        hTyped hPlain hSeen (hRange hWithin)

/- A boolean, and a number between `10` and `1f`. -/
def plainTable : CalcTable :=
  let symbols :=
    [{ Symbol.alloc .modules none with
        type := .boolean },
      { Symbol.alloc (letter 'P') none with
        type := .boolean
        props := [promptIf none] },
      { Symbol.alloc (letter 'H') none with
        type := .hex
        props := [promptIf none] }]
  ofTable symbols
    (fun s =>
      if s = letter 'H' then
        [⟨none, .const ['1', '0'], .const ['1', 'f']⟩]
      else
        [])
    (choiceValues symbols) 64

def plainOrder : List SymId :=
  [.modules, letter 'P', .const ['1', '0'], .const ['1', 'f'],
    letter 'H']

theorem plainTable_orderly :
    Orderly (fun s => plainOrder.idxOf s) plainTable := by
  refine ⟨wellFormed_ofTable ?_ ?_ ?_ ?_ ?_ ?_,
    (adopted_ofTable ?_).grouped, ranked_ofTable ?_ ?_⟩
  · decide
  · decide
  · decide
  · intro c value hValue
    simpa using (List.mem_filter.mp hValue).2
  · decide
  · decide
  · decide
  · decide
  · decide

/- The number gets the mark that it lacks. -/
theorem plainTable_get_of_setText :
    let st := plainTable.calcRun 6 [letter 'H']
      (plainTable.symClearAllValid 6 .initial)
    let set := plainTable.symSetStringValue 6 (letter 'H') none
      ['1', 'a'] st
    ((set.2.1.calcRun 6 [letter 'H'] set.2.2).curr
      (letter 'H')).val = ['0', 'x', '1', 'a'] := by
  refine Session.get_of_setText plainTable_orderly
    (fun s => Nat.lt_succ_of_le List.idxOf_le_length)
    (idle_initial plainTable)
    (Session.start.calcRun [letter 'H']) ?_ ?_ ?_ ?_ ?_ none
    ['1', 'a'] ?_ ?_ _ ?_
  · decide
  · decide
  · decide
  · decide
  · decide
  · decide
  · decide
  · decide

/-
  In every session: when all new symbols are set, each new
  boolean or tristate symbol that can be seen afterwards has
  the value of the mode up to its visibility, or what selects
  it, after any other calls.
-/
theorem Session.get_of_setAll
    (hOrderly : Orderly rank t₀)
    (hFuel : ∀ s, rank s < fuel)
    (hIdle : Idle t₀ st₀)
    (hSession : Session fuel t₀ st₀ t st)
    (mode : DefMode)
    (rand pick : SymId → Nat)
    (symbols : List SymId)
    (hMode : mode ≠ .random)
    {tri : Tristate}
    (hTri : mode.tri (rand s) = some tri)
    (hMem : s ∈ symbols)
    (hUnset : (t.symbol s).hasUser = false)
    (hType : t.type s = .boolean ∨ t.type s = .tristate)
    (hHashed : s.isHashed = true)
    (hPlain : s.isChoice = false)
    (run : List SymId)
    (hRun : s ∈ run) :
    let set :=
      t.confSetAllNewSymbols fuel mode rand pick symbols st
    let after := set.1.calcRun fuel run set.2
    after.visible s ≠ .no →
    (t.isChoiceValue s = true → after.visible s ≠ .yes) →
    (after.curr s).tri =
      settleTri (set.1.symGetType after s)
        ((tri.and (after.visible s)).or (after.revTri s)) := by
  have hConfigured :=
    hSession.configured hOrderly hFuel hIdle
  have hNew := NewSettings.of_withNew t mode rand symbols st
  have hSame := hNew.toSameText
  rcases hConfigured.settled_after hFuel hNew run hRun with
    ⟨v, hSolves, hSettled, hModules, hValid, hCurr⟩
  have hTyped : (t.withNew mode rand symbols st).isTyped s =
      true := by
    rw [isTyped, hSame.type_eq]
    rcases hType with hType | hType <;>
      simp [hHashed, hType, SymbolType.startValue]
  rcases hSettled.shown s hValid List.not_mem_nil hTyped with
    ⟨hVisible, hRev⟩
  rw [hSame.visibleIn_eq] at hVisible
  rw [hSame.revIn_eq] at hRev
  unfold confSetAllNewSymbols
  simp only [if_pos hMode]
  intro hSeen hFree
  have hGet : ∀ after, after = (t.withNew mode rand symbols
        st).calcRun fuel run
          ((t.withNew mode rand symbols st).symClearAllValid
            fuel st) →
      (t.withNew mode rand symbols st).symGetType after s =
        t.typeIn v s := by
    rintro after rfl
    unfold symGetType typeIn
    rw [hVisible, hSettled.modules hModules List.not_mem_nil,
      typeAt, typeAt, hSame.type_eq, hSame.isChoiceValue_eq]
  rw [hCurr, hGet _ rfl, hRev, hVisible]
  rw [hVisible] at hSeen hFree
  exact value_withNew hSolves hMode hTri hMem hUnset hType
    hHashed hPlain hSeen hFree

/- With `def_yes` every boolean in sight is `y`. -/
theorem plainTable_get_of_setAll :
    let set := plainTable.confSetAllNewSymbols 6 .yes
      (fun _ => 0) (fun _ => 0) [letter 'P', letter 'H']
      (plainTable.symClearAllValid 6 .initial)
    ((set.1.calcRun 6 [letter 'P'] set.2).curr
      (letter 'P')).tri = .yes := by
  have hAfter := Session.get_of_setAll plainTable_orderly
    (fun s => Nat.lt_succ_of_le List.idxOf_le_length)
    (idle_initial plainTable) Session.start .yes
    (fun _ => 0) (fun _ => 0) [letter 'P', letter 'H']
    (by decide) (s := letter 'P') rfl (by decide) (by decide)
    (by decide) rfl rfl [letter 'P'] (by decide)
  exact hAfter (by decide) (by decide)

------------------------------------------------------------
-- Choices
------------------------------------------------------------

/- A value that can be `y` is `y` exactly if it is chosen. -/
theorem value_of_visible
    {v : SymId → SymbolValue}
    {c : ChoiceId}
    (hWell : WellFormed t)
    (hSolves : t.equations.Solves v)
    (hChoice : (t.symbol s).choiceOf = some c)
    (hType : t.type s = .boolean ∨ t.type s = .tristate)
    (hHashed : s.isHashed = true)
    (hVisible : t.visibleIn v s = .yes) :
    (v s).tri = .yes ↔ (v (.choice c)).chosen = some s := by
  have hPlain : s.isChoice = false := by
    cases s with
    | choice d =>
        rw [hWell.choice_plain d] at hChoice
        cases hChoice
    | _ => rfl
  rw [hSolves s]
  show (t.valueIn v s).tri = .yes ↔ _
  rw [valueIn_of_tri hHashed hType, choiceIn_of_plain hPlain]
  show t.tristateIn v s = .yes ↔ _
  unfold tristateIn
  rw [hChoice, hVisible]
  simp only
  split
  · next hChosen => simp [hChosen]
  · next hChosen => simp [hChosen, settleTri]

/- The candidate that is found can be seen. -/
theorem chosenIn_mem
    {w : SymId → SymbolValue}
    {list : List (Option Expr × SymId)}
    {value : SymId}
    (hChosen : t.chosenIn w list = some value) :
    ∃ candidate ∈ list, candidate.2 = value ∧
      t.visibleIn w value ≠ .no := by
  induction list with
  | nil => cases hChosen
  | cons candidate list ih =>
      rcases candidate with ⟨cond, first⟩
      unfold chosenIn at hChosen
      split at hChosen
      · rcases ih hChosen with ⟨other, hMem, hRest⟩
        exact ⟨other, List.mem_cons_of_mem _ hMem, hRest⟩
      · next hSeen =>
          cases hChosen
          exact ⟨_, List.mem_cons_self, rfl,
            (not_or.mp hSeen).2⟩

/- A choice at `y` has chosen one of its values in sight. -/
theorem chosen_of_choice
    {v : SymId → SymbolValue}
    {c : ChoiceId}
    (hWell : WellFormed t)
    (hSolves : t.equations.Solves v)
    (hType : t.type (.choice c) = .boolean ∨
      t.type (.choice c) = .tristate)
    (hYes : (v (.choice c)).tri = .yes) :
    ∃ value, (v (.choice c)).chosen = some value ∧
      (t.symbol value).choiceOf = some c ∧
      t.visibleIn v value ≠ .no := by
  have hValue := value_of_choice hSolves hType
  unfold choiceIn at hValue
  split at hValue
  · next hOpen =>
      split at hValue
      · next value hChosen =>
          rcases chosenIn_mem hChosen with
            ⟨candidate, hMem, rfl, hSeen⟩
          refine ⟨candidate.2, by rw [hValue],
            hWell.candidate_value c candidate hMem, ?_⟩
          -- The choice counted as `y` when it looked.
          rwa [visibleIn_seen] at hSeen
          intro r _
          by_cases hSelf : r = .choice c
          · subst hSelf
            refine ⟨?_, ?_⟩
            · rw [Function.update_self, hYes]
              exact hOpen.2
            · unfold stringValue
              rw [Function.update_self, hYes, hOpen.2]
              rcases hType with hType | hType <;> simp [hType]
          · exact .of_eq (Function.update_of_ne hSelf _ _)
      · rw [hValue] at hYes
        cases hYes
  · next hClosed =>
      rw [hValue] at hYes
      exact absurd ⟨rfl, hYes⟩ hClosed

/-
  In every session: of the values of a choice that can be `y`
  at most one is, and a choice at `y` has chosen a value that
  can be seen, which is `y` where it can be.
-/
theorem Session.choice_one
    (hOrderly : Orderly rank t₀)
    (hFuel : ∀ s, rank s < fuel)
    (hIdle : Idle t₀ st₀)
    (hSession : Session fuel t₀ st₀ t st)
    (c : ChoiceId)
    (hChoice : st.valid (.choice c) = true)
    (hType : t.type (.choice c) = .boolean ∨
      t.type (.choice c) = .tristate)
    (values : List SymId)
    (hValues : ∀ s ∈ values,
      (t.symbol s).choiceOf = some c ∧
        st.valid s = true ∧ s.isHashed = true ∧
        (t.type s = .boolean ∨ t.type s = .tristate)) :
    (∀ s ∈ values, ∀ u ∈ values,
      st.visible s = .yes → st.visible u = .yes →
      (st.curr s).tri = .yes → (st.curr u).tri = .yes →
      s = u) ∧
    ((st.curr (.choice c)).tri = .yes →
      ∃ s, (st.curr (.choice c)).chosen = some s ∧
        (t.symbol s).choiceOf = some c ∧
        (s ∈ values → st.visible s ≠ .no ∧
          (st.visible s = .yes →
            (st.curr s).tri = .yes))) := by
  have hConfigured :=
    hSession.configured hOrderly hFuel hIdle
  rcases hConfigured.settled with ⟨v, hSolves, hSettled⟩
  have hWell := hConfigured.orderly.well
  rw [hSettled.done _ hChoice List.not_mem_nil]
  have hShown : ∀ s ∈ values,
      st.visible s = t.visibleIn v s ∧
        st.curr s = v s := by
    intro s hs
    rcases hValues s hs with ⟨_, hValid, hHashed, hTri⟩
    have hTyped : t.isTyped s = true := by
      rcases hTri with hTri | hTri <;>
        simp [isTyped, hHashed, hTri, SymbolType.startValue]
    exact ⟨(hSettled.shown s hValid List.not_mem_nil hTyped).1,
      hSettled.done s hValid List.not_mem_nil⟩
  have hOne : ∀ s ∈ values, st.visible s = .yes →
      ((st.curr s).tri = .yes ↔
        (v (.choice c)).chosen = some s) := by
    intro s hs hVisible
    rcases hValues s hs with ⟨hOf, _, hHashed, hTri⟩
    rw [(hShown s hs).2]
    exact value_of_visible hWell hSolves hOf hTri hHashed
      ((hShown s hs).1 ▸ hVisible)
  refine ⟨?_, ?_⟩
  · intro s hs u hu hSees hSeeu hYess hYesu
    have hFirst := (hOne s hs hSees).mp hYess
    have hSecond := (hOne u hu hSeeu).mp hYesu
    rw [hFirst] at hSecond
    exact Option.some.inj hSecond
  · intro hYes
    rcases chosen_of_choice hWell hSolves hType hYes with
      ⟨s, hChosen, hOf, hSeen⟩
    refine ⟨s, hChosen, hOf, ?_⟩
    intro hs
    exact ⟨(hShown s hs).1 ▸ hSeen,
      fun hVisible => (hOne s hs hVisible).mpr hChosen⟩

/-
  A tristate choice between a tristate `A` and a boolean `B`,
  which the user has set to `y`.
-/
def mixedTable : CalcTable :=
  let yes := { SymbolValue.empty with tri := .yes }
  let symbols :=
    [{ Symbol.alloc .modules none with
        type := .boolean
        defUser := yes
        hasUser := true
        props := [promptIf none] },
      { Symbol.alloc letterChoice none with
        type := .tristate
        defUser := yes
        hasUser := true
        props := [promptIf none]
        revDep := some (.symbol (.builtin .mod)) },
      { Symbol.alloc (letter 'A') none with
        type := .tristate
        choiceOf := some (.anonymous 0)
        props := [promptIf (some (.symbol letterChoice))] },
      { Symbol.alloc (letter 'B') none with
        type := .boolean
        choiceOf := some (.anonymous 0)
        props := [promptIf (some (.and
          (.equal letterChoice (.builtin .yes))
          (.unequal letterChoice (.builtin .no))))] }]
  ofTable symbols (fun _ => []) (choiceValues symbols) 64

def mixedOrder : List SymId :=
  [.builtin .no, .builtin .mod, .builtin .yes, .modules,
    letterChoice, letter 'A', letter 'B']

theorem mixedTable_orderly :
    Orderly (fun s => mixedOrder.idxOf s) mixedTable := by
  refine ⟨wellFormed_ofTable ?_ ?_ ?_ ?_ ?_ ?_,
    (adopted_ofTable ?_).grouped, ranked_ofTable ?_ ?_⟩
  · decide
  · decide
  · decide
  · intro c value hValue
    simpa using (List.mem_filter.mp hValue).2
  · decide
  · decide
  · decide
  · decide
  · decide

/- Of `A` and `B` one is chosen, and has the value `y`. -/
theorem mixedTable_choice_one :
    let st := mixedTable.calcRun 8 [letter 'A', letter 'B']
      (mixedTable.symClearAllValid 8 .initial)
    ∃ s, (st.curr letterChoice).chosen = some s ∧
      (mixedTable.symbol s).choiceOf = some (.anonymous 0) ∧
      (s ∈ [letter 'A', letter 'B'] →
        st.visible s ≠ .no ∧
          (st.visible s = .yes → (st.curr s).tri = .yes)) := by
  refine (Session.choice_one mixedTable_orderly
    (fun s => Nat.lt_succ_of_le List.idxOf_le_length)
    (idle_initial mixedTable)
    (Session.start.calcRun [letter 'A', letter 'B'])
    (.anonymous 0) ?_ ?_ [letter 'A', letter 'B'] ?_).2 ?_
  · decide
  · decide
  · decide
  · decide

end CalcTable

end Mkrootfs
