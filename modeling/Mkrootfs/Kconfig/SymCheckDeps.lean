import Mkrootfs.Kconfig.MenuFinalize
import Mkrootfs.Library.Schedule

/-
  The search for recursive dependencies (`sym_check_deps`)
  that ends `conf_parse`: a depth-first search in which a
  choice and its values are on the path together.

  Main declarations:
    * `checkedSyms`
    * `symCheckDeps`, `checkAll`
    * `NoRecursion`, `Accepts`
    * `NoRecursion.acyclic`
-/

------------------------------------------------------------
-- The Symbols That A Check Visits
------------------------------------------------------------

namespace Mkrootfs

/- The properties that `sym_check_sym_deps` skips. -/
def PropType.isSkipped : PropType → Bool
| .choice | .select | .buildSelect | .buildDepends => true
| _ => false

/- What is checked of one property. -/
def checkedOfProp (isChoice : Bool) (p : Property) :
    List SymId :=
  if p.type.isSkipped then
    []
  else if p.type = .default ∧ isChoice = false then
    optSyms p.visible ++ optSyms p.expr
  else
    optSyms p.visible

/- The symbols `sym_check_sym_deps` visits, in its order. -/
def Symbol.checkedSyms (s : Symbol) : List SymId :=
  optSyms s.revDep ++
    s.props.flatMap (checkedOfProp s.id.isChoice)

/- The same for a symbol of a table. -/
def checkedSyms (t : SymbolTable) (sym : SymId) :
    List SymId :=
  ((getSymbol t sym).map Symbol.checkedSyms).getD []

------------------------------------------------------------
-- The Search
------------------------------------------------------------

/-
  The flags `SYMBOL_CHECK` and `SYMBOL_CHECKED`, and the
  errors that were counted.
-/
structure CheckState where
  check : List SymId
  checked : List SymId
  errors : Nat

namespace CheckState

/- Set both flags. -/
def mark (st : CheckState) (syms : List SymId) :
    CheckState :=
  { st with
    check := syms ++ st.check
    checked := syms ++ st.checked }

/- Clear `SYMBOL_CHECK`. -/
def clear (st : CheckState) (syms : List SymId) :
    CheckState :=
  { st with check := st.check.filter (· ∉ syms) }

end CheckState

/-
  What a check returns: the symbol that was found again, or
  `NULL`.  No result stands for a search that has not ended.
-/
abbrev CheckResult := Option (Option SymId × CheckState)

/- Visit symbols up to the first that is found again. -/
def checkEach
    (visit : SymId → CheckState → CheckResult) :
    List SymId → CheckState → CheckResult
| [], st => some (none, st)
| sym :: syms, st =>
    match visit sym st with
    | none => none
    | some (some found, st) => some (some found, st)
    | some (none, st) => checkEach visit syms st

/- The choice of a choice value. -/
def choiceOf (t : SymbolTable) (sym : SymId) :
    Option ChoiceId :=
  (getSymbol t sym).bind Symbol.choiceOf

/- The values of a choice. -/
def choiceValues (t : SymbolTable) (c : ChoiceId) :
    List SymId :=
  (t.map Symbol.id).filter
    (fun sym => choiceOf t sym = some c)

/- `sym_check_choice_deps`. -/
def symCheckChoiceDeps
    (t : SymbolTable)
    (visit : SymId → CheckState → CheckResult)
    (c : ChoiceId)
    (st : CheckState) : CheckResult :=
  let values := choiceValues t c
  let marked := (st.mark values).mark [.choice c]
  let result :=
    match checkEach visit (checkedSyms t (.choice c)) marked with
    | none => none
    | some (some found, st) =>
        some (some found, st.clear [.choice c])
    | some (none, st) =>
        checkEach
          (fun value => checkEach visit (checkedSyms t value))
          values (st.clear [.choice c])
  match result with
  | none => none
  | some (found, st) =>
      some
        (found.map (fun sym =>
            if choiceOf t sym = some c then
              .choice c
            else
              sym),
          st.clear values)

/- The end of `sym_check_deps`. -/
def closeCheck
    (sym : SymId)
    (result : Option SymId × CheckState) :
    Option SymId × CheckState :=
  if result.1 = some sym then
    (none, { result.2 with errors := result.2.errors + 1 })
  else
    result

/-
  `sym_check_deps`.  A choice inside another choice follows a
  pointer that is no symbol, which ends no search.
-/
def symCheckDeps
    (t : SymbolTable) :
    Nat → SymId → CheckState → CheckResult
| 0, _, _ => none
| fuel + 1, sym, st =>
    if sym ∈ st.check then
      some (some sym, st)
    else if sym ∈ st.checked then
      some (none, st)
    else
      let visit := symCheckDeps t fuel
      let result :=
        match choiceOf t sym, sym with
        | some _, .choice _ => none
        | some c, _ => visit (.choice c) st
        | none, .choice c => symCheckChoiceDeps t visit c st
        | none, _ =>
            (checkEach visit (checkedSyms t sym)
              (st.mark [sym])).map
                (Prod.map id (fun st' : CheckState =>
                  st'.clear [sym]))
      result.map (closeCheck sym)

/- The loop of `conf_parse` over all symbols. -/
def checkAll
    (t : SymbolTable)
    (fuel : Nat) :
    List SymId → CheckState → Option CheckState
| [], st => some st
| sym :: syms, st =>
    match symCheckDeps t fuel sym st with
    | none => none
    | some (none, st) => checkAll t fuel syms st
    | some (some _, st) =>
        checkAll t fuel syms
          { st with errors := st.errors + 1 }

/-
  The symbols that `for_all_symbols` visits, in the order in
  which they were created.
-/
def allSymbols (t : SymbolTable) : List SymId :=
  (t.filter Symbol.isVisited).map Symbol.id

/- The search over a table ends without an error. -/
def NoRecursion (t : SymbolTable) : Prop :=
  ∃ fuel st,
    checkAll t fuel (allSymbols t) ⟨[], [], 0⟩ = some st ∧
    st.errors = 0

/- The result of a search that was run. -/
theorem noRecursion_of_checkAll
    {t : SymbolTable}
    (fuel : Nat)
    (hErrors :
      (checkAll t fuel (allSymbols t) ⟨[], [], 0⟩).map
        CheckState.errors = some 0) :
    NoRecursion t := by
  rcases Option.map_eq_some_iff.mp hErrors with
    ⟨st, hResult, hNone⟩
  exact ⟨fuel, st, hResult, hNone⟩

/-
  `conf_parse` reports no error on a tree and leaves these
  symbols and this menu.
-/
structure Accepts
    (host : ParseHost)
    (rw : Rewriting)
    (file : Text)
    (stmts : List Stmt)
    (t : SymbolTable)
    (menus : List Menu) : Prop where
  parsed : confParse host rw file stmts = some (t, menus)
  noRecursion : NoRecursion t

------------------------------------------------------------
-- Finished Symbols
------------------------------------------------------------

/-
  A value of a choice that is itself a value of a choice.
  Such a choice is marked as a value, and its own values are
  then never checked.
-/
def isHidden (t : SymbolTable) (sym : SymId) : Bool :=
  match choiceOf t sym with
  | none => false
  | some c => (choiceOf t (.choice c)).isSome

/- What a symbol checks, without these values. -/
def openSyms (t : SymbolTable) (sym : SymId) : List SymId :=
  (checkedSyms t sym).filter (fun other => !isHidden t other)

theorem openSyms_subset
    {t : SymbolTable}
    {sym : SymId}
    {done : List SymId}
    (hDone : ∀ other ∈ checkedSyms t sym,
      isHidden t other = false → other ∈ done) :
    openSyms t sym ⊆ done := by
  intro other hOther
  rcases List.mem_filter.mp hOther with ⟨hMem, hOpen⟩
  exact hDone other hMem (by simpa using hOpen)

/-
  The symbols that are finished stand in an order in which
  each comes after all that it checks.  A symbol is finished
  when its flag `SYMBOL_CHECK` is cleared again, and a choice
  is marked together with its values.
-/
structure Finished
    (t : SymbolTable)
    (done : List SymId)
    (st : CheckState) : Prop where
  ordered : respects (openSyms t) [] done = true
  checked : ∀ sym ∈ done, sym ∈ st.checked
  complete : ∀ sym ∈ st.checked, sym ∉ st.check → sym ∈ done
  together : ∀ sym c, choiceOf t sym = some c →
    isHidden t sym = false →
    .choice c ∈ st.checked → sym ∈ st.checked

/-
  What a visit keeps when it finds nothing: the list of
  finished symbols grows, and no flag `SYMBOL_CHECK` is left.
-/
structure Extends
    (t : SymbolTable)
    (done : List SymId)
    (st : CheckState)
    (done' : List SymId)
    (st' : CheckState) : Prop where
  finished : Finished t done' st'
  grows : done <+: done'
  kept : st.checked ⊆ st'.checked
  cleared : st'.check ⊆ st.check

namespace Extends

variable {t : SymbolTable}

theorem refl
    {done : List SymId}
    {st : CheckState}
    (hDone : Finished t done st) :
    Extends t done st done st :=
  ⟨hDone, List.prefix_rfl, List.Subset.refl _,
    List.Subset.refl _⟩

theorem trans
    {done done' done'' : List SymId}
    {st st' st'' : CheckState}
    (hFirst : Extends t done st done' st')
    (hSecond : Extends t done' st' done'' st'') :
    Extends t done st done'' st'' :=
  ⟨hSecond.finished, hFirst.grows.trans hSecond.grows,
    List.Subset.trans hFirst.kept hSecond.kept,
    List.Subset.trans hSecond.cleared hFirst.cleared⟩

end Extends

/-
  The symbols of a list finish together, once all that they
  check is finished.
-/
theorem Finished.append
    {t : SymbolTable}
    {done syms : List SymId}
    {st : CheckState}
    (hDone : Finished t done st)
    (hSyms : syms ⊆ st.checked)
    (hOpen : ∀ sym ∈ syms, openSyms t sym ⊆ done) :
    Finished t (done ++ syms) (st.clear syms) := by
  refine ⟨?_, ?_, ?_, hDone.together⟩
  · rw [respects_append, hDone.ordered, Bool.true_and,
      respects_iff]
    intro before target after hPlace p hp
    have hTarget : target ∈ syms := by
      rw [hPlace]
      exact List.mem_append_right _ List.mem_cons_self
    have hMem := hOpen target hTarget hp
    exact Or.inr (by simpa using hMem)
  · intro sym hSym
    rcases List.mem_append.mp hSym with hOld | hNew
    · exact hDone.checked sym hOld
    · exact hSyms hNew
  · intro sym hSym hClear
    rw [List.mem_append]
    by_cases hNew : sym ∈ syms
    · exact Or.inr hNew
    · refine Or.inl (hDone.complete sym hSym ?_)
      intro hCheck
      exact hClear (List.mem_filter.mpr ⟨hCheck, by simpa⟩)

/- Marked symbols are not finished yet. -/
theorem Finished.mark
    {t : SymbolTable}
    {done syms : List SymId}
    {st : CheckState}
    (hDone : Finished t done st)
    (hTogether : ∀ sym c, choiceOf t sym = some c →
      isHidden t sym = false →
      .choice c ∈ syms → sym ∈ syms) :
    Finished t done (st.mark syms) := by
  refine ⟨hDone.ordered, ?_, ?_, ?_⟩
  · intro sym hSym
    exact List.mem_append_right _ (hDone.checked sym hSym)
  · intro sym hSym hClear
    rcases List.mem_append.mp hSym with hNew | hOld
    · exact absurd (List.mem_append_left _ hNew) hClear
    · refine hDone.complete sym hOld ?_
      intro hCheck
      exact hClear (List.mem_append_right _ hCheck)
  · intro sym c hChoice hHidden hMem
    rcases List.mem_append.mp hMem with hNew | hOld
    · exact List.mem_append_left _
        (hTogether sym c hChoice hHidden hNew)
    · exact List.mem_append_right _
        (hDone.together sym c hChoice hHidden hOld)

/- The marks of a choice and its values. -/
theorem Finished.markChoice
    {t : SymbolTable}
    {done : List SymId}
    {st : CheckState}
    (hDone : Finished t done st)
    (c : ChoiceId)
    (hValues : ∀ sym, choiceOf t sym = some c →
      sym ∈ choiceValues t c) :
    Finished t done
      ((st.mark (choiceValues t c)).mark [.choice c]) := by
  change Finished t done
    (st.mark (.choice c :: choiceValues t c))
  refine hDone.mark ?_
  intro sym d hChoice hHidden hMem
  rcases List.mem_cons.mp hMem with hSame | hValue
  · cases hSame
    exact List.mem_cons_of_mem _ (hValues sym hChoice)
  · -- The choice `d` would be a value of `c`.
    have hInner := (List.mem_filter.mp hValue).2
    simp only [decide_eq_true_eq] at hInner
    simp [isHidden, hChoice, hInner] at hHidden

/-
  The end of a choice: it was finished after what it checks,
  and its values are finished after all that they check.
-/
theorem extends_choice
    {t : SymbolTable}
    {done done₁ done₂ values : List SymId}
    {st st₁ st₂ : CheckState}
    {c : ChoiceId}
    (hFirst : Extends t done
      ((st.mark values).mark [.choice c]) done₁ st₁)
    (hSecond : Extends t (done₁ ++ [.choice c])
      (st₁.clear [.choice c]) done₂ st₂)
    (hValues : ∀ value ∈ values, openSyms t value ⊆ done₂) :
    Extends t done st (done₂ ++ values)
      (st₂.clear values) := by
  have hMarked : (st.mark values).checked ⊆ st₂.checked := by
    refine List.Subset.trans ?_ hSecond.kept
    exact List.Subset.trans (List.subset_append_right _ _)
      hFirst.kept
  refine ⟨hSecond.finished.append ?_ ?_, ?_, ?_, ?_⟩
  · exact List.Subset.trans (List.subset_append_left _ _)
      hMarked
  · exact hValues
  · exact (hFirst.grows.trans (List.prefix_append _ _)).trans
      (hSecond.grows.trans (List.prefix_append _ _))
  · exact List.Subset.trans (List.subset_append_right _ _)
      hMarked
  · intro sym hSym
    rcases List.mem_filter.mp hSym with ⟨hCheck, hOther⟩
    rcases List.mem_filter.mp (hSecond.cleared hCheck) with
      ⟨hBefore, hNotChoice⟩
    have hMem := hFirst.cleared hBefore
    simp only [CheckState.mark, List.mem_append] at hMem
    simp only [decide_eq_true_eq] at hOther hNotChoice
    exact (hMem.resolve_left hNotChoice).resolve_left hOther

------------------------------------------------------------
-- What A Visit Finishes
------------------------------------------------------------

/-
  A search that finds nothing and counts no error finishes
  the symbols it was sent to.
-/
structure Finishes
    (t : SymbolTable)
    (syms : List SymId)
    (st : CheckState)
    (result : Option SymId × CheckState) : Prop where
  errors : st.errors ≤ result.2.errors
  finishes : result.1 = none →
    result.2.errors = st.errors →
    ∀ done, Finished t done st →
      ∃ done', Extends t done st done' result.2 ∧
        ∀ sym ∈ syms, isHidden t sym = false → sym ∈ done'

/-
  The visits of a list, one after the other, finish what each
  of them finishes.
-/
theorem finishes_checkEach
    {t : SymbolTable}
    {visit : SymId → CheckState → CheckResult}
    (reads : SymId → List SymId)
    (hVisit : ∀ sym st result,
      visit sym st = some result →
      Finishes t (reads sym) st result)
    (syms : List SymId)
    (st : CheckState)
    {result : Option SymId × CheckState}
    (hResult : checkEach visit syms st = some result) :
    Finishes t (syms.flatMap reads) st result := by
  induction syms generalizing st with
  | nil =>
      cases hResult
      exact ⟨Nat.le_refl _, fun _ _ done hDone =>
        ⟨done, .refl hDone, fun _ h => nomatch h⟩⟩
  | cons sym syms ih =>
      unfold checkEach at hResult
      split at hResult
      · cases hResult
      · next found st' hFirst =>
          cases hResult
          exact ⟨(hVisit sym st _ hFirst).errors,
            fun h => nomatch h⟩
      · next st' hFirst =>
          have hHead := hVisit sym st _ hFirst
          have hTail := ih st' hResult
          have hHeadLe : st.errors ≤ st'.errors := hHead.errors
          have hTailLe := hTail.errors
          refine ⟨hHeadLe.trans hTailLe, ?_⟩
          intro hNone hErrors done hDone
          have hHeadEq : st'.errors = st.errors := by omega
          have hTailEq : result.2.errors = st'.errors := by
            omega
          rcases hHead.finishes rfl hHeadEq done hDone with
            ⟨middle, hFirstDone, hSyms⟩
          rcases hTail.finishes hNone hTailEq middle
              hFirstDone.finished with ⟨last, hRest, hOthers⟩
          refine ⟨last, hFirstDone.trans hRest, ?_⟩
          intro other hOther hHidden
          rw [List.flatMap_cons] at hOther
          rcases List.mem_append.mp hOther with hHere | hLater
          · exact hRest.grows.subset
              (hSyms other hHere hHidden)
          · exact hOthers other hLater hHidden

section Visits

variable {t : SymbolTable}
variable {visit : SymId → CheckState → CheckResult}

/- `sym_check_sym_deps`. -/
theorem finishes_checkedSyms
    (hVisit : ∀ sym st result,
      visit sym st = some result →
      Finishes t [sym] st result)
    (sym : SymId)
    (st : CheckState)
    (result : Option SymId × CheckState)
    (hResult :
      checkEach visit (checkedSyms t sym) st = some result) :
    Finishes t (checkedSyms t sym) st result := by
  have hAll := finishes_checkEach (fun sym => [sym]) hVisit
    (checkedSyms t sym) st hResult
  rwa [List.flatMap_singleton'] at hAll

/- The values of a choice are among its values. -/
theorem mem_choiceValues
    {sym : SymId}
    {c : ChoiceId}
    (hChoice : choiceOf t sym = some c) :
    sym ∈ choiceValues t c := by
  refine List.mem_filter.mpr ⟨?_, by simpa using hChoice⟩
  rcases Option.bind_eq_some_iff.mp hChoice with ⟨s, hGet, _⟩
  rw [← getSymbol_id hGet]
  exact List.mem_map_of_mem (getSymbol_mem hGet)

/-
  `sym_check_choice_deps`: the choice is finished before its
  values, which are finished together.
-/
theorem finishes_symCheckChoiceDeps
    (hVisit : ∀ sym st result,
      visit sym st = some result →
      Finishes t [sym] st result)
    (c : ChoiceId)
    (st : CheckState)
    (result : Option SymId × CheckState)
    (hValues : ∀ sym, choiceOf t sym = some c →
      sym ∈ choiceValues t c)
    (hResult : symCheckChoiceDeps t visit c st = some result) :
    Finishes t [.choice c] st result := by
  unfold symCheckChoiceDeps at hResult
  simp only at hResult
  generalize hMarked : (st.mark (choiceValues t c)).mark
    [.choice c] = marked at hResult
  have hMarkedErrors : marked.errors = st.errors := by
    rw [← hMarked]
    rfl
  cases hChoice : checkEach visit (checkedSyms t (.choice c))
      marked with
  | none => simp [hChoice] at hResult
  | some first =>
      rcases first with ⟨found, st₁⟩
      have hFirst := finishes_checkedSyms hVisit _ _ _ hChoice
      have hFirstLe : marked.errors ≤ st₁.errors :=
        hFirst.errors
      cases found with
      | some found =>
          simp only [hChoice, Option.map_some,
            Option.some.injEq] at hResult
          subst hResult
          exact ⟨by simpa [CheckState.clear, hMarkedErrors]
            using hFirstLe, fun h => nomatch h⟩
      | none =>
          simp only [hChoice] at hResult
          cases hRest : checkEach
              (fun value =>
                checkEach visit (checkedSyms t value))
              (choiceValues t c) (st₁.clear [.choice c]) with
          | none => simp [hRest] at hResult
          | some second =>
              rcases second with ⟨found, st₂⟩
              have hSecond := finishes_checkEach
                (checkedSyms t) (finishes_checkedSyms hVisit)
                _ _ hRest
              have hSecondLe : st₁.errors ≤ st₂.errors :=
                hSecond.errors
              simp only [hRest, Option.some.injEq] at hResult
              subst hResult
              refine ⟨?_, ?_⟩
              · show st.errors ≤ st₂.errors
                omega
              · intro hNone hErrors done hDone
                have hSame : st₂.errors = st.errors := hErrors
                have hMark : Finished t done marked := by
                  rw [← hMarked]
                  exact hDone.markChoice c hValues
                have hErrors₁ : st₁.errors = marked.errors := by
                  omega
                have hErrors₂ : st₂.errors = st₁.errors := by
                  omega
                have hNothing : found = none := by
                  simpa using hNone
                rcases hFirst.finishes rfl hErrors₁ done hMark
                  with ⟨done₁, hExtends₁, hSyms₁⟩
                have hIn : [SymId.choice c] ⊆ st₁.checked := by
                  refine List.Subset.trans ?_ hExtends₁.kept
                  rw [← hMarked]
                  exact List.subset_append_left _ _
                have hOpen : ∀ sym ∈ [SymId.choice c],
                    openSyms t sym ⊆ done₁ := by
                  intro sym hSym
                  cases List.mem_singleton.mp hSym
                  exact openSyms_subset hSyms₁
                have hChoiceDone :=
                  hExtends₁.finished.append hIn hOpen
                rcases hSecond.finishes hNothing hErrors₂ _
                    hChoiceDone with ⟨done₂, hExtends₂, hSyms₂⟩
                rw [← hMarked] at hExtends₁
                refine ⟨done₂ ++ choiceValues t c,
                  extends_choice hExtends₁ hExtends₂ ?_, ?_⟩
                · intro value hValue
                  refine openSyms_subset ?_
                  intro sym hSym
                  exact hSyms₂ sym
                    (List.mem_flatMap.mpr
                      ⟨value, hValue, hSym⟩)
                · intro sym hSym _
                  refine List.mem_append_left _ ?_
                  exact hExtends₂.grows.subset
                    (List.mem_append_right _ hSym)

/- The end of a check only hides the symbol itself. -/
theorem finishes_close
    {sym : SymId}
    {st : CheckState}
    {result : Option SymId × CheckState}
    (hResult : Finishes t [sym] st result) :
    Finishes t [sym] st (closeCheck sym result) := by
  unfold closeCheck
  split
  · have hLe := hResult.errors
    refine ⟨Nat.le_succ_of_le hLe, ?_⟩
    intro _ hErrors
    -- An error was counted.
    simp only at hErrors
    omega
  · exact hResult

/- A value of a choice is finished with the choice. -/
theorem finishes_value
    {sym : SymId}
    {c : ChoiceId}
    {st : CheckState}
    {result : Option SymId × CheckState}
    (hCheck : sym ∉ st.check)
    (hChoice : choiceOf t sym = some c)
    (hResult : Finishes t [.choice c] st result) :
    Finishes t [sym] st result := by
  refine ⟨hResult.errors, ?_⟩
  intro hNone hErrors done hDone
  rcases hResult.finishes hNone hErrors done hDone with
    ⟨done', hExtends, hSyms⟩
  refine ⟨done', hExtends, ?_⟩
  intro other hOther hHidden
  cases List.mem_singleton.mp hOther
  have hOpen : isHidden t (.choice c) = false := by
    simp only [isHidden, hChoice, Option.isSome_eq_false_iff,
      Option.isNone_iff_eq_none] at hHidden
    simp [isHidden, hHidden]
  have hChoiceDone := hSyms (.choice c) List.mem_cons_self hOpen
  refine hExtends.finished.complete sym ?_ ?_
  · exact hExtends.finished.together sym c hChoice hHidden
      (hExtends.finished.checked _ hChoiceDone)
  · exact fun h => hCheck (hExtends.cleared h)

/- A symbol that is neither a choice nor a value of one. -/
theorem finishes_plain
    (hVisit : ∀ sym st result,
      visit sym st = some result →
      Finishes t [sym] st result)
    (sym : SymId)
    (st : CheckState)
    (result : Option SymId × CheckState)
    (hPlain : ∀ c, sym ≠ .choice c)
    (hResult :
      checkEach visit (checkedSyms t sym) (st.mark [sym]) =
        some result) :
    Finishes t [sym] st
      (Prod.map id (fun st' : CheckState =>
        st'.clear [sym]) result) := by
  have hChecked := finishes_checkedSyms hVisit _ _ _ hResult
  have hErrorsLe : st.errors ≤ result.2.errors :=
    hChecked.errors
  refine ⟨hErrorsLe, ?_⟩
  intro hNone hErrors done hDone
  have hMark : Finished t done (st.mark [sym]) := by
    refine hDone.mark ?_
    intro _ c _ _ hMem
    exact absurd (List.mem_singleton.mp hMem).symm (hPlain c)
  rcases hChecked.finishes hNone hErrors done hMark with
    ⟨done', hExtends, hSyms⟩
  have hIn : [sym] ⊆ result.2.checked :=
    List.Subset.trans (List.subset_append_left _ _)
      hExtends.kept
  have hOpen : ∀ other ∈ [sym], openSyms t other ⊆ done' := by
    intro other hOther
    cases List.mem_singleton.mp hOther
    exact openSyms_subset hSyms
  refine ⟨done' ++ [sym],
    ⟨hExtends.finished.append hIn hOpen,
      hExtends.grows.trans (List.prefix_append _ _), ?_, ?_⟩,
    ?_⟩
  · exact List.Subset.trans (List.subset_append_right _ _)
      hExtends.kept
  · intro other hOther
    rcases List.mem_filter.mp hOther with ⟨hCheck, hOther⟩
    rcases List.mem_append.mp (hExtends.cleared hCheck) with
      hSelf | hBefore
    · simp [List.mem_singleton.mp hSelf] at hOther
    · exact hBefore
  · intro other hOther _
    exact List.mem_append_right _ hOther

end Visits

/- `sym_check_deps`, by induction on the nesting of calls. -/
theorem finishes_symCheckDeps
    (t : SymbolTable)
    (fuel : Nat) :
    ∀ sym st result,
      symCheckDeps t fuel sym st = some result →
      Finishes t [sym] st result := by
  induction fuel with
  | zero =>
      intro sym st result hResult
      cases hResult
  | succ fuel ih =>
      intro sym st result hResult
      unfold symCheckDeps at hResult
      split at hResult
      · cases hResult
        exact ⟨Nat.le_refl _, fun h => nomatch h⟩
      · next hCheck =>
          split at hResult
          · next hChecked =>
              cases hResult
              refine ⟨Nat.le_refl _, ?_⟩
              intro _ _ done hDone
              refine ⟨done, .refl hDone, ?_⟩
              intro other hOther _
              cases List.mem_singleton.mp hOther
              exact hDone.complete sym hChecked hCheck
          · next hChecked =>
              rcases Option.map_eq_some_iff.mp hResult with
                ⟨inner, hInner, rfl⟩
              refine finishes_close ?_
              split at hInner
              · cases hInner
              · next c _ hChoice =>
                  exact finishes_value hCheck hChoice
                    (ih _ _ _ hInner)
              · next c _ =>
                  exact finishes_symCheckChoiceDeps ih c st inner
                    (fun other => mem_choiceValues) hInner
              · next hNot _ =>
                  rcases Option.map_eq_some_iff.mp hInner with
                    ⟨checked, hChecked, rfl⟩
                  exact finishes_plain ih _ st checked hNot
                    hChecked

------------------------------------------------------------
-- Searches That Find Nothing
------------------------------------------------------------

/- The loop over all symbols finishes each of them. -/
theorem finished_checkAll
    {t : SymbolTable}
    {fuel : Nat}
    {syms : List SymId}
    {st st' : CheckState}
    (hResult : checkAll t fuel syms st = some st') :
    st.errors ≤ st'.errors ∧
      (st'.errors = st.errors →
        ∀ done, Finished t done st →
          ∃ done', Finished t done' st' ∧ done ⊆ done' ∧
            ∀ sym ∈ syms, isHidden t sym = false →
              sym ∈ done') := by
  induction syms generalizing st with
  | nil =>
      cases hResult
      refine ⟨Nat.le_refl _, ?_⟩
      intro _ done hDone
      exact ⟨done, hDone, List.Subset.refl _,
        fun _ h => nomatch h⟩
  | cons sym syms ih =>
      unfold checkAll at hResult
      split at hResult
      · cases hResult
      · next middle hFirst =>
          have hHead := finishes_symCheckDeps t fuel sym st _
            hFirst
          have hHeadLe : st.errors ≤ middle.errors :=
            hHead.errors
          rcases ih hResult with ⟨hTailLe, hTail⟩
          refine ⟨hHeadLe.trans hTailLe, ?_⟩
          intro hErrors done hDone
          have hHeadEq : middle.errors = st.errors := by omega
          rcases hHead.finishes rfl hHeadEq done hDone with
            ⟨between, hExtends, hSym⟩
          rcases hTail (by omega) between hExtends.finished with
            ⟨last, hLast, hGrows, hSyms⟩
          refine ⟨last, hLast,
            List.Subset.trans hExtends.grows.subset hGrows, ?_⟩
          intro other hOther hHidden
          rcases List.mem_cons.mp hOther with rfl | hLater
          · exact hGrows (hSym other List.mem_cons_self hHidden)
          · exact hSyms other hLater hHidden
      · next found middle hFirst =>
          have hHeadLe : st.errors ≤ middle.errors :=
            (finishes_symCheckDeps t fuel sym st _
              hFirst).errors
          have hTailLe : middle.errors + 1 ≤ st'.errors :=
            (ih hResult).1
          exact ⟨by omega, by omega⟩

/-
  Where the search finds nothing, no symbol checks itself
  through others, hidden values aside.
-/
theorem NoRecursion.acyclic
    {t : SymbolTable}
    (hNone : NoRecursion t)
    {sym : SymId}
    (hMem : sym ∈ allSymbols t)
    (hHidden : isHidden t sym = false) :
    ¬ Relation.TransGen
      (fun sym other => other ∈ openSyms t sym) sym sym := by
  rcases hNone with ⟨fuel, st, hResult, hErrors⟩
  have hStart : Finished t [] ⟨[], [], 0⟩ :=
    ⟨rfl, by simp, by simp, by simp⟩
  rcases (finished_checkAll hResult).2 hErrors [] hStart with
    ⟨done, hDone, _, hSyms⟩
  exact acyclic_of_respects hDone.ordered
    (hSyms sym hMem hHidden)

end Mkrootfs
