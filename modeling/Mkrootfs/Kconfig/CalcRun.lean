import Mkrootfs.Kconfig.CalcSettled

/-
  One call of the calculator, statement by statement, and
  calls nested in it.

  A symbol under way has its visibility from the start and
  keeps it.  What the calls below it give are the values of
  the equations, and at its end it has its own.

  Main declarations:
    * `Running`
    * `calcNewval_follows`, `symCalcChoice_settles`
    * `symCalcValue_settles`
-/

------------------------------------------------------------
-- Symbols Under Way
------------------------------------------------------------

namespace Mkrootfs

namespace CalcTable

/-
  A symbol that is being calculated, once its visibility is:
  its choice and, where it asks for them, the modules have
  their values.
-/
structure Running
    (t : CalcTable)
    (rank : SymId → Nat)
    (v : SymId → SymbolValue)
    (calls : List SymId)
    (s : SymId)
    (st : CalcState) : Prop where
  settled : Settled t v calls st
  called : s ∈ calls
  visible : st.visible s = t.visibleIn v s
  rev : st.revTri s = t.revIn v s
  choice : ∀ c, (t.symbol s).choiceOf = some c →
    st.valid (.choice c) = true ∧ .choice c ∉ calls
  modules : .modules ∈ t.reads s →
    st.valid .modules = true ∧ .modules ∉ calls
  reads : ∀ r ∈ t.reads s, Callable rank calls st r

variable {t : CalcTable}
variable {rank : SymId → Nat}
variable {v : SymId → SymbolValue}
variable {calls : List SymId}
variable {st st' : CalcState}
variable {s : SymId}

/- The parts of what a symbol reads. -/
theorem reads_of_typed
    (hTyped : t.isTyped s = true) :
    t.reads s =
      t.shownReads s ++ t.revReads s ++ t.defaultReads s ++
        t.rangeReads s ++ t.candidateReads s :=
  if_pos hTyped

section Reads

variable {r : SymId}
variable (hTyped : t.isTyped s = true)

include hTyped

theorem mem_reads_of_shown
    (hr : r ∈ t.shownReads s) : r ∈ t.reads s := by
  rw [reads_of_typed hTyped]
  simp [hr]

theorem mem_reads_of_rev
    (hr : r ∈ t.revReads s) : r ∈ t.reads s := by
  rw [reads_of_typed hTyped]
  simp [hr]

theorem mem_reads_of_default
    (hr : r ∈ t.defaultReads s) : r ∈ t.reads s := by
  rw [reads_of_typed hTyped]
  simp [hr]

theorem mem_reads_of_range
    (hr : r ∈ t.rangeReads s) : r ∈ t.reads s := by
  rw [reads_of_typed hTyped]
  simp [hr]

theorem mem_reads_of_candidate
    (hr : r ∈ t.candidateReads s) : r ∈ t.reads s := by
  rw [reads_of_typed hTyped]
  simp [hr]

end Reads

namespace Running

variable (hRunning : Running t rank v calls s st)

include hRunning

theorem valid : st.valid s = true :=
  hRunning.settled.called s hRunning.called

theorem ready :
    ∀ r ∈ t.reads s, Ready rank v calls v st r :=
  fun r hr => Or.inr ⟨hRunning.reads r hr, rfl⟩

/- Steps that leave the visibility of the symbol alone. -/
theorem keeps
    {X Y : Set SymId}
    (hSettled : Settled t v calls st')
    (hKeeps : Keeps t X Y st st')
    (hOut : s ∉ Y) :
    Running t rank v calls s st' := by
  have hShown := hKeeps.shown s hOut hRunning.valid
    (fun c hc => (hRunning.choice c hc).1)
  refine ⟨hSettled, hRunning.called,
    hShown.1.trans hRunning.visible,
    hShown.2.trans hRunning.rev, ?_, ?_, ?_⟩
  · intro c hc
    rcases hRunning.choice c hc with ⟨hValid, hClosed⟩
    exact ⟨hKeeps.valid _ hValid, hClosed⟩
  · intro hModules
    rcases hRunning.modules hModules with ⟨hValid, hClosed⟩
    exact ⟨hKeeps.valid _ hValid, hClosed⟩
  · intro r hr
    exact (hRunning.reads r hr).mono hKeeps.valid

theorem follows
    (hFollows : Follows t v calls st st') :
    Running t rank v calls s st' :=
  hRunning.keeps hFollows.settled hFollows.keeps
    (Set.notMem_empty s)

theorem setCurr
    (value : SymbolValue) :
    Running t rank v calls s (st.setCurr s value) :=
  hRunning.keeps
    (hRunning.settled.setCurr hRunning.called hRunning.valid
      value)
    (.setCurr (Set.mem_singleton s) value)
    (Set.notMem_empty s)

/- `sym_get_type` is the type of the equations. -/
theorem type_eq
    (hTyped : t.isTyped s = true) :
    t.symGetType st s = t.typeIn v s := by
  unfold symGetType typeIn
  rw [hRunning.visible]
  refine typeAt_congr ?_ _
  intro hType
  have hRead : .modules ∈ t.reads s :=
    mem_reads_of_shown hTyped
      (by simp [shownReads, typeReads, hType])
  rcases hRunning.modules hRead with ⟨hValid, hClosed⟩
  exact hRunning.settled.modules hValid hClosed

end Running

------------------------------------------------------------
-- Values
------------------------------------------------------------

section Values

variable {call : SymId → CalcState → CalcState}
variable (hCalls : Calls t rank v calls call)
variable (hTyped : t.isTyped s = true)
variable (hRunning : Running t rank v calls s st)

include hCalls hTyped hRunning

/- The default that is found, with what it may read. -/
theorem firstDefault_follows
    (hDefaults : ¬ (s.isChoice ∧
      (t.type s = .boolean ∨ t.type s = .tristate))) :
    Follows t v calls st
        (t.firstVisible call Property.visible
          (t.defaults s) st).2 ∧
      (t.firstVisible call Property.visible
          (t.defaults s) st).1 =
        t.firstIn v Property.visible (t.defaults s) ∧
      ∀ p tri,
        t.firstIn v Property.visible (t.defaults s) =
          some (p, tri) →
        ∀ r ∈ optSyms p.expr, r ∈ t.reads s := by
  have hRead : ∀ p ∈ t.defaults s,
      ∀ r ∈ optSyms p.visible ++ optSyms p.expr,
        r ∈ t.reads s := by
    intro p hp r hr
    refine mem_reads_of_default hTyped ?_
    rw [defaultReads, if_neg hDefaults]
    exact List.mem_flatMap.mpr ⟨p, hp, hr⟩
  rcases firstVisible_follows hCalls (t.defaults s)
      hRunning.settled (fun p hp r hr =>
        hRunning.ready r
          (hRead p hp r (List.mem_append_left _ hr))) with
    ⟨hFollows, hFirst⟩
  refine ⟨hFollows, hFirst, ?_⟩
  intro p tri hSome r hr
  exact hRead p (firstIn_mem hSome).1 r
    (List.mem_append_right _ hr)

theorem calcDefaultTri_follows
    (hPlain : s.isChoice = false) :
    Follows t v calls st (t.calcDefaultTri call s st).2 ∧
      (t.calcDefaultTri call s st).1 =
        t.defaultTriIn v s := by
  rcases firstDefault_follows hCalls hTyped hRunning
      (by simp [hPlain]) with ⟨hFirst, hFound, hRead⟩
  unfold calcDefaultTri defaultTriIn
  simp only [hFound]
  generalize hSome : t.firstIn v Property.visible
    (t.defaults s) = found at hRead
  cases found with
  | none => exact ⟨hFirst, rfl⟩
  | some found =>
      rcases found with ⟨p, tri⟩
      have hWritten := hFirst.setWrite s true
      have hNow := hRunning.follows hWritten
      rcases calcCond_follows hCalls p.expr hNow.settled
          (fun r hr => hNow.ready r (hRead p tri rfl r hr)) with
        ⟨hSecond, hValue, _⟩
      exact ⟨hWritten.trans hSecond, by simp only [hValue]⟩

theorem calcFreeTri_follows :
    Follows t v calls st
        (t.calcFreeTri call s (t.visibleIn v s) st).2 ∧
      (t.calcFreeTri call s (t.visibleIn v s) st).1 =
        t.freeTriIn v s (t.visibleIn v s) := by
  generalize t.visibleIn v s = visible
  have hFirst : Follows t v calls st
      (if visible = .no then st else st.setWrite s true) := by
    split
    · exact .refl hRunning.settled
    · exact (Follows.refl hRunning.settled).setWrite s true
  have hNow := hRunning.follows hFirst
  unfold calcFreeTri freeTriIn
  simp only
  generalize (if visible = .no then st
    else st.setWrite s true) = st₁ at hFirst hNow
  split
  · exact ⟨hFirst, by rw [hNow.rev]⟩
  · have hSecond : Follows t v calls st
        (if st₁.revTri s = .no then st₁
          else st₁.setWrite s true) := by
      split
      · exact hFirst
      · exact hFirst.setWrite s true
    have hThen := hRunning.follows hSecond
    generalize (if st₁.revTri s = .no then st₁
      else st₁.setWrite s true) = st₂ at hSecond hThen
    cases hChoice : s.isChoice with
    | true =>
        simp only [if_true]
        exact ⟨hSecond, by rw [hThen.rev]⟩
    | false =>
        rcases calcDefaultTri_follows hCalls hTyped hThen
            hChoice with ⟨hThird, hValue⟩
        simp only [Bool.false_eq_true, if_false]
        refine ⟨hSecond.trans hThird, ?_⟩
        rw [hValue, (hThen.follows hThird).rev]

theorem calcTristate_follows :
    Follows t v calls st (t.calcTristate call s st).2 ∧
      (t.calcTristate call s st).1 = t.tristateIn v s := by
  have hFree := calcFreeTri_follows hCalls hTyped hRunning
  have hType :=
    (hRunning.follows hFree.1).type_eq hTyped
  unfold calcTristate tristateIn
  simp only [hRunning.visible]
  cases hChoice : (t.symbol s).choiceOf with
  | none => exact ⟨hFree.1, by simp only [hFree.2, hType]⟩
  | some c =>
      rcases hRunning.choice c hChoice with ⟨hValid, hClosed⟩
      cases hVisible : t.visibleIn v s with
      | yes =>
          refine ⟨.refl hRunning.settled, ?_⟩
          simp only [hRunning.settled.done _ hValid hClosed,
            hRunning.type_eq hTyped]
      | no =>
          rw [hVisible] at hFree hType
          exact ⟨hFree.1, by simp only [hFree.2, hType]⟩
      | mod =>
          rw [hVisible] at hFree hType
          exact ⟨hFree.1, by simp only [hFree.2, hType]⟩

theorem calcString_follows
    (newval : SymbolValue)
    (hType : ¬ (t.type s = .boolean ∨ t.type s = .tristate)) :
    Follows t v calls st (t.calcString call s newval st).2 ∧
      (t.calcString call s newval st).1 =
        t.stringIn v s newval := by
  have hFirst : Follows t v calls st
      (if st.visible s = .no then st
        else st.setWrite s true) := by
    split
    · exact .refl hRunning.settled
    · exact (Follows.refl hRunning.settled).setWrite s true
  have hNow := hRunning.follows hFirst
  unfold calcString stringIn
  simp only
  generalize (if st.visible s = .no then st
    else st.setWrite s true) = st₁ at hFirst hNow
  rw [hNow.visible]
  split
  · exact ⟨hFirst, rfl⟩
  · rcases firstDefault_follows hCalls hTyped hNow
        (fun h => hType h.2) with ⟨hSecond, hFound, hRead⟩
    simp only [hFound]
    generalize hSome : t.firstIn v Property.visible
      (t.defaults s) = found at hRead
    cases found with
    | none => exact ⟨hFirst.trans hSecond, rfl⟩
    | some found =>
        rcases found with ⟨p, tri⟩
        cases hSymbol : p.symbol with
        | none =>
            simp only [hSymbol]
            exact ⟨hFirst.trans hSecond, trivial⟩
        | some ds =>
            have hMem := p.symbol_mem hSymbol
            have hWritten := hSecond.setWrite s true
            have hThen := hNow.follows hWritten
            rcases call_follows hCalls hThen.settled
                (hThen.ready ds (hRead p tri rfl ds hMem)) with
              ⟨hThird, _, hCurr⟩
            simp only [hSymbol, hCurr]
            exact ⟨(hFirst.trans hWritten).trans hThird,
              trivial⟩

/- The `switch` gives the value of the equations. -/
theorem calcNewval_follows
    (newval : SymbolValue) :
    Follows t v calls st (t.calcNewval call s newval st).2 ∧
      (t.calcNewval call s newval st).1 =
        t.newvalIn v s newval := by
  have hIff := t.typeAt_iff (v .modules).tri
    (t.visibleIn v s) s
  unfold calcNewval newvalIn
  rw [hRunning.type_eq hTyped]
  generalize hType : t.typeIn v s = type
  rw [show t.typeAt _ _ s = type from hType] at hIff
  have hTri := calcTristate_follows hCalls hTyped hRunning
  cases type with
  | boolean => exact ⟨hTri.1, by simp only [hTri.2]⟩
  | tristate => exact ⟨hTri.1, by simp only [hTri.2]⟩
  | int =>
      exact calcString_follows hCalls hTyped hRunning newval
        (by simp [← hIff])
  | hex =>
      exact calcString_follows hCalls hTyped hRunning newval
        (by simp [← hIff])
  | string =>
      exact calcString_follows hCalls hTyped hRunning newval
        (by simp [← hIff])
  | unknown => exact ⟨.refl hRunning.settled, rfl⟩
  | other => exact ⟨.refl hRunning.settled, rfl⟩

end Values

------------------------------------------------------------
-- Choices
------------------------------------------------------------

/- The values of a symbol that is a choice. -/
def membersOf (t : CalcTable) (s : SymId) : Set SymId :=
  {value | ∃ c, s = .choice c ∧
    (t.symbol value).choiceOf = some c}

/- A choice is none of its values. -/
theorem WellFormed.notMem_membersOf
    (hWell : WellFormed t)
    (s : SymId) : s ∉ t.membersOf s := by
  rintro ⟨c, rfl, hChoice⟩
  rw [hWell.choice_plain c] at hChoice
  cases hChoice

section Choices

variable {call : SymId → CalcState → CalcState}
variable (hCalls : Calls t rank v calls call)
variable {w : SymId → SymbolValue}

include hCalls

/- The candidates of an open choice, one after the other. -/
theorem firstShown_settles
    (hSame : (w .modules).tri = (v .modules).tri)
    (hCall : s ∈ calls)
    (list : List (Option Expr × SymId))
    {st : CalcState}
    (hSettled : Settled t v calls st)
    (hMembers : ∀ candidate ∈ list,
      candidate.2 ∈ t.membersOf s)
    (hReady : ∀ candidate ∈ list,
      ∀ r ∈ optSyms candidate.1 ++ t.shownReads candidate.2,
        Ready rank v calls w st r)
    (hModules : ∀ candidate ∈ list,
      t.type candidate.2 = .tristate →
      st.valid .modules = true ∧ .modules ∉ calls) :
    Settled t v calls (t.firstShown call list st).2 ∧
      Keeps t ∅ (t.membersOf s) st
        (t.firstShown call list st).2 ∧
      (t.firstShown call list st).1 =
        t.chosenIn w list := by
  induction list generalizing st with
  | nil => exact ⟨hSettled, .refl, rfl⟩
  | cons candidate list ih =>
      have hTail : ∀ {st'},
          Keeps t ∅ (t.membersOf s) st st' →
          Settled t v calls st' →
          Settled t v calls (t.firstShown call list st').2 ∧
            Keeps t ∅ (t.membersOf s) st
              (t.firstShown call list st').2 ∧
            (t.firstShown call list st').1 =
              t.chosenIn w list := by
        intro st' hKeeps hAfter
        rcases ih hAfter
            (fun other hOther => hMembers other
              (List.mem_cons_of_mem _ hOther))
            (fun other hOther r hr => (hReady other
              (List.mem_cons_of_mem _ hOther) r hr).mono hKeeps)
            (fun other hOther hType => by
              rcases hModules other
                (List.mem_cons_of_mem _ hOther) hType with
                ⟨hValid, hClosed⟩
              exact ⟨hKeeps.valid _ hValid, hClosed⟩) with
          ⟨hRest, hKeepsRest, hChosen⟩
        exact ⟨hRest, hKeeps.trans hKeepsRest, hChosen⟩
      rcases candidate with ⟨cond, value⟩
      have hHead := hReady (cond, value) List.mem_cons_self
      have hMember := hMembers (cond, value) List.mem_cons_self
      rcases hMember with ⟨c, hChoice, hValue⟩
      rcases calcCond_follows hCalls cond hSettled
          (fun r hr => hHead r
            (List.mem_append_left _ hr)) with
        ⟨hFirst, hCond, _⟩
      unfold firstShown chosenIn
      simp only [hCond]
      by_cases hNo : t.condIn w cond = .no
      · rw [if_pos hNo, if_pos (Or.inl hNo)]
        exact hTail hFirst.keeps.widen hFirst.settled
      · rw [if_neg hNo]
        have hPrompt : ∀ p ∈ t.prompts value,
            ∀ r ∈ optSyms p.visible,
              r ∈ optSyms cond ++ t.shownReads value :=
          fun p hp r hr => List.mem_append_right _
            (List.mem_append_left _
              (List.mem_flatMap.mpr ⟨p, hp, hr⟩))
        rcases symCalcVisibility_settles hCalls hFirst.settled
            (s := value)
            (Or.inr ⟨c, hValue, hChoice ▸ hCall⟩)
            (fun p hp r hr => (hHead r
              (hPrompt p hp r hr)).mono hFirst.keeps)
            (fun hPlain => by
              simp [isChoiceValue, hValue] at hPlain)
            (fun hType => by
              rcases hModules (cond, value)
                List.mem_cons_self hType with
                ⟨hValid, hClosed⟩
              exact ⟨hFirst.keeps.valid _ hValid, hClosed⟩)
            hSame with
          ⟨hSecond, hKeeps, hVisible, _, _⟩
        have hBoth : Keeps t ∅ (t.membersOf s) st
            (t.symCalcVisibility call value
              (t.calcCond call cond st).2) :=
          hFirst.keeps.widen.trans
            (hKeeps.mono (Set.Subset.refl _)
              (Set.singleton_subset_iff.mpr
                ⟨c, hChoice, hValue⟩))
        simp only [hVisible]
        by_cases hHidden : t.visibleIn w value = .no
        · rw [if_pos hHidden, if_pos (Or.inr hHidden)]
          exact hTail hBoth hSecond
        · rw [if_neg hHidden,
            if_neg (not_or.mpr ⟨hNo, hHidden⟩)]
          exact ⟨hSecond, hBoth, rfl⟩

/-
  `sym_calc_choice`: the candidates are seen as if the choice
  had its value from before, which it has.
-/
theorem symCalcChoice_settles
    (hWell : WellFormed t)
    (hTyped : t.isTyped s = true)
    (hRunning : Running t rank v calls s st)
    {newval : SymbolValue}
    (hCurr : st.curr s = newval)
    (hChoice : s.isChoice = true)
    (hYes : newval.tri = .yes) :
    Running t rank v calls s (t.symCalcChoice call s st) ∧
      Keeps t {s} (t.membersOf s) st
        (t.symCalcChoice call s st) ∧
      (t.symCalcChoice call s st).curr s =
        t.choiceIn v s newval := by
  rcases (show ∃ c, s = .choice c by
    cases s <;> first | exact ⟨_, rfl⟩ | cases hChoice) with
    ⟨c, rfl⟩
  have hRead : ∀ candidate ∈ t.candidates (.choice c),
      ∀ r ∈ optSyms candidate.1 ++ t.shownReads candidate.2,
        r ≠ .choice c → r ∈ t.reads (.choice c) := by
    intro candidate hCandidate r hr hNe
    exact mem_reads_of_candidate hTyped
      (List.mem_flatMap.mpr ⟨candidate, hCandidate,
        List.mem_filter.mpr ⟨hr, by simpa using hNe⟩⟩)
  rcases firstShown_settles hCalls
      (w := Function.update v (.choice c) newval)
      (by simp) hRunning.called (t.candidates (.choice c))
      hRunning.settled
      (fun candidate hCandidate =>
        ⟨c, rfl, hWell.candidate_value c candidate hCandidate⟩)
      (fun candidate hCandidate r hr => by
        by_cases hSelf : r = .choice c
        · subst hSelf
          exact Or.inl ⟨hRunning.valid, by simp [hCurr]⟩
        · refine Or.inr ⟨hRunning.reads r
            (hRead candidate hCandidate r hr hSelf), ?_⟩
          rw [Function.update_of_ne hSelf])
      (fun candidate hCandidate hType =>
        hRunning.modules (hRead candidate hCandidate .modules
          (List.mem_append_right _
            (by simp [shownReads, typeReads, hType]))
          (by simp))) with
    ⟨hSettled, hKeeps, hChosen⟩
  have hThen := hRunning.keeps hSettled hKeeps
    (hWell.notMem_membersOf (.choice c))
  have hSelf := hKeeps.curr (.choice c) (Set.notMem_empty _)
    hRunning.valid
  unfold symCalcChoice choiceIn
  simp only [hChosen, hYes, hChoice, and_self, if_true]
  have hWide : Keeps t {.choice c} (t.membersOf (.choice c)) st
      (t.firstShown call (t.candidates (.choice c)) st).2 :=
    hKeeps.mono (Set.empty_subset _) (Set.Subset.refl _)
  generalize t.chosenIn (Function.update v (.choice c) newval)
    (t.candidates (.choice c)) = chosen
  cases chosen with
  | none =>
      refine ⟨hThen.setCurr _,
        hWide.trans (.setCurr (Set.mem_singleton _) _), ?_⟩
      simp [CalcState.setCurr]
  | some value =>
      refine ⟨hThen.setCurr _,
        hWide.trans (.setCurr (Set.mem_singleton _) _), ?_⟩
      simp [CalcState.setCurr, hSelf, hCurr, hYes]

------------------------------------------------------------
-- Ranges
------------------------------------------------------------

/- `sym_get_range_val`. -/
theorem symGetRangeVal_follows
    {bound : SymId}
    (base : Nat)
    (hSettled : Settled t v calls st)
    (hReady : Ready rank v calls v st bound) :
    Follows t v calls st
        (t.symGetRangeVal call bound base st).2 ∧
      (t.symGetRangeVal call bound base st).1 =
        t.boundIn v bound base := by
  rcases call_follows hCalls hSettled hReady with
    ⟨hFollows, _, hCurr⟩
  refine ⟨hFollows, ?_⟩
  simp only [symGetRangeVal, hCurr, boundIn]

/- `sym_validate_range`. -/
theorem symValidateRange_settles
    (hTyped : t.isTyped s = true)
    (hRunning : Running t rank v calls s st)
    {newval : SymbolValue}
    (hCurr : st.curr s = newval) :
    Running t rank v calls s (t.symValidateRange call s st) ∧
      Keeps t {s} ∅ st (t.symValidateRange call s st) ∧
      (t.symValidateRange call s st).curr s =
        t.rangeIn v s newval := by
  have hRead : ∀ p ∈ t.ranges s,
      ∀ r ∈ optSyms p.visible ++ [p.low, p.high],
        r ∈ t.reads s := by
    intro p hp r hr
    exact mem_reads_of_range hTyped
      (List.mem_flatMap.mpr ⟨p, hp, hr⟩)
  -- The value stays while the range and its bounds are read.
  have hStill : ∀ {st'}, Follows t v calls st st' →
      st'.curr s = newval := by
    intro st' hFollows
    rw [hFollows.keeps.curr s (Set.notMem_empty s)
      hRunning.valid, hCurr]
  have hSame : ∀ {st'}, Follows t v calls st st' →
      Running t rank v calls s st' ∧ Keeps t {s} ∅ st st' ∧
        st'.curr s = newval :=
    fun hFollows => ⟨hRunning.follows hFollows,
      hFollows.keeps.widen, hStill hFollows⟩
  have hClamped : ∀ {st'} val, Follows t v calls st st' →
      Running t rank v calls s
          (st'.setCurr s { st'.curr s with val := val }) ∧
        Keeps t {s} ∅ st
          (st'.setCurr s { st'.curr s with val := val }) ∧
        (st'.setCurr s { st'.curr s with val := val }).curr s =
          { newval with val := val } := by
    intro st' val hFollows
    refine ⟨(hRunning.follows hFollows).setCurr _,
      hFollows.keeps.widen.trans
        (.setCurr (Set.mem_singleton s) _), ?_⟩
    simp [CalcState.setCurr, hStill hFollows]
  unfold symValidateRange rangeIn
  cases (t.type s).base with
  | none => exact hSame (.refl hRunning.settled)
  | some base =>
      rcases firstVisible_follows hCalls (t.ranges s)
          hRunning.settled (fun p hp r hr =>
            hRunning.ready r (hRead p hp r
              (List.mem_append_left _ hr))) with
        ⟨hFirst, hFound⟩
      simp only [hFound]
      have hMem : ∀ p tri,
          t.firstIn v RangeProp.visible (t.ranges s) =
            some (p, tri) → p ∈ t.ranges s :=
        fun _ _ hSome => (firstIn_mem hSome).1
      generalize t.firstIn v RangeProp.visible (t.ranges s) =
        found at hMem
      cases found with
      | none => exact hSame hFirst
      | some found =>
          rcases found with ⟨p, tri⟩
          have hBounds := hRead p (hMem p tri rfl)
          have hNow := hRunning.follows hFirst
          rcases symGetRangeVal_follows hCalls base
              hNow.settled (hNow.ready p.low
                (hBounds p.low (by simp))) with
            ⟨hSecond, hLow⟩
          have hThen := hNow.follows hSecond
          rcases symGetRangeVal_follows hCalls base
              hThen.settled (hThen.ready p.high
                (hBounds p.high (by simp))) with
            ⟨hThird, hHigh⟩
          simp only [hLow, hHigh, hStill hFirst]
          split
          · exact hClamped _ (hFirst.trans hSecond)
          · split
            · exact hSame ((hFirst.trans hSecond).trans hThird)
            · exact hClamped _
                ((hFirst.trans hSecond).trans hThird)

end Choices

------------------------------------------------------------
-- The Beginning And The End Of A Call
------------------------------------------------------------

/- The symbol of a new call is marked as valid. -/
theorem Settled.start
    (hSettled : Settled t v calls st)
    (hInvalid : st.valid s = false) :
    Settled t v (s :: calls) (st.setValid s) := by
  have hOld : ∀ {r}, (st.setValid s).valid r = true →
      r ≠ s → st.valid r = true := by
    intro r hr hNe
    simpa [CalcState.setValid, hNe] using hr
  have hNew : ∀ {r}, st.valid r = true →
      (st.setValid s).valid r = true := by
    intro r hr
    by_cases hSelf : r = s <;>
      simp [CalcState.setValid, hSelf, hr]
  refine ⟨fun tri => hNew (hSettled.builtin tri), ?_, ?_, ?_,
    ?_, hSettled.rev_value, ?_, ?_⟩
  · intro r hr
    rcases List.mem_cons.mp hr with rfl | hCall
    · simp [CalcState.setValid]
    · exact hNew (hSettled.called r hCall)
  · intro r hr hCalls
    rw [List.mem_cons, not_or] at hCalls
    exact hSettled.done r (hOld hr hCalls.1) hCalls.2
  · intro r hr hCalls
    rw [List.mem_cons, not_or] at hCalls
    exact hSettled.shown r (hOld hr hCalls.1) hCalls.2
  · intro r c hChoice hr hCalls hTyped
    rw [List.mem_cons, not_or] at hCalls
    rcases hSettled.choice r c hChoice (hOld hr hCalls.1)
      hCalls.2 hTyped with ⟨hValid, hClosed⟩
    refine ⟨hNew hValid, ?_⟩
    rw [List.mem_cons, not_or]
    refine ⟨?_, hClosed⟩
    rintro rfl
    simp [hInvalid] at hValid
  · intro hr hCalls
    rw [List.mem_cons, not_or] at hCalls
    exact hSettled.modules (hOld hr hCalls.1) hCalls.2
  · intro hr
    refine hSettled.fresh ?_
    cases hValid : st.valid .modules with
    | false => rfl
    | true => rw [hNew hValid] at hr; cases hr

/-
  A call ends with the value of the equations, and with
  `modules_val` where it is the call for the modules.
-/
theorem Running.finish
    (hRunning : Running t rank v (s :: calls) s st)
    (hCurr : st.curr s = v s)
    {oldval : SymbolValue}
    (hOld : s = .modules → st.modulesVal = oldval.tri) :
    Settled t v calls (noteModules s oldval st) := by
  have hModules : s = .modules →
      (noteModules s oldval st).modulesVal =
        (v .modules).tri := by
    rintro rfl
    unfold noteModules
    rw [hCurr]
    split
    · rfl
    · next hSame =>
        have hEq : oldval = v .modules := by
          simpa using hSame
        rw [hOld rfl, hEq]
  have hOther : s ≠ .modules →
      noteModules s oldval st = st := by
    intro hNe
    simp [noteModules, hNe]
  have hCurrs : (noteModules s oldval st).curr = st.curr ∧
      (noteModules s oldval st).valid = st.valid ∧
      (noteModules s oldval st).visible = st.visible ∧
      (noteModules s oldval st).revTri = st.revTri := by
    unfold noteModules
    split <;> exact ⟨rfl, rfl, rfl, rfl⟩
  rcases hCurrs with ⟨hCurr', hValid', hVisible', hRev'⟩
  have hSettled := hRunning.settled
  refine ⟨?_, ?_, ?_, ?_, ?_, ?_, ?_, ?_⟩
  · rw [hValid']
    exact hSettled.builtin
  · intro r hr
    rw [hValid']
    exact hSettled.called r (List.mem_cons_of_mem s hr)
  · intro r hr hClosed
    rw [hValid'] at hr
    rw [hCurr']
    by_cases hSelf : r = s
    · rw [hSelf, hCurr]
    · exact hSettled.done r hr (by simp [hSelf, hClosed])
  · intro r hr hClosed hTyped
    rw [hValid'] at hr
    rw [hVisible', hRev']
    by_cases hSelf : r = s
    · rw [hSelf]
      exact ⟨hRunning.visible, hRunning.rev⟩
    · exact hSettled.shown r hr (by simp [hSelf, hClosed])
        hTyped
  · intro r c hChoice hr hClosed hTyped
    rw [hValid'] at hr ⊢
    have hBoth : st.valid (.choice c) = true ∧
        .choice c ∉ s :: calls := by
      by_cases hSelf : r = s
      · exact hRunning.choice c (hSelf ▸ hChoice)
      · exact hSettled.choice r c hChoice hr
          (by simp [hSelf, hClosed]) hTyped
    exact ⟨hBoth.1, fun h => hBoth.2
      (List.mem_cons_of_mem s h)⟩
  · rw [hRev']
    exact hSettled.rev_value
  · intro hr hClosed
    rw [hValid'] at hr
    by_cases hSelf : s = .modules
    · exact hModules hSelf
    · rw [hOther hSelf]
      exact hSettled.modules hr (by
        simp [Ne.symm hSelf, hClosed])
  · intro hr
    rw [hValid'] at hr
    by_cases hSelf : s = .modules
    · rw [hSelf] at hRunning
      exact absurd hRunning.valid (Bool.eq_false_iff.mp hr)
    · rw [hOther hSelf]
      exact hSettled.fresh hr

/- The flag `SYMBOL_WRITE` of the values of a choice. -/
theorem Follows.noteWrite
    (hFollows : Follows t v calls st st') :
    Follows t v calls st (t.noteWrite s st') := by
  have hFold : ∀ (list : List SymId) (st₁ : CalcState),
      Follows t v calls st st₁ →
      Follows t v calls st
        (list.foldl
          (fun st value => st.setWrite value true) st₁) := by
    intro list
    induction list with
    | nil => exact fun _ h => h
    | cons value list ih =>
        exact fun _ h => ih _ (h.setWrite value true)
  cases s with
  | choice c =>
      unfold CalcTable.noteWrite
      simp only
      split
      · exact hFold _ _ hFollows
      · exact hFollows
  | builtin tri => exact hFollows
  | named name => exact hFollows
  | const name => exact hFollows
  | modules => exact hFollows

@[simp] theorem noteModules_valid
    (s : SymId)
    (oldval : SymbolValue)
    (st : CalcState) :
    (noteModules s oldval st).valid = st.valid := by
  unfold noteModules
  split <;> rfl

@[simp] theorem noteWrite_valid
    (t : CalcTable)
    (s : SymId)
    (st : CalcState) :
    (t.noteWrite s st).valid = st.valid := by
  have hFold : ∀ (list : List SymId) (st : CalcState),
      (list.foldl
        (fun st value => st.setWrite value true) st).valid =
        st.valid := by
    intro list
    induction list with
    | nil => exact fun _ => rfl
    | cons value list ih => exact fun _ => ih _
  unfold noteWrite
  split
  · split
    · exact hFold _ _
    · rfl
  · rfl

/-
  What a call changes was not valid before it, or is the
  visibility of a value whose choice was not.
-/
theorem Keeps.of_call
    {oldval : SymbolValue}
    (hInvalid : st.valid s = false)
    (hKeeps : Keeps t {s} ({s} ∪ t.membersOf s)
      (st.setValid s) st') :
    Keeps t ∅ ∅ st (noteModules s oldval st') := by
  have hNe : ∀ {r}, st.valid r = true → r ≠ s := by
    rintro r hr rfl
    simp [hInvalid] at hr
  have hNew : ∀ {r}, st.valid r = true →
      (st.setValid s).valid r = true := by
    intro r hr
    simpa [CalcState.setValid, hNe hr] using hr
  have hOther : s ≠ .modules →
      noteModules s oldval st' = st' := by
    intro hModules
    simp [noteModules, hModules]
  refine ⟨?_, ?_, ?_, ?_⟩
  · intro r hr
    rw [noteModules_valid]
    exact hKeeps.valid r (hNew hr)
  · intro r _ hr
    have hSame := hKeeps.curr r
      (by simpa using hNe hr) (hNew hr)
    unfold noteModules
    split <;> exact hSame
  · intro r _ hr hChoice
    have hOut : r ∉ ({s} ∪ t.membersOf s : Set SymId) := by
      rintro (hSelf | ⟨c, rfl, hMember⟩)
      · exact hNe hr hSelf
      · exact hNe (hChoice c hMember) rfl
    have hSame := hKeeps.shown r hOut (hNew hr)
      (fun c hc => hNew (hChoice c hc))
    unfold noteModules
    split <;> exact hSame
  · intro hr
    rw [hOther (Ne.symm (hNe hr))]
    exact hKeeps.modules (hNew hr)

------------------------------------------------------------
-- Calls
------------------------------------------------------------

/- A valid symbol is not calculated again. -/
theorem symCalcValue_of_valid
    (fuel : Nat)
    (hValid : st.valid s = true) :
    t.symCalcValue fuel s st = st := by
  cases fuel with
  | zero => rfl
  | succ fuel => simp [symCalcValue, hValid]

/- What a call may read, once it has begun. -/
theorem Callable.start
    {r : SymId}
    (hCallable : Callable rank calls st s)
    (hInvalid : st.valid s = false)
    (hLower : rank r < rank s) :
    Callable rank (s :: calls) (st.setValid s) r := by
  refine ⟨?_, ?_⟩
  · intro k hk
    rcases List.mem_cons.mp hk with rfl | hCall
    · exact hLower
    · exact hLower.trans (hCallable.1 k hCall)
  · rcases hCallable.2 with ⟨hValid, hClosed⟩ | hBelow
    · have hNe : SymId.modules ≠ s := by
        rintro rfl
        simp [hInvalid] at hValid
      refine Or.inl ⟨?_, by simp [hNe, hClosed]⟩
      simpa [CalcState.setValid, hNe] using hValid
    · exact Or.inr (by omega)

variable {call : SymId → CalcState → CalcState}

/-
  `sym_calc_visibility` at the start of a call, after which
  the symbol is under way.
-/
theorem running_start
    (hCalls : Calls t rank v (s :: calls) call)
    (hWell : WellFormed t)
    (hTyped : t.isTyped s = true)
    (hSettled : Settled t v (s :: calls) st)
    (hReads : ∀ r ∈ t.reads s, Callable rank (s :: calls) st r)
    (hModules : .modules ∈ t.reads s →
      st.valid .modules = true ∧ .modules ∉ s :: calls) :
    Running t rank v (s :: calls) s
        (t.symCalcVisibility call s st) ∧
      Keeps t ∅ {s} st (t.symCalcVisibility call s st) := by
  rcases symCalcVisibility_settles hCalls (w := v) hSettled
      (Or.inl List.mem_cons_self)
      (fun p hp r hr => Or.inr ⟨hReads r
        (mem_reads_of_shown hTyped (List.mem_append_left _
          (List.mem_flatMap.mpr ⟨p, hp, hr⟩))), rfl⟩)
      (fun hPlain r hr => by
        have hNone : (t.symbol s).choiceOf = none := by
          simpa [isChoiceValue] using hPlain
        exact Or.inr ⟨hReads r (mem_reads_of_rev hTyped
          (by simpa [revReads, hNone] using hr)), rfl⟩)
      (fun hType => hModules (mem_reads_of_shown hTyped
        (by simp [shownReads, typeReads, hType])))
      rfl with
    ⟨hAfter, hKeeps, hVisible, hRevTri, hAll⟩
  refine ⟨⟨hAfter, List.mem_cons_self, hVisible, hRevTri, ?_,
    ?_, ?_⟩, hKeeps⟩
  · intro c hChoice
    rcases List.mem_flatMap.mp (hWell.value_prompt s c hChoice)
      with ⟨p, hp, hr⟩
    refine ⟨hAll p hp _ hr, ?_⟩
    have hLower := (hReads (.choice c)
      (mem_reads_of_rev hTyped
        (by simp [revReads, hChoice]))).1
    intro hMem
    exact absurd (hLower _ hMem) (Nat.lt_irrefl _)
  · intro hRead
    rcases hModules hRead with ⟨hValid, hClosed⟩
    exact ⟨hKeeps.valid _ hValid, hClosed⟩
  · intro r hr
    exact (hReads r hr).mono hKeeps.valid

/- A call starts by marking the symbol and finding it. -/
theorem calcStart_settles
    (hCalls : Calls t rank v (s :: calls) call)
    (hWell : WellFormed t)
    (hRank : t.equations.Ranked rank)
    (hCallable : Callable rank calls st s)
    (hInvalid : st.valid s = false)
    (hTyped : t.isTyped s = true)
    (hFirst : Follows t v (s :: calls) (st.setValid s) st') :
    Running t rank v (s :: calls) s
        (t.symCalcVisibility call s st') ∧
      Keeps t ∅ {s} (st.setValid s)
        (t.symCalcVisibility call s st') := by
  have hLower : ∀ r ∈ t.reads s, rank r < rank s := hRank s
  have hReads : ∀ r ∈ t.reads s,
      Callable rank (s :: calls) st' r :=
    fun r hr => (hCallable.start hInvalid (hLower r hr)).mono
      hFirst.keeps.valid
  have hModules : .modules ∈ t.reads s →
      st'.valid .modules = true ∧ .modules ∉ s :: calls := by
    intro hRead
    have hLt := hLower .modules hRead
    have hNe : SymId.modules ≠ s := by
      rintro rfl
      omega
    rcases hCallable.2 with ⟨hValid, hClosed⟩ | hBelow
    · refine ⟨hFirst.keeps.valid _ ?_, by simp [hNe, hClosed]⟩
      simpa [CalcState.setValid, hNe] using hValid
    · omega
  rcases running_start hCalls hWell hTyped hFirst.settled
      hReads hModules with ⟨hRunning, hKeeps⟩
  exact ⟨hRunning, hFirst.keeps.widen.trans hKeeps⟩

/- A choice at `y` looks at its values, others do not. -/
theorem calcChoice_settles
    (hCalls : Calls t rank v (s :: calls) call)
    (hWell : WellFormed t)
    (hTyped : t.isTyped s = true)
    (hRunning : Running t rank v (s :: calls) s st)
    {newval : SymbolValue}
    (hCurr : st.curr s = newval) :
    let after :=
      if s.isChoice = true ∧ newval.tri = .yes then
        t.symCalcChoice call s st
      else
        st
    Running t rank v (s :: calls) s after ∧
      Keeps t {s} (t.membersOf s) st after ∧
      after.curr s = t.choiceIn v s newval := by
  simp only
  split
  · next hYes =>
      exact symCalcChoice_settles hCalls hWell hTyped hRunning
        hCurr hYes.1 hYes.2
  · next hNo =>
      refine ⟨hRunning, .refl, ?_⟩
      rw [hCurr, choiceIn, if_neg hNo]

/-
  A call for a typed symbol: between its two ends only the
  symbol itself and, for a choice, the visibility of its
  values change.
-/
theorem calcBody_settles
    (hCalls : Calls t rank v (s :: calls) call)
    (hWell : WellFormed t)
    (hRank : t.equations.Ranked rank)
    (hSolves : t.equations.Solves v)
    (hSettled : Settled t v calls st)
    (hCallable : Callable rank calls st s)
    (hInvalid : st.valid s = false)
    (hTyped : t.isTyped s = true)
    {newval : SymbolValue}
    (hStart : (t.type s).startValue = some newval) :
    Follows t v calls st
        (t.calcBody call s newval (st.curr s)
          (st.setValid s)) ∧
      (t.calcBody call s newval (st.curr s)
        (st.setValid s)).valid s = true := by
  have hBegun := hSettled.start hInvalid
  unfold calcBody
  simp only
  have hFirst : Follows t v (s :: calls) (st.setValid s)
      (if t.isChoiceValue s = true then st.setValid s
        else (st.setValid s).setWrite s false) := by
    split
    · exact .refl hBegun
    · exact (Follows.refl hBegun).setWrite s false
  generalize (if t.isChoiceValue s = true then st.setValid s
    else (st.setValid s).setWrite s false) = st₁ at hFirst
  -- The visibility and the value.
  rcases calcStart_settles hCalls hWell hRank hCallable
      hInvalid hTyped hFirst with
    ⟨hRun₁, hKeeps₁⟩
  generalize t.symCalcVisibility call s st₁ = st₂
    at hRun₁ hKeeps₁
  have hRun₂ := hRun₁.setCurr newval
  rcases calcNewval_follows hCalls hTyped hRun₂ newval with
    ⟨hSecond, hValue⟩
  generalize t.calcNewval call s newval (st₂.setCurr s newval) =
    value at hSecond hValue
  have hRun₃ := (hRun₂.follows hSecond).setCurr value.1
  have hKeeps₃ : Keeps t {s} ({s} ∪ t.membersOf s)
      (st.setValid s) (value.2.setCurr s value.1) :=
    (((hKeeps₁.mono (Set.empty_subset _)
        Set.subset_union_left).trans
      (.setCurr (Set.mem_singleton s) newval)).trans
      hSecond.keeps.widen).trans
      (.setCurr (Set.mem_singleton s) value.1)
  have hCurr₃ :
      (value.2.setCurr s value.1).curr s = value.1 := by
    simp [CalcState.setCurr]
  generalize value.2.setCurr s value.1 = st₃
    at hRun₃ hKeeps₃ hCurr₃
  -- The choice and the range.
  have hChoice :=
    calcChoice_settles hCalls hWell hTyped hRun₃ hCurr₃
  simp only at hChoice
  generalize (if s.isChoice = true ∧ value.1.tri = .yes then
    t.symCalcChoice call s st₃ else st₃) = st₄ at hChoice
  rcases hChoice with ⟨hRun₄, hKeeps₄, hCurr₄⟩
  rcases symValidateRange_settles hCalls hTyped hRun₄ hCurr₄
    with ⟨hRun₅, hKeeps₅, hCurr₅⟩
  generalize t.symValidateRange call s st₄ = st₅
    at hRun₅ hKeeps₅ hCurr₅
  have hKeeps : Keeps t {s} ({s} ∪ t.membersOf s)
      (st.setValid s) st₅ :=
    (hKeeps₃.trans
      (hKeeps₄.mono (Set.Subset.refl _)
        Set.subset_union_right)).trans
      (hKeeps₅.mono (Set.Subset.refl _) (Set.empty_subset _))
  -- The end of the call.
  have hOwn : st₅.curr s = v s := by
    rw [hCurr₅, hValue, hSolves s]
    show _ = t.valueIn v s
    unfold valueIn
    split
    · next tri => simp [isTyped, SymId.isHashed] at hTyped
    · simp only [hStart]
  have hOld : s = .modules →
      st₅.modulesVal = (st.curr s).tri := by
    rintro rfl
    rw [hKeeps.modules (by simp [CalcState.setValid])]
    exact hSettled.fresh hInvalid
  have hEnd : Follows t v calls st
      (noteModules s (st.curr s) st₅) := by
    refine ⟨hRun₅.finish hOwn hOld, ?_⟩
    exact Keeps.of_call hInvalid hKeeps
  have hLast := hEnd.noteWrite (s := s)
  have hValid : (t.noteWrite s
      (noteModules s (st.curr s) st₅)).valid s = true := by
    rw [noteWrite_valid, noteModules_valid]
    exact hRun₅.valid
  split
  · exact ⟨hLast.setWrite s false, hValid⟩
  · exact ⟨hLast, hValid⟩

/- A call for a symbol without a type, whose value is its name. -/
theorem untyped_settles
    (hWell : WellFormed t)
    (hSolves : t.equations.Solves v)
    (hSettled : Settled t v calls st)
    (hInvalid : st.valid s = false)
    (hStart : (t.type s).startValue = none) :
    Follows t v calls st
      ((st.setValid s).setCurr s
        ⟨s.name.getD [], none, .no⟩) := by
  have hBegun := (hSettled.start hInvalid).setCurr
    List.mem_cons_self (by simp [CalcState.setValid])
    ⟨s.name.getD [], none, .no⟩
  have hOwn : v s = ⟨s.name.getD [], none, .no⟩ := by
    rw [hSolves s]
    show t.valueIn v s = _
    unfold valueIn
    split
    · next tri =>
        rw [hSettled.builtin tri] at hInvalid
        cases hInvalid
    · simp only [hStart]
  have hUntyped : t.isTyped s = false := by
    simp [isTyped, hStart]
  have hModules : s ≠ .modules := by
    rintro rfl
    rw [hWell.modules_boolean] at hStart
    cases hStart
  have hAway : ∀ {r}, r ∉ calls → r ≠ s → r ∉ s :: calls := by
    intro r hr hNe
    simp [hr, hNe]
  have hTypedNe : ∀ {r}, t.isTyped r = true → r ≠ s := by
    rintro r hr rfl
    simp [hUntyped] at hr
  refine ⟨⟨hBegun.builtin, ?_, ?_, ?_, ?_, hBegun.rev_value,
    ?_, hBegun.fresh⟩, ?_⟩
  · exact fun r hr =>
      hBegun.called r (List.mem_cons_of_mem s hr)
  · intro r hr hClosed
    by_cases hSelf : r = s
    · rw [hSelf, hOwn]
      simp [CalcState.setCurr]
    · exact hBegun.done r hr (hAway hClosed hSelf)
  · intro r hr hClosed hTyped
    exact hBegun.shown r hr (hAway hClosed (hTypedNe hTyped))
      hTyped
  · intro r c hChoice hr hClosed hTyped
    rcases hBegun.choice r c hChoice hr
      (hAway hClosed (hTypedNe hTyped)) hTyped with
      ⟨hValid, hOut⟩
    exact ⟨hValid, fun h => hOut (List.mem_cons_of_mem s h)⟩
  · intro hr hClosed
    exact hBegun.modules hr (hAway hClosed (Ne.symm hModules))
  · have hChanged : Keeps t {s} ({s} ∪ t.membersOf s)
        (st.setValid s)
        ((st.setValid s).setCurr s
          ⟨s.name.getD [], none, .no⟩) :=
      .setCurr (Set.mem_singleton s) _
    have hKeeps : Keeps t ∅ ∅ st
        (noteModules s .empty
          ((st.setValid s).setCurr s
            ⟨s.name.getD [], none, .no⟩)) :=
      .of_call hInvalid hChanged
    simpa [noteModules, hModules] using hKeeps

/-
  `sym_calc_value`: a call for a symbol below the open calls
  keeps what is settled and settles the symbol.
-/
theorem symCalcValue_settles
    (hWell : WellFormed t)
    (hRank : t.equations.Ranked rank)
    (hSolves : t.equations.Solves v)
    (fuel : Nat)
    (hFuel : rank s < fuel)
    (hSettled : Settled t v calls st)
    (hCallable : Callable rank calls st s) :
    Follows t v calls st (t.symCalcValue fuel s st) ∧
      (t.symCalcValue fuel s st).valid s = true := by
  induction fuel generalizing calls s st with
  | zero => omega
  | succ fuel ih =>
      unfold symCalcValue
      cases hInvalid : st.valid s with
      | true => exact ⟨.refl hSettled, hInvalid⟩
      | false =>
          simp only [Bool.false_eq_true, if_false]
          have hHashed : s.isHashed = true := by
            cases s with
            | builtin tri =>
                rw [hSettled.builtin tri] at hInvalid
                cases hInvalid
            | _ => rfl
          cases hStart : (t.type s).startValue with
          | none =>
              exact ⟨untyped_settles hWell hSolves hSettled
                hInvalid hStart, by simp [CalcState.setCurr,
                  CalcState.setValid]⟩
          | some newval =>
              have hTyped : t.isTyped s = true := by
                simp [isTyped, hHashed, hStart]
              refine calcBody_settles ⟨?_, ?_⟩ hWell hRank
                hSolves hSettled hCallable hInvalid hTyped
                hStart
              · intro r st' hValid
                exact symCalcValue_of_valid fuel hValid
              · intro r st' hAfter hBelow
                have hLt := hBelow.1 s List.mem_cons_self
                exact ih (by omega) hAfter hBelow

end CalcTable

end Mkrootfs
