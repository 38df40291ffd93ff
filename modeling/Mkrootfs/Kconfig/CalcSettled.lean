import Mathlib.Data.Set.Insert
import Mkrootfs.Kconfig.CalcEquations

/-
  The calculator reaches the solution of its equations.

  Symbols whose calculation has begun are marked as valid, so
  that a call for them returns at once.  Where a rank falls
  along every reading, only a choice is ever asked for while
  it is open, by its own values, and it counts as `y` then.
  All other valid symbols have their final values, which no
  call changes.

  Main declarations:
    * `WellFormed`, `Settled`, `Keeps`
    * `calcExpr_follows`, `symCalcVisibility_settles`
    * `firstVisible_follows`
-/

------------------------------------------------------------
-- Invariants
------------------------------------------------------------

namespace Mkrootfs

namespace CalcTable

/-
  What `menu_finalize` makes of choices: the prompt of a value
  asks for its choice, a choice only tries values of its own
  and is no value itself.  `conf_parse` makes `modules_sym` a
  boolean.
-/
structure WellFormed (t : CalcTable) : Prop where
  value_prompt : ∀ s c,
    (t.symbol s).choiceOf = some c →
    .choice c ∈
      (t.prompts s).flatMap (fun p => optSyms p.visible)
  candidate_value : ∀ c candidate,
    candidate ∈ t.candidates (.choice c) →
    (t.symbol candidate.2).choiceOf = some c
  choice_plain : ∀ c,
    (t.symbol (.choice c)).choiceOf = none
  modules_boolean : t.type .modules = .boolean

/-
  The valid symbols, those of the open `calls` aside, have
  the values of an assignment.
-/
structure Settled
    (t : CalcTable)
    (v : SymId → SymbolValue)
    (calls : List SymId)
    (st : CalcState) : Prop where
  builtin : ∀ tri, st.valid (.builtin tri) = true
  called : ∀ s ∈ calls, st.valid s = true
  done : ∀ s, st.valid s = true → s ∉ calls →
    st.curr s = v s
  shown : ∀ s, st.valid s = true → s ∉ calls →
    t.isTyped s = true →
    st.visible s = t.visibleIn v s ∧
      st.revTri s = t.revIn v s
  choice : ∀ s c, (t.symbol s).choiceOf = some c →
    st.valid s = true → s ∉ calls → t.isTyped s = true →
    st.valid (.choice c) = true ∧ .choice c ∉ calls
  rev_value : ∀ s, t.isChoiceValue s = true →
    st.revTri s = .no
  modules : st.valid .modules = true → .modules ∉ calls →
    st.modulesVal = (v .modules).tri
  fresh : st.valid .modules = false →
    st.modulesVal = (st.curr .modules).tri

/-
  What stays of the valid symbols: their values outside `X`,
  their visibility outside `Y` and where their choice is valid
  too, and `modules_val`.
-/
structure Keeps
    (t : CalcTable)
    (X Y : Set SymId)
    (st st' : CalcState) : Prop where
  valid : ∀ s, st.valid s = true → st'.valid s = true
  curr : ∀ s, s ∉ X → st.valid s = true →
    st'.curr s = st.curr s
  shown : ∀ s, s ∉ Y → st.valid s = true →
    (∀ c, (t.symbol s).choiceOf = some c →
      st.valid (.choice c) = true) →
    st'.visible s = st.visible s ∧ st'.revTri s = st.revTri s
  modules : st.valid .modules = true →
    st'.modulesVal = st.modulesVal

/-
  A symbol may be calculated below the open calls: it is of
  lower rank than they are, and the modules are settled where
  they may be asked for.
-/
def Callable
    (rank : SymId → Nat)
    (calls : List SymId)
    (st : CalcState)
    (s : SymId) : Prop :=
  (∀ k ∈ calls, rank s < rank k) ∧
    ((st.valid .modules = true ∧ .modules ∉ calls) ∨
      rank s ≤ rank .modules)

/-
  A symbol has a value in `w`, or gets it from a call.
-/
def Ready
    (rank : SymId → Nat)
    (v : SymId → SymbolValue)
    (calls : List SymId)
    (w : SymId → SymbolValue)
    (st : CalcState)
    (s : SymId) : Prop :=
  (st.valid s = true ∧ st.curr s = w s) ∨
    (Callable rank calls st s ∧ v s = w s)

/- One step keeps the invariant and all that is valid. -/
structure Follows
    (t : CalcTable)
    (v : SymId → SymbolValue)
    (calls : List SymId)
    (st st' : CalcState) : Prop where
  settled : Settled t v calls st'
  keeps : Keeps t ∅ ∅ st st'

/- What the calls below some open calls are relied on for. -/
structure Calls
    (t : CalcTable)
    (rank : SymId → Nat)
    (v : SymId → SymbolValue)
    (calls : List SymId)
    (call : SymId → CalcState → CalcState) : Prop where
  skip : ∀ s st, st.valid s = true → call s st = st
  settle : ∀ s st, Settled t v calls st →
    Callable rank calls st s →
    Follows t v calls st (call s st) ∧
      (call s st).valid s = true

variable {t : CalcTable}
variable {v : SymId → SymbolValue}
variable {calls : List SymId}
variable {st st' st'' : CalcState}

------------------------------------------------------------
-- What Is Kept
------------------------------------------------------------

namespace Keeps

variable {X Y X' Y' : Set SymId}

theorem refl : Keeps t X Y st st where
  valid _ h := h
  curr _ _ _ := rfl
  shown _ _ _ _ := ⟨rfl, rfl⟩
  modules _ := rfl

theorem trans
    (hFirst : Keeps t X Y st st')
    (hSecond : Keeps t X Y st' st'') :
    Keeps t X Y st st'' where
  valid s hs := hSecond.valid s (hFirst.valid s hs)
  curr s hX hs :=
    (hSecond.curr s hX (hFirst.valid s hs)).trans
      (hFirst.curr s hX hs)
  shown s hY hs hChoice := by
    have hBefore := hFirst.shown s hY hs hChoice
    have hAfter := hSecond.shown s hY (hFirst.valid s hs)
      (fun c hc => hFirst.valid _ (hChoice c hc))
    exact ⟨hAfter.1.trans hBefore.1, hAfter.2.trans hBefore.2⟩
  modules hs :=
    (hSecond.modules (hFirst.valid _ hs)).trans
      (hFirst.modules hs)

theorem mono
    (hKeeps : Keeps t X Y st st')
    (hX : X ⊆ X')
    (hY : Y ⊆ Y') :
    Keeps t X' Y' st st' where
  valid := hKeeps.valid
  curr s hs := hKeeps.curr s (fun h => hs (hX h))
  shown s hs := hKeeps.shown s (fun h => hs (hY h))
  modules := hKeeps.modules

theorem widen
    (hKeeps : Keeps t ∅ ∅ st st') : Keeps t X Y st st' :=
  hKeeps.mono (Set.empty_subset _) (Set.empty_subset _)

theorem setWrite (s : SymId) (write : Bool) :
    Keeps t X Y st (st.setWrite s write) where
  valid _ h := h
  curr _ _ _ := rfl
  shown _ _ _ _ := ⟨rfl, rfl⟩
  modules _ := rfl

theorem setCurr
    {s : SymId}
    (hs : s ∈ X)
    (value : SymbolValue) :
    Keeps t X Y st (st.setCurr s value) where
  valid _ h := h
  curr r hr _ := by
    have hNe : r ≠ s := fun h => hr (h ▸ hs)
    simp [CalcState.setCurr, hNe]
  shown _ _ _ _ := ⟨rfl, rfl⟩
  modules _ := rfl

theorem setVisible
    {s : SymId}
    (hs : s ∈ Y)
    (tri : Tristate) :
    Keeps t X Y st (st.setVisible s tri) where
  valid _ h := h
  curr _ _ _ := rfl
  shown r hr _ _ := by
    have hNe : r ≠ s := fun h => hr (h ▸ hs)
    simp [CalcState.setVisible, hNe]
  modules _ := rfl

theorem setRev
    {s : SymId}
    (hs : s ∈ Y)
    (tri : Tristate) :
    Keeps t X Y st (st.setRev s tri) where
  valid _ h := h
  curr _ _ _ := rfl
  shown r hr _ _ := by
    have hNe : r ≠ s := fun h => hr (h ▸ hs)
    simp [CalcState.setRev, hNe]
  modules _ := rfl

end Keeps

------------------------------------------------------------
-- Changes To Open Symbols
------------------------------------------------------------

/- A symbol that is being calculated, or whose choice is. -/
def IsOpen
    (t : CalcTable)
    (calls : List SymId)
    (s : SymId) : Prop :=
  s ∈ calls ∨
    ∃ c, (t.symbol s).choiceOf = some c ∧ .choice c ∈ calls

namespace Settled

variable (hSettled : Settled t v calls st)

include hSettled

/- An open symbol is not settled. -/
theorem not_open
    {s : SymId}
    (hValid : st.valid s = true)
    (hCalls : s ∉ calls)
    (hTyped : t.isTyped s = true) :
    ¬ IsOpen t calls s := by
  rintro (hMem | ⟨c, hChoice, hMem⟩)
  · exact hCalls hMem
  · exact (hSettled.choice s c hChoice hValid hCalls
      hTyped).2 hMem

theorem setWrite (s : SymId) (write : Bool) :
    Settled t v calls (st.setWrite s write) :=
  ⟨hSettled.builtin, hSettled.called, hSettled.done,
    hSettled.shown, hSettled.choice, hSettled.rev_value,
    hSettled.modules, hSettled.fresh⟩

theorem setVisible
    {s : SymId}
    (hOpen : IsOpen t calls s)
    (tri : Tristate) :
    Settled t v calls (st.setVisible s tri) where
  builtin := hSettled.builtin
  called := hSettled.called
  done := hSettled.done
  shown r hr hCalls hTyped := by
    have hNe : r ≠ s := by
      rintro rfl
      exact hSettled.not_open hr hCalls hTyped hOpen
    simpa [CalcState.setVisible, hNe]
      using hSettled.shown r hr hCalls hTyped
  choice := hSettled.choice
  rev_value := hSettled.rev_value
  modules := hSettled.modules
  fresh := hSettled.fresh

theorem setRev
    {s : SymId}
    (hOpen : IsOpen t calls s)
    (hPlain : t.isChoiceValue s = false)
    (tri : Tristate) :
    Settled t v calls (st.setRev s tri) where
  builtin := hSettled.builtin
  called := hSettled.called
  done := hSettled.done
  shown r hr hCalls hTyped := by
    have hNe : r ≠ s := by
      rintro rfl
      exact hSettled.not_open hr hCalls hTyped hOpen
    simpa [CalcState.setRev, hNe]
      using hSettled.shown r hr hCalls hTyped
  choice := hSettled.choice
  rev_value r hr := by
    have hNe : r ≠ s := by
      rintro rfl
      simp [hPlain] at hr
    simpa [CalcState.setRev, hNe] using hSettled.rev_value r hr
  modules := hSettled.modules
  fresh := hSettled.fresh

theorem setCurr
    {s : SymId}
    (hCall : s ∈ calls)
    (hValid : st.valid s = true)
    (value : SymbolValue) :
    Settled t v calls (st.setCurr s value) where
  builtin := hSettled.builtin
  called := hSettled.called
  done r hr hCalls := by
    have hNe : r ≠ s := fun h => hCalls (h ▸ hCall)
    simpa [CalcState.setCurr, hNe]
      using hSettled.done r hr hCalls
  shown := hSettled.shown
  choice := hSettled.choice
  rev_value := hSettled.rev_value
  modules := hSettled.modules
  fresh hModules := by
    have hNe : SymId.modules ≠ s := by
      rintro rfl
      exact absurd hValid (Bool.eq_false_iff.mp hModules)
    simpa [CalcState.setCurr, hNe] using hSettled.fresh hModules

end Settled

namespace Follows

theorem refl
    (hSettled : Settled t v calls st) :
    Follows t v calls st st :=
  ⟨hSettled, .refl⟩

theorem trans
    (hFirst : Follows t v calls st st')
    (hSecond : Follows t v calls st' st'') :
    Follows t v calls st st'' :=
  ⟨hSecond.settled, hFirst.keeps.trans hSecond.keeps⟩

theorem setWrite
    (hFirst : Follows t v calls st st')
    (s : SymId)
    (write : Bool) :
    Follows t v calls st (st'.setWrite s write) :=
  ⟨hFirst.settled.setWrite s write,
    hFirst.keeps.trans (.setWrite s write)⟩

end Follows

------------------------------------------------------------
-- Expressions
------------------------------------------------------------

variable {rank : SymId → Nat}
variable {w : SymId → SymbolValue}

theorem Callable.mono
    {s : SymId}
    (hCallable : Callable rank calls st s)
    (hValid : ∀ r, st.valid r = true → st'.valid r = true) :
    Callable rank calls st' s :=
  ⟨hCallable.1, hCallable.2.imp_left
    (fun h => ⟨hValid _ h.1, h.2⟩)⟩

theorem Ready.mono
    {s : SymId}
    {Y : Set SymId}
    (hReady : Ready rank v calls w st s)
    (hKeeps : Keeps t ∅ Y st st') :
    Ready rank v calls w st' s := by
  rcases hReady with ⟨hValid, hCurr⟩ | ⟨hCallable, hValue⟩
  · refine Or.inl ⟨hKeeps.valid s hValid, ?_⟩
    rw [hKeeps.curr s (Set.notMem_empty s) hValid, hCurr]
  · exact Or.inr ⟨hCallable.mono hKeeps.valid, hValue⟩

variable {call : SymId → CalcState → CalcState}
variable (hCalls : Calls t rank v calls call)

include hCalls

/- A symbol that is ready has its value after a call. -/
theorem call_follows
    {s : SymId}
    (hSettled : Settled t v calls st)
    (hReady : Ready rank v calls w st s) :
    Follows t v calls st (call s st) ∧
      (call s st).valid s = true ∧
      (call s st).curr s = w s := by
  rcases hReady with ⟨hValid, hCurr⟩ | ⟨hCallable, hValue⟩
  · rw [hCalls.skip s st hValid]
    exact ⟨.refl hSettled, hValid, hCurr⟩
  · rcases hCalls.settle s st hSettled hCallable with
      ⟨hFollows, hValid⟩
    have hClosed : s ∉ calls := by
      intro hMem
      exact absurd (hCallable.1 s hMem) (Nat.lt_irrefl _)
    refine ⟨hFollows, hValid, ?_⟩
    rw [hFollows.settled.done s hValid hClosed, hValue]

/- `sym_calc_value` for both sides of a comparison. -/
theorem calls_follow
    {s u : SymId}
    (hSettled : Settled t v calls st)
    (hLeft : Ready rank v calls w st s)
    (hRight : Ready rank v calls w st u) :
    Follows t v calls st (call u (call s st)) ∧
      ((call u (call s st)).valid s = true ∧
        (call u (call s st)).curr s = w s) ∧
      (call u (call s st)).valid u = true ∧
      (call u (call s st)).curr u = w u := by
  rcases call_follows hCalls hSettled hLeft with
    ⟨hFirst, hValid, hCurr⟩
  rcases call_follows hCalls hFirst.settled
      (hRight.mono hFirst.keeps) with
    ⟨hSecond, hValid', hCurr'⟩
  refine ⟨hFirst.trans hSecond,
    ⟨hSecond.keeps.valid s hValid, ?_⟩, hValid', hCurr'⟩
  rw [hSecond.keeps.curr s (Set.notMem_empty s) hValid, hCurr]

/- `expr_calc_value` gives the value of the assignment. -/
theorem calcExpr_follows
    (e : Expr)
    {st : CalcState}
    (hSettled : Settled t v calls st)
    (hReady : ∀ s ∈ e.syms, Ready rank v calls w st s) :
    Follows t v calls st (t.calcExpr call e st).2 ∧
      (t.calcExpr call e st).1 =
        e.calcValue (t.valuesOf w) ∧
      ∀ s ∈ e.syms,
        (t.calcExpr call e st).2.valid s = true := by
  induction e generalizing st with
  | symbol s =>
      rcases call_follows hCalls hSettled
          (hReady s List.mem_cons_self) with
        ⟨hFollows, hValid, hCurr⟩
      refine ⟨hFollows, congrArg SymbolValue.tri hCurr, ?_⟩
      intro r hr
      cases List.mem_singleton.mp hr
      exact hValid
  | equal s u =>
      rcases calls_follow hCalls hSettled
          (hReady s (by simp [Expr.syms]))
          (hReady u (by simp [Expr.syms])) with
        ⟨hFollows, hLeft, hRight⟩
      refine ⟨hFollows, ?_, ?_⟩
      · unfold calcExpr
        simp only
        rw [hLeft.2, hRight.2]
        rfl
      · simp only [Expr.syms, List.mem_cons, List.not_mem_nil,
          or_false]
        rintro r (rfl | rfl)
        · exact hLeft.1
        · exact hRight.1
  | unequal s u =>
      rcases calls_follow hCalls hSettled
          (hReady s (by simp [Expr.syms]))
          (hReady u (by simp [Expr.syms])) with
        ⟨hFollows, hLeft, hRight⟩
      refine ⟨hFollows, ?_, ?_⟩
      · unfold calcExpr
        simp only
        rw [hLeft.2, hRight.2]
        rfl
      · simp only [Expr.syms, List.mem_cons, List.not_mem_nil,
          or_false]
        rintro r (rfl | rfl)
        · exact hLeft.1
        · exact hRight.1
  | not e ih =>
      rcases ih hSettled hReady with ⟨hFollows, hValue, hAll⟩
      refine ⟨hFollows, ?_, hAll⟩
      simp only [calcExpr, hValue, Expr.calcValue]
  | and e f ihe ihf =>
      simp only [Expr.syms, List.mem_append] at hReady ⊢
      rcases ihe hSettled (fun s h => hReady s (Or.inl h)) with
        ⟨hFirst, hLeft, hAll⟩
      rcases ihf hFirst.settled (fun s h =>
          (hReady s (Or.inr h)).mono hFirst.keeps) with
        ⟨hSecond, hRight, hAll'⟩
      refine ⟨hFirst.trans hSecond, ?_, ?_⟩
      · simp only [calcExpr, hLeft, hRight, Expr.calcValue]
      · rintro s (hs | hs)
        · exact hSecond.keeps.valid s (hAll s hs)
        · exact hAll' s hs
  | or e f ihe ihf =>
      simp only [Expr.syms, List.mem_append] at hReady ⊢
      rcases ihe hSettled (fun s h => hReady s (Or.inl h)) with
        ⟨hFirst, hLeft, hAll⟩
      rcases ihf hFirst.settled (fun s h =>
          (hReady s (Or.inr h)).mono hFirst.keeps) with
        ⟨hSecond, hRight, hAll'⟩
      refine ⟨hFirst.trans hSecond, ?_, ?_⟩
      · simp only [calcExpr, hLeft, hRight, Expr.calcValue]
      · rintro s (hs | hs)
        · exact hSecond.keeps.valid s (hAll s hs)
        · exact hAll' s hs

theorem calcCond_follows
    (e : Option Expr)
    {st : CalcState}
    (hSettled : Settled t v calls st)
    (hReady : ∀ s ∈ optSyms e, Ready rank v calls w st s) :
    Follows t v calls st (t.calcCond call e st).2 ∧
      (t.calcCond call e st).1 = t.condIn w e ∧
      ∀ s ∈ optSyms e,
        (t.calcCond call e st).2.valid s = true := by
  cases e with
  | none => exact ⟨.refl hSettled, rfl, fun _ h => nomatch h⟩
  | some e => exact calcExpr_follows hCalls e hSettled hReady

------------------------------------------------------------
-- Visibility
------------------------------------------------------------

/- The loop over the prompts joins their conditions. -/
theorem calcPrompts_follows
    (ps : List Property)
    (tri : Tristate)
    {st : CalcState}
    (hSettled : Settled t v calls st)
    (hReady : ∀ p ∈ ps, ∀ s ∈ optSyms p.visible,
      Ready rank v calls w st s) :
    Follows t v calls st (t.calcPrompts call ps tri st).2 ∧
      (t.calcPrompts call ps tri st).1 =
        ps.foldl
          (fun tri p => tri.or (t.condIn w p.visible)) tri ∧
      ∀ p ∈ ps, ∀ s ∈ optSyms p.visible,
        (t.calcPrompts call ps tri st).2.valid s = true := by
  induction ps generalizing tri st with
  | nil => exact ⟨.refl hSettled, rfl, fun _ h => nomatch h⟩
  | cons p ps ih =>
      rcases calcCond_follows hCalls p.visible hSettled
          (hReady p List.mem_cons_self) with
        ⟨hFirst, hValue, hAll⟩
      rcases ih (tri.or (t.calcCond call p.visible st).1)
          hFirst.settled
          (fun q hq s hs =>
            (hReady q (List.mem_cons_of_mem p hq) s hs).mono
              hFirst.keeps) with
        ⟨hSecond, hRest, hAll'⟩
      refine ⟨hFirst.trans hSecond, ?_, ?_⟩
      · rw [List.foldl_cons, ← hValue]
        exact hRest
      · intro q hq s hs
        rcases List.mem_cons.mp hq with rfl | hLater
        · exact hSecond.keeps.valid s (hAll s hs)
        · exact hAll' q hLater s hs

/-
  `sym_calc_visibility` of an open symbol: it gets what the
  equations say of its visibility and of what selects it.
-/
theorem symCalcVisibility_settles
    {s : SymId}
    (hSettled : Settled t v calls st)
    (hOpen : IsOpen t calls s)
    (hPrompts : ∀ p ∈ t.prompts s, ∀ r ∈ optSyms p.visible,
      Ready rank v calls w st r)
    (hRev : t.isChoiceValue s = false →
      ∀ r ∈ optSyms (t.symbol s).revDep,
        Ready rank v calls w st r)
    (hModules : t.type s = .tristate →
      st.valid .modules = true ∧ .modules ∉ calls)
    (hSame : (w .modules).tri = (v .modules).tri) :
    Settled t v calls (t.symCalcVisibility call s st) ∧
      Keeps t ∅ {s} st (t.symCalcVisibility call s st) ∧
      (t.symCalcVisibility call s st).visible s =
        t.visibleIn w s ∧
      (t.symCalcVisibility call s st).revTri s =
        t.revIn w s ∧
      ∀ p ∈ t.prompts s, ∀ r ∈ optSyms p.visible,
        (t.symCalcVisibility call s st).valid r = true := by
  rcases calcPrompts_follows hCalls (t.prompts s) .no hSettled
      hPrompts with ⟨hFirst, hTri, hAll⟩
  generalize hRun : t.calcPrompts call (t.prompts s) .no st =
    prompts at hFirst hTri hAll
  -- The modules are settled wherever they are asked for.
  have hVal : ∀ st' Y, Settled t v calls st' →
      Keeps t ∅ Y st st' → t.type s = .tristate →
      st'.modulesVal = (w .modules).tri := by
    intro st' Y hAfter hKeeps hType
    rcases hModules hType with ⟨hValid, hClosed⟩
    rw [hSame]
    exact hAfter.modules (hKeeps.valid _ hValid) hClosed
  have hVisible :
      t.settleVisible prompts.2.modulesVal s prompts.1 =
        t.visibleIn w s := by
    rw [settleVisible_congr
      (hVal _ ∅ hFirst.settled hFirst.keeps), hTri]
    rfl
  generalize hShown :
    prompts.2.setVisible s (t.visibleIn w s) = shown
  have hBefore : Settled t v calls shown := by
    rw [← hShown]
    exact hFirst.settled.setVisible hOpen _
  have hKeeps : Keeps t ∅ {s} st shown := by
    rw [← hShown]
    exact hFirst.keeps.widen.trans
      (.setVisible (Set.mem_singleton s) _)
  have hSees : shown.visible s = t.visibleIn w s := by
    simp [← hShown, CalcState.setVisible]
  have hPromptsValid : ∀ p ∈ t.prompts s,
      ∀ r ∈ optSyms p.visible, shown.valid r = true := by
    rw [← hShown]
    exact hAll
  unfold symCalcVisibility
  simp only [hRun, hVisible, hShown]
  cases hValue : t.isChoiceValue s with
  | true =>
      refine ⟨hBefore, hKeeps, hSees, ?_, hPromptsValid⟩
      rw [if_pos rfl, revIn, if_pos hValue]
      exact hBefore.rev_value s hValue
  | false =>
      have hNone : (t.symbol s).choiceOf = none := by
        simpa [isChoiceValue] using hValue
      have hCall : s ∈ calls := by
        rcases hOpen with hMem | ⟨c, hChoice, _⟩
        · exact hMem
        · rw [hNone] at hChoice
          cases hChoice
      simp only [Bool.false_eq_true, if_false]
      rw [revIn, if_neg (by simp [hValue])]
      cases hDep : (t.symbol s).revDep with
      | none =>
          refine ⟨hBefore.setRev hOpen hValue _,
            hKeeps.trans (.setRev (Set.mem_singleton s) _),
            hSees, ?_, hPromptsValid⟩
          simp [CalcState.setRev, settleTri]
      | some e =>
          rcases calcExpr_follows hCalls e hBefore
              (fun r hr => (hRev hValue r
                (by simpa [hDep, optSyms] using hr)).mono
                  hKeeps) with
            ⟨hSecond, hTri', _⟩
          have hStill := (hSecond.keeps.shown s
            (Set.notMem_empty s) (hBefore.called s hCall)
            (by simp [hNone])).1
          have hType : t.symGetType
              (t.calcExpr call e shown).2 s = t.typeIn w s := by
            unfold symGetType typeIn
            rw [hStill, hSees]
            exact typeAt_congr (hVal _ {s} hSecond.settled
              (hKeeps.trans hSecond.keeps.widen)) _
          refine ⟨hSecond.settled.setRev hOpen hValue _,
            (hKeeps.trans hSecond.keeps.widen).trans
              (.setRev (Set.mem_singleton s) _), ?_, ?_, ?_⟩
          · simpa [CalcState.setRev] using hStill.trans hSees
          · simp [CalcState.setRev, hType, hTri']
          · intro p hp r hr
            exact hSecond.keeps.valid r
              (hPromptsValid p hp r hr)

/- The first property that holds, with its condition. -/
theorem firstVisible_follows
    {P : Type}
    {cond : P → Option Expr}
    (ps : List P)
    {st : CalcState}
    (hSettled : Settled t v calls st)
    (hReady : ∀ p ∈ ps, ∀ s ∈ optSyms (cond p),
      Ready rank v calls w st s) :
    Follows t v calls st (t.firstVisible call cond ps st).2 ∧
      (t.firstVisible call cond ps st).1 =
        t.firstIn w cond ps := by
  induction ps generalizing st with
  | nil => exact ⟨.refl hSettled, rfl⟩
  | cons p ps ih =>
      rcases calcCond_follows hCalls (cond p) hSettled
          (hReady p List.mem_cons_self) with
        ⟨hFirst, hValue, _⟩
      unfold firstVisible firstIn
      simp only [hValue]
      split
      · rcases ih hFirst.settled (fun q hq s hs =>
            (hReady q (List.mem_cons_of_mem p hq) s hs).mono
              hFirst.keeps) with
          ⟨hSecond, hRest⟩
        exact ⟨hFirst.trans hSecond, hRest⟩
      · exact ⟨hFirst, rfl⟩

end CalcTable

end Mkrootfs
