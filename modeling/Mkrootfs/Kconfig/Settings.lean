import Mkrootfs.Kconfig.CalcSolution

/-
  What a user sets (`sym_set_tristate_value` and its callers):
  the values that a symbol may be given, and what setting one
  changes before everything is calculated again.

  Main declarations:
    * `symTristateWithinRange`, `symSetTristateValue`
    * `symToggleTristateValue`
    * `SameText`, `NewSettings`
-/

------------------------------------------------------------
-- Setting Values
------------------------------------------------------------

namespace Mkrootfs

namespace CalcTable

variable (t : CalcTable)

/- Update the symbol of an identity. -/
def modify (s : SymId) (f : Symbol → Symbol) : CalcTable :=
  { t with symbol := Function.update t.symbol s (f (t.symbol s)) }

/- `sym_tristate_within_range`. -/
def symTristateWithinRange
    (st : CalcState)
    (s : SymId)
    (val : Tristate) : Bool :=
  let type := t.symGetType st s
  if st.visible s = .no then
    false
  else if type ≠ .boolean ∧ type ≠ .tristate then
    false
  else if type = .boolean ∧ val = .mod then
    false
  else if st.visible s ≤ st.revTri s then
    false
  else if t.isChoiceValue s ∧ st.visible s = .yes then
    val = .yes
  else
    st.revTri s ≤ val ∧ val ≤ st.visible s

/-
  A value of a choice that is set to `y` becomes the user's
  choice, and no visible value of it counts as new any more.
-/
def choose
    (c : ChoiceId)
    (s : SymId)
    (st : CalcState) : CalcTable :=
  { t with
    symbol := fun other =>
      let sym := t.symbol other
      if other = .choice c then
        { sym with
          defUser :=
            { sym.defUser with val := [], chosen := some s }
          hasUser := true }
      else if other ∈ t.values c ∧ st.visible other ≠ .no then
        { sym with hasUser := true }
      else
        sym }

/- `SYMBOL_DEF_USER`. -/
def markUser (s : SymId) : CalcTable :=
  t.modify s (fun sym => { sym with hasUser := true })

/- `sym->def[S_DEF_USER].tri`. -/
def setUserTri (s : SymId) (val : Tristate) : CalcTable :=
  t.modify s (fun sym =>
    { sym with defUser := { sym.defUser with tri := val } })

/- The settings that `sym_set_tristate_value` leaves. -/
def withTri
    (s : SymId)
    (val : Tristate)
    (st : CalcState) : CalcTable :=
  let marked := t.markUser s
  let chosen :=
    match (marked.symbol s).choiceOf with
    | some c =>
        if val = Tristate.yes then
          marked.choose c s st
        else
          marked
    | none => marked
  chosen.setUserTri s val

/-
  `sym_set_tristate_value`: whether the value is accepted, and
  the settings and the state after it.
-/
def symSetTristateValue
    (fuel : Nat)
    (s : SymId)
    (val : Tristate)
    (st : CalcState) : Bool × CalcTable × CalcState :=
  let oldval := (st.curr s).tri
  if oldval ≠ val ∧ t.symTristateWithinRange st s val = false then
    (false, t, st)
  else
    let t' := t.withTri s val st
    (true, t',
      if oldval ≠ val then t'.symClearAllValid fuel st else st)

/- The order in which a toggle tries the values. -/
def nextTri : Tristate → Tristate
| .no => .mod
| .mod => .yes
| .yes => .no

/- The loop of `sym_toggle_tristate_value`. -/
def toggleFrom
    (fuel : Nat)
    (s : SymId)
    (oldval : Tristate)
    (st : CalcState) :
    Nat → Tristate → Option (Tristate × CalcTable × CalcState)
| 0, _ => none
| rounds + 1, val =>
    let newval := nextTri val
    let set := t.symSetTristateValue fuel s newval st
    if set.1 ∨ oldval = newval then
      some (newval, set.2)
    else
      toggleFrom fuel s oldval st rounds newval

/- `sym_toggle_tristate_value`. -/
def symToggleTristateValue
    (fuel : Nat)
    (s : SymId)
    (st : CalcState) :
    Option (Tristate × CalcTable × CalcState) :=
  t.toggleFrom fuel s (st.curr s).tri st 3 (st.curr s).tri

------------------------------------------------------------
-- What A Setting Leaves Alone
------------------------------------------------------------

/- Tables that differ in the user's settings only. -/
structure SameText (t t' : CalcTable) : Prop where
  type : ∀ s, (t'.symbol s).type = (t.symbol s).type
  props : ∀ s, (t'.symbol s).props = (t.symbol s).props
  revDep : ∀ s, (t'.symbol s).revDep = (t.symbol s).revDep
  choiceOf : ∀ s,
    (t'.symbol s).choiceOf = (t.symbol s).choiceOf
  ranges : t'.ranges = t.ranges
  values : t'.values = t.values
  longBits : t'.longBits = t.longBits

variable {t}
variable {t' t'' : CalcTable}

namespace SameText

theorem refl : SameText t t :=
  ⟨fun _ => rfl, fun _ => rfl, fun _ => rfl, fun _ => rfl,
    rfl, rfl, rfl⟩

theorem trans
    (hFirst : SameText t t')
    (hSecond : SameText t' t'') : SameText t t'' where
  type s := (hSecond.type s).trans (hFirst.type s)
  props s := (hSecond.props s).trans (hFirst.props s)
  revDep s := (hSecond.revDep s).trans (hFirst.revDep s)
  choiceOf s := (hSecond.choiceOf s).trans (hFirst.choiceOf s)
  ranges := hSecond.ranges.trans hFirst.ranges
  values := hSecond.values.trans hFirst.values
  longBits := hSecond.longBits.trans hFirst.longBits

theorem of_modify
    (t : CalcTable)
    (s : SymId)
    {f : Symbol → Symbol}
    (hType : ∀ sym, (f sym).type = sym.type)
    (hProps : ∀ sym, (f sym).props = sym.props)
    (hRev : ∀ sym, (f sym).revDep = sym.revDep)
    (hChoice : ∀ sym, (f sym).choiceOf = sym.choiceOf) :
    SameText t (t.modify s f) := by
  have hPart : ∀ {β : Type} (part : Symbol → β),
      (∀ sym, part (f sym) = part sym) →
      ∀ r, part ((t.modify s f).symbol r) =
        part (t.symbol r) := by
    intro β part hPart r
    by_cases hSelf : r = s
    · subst hSelf
      simp [modify, hPart]
    · simp [modify, hSelf]
  exact ⟨hPart _ hType, hPart _ hProps, hPart _ hRev,
    hPart _ hChoice, rfl, rfl, rfl⟩

theorem of_choose
    (t : CalcTable)
    (c : ChoiceId)
    (s : SymId)
    (st : CalcState) :
    SameText t (t.choose c s st) := by
  have hPart : ∀ r,
      ((t.choose c s st).symbol r).type = (t.symbol r).type ∧
        ((t.choose c s st).symbol r).props =
          (t.symbol r).props ∧
        ((t.choose c s st).symbol r).revDep =
          (t.symbol r).revDep ∧
        ((t.choose c s st).symbol r).choiceOf =
          (t.symbol r).choiceOf := by
    intro r
    unfold choose
    simp only
    split
    · exact ⟨rfl, rfl, rfl, rfl⟩
    · split <;> exact ⟨rfl, rfl, rfl, rfl⟩
  exact ⟨fun r => (hPart r).1, fun r => (hPart r).2.1,
    fun r => (hPart r).2.2.1, fun r => (hPart r).2.2.2,
    rfl, rfl, rfl⟩

theorem of_withTri
    (t : CalcTable)
    (s : SymId)
    (val : Tristate)
    (st : CalcState) :
    SameText t (t.withTri s val st) := by
  have hMark : SameText t (t.markUser s) :=
    of_modify t s (fun _ => rfl) (fun _ => rfl) (fun _ => rfl)
      (fun _ => rfl)
  have hSet : ∀ u : CalcTable, SameText t u →
      SameText t (u.setUserTri s val) :=
    fun u hu => hu.trans (of_modify u s (fun _ => rfl)
      (fun _ => rfl) (fun _ => rfl) (fun _ => rfl))
  unfold withTri
  simp only
  refine hSet _ ?_
  split
  · split
    · exact hMark.trans (of_choose _ _ _ _)
    · exact hMark
  · exact hMark

variable (hSame : SameText t t')

include hSame

theorem type_eq : t'.type = t.type :=
  funext hSame.type

theorem isChoiceValue_eq : t'.isChoiceValue = t.isChoiceValue :=
  funext (fun s => by rw [isChoiceValue, hSame.choiceOf]; rfl)

theorem prompts_eq : t'.prompts = t.prompts :=
  funext (fun s => by rw [prompts, hSame.props]; rfl)

theorem defaults_eq : t'.defaults = t.defaults :=
  funext (fun s => by rw [defaults, hSame.props]; rfl)

theorem condIn_eq : t'.condIn = t.condIn := by
  have hString : t'.stringValue = t.stringValue := by
    funext s v
    simp only [stringValue, hSame.type_eq]
  funext v e
  unfold condIn valuesOf
  rw [hString]

theorem visibleIn_eq : t'.visibleIn = t.visibleIn := by
  funext v s
  unfold visibleIn promptIn settleVisible
  rw [hSame.type_eq, hSame.prompts_eq, hSame.condIn_eq]

theorem typeIn_eq : t'.typeIn = t.typeIn := by
  funext v s
  unfold typeIn typeAt
  rw [hSame.type_eq, hSame.isChoiceValue_eq,
    hSame.visibleIn_eq]

theorem revIn_eq : t'.revIn = t.revIn := by
  funext v s
  have hCond := congrFun (congrFun hSame.condIn_eq v)
    (t.symbol s).revDep
  unfold revIn
  rw [hSame.isChoiceValue_eq, hSame.typeIn_eq, hSame.revDep]
  split
  · rfl
  · cases hDep : (t.symbol s).revDep with
    | none => rfl
    | some e =>
        rw [hDep] at hCond
        exact congrArg (settleTri (t.typeIn v s)) hCond

theorem firstIn_eq
    {P : Type}
    (v : SymId → SymbolValue)
    (cond : P → Option Expr)
    (ps : List P) :
    t'.firstIn v cond ps = t.firstIn v cond ps := by
  induction ps with
  | nil => rfl
  | cons p ps ih => simp only [firstIn, hSame.condIn_eq, ih]

theorem chosenIn_eq
    (v : SymId → SymbolValue)
    (list : List (Option Expr × SymId)) :
    t'.chosenIn v list = t.chosenIn v list := by
  induction list with
  | nil => rfl
  | cons candidate list ih =>
      rcases candidate with ⟨cond, value⟩
      simp only [chosenIn, hSame.condIn_eq,
        hSame.visibleIn_eq, ih]

theorem rangeIn_eq
    (v : SymId → SymbolValue)
    (s : SymId)
    (newval : SymbolValue) :
    t'.rangeIn v s newval = t.rangeIn v s newval := by
  unfold rangeIn boundIn
  simp only [hSame.firstIn_eq, hSame.type_eq, hSame.ranges,
    hSame.longBits]

/- The equation of a symbol whose settings are the same. -/
theorem valueIn_eq
    (v : SymId → SymbolValue)
    (s : SymId)
    (hHas : (t'.symbol s).hasUser = (t.symbol s).hasUser)
    (hUser : (t'.symbol s).defUser = (t.symbol s).defUser) :
    t'.valueIn v s = t.valueIn v s := by
  have hCandidates : t'.candidates s = t.candidates s := by
    unfold candidates
    rw [hSame.defaults_eq, hSame.values]
    cases s with
    | choice c => simp only [hUser]
    | _ => rfl
  have hFree : ∀ visible,
      t'.freeTriIn v s visible = t.freeTriIn v s visible := by
    intro visible
    simp only [freeTriIn, defaultTriIn, hHas, hUser,
      hSame.revIn_eq, hSame.firstIn_eq, hSame.condIn_eq,
      hSame.defaults_eq]
  have hNewval : ∀ newval,
      t'.newvalIn v s newval = t.newvalIn v s newval := by
    intro newval
    simp only [newvalIn, tristateIn, stringIn, hHas, hUser,
      hSame.typeIn_eq, hSame.visibleIn_eq, hSame.choiceOf,
      hSame.firstIn_eq, hSame.defaults_eq, hFree]
  unfold valueIn choiceIn
  simp only [hSame.type_eq, hNewval, hCandidates,
    hSame.chosenIn_eq, hSame.rangeIn_eq]

end SameText

------------------------------------------------------------
-- The New Settings
------------------------------------------------------------

variable {s : SymId}
variable {c : ChoiceId}
variable {val : Tristate}
variable {st : CalcState}

theorem modify_self
    (t : CalcTable)
    (s : SymId)
    (f : Symbol → Symbol) :
    (t.modify s f).symbol s = f (t.symbol s) := by
  simp [modify]

theorem modify_of_ne
    (t : CalcTable)
    {s r : SymId}
    (f : Symbol → Symbol)
    (hNe : r ≠ s) :
    (t.modify s f).symbol r = t.symbol r := by
  simp [modify, hNe]

/- A setting that concerns no choice. -/
theorem withTri_free
    (hFree : ∀ c, (t.symbol s).choiceOf = some c →
      val ≠ .yes) :
    t.withTri s val st = (t.markUser s).setUserTri s val := by
  have hMarked : ((t.markUser s).symbol s).choiceOf =
      (t.symbol s).choiceOf := by
    rw [markUser, modify_self]
  unfold withTri
  simp only [hMarked]
  cases hChoice : (t.symbol s).choiceOf with
  | none => rfl
  | some c => simp only [if_neg (hFree c hChoice)]

/- A setting that makes a choice. -/
theorem withTri_choose
    (hChoice : (t.symbol s).choiceOf = some c) :
    t.withTri s .yes st =
      ((t.markUser s).choose c s st).setUserTri s .yes := by
  have hMarked : ((t.markUser s).symbol s).choiceOf =
      some c := by
    rw [markUser, modify_self, ← hChoice]
  unfold withTri
  simp only [hMarked, if_true]

/- Other symbols keep theirs, the choice and its values aside. -/
theorem withTri_other
    {r : SymId}
    (hNe : r ≠ s)
    (hChoice : ∀ c, (t.symbol s).choiceOf = some c →
      val = .yes → r ≠ .choice c ∧ r ∉ t.values c) :
    (t.withTri s val st).symbol r = t.symbol r := by
  by_cases hFree : ∀ c, (t.symbol s).choiceOf = some c →
      val ≠ .yes
  · rw [withTri_free hFree, setUserTri, modify_of_ne _ _ hNe,
      markUser, modify_of_ne _ _ hNe]
  · push Not at hFree
    rcases hFree with ⟨c, hSome, rfl⟩
    rcases hChoice c hSome rfl with ⟨hOut, hValue⟩
    have hValue' : r ∉ (t.markUser s).values c := hValue
    rw [withTri_choose hSome, setUserTri, modify_of_ne _ _ hNe]
    simp only [choose, if_neg hOut, hValue', false_and,
      if_false]
    rw [markUser, modify_of_ne _ _ hNe]

/- The choice of a value that is set to `y`. -/
theorem withTri_choice
    (st : CalcState)
    (hOwn : s ≠ .choice c)
    (hChoice : (t.symbol s).choiceOf = some c) :
    ((t.withTri s .yes st).symbol (.choice c)).hasUser = true ∧
      ((t.withTri s .yes st).symbol
        (.choice c)).defUser.chosen = some s ∧
      ((t.withTri s .yes st).symbol (.choice c)).defUser.tri =
        (t.symbol (.choice c)).defUser.tri := by
  rw [withTri_choose hChoice, setUserTri,
    modify_of_ne _ _ (Ne.symm hOwn)]
  simp only [choose, if_true]
  rw [markUser, modify_of_ne _ _ (Ne.symm hOwn)]
  exact ⟨trivial, trivial, rfl⟩

/- The chosen symbol of every other symbol stays. -/
theorem withTri_chosen
    (t : CalcTable)
    (s : SymId)
    (val : Tristate)
    (st : CalcState)
    (key : SymId) :
    ((t.withTri s val st).symbol key).defUser.chosen =
        (t.symbol key).defUser.chosen ∨
      ∃ c, key = .choice c ∧
        (t.symbol s).choiceOf = some c ∧
        ((t.withTri s val st).symbol key).defUser.chosen =
          some s := by
  have hModify : ∀ (u : CalcTable) (f : Symbol → Symbol),
      (∀ sym, (f sym).defUser.chosen = sym.defUser.chosen) →
      ((u.modify s f).symbol key).defUser.chosen =
        (u.symbol key).defUser.chosen := by
    intro u f hf
    by_cases hSelf : key = s
    · subst hSelf
      rw [modify_self, hf]
    · rw [modify_of_ne _ _ hSelf]
  have hMark : ((t.markUser s).symbol key).defUser.chosen =
      (t.symbol key).defUser.chosen :=
    hModify t _ (fun _ => rfl)
  have hSet : ∀ (u : CalcTable) (tri : Tristate),
      ((u.setUserTri s tri).symbol key).defUser.chosen =
        (u.symbol key).defUser.chosen :=
    fun u tri => hModify u _ (fun _ => rfl)
  by_cases hFree : ∀ c, (t.symbol s).choiceOf = some c →
      val ≠ .yes
  · refine Or.inl ?_
    rw [withTri_free hFree, hSet, hMark]
  · push Not at hFree
    rcases hFree with ⟨c, hSome, rfl⟩
    rw [withTri_choose hSome, hSet]
    simp only [choose]
    split
    · next hKey => exact Or.inr ⟨c, hKey, hSome, rfl⟩
    · refine Or.inl ?_
      rw [← hMark]
      split <;> rfl

------------------------------------------------------------
-- Well-Formed Settings
------------------------------------------------------------

/-
  What `menu_finalize` makes of the values of a choice: they
  are in its list, and in the solution for any settings they
  are hidden where the choice is `n`, and a tristate choice is
  `y` where one can be `y`.
-/
structure Grouped (t : CalcTable) : Prop where
  listed : ∀ s c, (t.symbol s).choiceOf = some c →
    s ∈ t.values c
  boolean : ∀ s c, (t.symbol s).choiceOf = some c →
    t.type (.choice c) = .boolean ∨
      t.type (.choice c) = .tristate
  hidden : ∀ s c, (t.symbol s).choiceOf = some c →
    ∀ t' v, SameText t t' → t'.equations.Solves v →
      (v (.choice c)).tri = .no → t.visibleIn v s = .no
  guarded : ∀ s c, (t.symbol s).choiceOf = some c →
    t.type (.choice c) = .tristate →
    ∀ t' v, SameText t t' → t'.equations.Solves v →
      t.visibleIn v s = .yes → (v (.choice c)).tri = .yes

theorem Grouped.of_same
    (hSame : SameText t t')
    (hGroup : Grouped t) :
    Grouped t' := by
  refine ⟨?_, ?_, ?_, ?_⟩
  · intro r c hChoice
    rw [hSame.values]
    exact hGroup.listed r c (hSame.choiceOf r ▸ hChoice)
  · intro r c hChoice
    rw [hSame.type_eq]
    exact hGroup.boolean r c (hSame.choiceOf r ▸ hChoice)
  · intro r c hChoice
    rw [hSame.visibleIn_eq]
    exact fun u v hNext => hGroup.hidden r c
      (hSame.choiceOf r ▸ hChoice) u v (hSame.trans hNext)
  · intro r c hChoice
    rw [hSame.type_eq, hSame.visibleIn_eq]
    exact fun hType u v hNext => hGroup.guarded r c
      (hSame.choiceOf r ▸ hChoice) hType u v
      (hSame.trans hNext)

/- A value that is chosen was a candidate already. -/
theorem candidates_withTri
    (hGroup : Grouped t)
    (key : SymId) :
    (t.withTri s val st).candidates key ⊆
      t.candidates key := by
  have hSame := SameText.of_withTri t s val st
  intro candidate hCandidate
  cases key with
  | choice c =>
      simp only [candidates, hSame.defaults_eq, hSame.values,
        List.mem_append] at hCandidate ⊢
      rcases hCandidate with (hUser | hDefault) | hValue
      · rcases withTri_chosen t s val st (.choice c) with
          hOld | ⟨d, hKey, hChoice, hNew⟩
        · rw [hOld] at hUser
          exact Or.inl (Or.inl hUser)
        · cases hKey
          rw [hNew] at hUser
          refine Or.inr ?_
          simp only [Option.toList_some, List.map_cons,
            List.map_nil, List.mem_singleton] at hUser
          rw [hUser]
          exact List.mem_map_of_mem (hGroup.listed s c hChoice)
      · exact Or.inl (Or.inr hDefault)
      · exact Or.inr hValue
  | builtin tri => exact hCandidate
  | named name => exact hCandidate
  | const name => exact hCandidate
  | modules => exact hCandidate

/- New settings, in which no choice gets new candidates. -/
structure NewSettings (t t' : CalcTable) : Prop
    extends SameText t t' where
  candidates : ∀ key, t'.candidates key ⊆ t.candidates key

theorem NewSettings.of_withTri
    (s : SymId)
    (val : Tristate)
    (st : CalcState)
    (hGroup : Grouped t) :
    NewSettings t (t.withTri s val st) :=
  ⟨SameText.of_withTri t s val st, candidates_withTri hGroup⟩

namespace NewSettings

variable (hNew : NewSettings t t')

include hNew

theorem wellFormed
    (hWell : WellFormed t) :
    WellFormed t' := by
  have hSame := hNew.toSameText
  refine ⟨?_, ?_, ?_, ?_⟩
  · intro r c hChoice
    rw [hSame.prompts_eq]
    exact hWell.value_prompt r c (hSame.choiceOf r ▸ hChoice)
  · intro c candidate hCandidate
    rw [hSame.choiceOf]
    exact hWell.candidate_value c candidate
      (hNew.candidates _ hCandidate)
  · intro c
    rw [hSame.choiceOf]
    exact hWell.choice_plain c
  · rw [hSame.type_eq]
    exact hWell.modules_boolean

/- No setting makes a symbol read others than before. -/
theorem reads (key : SymId) :
    t'.reads key ⊆ t.reads key := by
  have hSame := hNew.toSameText
  have hShown : t'.shownReads = t.shownReads := by
    funext r
    simp only [shownReads, typeReads, hSame.prompts_eq,
      hSame.type_eq]
  have hTyped : t'.isTyped key = t.isTyped key := by
    simp only [isTyped, hSame.type_eq]
  have hRev : t'.revReads key = t.revReads key := by
    simp only [revReads, hSame.choiceOf, hSame.revDep]
  have hDefault : t'.defaultReads key = t.defaultReads key := by
    simp only [defaultReads, hSame.type_eq, hSame.defaults_eq]
  have hRange : t'.rangeReads key = t.rangeReads key := by
    simp only [rangeReads, hSame.ranges]
  have hCandidate :
      t'.candidateReads key ⊆ t.candidateReads key := by
    intro r hr
    rcases List.mem_flatMap.mp hr with
      ⟨candidate, hCandidate, hMem⟩
    rw [hShown] at hMem
    exact List.mem_flatMap.mpr
      ⟨candidate, hNew.candidates key hCandidate, hMem⟩
  unfold CalcTable.reads
  rw [hTyped, hShown, hRev, hDefault, hRange]
  split
  · intro r hr
    rw [List.mem_append] at hr ⊢
    exact hr.imp_right (fun h => hCandidate h)
  · exact List.Subset.refl _

theorem ranked
    {rank : SymId → Nat}
    (hRank : t.equations.Ranked rank) :
    t'.equations.Ranked rank :=
  fun key r hr => hRank key r (hNew.reads key hr)

end NewSettings

end CalcTable

end Mkrootfs
