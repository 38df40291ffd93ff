import Mkrootfs.Kconfig.Settings

/-
  What a user sets is what is calculated afterwards: a change
  that `sym_set_tristate_value` accepts makes the new value
  the one of the equations, for a value of a choice through
  the choice.

  Main declarations:
    * `InRange`
    * `value_withTri`
-/

------------------------------------------------------------
-- Tristates Of Equations
------------------------------------------------------------

namespace Mkrootfs

theorem Tristate.and_or_of_le
    {rev val visible : Tristate}
    (hLower : rev ≤ val)
    (hUpper : val ≤ visible) :
    (val.and visible).or rev = val := by
  revert hLower hUpper
  cases rev <;> cases val <;> cases visible <;> decide

namespace CalcTable

variable {t : CalcTable}
variable {rank : SymId → Nat}
variable {v w : SymId → SymbolValue}
variable {s : SymId}
variable {c : ChoiceId}
variable {val : Tristate}
variable {st : CalcState}

@[simp] theorem settleTri_yes (type : SymbolType) :
    settleTri type .yes = .yes := by
  simp [settleTri]

theorem settleTri_of_or
    {type : SymbolType}
    {tri : Tristate}
    (hYes : settleTri type tri = .yes)
    (other : Tristate) :
    settleTri type (other.or tri) = .yes := by
  unfold settleTri at hYes ⊢
  cases other <;> cases tri <;> simp_all [Tristate.or,
    Tristate.toNat]

/- A boolean is never `m`. -/
theorem settleTri_boolean (tri : Tristate) :
    settleTri .boolean tri ≠ .mod := by
  cases tri <;> simp [settleTri]

/- Ranges are about numbers. -/
theorem rangeIn_of_tri
    (hType : t.type s = .boolean ∨ t.type s = .tristate)
    (newval : SymbolValue) :
    t.rangeIn v s newval = newval := by
  unfold rangeIn
  rcases hType with hType | hType <;>
    simp [hType, SymbolType.base]

/- The equation of a boolean or tristate symbol. -/
theorem valueIn_of_tri
    (hHashed : s.isHashed = true)
    (hType : t.type s = .boolean ∨ t.type s = .tristate) :
    t.valueIn v s =
      t.choiceIn v s
        ⟨Tristate.no.text, none, t.tristateIn v s⟩ := by
  have hStart : (t.type s).startValue =
      some { SymbolValue.empty with
        val := Tristate.no.text } := by
    rcases hType with hType | hType <;> rw [hType] <;> rfl
  have hNewval : t.newvalIn v s
      { SymbolValue.empty with val := Tristate.no.text } =
        ⟨Tristate.no.text, none, t.tristateIn v s⟩ := by
    have hAt := (t.typeAt_iff (v .modules).tri
      (t.visibleIn v s) s).mpr hType
    unfold newvalIn
    rcases hAt with hAt | hAt
    · rw [show t.typeIn v s = .boolean from hAt]
      rfl
    · rw [show t.typeIn v s = .tristate from hAt]
      rfl
  unfold valueIn
  split
  · cases hHashed
  · simp only [hStart, hNewval, rangeIn_of_tri hType]

/- The equation of a choice. -/
theorem value_of_choice
    (hSolves : t.equations.Solves v)
    (hType : t.type (.choice c) = .boolean ∨
      t.type (.choice c) = .tristate) :
    v (.choice c) =
      t.choiceIn v (.choice c)
        ⟨Tristate.no.text, none,
          t.tristateIn v (.choice c)⟩ := by
  rw [← valueIn_of_tri rfl hType]
  exact hSolves (.choice c)

theorem choiceIn_of_plain
    (hPlain : s.isChoice = false)
    (newval : SymbolValue) :
    t.choiceIn v s newval = newval := by
  simp [choiceIn, hPlain]

/- A choice keeps its value or has none to choose from. -/
theorem choice_tri
    (hSolves : t.equations.Solves v)
    (hType : t.type (.choice c) = .boolean ∨
      t.type (.choice c) = .tristate) :
    (v (.choice c)).tri = t.tristateIn v (.choice c) ∨
      (v (.choice c)).tri = .no := by
  rw [value_of_choice hSolves hType]
  unfold choiceIn
  split
  · split
    · exact Or.inl rfl
    · exact Or.inr rfl
  · exact Or.inl rfl

theorem tristateIn_boolean
    (hType : t.type s = .boolean) :
    t.tristateIn v s ≠ .mod := by
  have hAt : t.typeIn v s = .boolean := by
    simp [typeIn, typeAt, hType]
  unfold tristateIn
  rw [hAt]
  exact settleTri_boolean _

------------------------------------------------------------
-- Accepted Values
------------------------------------------------------------

/- The values a symbol can be given under an assignment. -/
structure InRange
    (t : CalcTable)
    (v : SymId → SymbolValue)
    (s : SymId)
    (val : Tristate) : Prop where
  type : t.type s = .boolean ∨ t.type s = .tristate
  notMod : t.typeIn v s = .boolean → val ≠ .mod
  yesOnly : t.isChoiceValue s = true →
    t.visibleIn v s = .yes → val = .yes
  visible : t.visibleIn v s ≠ .no
  lower : t.revIn v s ≤ val
  upper : val ≤ t.visibleIn v s

/- `sym_tristate_within_range` in a settled state. -/
theorem InRange.of_withinRange
    (hSettled : Settled t v [] st)
    (hModules : st.valid .modules = true)
    (hTyped : t.isTyped s = true)
    (hValid : st.valid s = true)
    (hRange : t.symTristateWithinRange st s val = true) :
    InRange t v s val := by
  rcases hSettled.shown s hValid List.not_mem_nil hTyped with
    ⟨hVisible, hRev⟩
  have hType : t.symGetType st s = t.typeIn v s := by
    unfold symGetType typeIn
    rw [hVisible, hSettled.modules hModules List.not_mem_nil]
  unfold symTristateWithinRange at hRange
  simp only [hType, hVisible, hRev] at hRange
  split at hRange
  · cases hRange
  next hSeen =>
  split at hRange
  · cases hRange
  next hKind =>
  split at hRange
  · cases hRange
  next hMod =>
  split at hRange
  · cases hRange
  next hBelow =>
  have hTri : t.type s = .boolean ∨ t.type s = .tristate := by
    rw [← t.typeAt_iff (v .modules).tri (t.visibleIn v s) s]
    by_contra hNot
    exact hKind (not_or.mp hNot)
  have hNotMod : t.typeIn v s = .boolean → val ≠ .mod :=
    fun hBoolean hVal => hMod ⟨hBoolean, hVal⟩
  split at hRange
  · next hChoice =>
      have hYes : val = .yes := by simpa using hRange
      refine ⟨hTri, hNotMod, fun _ _ => hYes, hSeen, ?_, ?_⟩
      · rw [hYes]
        exact Tristate.le_yes _
      · rw [hYes, hChoice.2]
  · next hFree =>
      have hBounds : t.revIn v s ≤ val ∧
          val ≤ t.visibleIn v s := by
        simpa using hRange
      exact ⟨hTri, hNotMod,
        fun hChoice hYes => absurd ⟨hChoice, hYes⟩ hFree,
        hSeen, hBounds.1, hBounds.2⟩

------------------------------------------------------------
-- Settings Outside Of Choices
------------------------------------------------------------

section Set

variable {t' : CalcTable}
variable {v' : SymId → SymbolValue}
variable (hSame : SameText t t')
variable (hRank : t.equations.Ranked rank)
variable (hSolves : t.equations.Solves v)
variable (hSolves' : t'.equations.Solves v')

include hSame hRank hSolves hSolves'

/-
  Below a rank at which the settings are the same, the values
  are.
-/
theorem value_below
    {n : Nat}
    (hSettings : ∀ r, rank r < n → t.isTyped r = true →
      t'.symbol r = t.symbol r)
    {r : SymId}
    (hr : rank r < n) :
    v r = v' r := by
  refine Equations.agree (fun r => rank r < n) hRank hSolves
    hSolves' ?_ ?_ r hr
  · intro key hKey read hRead
    exact (hRank key read hRead).trans hKey
  · intro key hKey
    show t.valueIn v' key = t'.valueIn v' key
    cases hTyped : t.isTyped key with
    | true =>
        have hSymbol := hSettings key hKey hTyped
        exact (hSame.valueIn_eq v' key
          (congrArg Symbol.hasUser hSymbol)
          (congrArg Symbol.defUser hSymbol)).symm
    | false =>
        -- The value of an untyped symbol is its name.
        unfold valueIn
        rw [hSame.type_eq]
        split
        · rfl
        · next hPlain =>
            have hStart :
                (t.type key).startValue = none := by
              cases key with
              | builtin tri => exact absurd rfl (hPlain tri)
              | _ =>
                  simpa [isTyped, SymId.isHashed] using hTyped
            simp only [hStart]

/- What a symbol reads is as before if only it is set. -/
theorem value_read
    (hOther : ∀ r, r ≠ s → t'.symbol r = t.symbol r) :
    ∀ r ∈ t.reads s, v' r = v r := by
  intro r hr
  refine (value_below hSame hRank hSolves hSolves' ?_
    (hRank s r hr)).symm
  intro key hKey _
  refine hOther key ?_
  rintro rfl
  omega

end Set

/- A symbol outside of choices has the value that is set. -/
theorem value_withTri_free
    {v' : SymId → SymbolValue}
    (hRank : t.equations.Ranked rank)
    (hSolves : t.equations.Solves v)
    (hSolves' : (t.withTri s val st).equations.Solves v')
    (hTyped : t.isTyped s = true)
    (hPlain : s.isChoice = false)
    (hRange : InRange t v s val)
    (hFree : ∀ c, (t.symbol s).choiceOf = some c →
      val ≠ .yes) :
    (v' s).tri = val := by
  have hSame := SameText.of_withTri t s val st
  have hReads := value_read hSame hRank hSolves hSolves'
    (fun r hNe => withTri_other hNe
      (fun c hChoice hYes => absurd hYes (hFree c hChoice)))
  have hShown : ∀ r ∈ t.shownReads s, v' r = v r :=
    fun r hr => hReads r (mem_reads_of_shown hTyped hr)
  have hRev : ∀ r ∈ t.revReads s, v' r = v r :=
    fun r hr => hReads r (mem_reads_of_rev hTyped hr)
  have hHashed : s.isHashed = true := by
    simp only [isTyped, Bool.and_eq_true] at hTyped
    exact hTyped.1
  have hUser : ((t.withTri s val st).symbol s).hasUser = true ∧
      ((t.withTri s val st).symbol s).defUser.tri = val := by
    rw [withTri_free hFree, setUserTri, modify_self, markUser,
      modify_self]
    exact ⟨rfl, rfl⟩
  have hFreeTri : (t.withTri s val st).freeTriIn v' s
      (t.visibleIn v s) = val := by
    unfold freeTriIn
    rw [if_pos ⟨hRange.visible, hUser.1⟩, hUser.2,
      hSame.revIn_eq, revIn_congr hShown hRev]
    exact Tristate.and_or_of_le hRange.lower hRange.upper
  have hSettle : settleTri (t.typeIn v s) val = val := by
    unfold settleTri
    rw [if_neg]
    rintro ⟨hMod, hBoolean⟩
    exact hRange.notMod hBoolean hMod
  rw [hSolves' s]
  show ((t.withTri s val st).valueIn v' s).tri = val
  rw [valueIn_of_tri hHashed (hSame.type_eq ▸ hRange.type),
    choiceIn_of_plain hPlain]
  show (t.withTri s val st).tristateIn v' s = val
  unfold tristateIn
  rw [hSame.typeIn_eq, typeIn_congr hShown,
    hSame.visibleIn_eq, visibleIn_congr hShown,
    hSame.choiceOf]
  cases hChoice : (t.symbol s).choiceOf with
  | none => simp only [hFreeTri, hSettle]
  | some c =>
      have hNotYes : t.visibleIn v s ≠ .yes := by
        intro hYes
        exact hFree c hChoice (hRange.yesOnly
          (by simp [isChoiceValue, hChoice]) hYes)
      generalize hVisible : t.visibleIn v s = visible
        at hNotYes hFreeTri
      cases visible with
      | yes => exact absurd rfl hNotYes
      | no => simp only [hFreeTri, hSettle]
      | mod => simp only [hFreeTri, hSettle]

------------------------------------------------------------
-- Setting A Value Of A Choice
------------------------------------------------------------

theorem Grouped.isTyped_choice
    (hGroup : Grouped t)
    (hChoice : (t.symbol s).choiceOf = some c) :
    t.isTyped (.choice c) = true := by
  rcases hGroup.boolean s c hChoice with hType | hType <;>
    simp [isTyped, SymId.isHashed, hType,
      SymbolType.startValue]

/- A choice is `y` where one of its values can be `y`. -/
theorem choice_yes
    (hGroup : Grouped t)
    (hSolves : t.equations.Solves v)
    (hChoice : (t.symbol s).choiceOf = some c)
    (hVisible : t.visibleIn v s = .yes) :
    (v (.choice c)).tri = .yes := by
  have hNotNo : (v (.choice c)).tri ≠ .no := by
    intro hNo
    rw [hGroup.hidden s c hChoice t v SameText.refl hSolves
      hNo] at hVisible
    cases hVisible
  rcases hGroup.boolean s c hChoice with hType | hType
  · have hNotMod : (v (.choice c)).tri ≠ .mod := by
      rcases choice_tri hSolves (Or.inl hType) with
        hTri | hTri
      · rw [hTri]
        exact tristateIn_boolean hType
      · rw [hTri]
        decide
    generalize (v (.choice c)).tri = tri at hNotNo hNotMod
    cases tri with
    | no => exact absurd rfl hNotNo
    | mod => exact absurd rfl hNotMod
    | yes => rfl
  · exact hGroup.guarded s c hChoice hType t v SameText.refl
      hSolves hVisible

section Choose

variable {v' : SymId → SymbolValue}
variable (hWell : WellFormed t)
variable (hGroup : Grouped t)
variable (hRank : t.equations.Ranked rank)
variable (hSolves : t.equations.Solves v)
variable (hSolves' :
  (t.withTri s .yes st).equations.Solves v')
variable (hTyped : t.isTyped s = true)
variable (hChoice : (t.symbol s).choiceOf = some c)

include hWell hRank hSolves hSolves' hTyped hChoice

/- What the choice reads is as before. -/
theorem value_below_choice
    {r : SymId}
    (hr : rank r < rank (.choice c)) :
    v' r = v r := by
  -- A value of the choice has a higher rank than the choice.
  have hAbove : ∀ value, t.isTyped value = true →
      (t.symbol value).choiceOf = some c →
      rank (.choice c) < rank value := by
    intro value hValue hOf
    exact hRank value (.choice c)
      (mem_reads_of_rev hValue (by simp [revReads, hOf]))
  refine (value_below (SameText.of_withTri t s .yes st) hRank
    hSolves hSolves' ?_ hr).symm
  intro key hKey hKeyTyped
  refine withTri_other ?_ ?_
  · rintro rfl
    have hLower := hAbove key hTyped hChoice
    omega
  · intro d hOf _
    have hSame : d = c := by
      rw [hChoice] at hOf
      exact (Option.some.inj hOf).symm
    subst hSame
    refine ⟨?_, ?_⟩
    · rintro rfl
      omega
    · intro hListed
      have hOf' := hWell.candidate_value d (none, key)
        (List.mem_append_right _
          (List.mem_map_of_mem hListed))
      have hLower := hAbove key hKeyTyped hOf'
      omega

include hGroup

/- The choice stays at `y` before it looks at its values. -/
theorem tristateIn_choice
    (hYes : (v (.choice c)).tri = .yes) :
    (t.withTri s .yes st).tristateIn v' (.choice c) =
      .yes := by
  have hSame := SameText.of_withTri t s .yes st
  have hOwn : s ≠ .choice c := by
    rintro rfl
    rw [hWell.choice_plain c] at hChoice
    cases hChoice
  have hBelow : ∀ r ∈ t.reads (.choice c), v' r = v r :=
    fun r hr => value_below_choice hWell hRank hSolves hSolves'
      hTyped hChoice (hRank _ r hr)
  have hShown : ∀ r ∈ t.shownReads (.choice c),
      v' r = v r :=
    fun r hr => hBelow r
      (mem_reads_of_shown (hGroup.isTyped_choice hChoice) hr)
  have hRev : ∀ r ∈ t.revReads (.choice c), v' r = v r :=
    fun r hr => hBelow r
      (mem_reads_of_rev (hGroup.isTyped_choice hChoice) hr)
  have hOld : t.tristateIn v (.choice c) = .yes := by
    rcases choice_tri hSolves (hGroup.boolean s c hChoice) with
      hTri | hTri
    · rw [← hTri]
      exact hYes
    · rw [hTri] at hYes
      cases hYes
  unfold tristateIn at hOld ⊢
  rw [hSame.typeIn_eq, typeIn_congr hShown,
    hSame.visibleIn_eq, visibleIn_congr hShown,
    hSame.choiceOf, hWell.choice_plain c]
  rw [hWell.choice_plain c] at hOld
  rcases withTri_choice st hOwn hChoice with
    ⟨hHas, _, hTri⟩
  simp only [freeTriIn, hHas, hTri, hSame.revIn_eq,
    revIn_congr hShown hRev, SymId.isChoice] at hOld ⊢
  by_cases hSeen : t.visibleIn v (.choice c) = .no
  · simpa [hSeen] using hOld
  · rw [if_pos ⟨hSeen, trivial⟩]
    by_cases hUser : (t.symbol (.choice c)).hasUser = true
    · rwa [if_pos ⟨hSeen, hUser⟩] at hOld
    · rw [if_neg (fun h => hUser h.2)] at hOld
      refine settleTri_of_or ?_ _
      simpa using hOld

/- What the value reads for its prompt looks as before. -/
theorem seenAlike_choice
    {w : SymId → SymbolValue}
    (hYes : (v (.choice c)).tri = .yes)
    (hStays : (w (.choice c)).tri = .yes)
    (hOther : ∀ r, r ≠ .choice c → w r = v' r)
    {r : SymId}
    (hr : r ∈ t.shownReads s) :
    SeenAlike t w v r := by
  by_cases hSelf : r = .choice c
  · subst hSelf
    refine ⟨hStays.trans hYes.symm, ?_⟩
    unfold stringValue
    rcases hGroup.boolean s c hChoice with hType | hType <;>
      simp [hType, hStays, hYes]
  · refine .of_eq ?_
    have hMem : r ∈ t.candidateReads (.choice c) := by
      refine List.mem_flatMap.mpr ⟨(none, s), ?_,
        List.mem_filter.mpr ⟨?_, by simpa using hSelf⟩⟩
      · exact List.mem_append_right _ (List.mem_map_of_mem
          (hGroup.listed s c hChoice))
      · exact List.mem_append_right _ hr
    rw [hOther r hSelf]
    exact value_below_choice hWell hRank hSolves hSolves'
      hTyped hChoice (hRank _ r (mem_reads_of_candidate
        (hGroup.isTyped_choice hChoice) hMem))

/-
  The choice stays at `y` and picks the value that is set,
  which is as visible as before.
-/
theorem choice_withTri
    (hVisible : t.visibleIn v s = .yes) :
    (v' (.choice c)).tri = .yes ∧
      (v' (.choice c)).chosen = some s ∧
      ∀ r ∈ t.shownReads s, SeenAlike t v' v r := by
  have hSame := SameText.of_withTri t s .yes st
  have hOwn : s ≠ .choice c := by
    rintro rfl
    rw [hWell.choice_plain c] at hChoice
    cases hChoice
  have hYes := choice_yes hGroup hSolves hChoice hVisible
  have hCandidates : ∃ rest,
      (t.withTri s .yes st).candidates (.choice c) =
        (none, s) :: rest := by
    rcases withTri_choice st hOwn hChoice with
      ⟨_, hChosen, _⟩
    unfold candidates
    simp only [hChosen]
    exact ⟨_, rfl⟩
  rcases hCandidates with ⟨rest, hCandidates⟩
  have hStill : t.visibleIn
      (Function.update v' (.choice c)
        ⟨Tristate.no.text, none, .yes⟩) s = .yes := by
    rw [visibleIn_seen (fun r hr => seenAlike_choice hWell
      hGroup hRank hSolves hSolves' hTyped hChoice hYes
      (by simp) (fun r hr => Function.update_of_ne hr _ _) hr),
      hVisible]
  have hValue := value_of_choice hSolves'
    (hSame.type_eq ▸ hGroup.boolean s c hChoice)
  rw [tristateIn_choice hWell hGroup hRank hSolves hSolves'
    hTyped hChoice hYes] at hValue
  unfold choiceIn at hValue
  rw [if_pos ⟨rfl, rfl⟩, hCandidates] at hValue
  unfold chosenIn at hValue
  rw [hSame.visibleIn_eq, hStill] at hValue
  have hPicked : v' (.choice c) = ⟨[], some s, .yes⟩ := hValue
  refine ⟨by rw [hPicked], by rw [hPicked], ?_⟩
  exact fun r hr => seenAlike_choice hWell hGroup hRank hSolves
    hSolves' hTyped hChoice hYes (by rw [hPicked])
    (fun _ _ => rfl) hr

/- A value of a choice that is set to `y` is `y`. -/
theorem value_withTri_choice
    (hPlain : s.isChoice = false)
    (hRange : InRange t v s .yes) :
    (v' s).tri = .yes := by
  have hSame := SameText.of_withTri t s .yes st
  have hVisible : t.visibleIn v s = .yes := by
    have hUpper := hRange.upper
    generalize t.visibleIn v s = visible at hUpper
    revert hUpper
    cases visible <;> decide
  rcases choice_withTri hWell hGroup hRank hSolves hSolves'
      hTyped hChoice hVisible with ⟨_, hChosen, hSeen⟩
  have hHashed : s.isHashed = true := by
    simp only [isTyped, Bool.and_eq_true] at hTyped
    exact hTyped.1
  rw [hSolves' s]
  show ((t.withTri s .yes st).valueIn v' s).tri = .yes
  rw [valueIn_of_tri hHashed (hSame.type_eq ▸ hRange.type),
    choiceIn_of_plain hPlain]
  show (t.withTri s .yes st).tristateIn v' s = .yes
  unfold tristateIn
  rw [hSame.visibleIn_eq, visibleIn_seen hSeen, hVisible,
    hSame.choiceOf, hChoice]
  simp [hChosen]

end Choose

/-
  An accepted value is the value under the new settings: it
  is what the calculator gives from now on.
-/
theorem value_withTri
    {v' : SymId → SymbolValue}
    (hWell : WellFormed t)
    (hGroup : Grouped t)
    (hRank : t.equations.Ranked rank)
    (hSolves : t.equations.Solves v)
    (hSolves' : (t.withTri s val st).equations.Solves v')
    (hTyped : t.isTyped s = true)
    (hPlain : s.isChoice = false)
    (hRange : InRange t v s val) :
    (v' s).tri = val := by
  by_cases hFree : ∀ c, (t.symbol s).choiceOf = some c →
      val ≠ .yes
  · exact value_withTri_free hRank hSolves hSolves' hTyped
      hPlain hRange hFree
  · push Not at hFree
    rcases hFree with ⟨c, hChoice, rfl⟩
    exact value_withTri_choice hWell hGroup hRank hSolves
      hSolves' hTyped hChoice hPlain hRange

end CalcTable

end Mkrootfs
