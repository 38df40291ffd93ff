import Mkrootfs.Kconfig.SetThenGet

/-
  The values of choices as `menu_finalize` adopts them: their
  conditions name the choice, those of booleans in a tristate
  choice its value `y`. Such values are grouped.

  Main declarations:
    * `needsChoice`, `needsYes`, `Adopted`
    * `Adopted.grouped`
    * `adopted_ofTable`
-/

------------------------------------------------------------
-- Conditions On A Choice
------------------------------------------------------------

namespace Mkrootfs

namespace CalcTable

variable {t : CalcTable}
variable {s : SymId}
variable {c : ChoiceId}
variable {v : SymId → SymbolValue}

/- A condition that never goes beyond the choice. -/
def needsChoice (c : ChoiceId) : Expr → Bool
| .symbol s => s == .choice c
| .equal s u => s == .choice c && u == .builtin .yes
| .and a b => needsChoice c a || needsChoice c b
| _ => false

/- A condition that holds only where the choice is `y`. -/
def needsYes (c : ChoiceId) : Expr → Bool
| .equal s u => s == .choice c && u == .builtin .yes
| .and a b => needsYes c a || needsYes c b
| _ => false

/- The values of a choice with the type of an option. -/
theorem stringValue_choice
    (hType : t.type (.choice c) = .boolean ∨
      t.type (.choice c) = .tristate) :
    (t.valuesOf v).str (.choice c) =
      (v (.choice c)).tri.text := by
  show t.stringValue (.choice c) (v (.choice c)) = _
  unfold stringValue
  rcases hType with hType | hType <;> rw [hType]

theorem stringValue_yes
    (hSolves : t.equations.Solves v) :
    (t.valuesOf v).str (.builtin .yes) =
      Tristate.yes.text := by
  have hValue : v (.builtin .yes) =
      ⟨Tristate.yes.text, none, .yes⟩ :=
    hSolves (.builtin .yes)
  show t.stringValue (.builtin .yes) (v (.builtin .yes)) = _
  rw [hValue]
  unfold stringValue
  split <;> rfl

theorem choice_eq_yes
    (hSolves : t.equations.Solves v)
    (hType : t.type (.choice c) = .boolean ∨
      t.type (.choice c) = .tristate)
    (hValue : (Expr.equal (.choice c) (.builtin .yes)
      ).calcValue (t.valuesOf v) ≠ .no) :
    (v (.choice c)).tri = .yes := by
  simp only [Expr.calcValue, stringValue_choice hType,
    stringValue_yes hSolves] at hValue
  revert hValue
  generalize (v (.choice c)).tri = tri
  cases tri <;> decide

theorem yes_of_needsYes
    (hSolves : t.equations.Solves v)
    (hType : t.type (.choice c) = .boolean ∨
      t.type (.choice c) = .tristate)
    {e : Expr}
    (hNeeds : needsYes c e = true)
    (hValue : e.calcValue (t.valuesOf v) ≠ .no) :
    (v (.choice c)).tri = .yes := by
  induction e with
  | equal s u =>
      simp only [needsYes, Bool.and_eq_true, beq_iff_eq]
        at hNeeds
      rcases hNeeds with ⟨rfl, rfl⟩
      exact choice_eq_yes hSolves hType hValue
  | and a b iha ihb =>
      simp only [needsYes, Bool.or_eq_true] at hNeeds
      simp only [Expr.calcValue] at hValue
      rcases hNeeds with hNeeds | hNeeds
      · refine iha hNeeds (fun hNo => hValue ?_)
        rw [hNo]
        exact le_antisymm (Tristate.and_le_left _ _)
          (Tristate.no_le _)
      · refine ihb hNeeds (fun hNo => hValue ?_)
        rw [hNo]
        exact le_antisymm (Tristate.and_le_right _ _)
          (Tristate.no_le _)
  | _ => cases hNeeds

theorem le_choice_of_needsChoice
    (hSolves : t.equations.Solves v)
    (hType : t.type (.choice c) = .boolean ∨
      t.type (.choice c) = .tristate)
    {e : Expr}
    (hNeeds : needsChoice c e = true) :
    e.calcValue (t.valuesOf v) ≤ (v (.choice c)).tri := by
  induction e with
  | symbol s =>
      simp only [needsChoice, beq_iff_eq] at hNeeds
      rw [hNeeds]
      exact le_refl (v (.choice c)).tri
  | equal s u =>
      simp only [needsChoice, Bool.and_eq_true, beq_iff_eq]
        at hNeeds
      rcases hNeeds with ⟨rfl, rfl⟩
      by_cases hNo : (Expr.equal (.choice c) (.builtin .yes)
          ).calcValue (t.valuesOf v) = .no
      · rw [hNo]
        exact Tristate.no_le _
      · rw [choice_eq_yes hSolves hType hNo]
        exact Tristate.le_yes _
  | and a b iha ihb =>
      simp only [needsChoice, Bool.or_eq_true] at hNeeds
      simp only [Expr.calcValue]
      rcases hNeeds with hNeeds | hNeeds
      · exact (Tristate.and_le_left _ _).trans (iha hNeeds)
      · exact (Tristate.and_le_right _ _).trans (ihb hNeeds)
  | _ => cases hNeeds

------------------------------------------------------------
-- Adopted Values
------------------------------------------------------------

/-
  The conditions of the values of a choice as the loops of
  `menu_finalize` leave them, `choice = y` of a tristate
  choice included.
-/
structure Adopted (t : CalcTable) : Prop where
  listed : ∀ s c, (t.symbol s).choiceOf = some c →
    s ∈ t.values c
  boolean : ∀ s c, (t.symbol s).choiceOf = some c →
    t.type (.choice c) = .boolean ∨
      t.type (.choice c) = .tristate
  needs : ∀ s c, (t.symbol s).choiceOf = some c →
    ∀ p ∈ t.prompts s, ∃ e ∈ p.visible,
      needsChoice c e = true ∧
        (t.type (.choice c) = .tristate →
          t.type s ≠ .tristate → needsYes c e = true)

/- Prompts are no more visible than all of them are. -/
theorem promptIn_le
    {bound : Tristate}
    (hPrompts : ∀ p ∈ t.prompts s,
      t.condIn v p.visible ≤ bound) :
    t.promptIn v s ≤ bound := by
  have hFold : ∀ (ps : List Property) (tri : Tristate),
      tri ≤ bound →
      (∀ p ∈ ps, t.condIn v p.visible ≤ bound) →
      ps.foldl (fun tri p => tri.or (t.condIn v p.visible))
        tri ≤ bound := by
    intro ps
    induction ps with
    | nil => exact fun tri hTri _ => hTri
    | cons p ps ih =>
        intro tri hTri hAll
        rw [List.forall_mem_cons] at hAll
        exact ih _ (Tristate.or_le hTri hAll.1) hAll.2
  exact hFold _ _ (Tristate.no_le _) hPrompts

/- The prompts of a value go no further than the choice. -/
theorem Adopted.promptIn_le_choice
    (hAdopted : Adopted t)
    (hSolves : t.equations.Solves v)
    (hChoice : (t.symbol s).choiceOf = some c) :
    t.promptIn v s ≤ (v (.choice c)).tri := by
  refine promptIn_le (fun p hp => ?_)
  rcases hAdopted.needs s c hChoice p hp with
    ⟨e, he, hNeeds, _⟩
  rw [Option.mem_def.mp he]
  exact le_choice_of_needsChoice hSolves
    (hAdopted.boolean s c hChoice) hNeeds

/- A tristate choice is not `m` without modules. -/
theorem choice_ne_mod
    (hSolves : t.equations.Solves v)
    (hType : t.type (.choice c) = .tristate)
    (hModules : (v .modules).tri = .no) :
    (v (.choice c)).tri ≠ .mod := by
  have hAt : t.typeIn v (.choice c) = .boolean := by
    unfold typeIn typeAt
    rw [if_pos hType, hModules]
    split <;> rfl
  rcases choice_tri hSolves (Or.inr hType) with hTri | hTri
  · rw [hTri]
    unfold tristateIn
    rw [hAt]
    exact settleTri_boolean _
  · rw [hTri]
    decide

/- What a value that can be `y` says of its choice. -/
theorem Adopted.choice_yes
    (hAdopted : Adopted t)
    (hSolves : t.equations.Solves v)
    (hChoice : (t.symbol s).choiceOf = some c)
    (hType : t.type (.choice c) = .tristate)
    (hVisible : t.visibleIn v s = .yes) :
    (v (.choice c)).tri = .yes := by
  have hLe := hAdopted.promptIn_le_choice hSolves hChoice
  unfold visibleIn settleVisible at hVisible
  split at hVisible
  · next hRaised =>
      rcases hRaised.2 with hOther | hModules
      · -- Some prompt can be seen, and it asks for `y`.
        by_contra hNot
        have hNone : t.promptIn v s ≤ .no := by
          refine promptIn_le (fun p hp => ?_)
          rcases hAdopted.needs s c hChoice p hp with
            ⟨e, he, _, hNeeds⟩
          rw [Option.mem_def.mp he]
          by_contra hValue
          refine hNot (yes_of_needsYes hSolves (Or.inr hType)
            (hNeeds hType hOther) (fun hNo => hValue ?_))
          exact le_of_eq hNo
        rw [hRaised.1] at hNone
        exact absurd hNone (by decide)
      · have hNotMod :=
          choice_ne_mod hSolves hType hModules
        rw [hRaised.1] at hLe
        revert hLe hNotMod
        generalize (v (.choice c)).tri = tri
        cases tri <;> decide
  · rw [hVisible] at hLe
    exact le_antisymm (Tristate.le_yes _) hLe

------------------------------------------------------------
-- Grouped Values
------------------------------------------------------------

theorem Adopted.of_same
    {t' : CalcTable}
    (hSame : SameText t t')
    (hAdopted : Adopted t) :
    Adopted t' := by
  refine ⟨?_, ?_, ?_⟩
  · intro r c hChoice
    rw [hSame.values]
    exact hAdopted.listed r c (hSame.choiceOf r ▸ hChoice)
  · intro r c hChoice
    rw [hSame.type_eq]
    exact hAdopted.boolean r c (hSame.choiceOf r ▸ hChoice)
  · intro r c hChoice
    rw [hSame.type_eq, hSame.prompts_eq]
    exact hAdopted.needs r c (hSame.choiceOf r ▸ hChoice)

/- Adopted values are grouped. -/
theorem Adopted.grouped
    (hAdopted : Adopted t) :
    Grouped t := by
  refine ⟨hAdopted.listed, hAdopted.boolean, ?_, ?_⟩
  · intro r c hChoice t' v hSame hSolves hNo
    have hLe := (hAdopted.of_same hSame).promptIn_le_choice
      hSolves ((hSame.choiceOf r).trans hChoice)
    have hNone : t'.promptIn v r = .no := by
      rw [hNo] at hLe
      exact le_antisymm hLe (Tristate.no_le _)
    rw [← hSame.visibleIn_eq, visibleIn, hNone]
    rfl
  · intro r c hChoice hType t' v hSame hSolves hVisible
    rw [← hSame.visibleIn_eq] at hVisible
    exact (hAdopted.of_same hSame).choice_yes hSolves
      ((hSame.choiceOf r).trans hChoice)
      (hSame.type_eq ▸ hType) hVisible

/- The values of the choices in a table, one by one. -/
theorem adopted_ofTable
    {symbols : SymbolTable}
    {ranges : SymId → List RangeProp}
    {longBits : Nat}
    (hAll : ∀ sym ∈ symbols, ∀ c ∈ sym.choiceOf,
      let type := fun s =>
        (ofTable symbols ranges (choiceValues symbols)
          longBits).type s
      (type (.choice c) = .boolean ∨
          type (.choice c) = .tristate) ∧
        ∀ p ∈ sym.props.filter Property.hasText,
          p.visible.any (fun e => needsChoice c e &&
            (needsYes c e || type (.choice c) != .tristate ||
              sym.type == .tristate)) = true) :
    Adopted (ofTable symbols ranges (choiceValues symbols)
      longBits) := by
  have hSym : ∀ s c,
      ((ofTable symbols ranges (choiceValues symbols)
        longBits).symbol s).choiceOf = some c →
      ∃ sym ∈ symbols,
        (ofTable symbols ranges (choiceValues symbols)
          longBits).symbol s = sym ∧ c ∈ sym.choiceOf := by
    intro s c hChoice
    rcases ofTable_symbol symbols ranges _ longBits s with
      ⟨sym, hSym, _, hEq⟩ | ⟨_, hEq⟩
    · exact ⟨sym, hSym, hEq, hEq ▸ hChoice⟩
    · rw [hEq] at hChoice
      cases hChoice
  refine ⟨?_, ?_, ?_⟩
  · intro s c hChoice
    exact mem_choiceValues
      (ofTable_choiceOf symbols ranges _ longBits s ▸ hChoice)
  · intro s c hChoice
    rcases hSym s c hChoice with ⟨sym, hMem, _, hOf⟩
    exact (hAll sym hMem c hOf).1
  · intro s c hChoice p hp
    rcases hSym s c hChoice with ⟨sym, hMem, hEq, hOf⟩
    rw [prompts, hEq] at hp
    rcases (Option.any_eq_true _ _).mp
        ((hAll sym hMem c hOf).2 p hp) with ⟨e, he, hNeeds⟩
    simp only [Bool.and_eq_true, Bool.or_eq_true, bne_iff_ne,
      beq_iff_eq] at hNeeds
    refine ⟨e, he, hNeeds.1, ?_⟩
    intro hType hOther
    rcases hNeeds.2 with (hYes | hNot) | hTristate
    · exact hYes
    · exact absurd hType hNot
    · rw [type, hEq] at hOther
      exact absurd hTristate hOther

end CalcTable

end Mkrootfs
