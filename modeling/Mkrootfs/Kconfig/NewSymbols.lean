import Mkrootfs.Kconfig.TextSettings

/-
  Configurations of one value (`conf_set_all_new_symbols`):
  all symbols that the user has not set are set at once, and
  each takes the value as far as it can be seen.

  Main declarations:
    * `DefMode`, `confSetAllNewSymbols`
    * `value_withNew`
-/

------------------------------------------------------------
-- Setting All New Symbols
------------------------------------------------------------

namespace Mkrootfs

/- `enum conf_def_mode`. -/
inductive DefMode where
| default
| yes
| mod
| no
| random
deriving DecidableEq, Repr

/- The value for a new symbol, by a number of `rand`. -/
def DefMode.tri (rand : Nat) : DefMode → Option Tristate
| .default => none
| .yes => some .yes
| .mod => some .mod
| .no => some .no
| .random =>
    match rand % 3 with
    | 0 => some .no
    | 1 => some .mod
    | _ => some .yes

namespace CalcTable

variable (t : CalcTable)

/- The settings after the first loop over the symbols. -/
def withNew
    (mode : DefMode)
    (rand : SymId → Nat)
    (symbols : List SymId)
    (st : CalcState) : CalcTable :=
  { t with
    symbol := fun s =>
      let sym := t.symbol s
      let type := t.symGetType st s
      if s ∈ symbols ∧ sym.hasUser = false ∧
          (type = .boolean ∨ type = .tristate) then
        match mode.tri (rand s) with
        | none => sym
        | some tri =>
            { sym with
              defUser := { sym.defUser with tri := tri }
              hasUser := !(s.isChoice && mode == .random) }
      else
        sym }

/- One value of a choice is set to `y`, the rest to `n`. -/
def withPicked (c : ChoiceId) (picked : SymId) : CalcTable :=
  { t with
    symbol := fun s =>
      let sym := t.symbol s
      if s = .choice c then
        { sym with
          defUser :=
            { sym.defUser with val := [], chosen := some picked }
          hasUser := true }
      else if s ∈ t.values c then
        { sym with
          defUser :=
            { sym.defUser with
              tri := if s = picked then .yes else .no } }
      else
        sym }

/- The second loop, for choices at `y` that are not set. -/
def pickValues
    (fuel : Nat)
    (rand : SymId → Nat) :
    List SymId →
    CalcTable →
    CalcState →
    CalcTable × CalcState
| [], t, st => (t, st)
| .choice c :: rest, t, st =>
    if (t.symbol (.choice c)).hasUser then
      pickValues fuel rand rest t st
    else
      let st := t.symCalcValue fuel (.choice c) st
      if (st.curr (.choice c)).tri ≠ .yes then
        pickValues fuel rand rest t st
      else
        let values := t.values c
        match values[rand (.choice c) % values.length]? with
        | none => pickValues fuel rand rest t st
        | some picked =>
            pickValues fuel rand rest (t.withPicked c picked)
              { st with
                valid :=
                  Function.update st.valid (.choice c) false }
| _ :: rest, t, st => pickValues fuel rand rest t st

/-
  `conf_set_all_new_symbols`, with the numbers of `rand` for
  the symbols and for the choices.
-/
def confSetAllNewSymbols
    (fuel : Nat)
    (mode : DefMode)
    (rand pick : SymId → Nat)
    (symbols : List SymId)
    (st : CalcState) : CalcTable × CalcState :=
  let t' := t.withNew mode rand symbols st
  let cleared := t'.symClearAllValid fuel st
  if mode ≠ .random then
    (t', cleared)
  else
    pickValues fuel pick symbols t' cleared

variable {t : CalcTable}
variable {mode : DefMode}
variable {rand : SymId → Nat}
variable {symbols : List SymId}
variable {s : SymId}
variable {st : CalcState}

/- A symbol keeps all but its user value and its mark. -/
theorem withNew_symbol
    (t : CalcTable)
    (mode : DefMode)
    (rand : SymId → Nat)
    (symbols : List SymId)
    (st : CalcState)
    (s : SymId) :
    ∃ tri has,
      (t.withNew mode rand symbols st).symbol s =
        { t.symbol s with
          defUser := { (t.symbol s).defUser with tri := tri }
          hasUser := has } := by
  have hSelf : t.symbol s =
      { t.symbol s with
        defUser :=
          { (t.symbol s).defUser with
            tri := (t.symbol s).defUser.tri }
        hasUser := (t.symbol s).hasUser } := rfl
  unfold withNew
  simp only
  split
  · split
    · exact ⟨_, _, hSelf⟩
    · exact ⟨_, _, rfl⟩
  · exact ⟨_, _, hSelf⟩

theorem NewSettings.of_withNew
    (t : CalcTable)
    (mode : DefMode)
    (rand : SymId → Nat)
    (symbols : List SymId)
    (st : CalcState) :
    NewSettings t (t.withNew mode rand symbols st) := by
  have hSymbol := withNew_symbol t mode rand symbols st
  have hPart : ∀ {β : Type} (part : Symbol → β),
      (∀ (sym : Symbol) (tri : Tristate) (has : Bool),
        part { sym with
          defUser := { sym.defUser with tri := tri }
          hasUser := has } = part sym) →
      ∀ s, part ((t.withNew mode rand symbols st).symbol s) =
        part (t.symbol s) := by
    intro β part hPart s
    rcases hSymbol s with ⟨tri, has, hEq⟩
    rw [hEq, hPart]
  have hSame : SameText t (t.withNew mode rand symbols st) :=
    ⟨hPart _ (fun _ _ _ => rfl), hPart _ (fun _ _ _ => rfl),
      hPart _ (fun _ _ _ => rfl), hPart _ (fun _ _ _ => rfl),
      rfl, rfl, rfl⟩
  refine ⟨hSame, ?_⟩
  intro key
  have hChosen := hPart (fun sym => sym.defUser.chosen)
    (fun _ _ _ => rfl) key
  unfold CalcTable.candidates
  rw [hSame.defaults_eq, hSame.values]
  cases key with
  | choice c =>
      simp only [hChosen]
      exact List.Subset.refl _
  | _ => exact List.Subset.refl _

/- A new symbol is marked, and has the value of the mode. -/
theorem withNew_self
    (st : CalcState)
    {tri : Tristate}
    (hMode : mode ≠ .random)
    (hTri : mode.tri (rand s) = some tri)
    (hMem : s ∈ symbols)
    (hUnset : (t.symbol s).hasUser = false)
    (hType : t.type s = .boolean ∨ t.type s = .tristate) :
    ((t.withNew mode rand symbols st).symbol s).hasUser =
        true ∧
      ((t.withNew mode rand symbols st).symbol s).defUser.tri =
        tri := by
  have hGet : t.symGetType st s = .boolean ∨
      t.symGetType st s = .tristate :=
    (t.typeAt_iff st.modulesVal (st.visible s) s).mpr hType
  unfold withNew
  simp only [hTri]
  rw [if_pos ⟨hMem, hUnset, hGet⟩]
  refine ⟨?_, rfl⟩
  simp [hMode]

/-
  A new symbol that can be seen takes the value of the mode
  up to its visibility, and what selects it.
-/
theorem value_withNew
    {v : SymId → SymbolValue}
    {tri : Tristate}
    (hSolves :
      (t.withNew mode rand symbols st).equations.Solves v)
    (hMode : mode ≠ .random)
    (hTri : mode.tri (rand s) = some tri)
    (hMem : s ∈ symbols)
    (hUnset : (t.symbol s).hasUser = false)
    (hType : t.type s = .boolean ∨ t.type s = .tristate)
    (hHashed : s.isHashed = true)
    (hPlain : s.isChoice = false)
    (hVisible : t.visibleIn v s ≠ .no)
    (hFree : t.isChoiceValue s = true →
      t.visibleIn v s ≠ .yes) :
    (v s).tri =
      settleTri (t.typeIn v s)
        ((tri.and (t.visibleIn v s)).or (t.revIn v s)) := by
  have hSame :=
    (NewSettings.of_withNew t mode rand symbols st).toSameText
  rcases withNew_self st hMode hTri hMem hUnset hType with
    ⟨hHas, hUser⟩
  have hFreeTri :
      (t.withNew mode rand symbols st).freeTriIn v s
          (t.visibleIn v s) =
        (tri.and (t.visibleIn v s)).or (t.revIn v s) := by
    unfold freeTriIn
    rw [if_pos ⟨hVisible, hHas⟩, hUser, hSame.revIn_eq]
  rw [hSolves s]
  show ((t.withNew mode rand symbols st).valueIn v s).tri = _
  rw [valueIn_of_tri hHashed (hSame.type_eq ▸ hType),
    choiceIn_of_plain hPlain]
  show (t.withNew mode rand symbols st).tristateIn v s = _
  unfold tristateIn
  rw [hSame.typeIn_eq, hSame.visibleIn_eq, hSame.choiceOf]
  cases hChoice : (t.symbol s).choiceOf with
  | none => simp only [hFreeTri]
  | some c =>
      have hNotYes := hFree (by simp [isChoiceValue, hChoice])
      generalize hSeen : t.visibleIn v s = visible
        at hNotYes hFreeTri
      cases visible with
      | yes => exact absurd rfl hNotYes
      | no => simp only [hFreeTri]
      | mod => simp only [hFreeTri]

end CalcTable

end Mkrootfs
