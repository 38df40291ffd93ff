import Mkrootfs.Kconfig.SetThenGet

/-
  Texts and numbers that a user sets (`sym_set_string_value`):
  what is accepted is within the range of the symbol, and is
  the text of the equations wherever the symbol can be seen.

  Main declarations:
    * `symStringWithinRange`, `symSetStringValue`
    * `TextInRange`
    * `value_withText`
-/

------------------------------------------------------------
-- Setting Texts
------------------------------------------------------------

namespace Mkrootfs

/- The value that a text stands for, by its first letter. -/
def triOfText : Text → Option Tristate
| 'y' :: _ | 'Y' :: _ => some .yes
| 'm' :: _ | 'M' :: _ => some .mod
| 'n' :: _ | 'N' :: _ => some .no
| _ => none

/- The types whose values are texts or numbers. -/
def SymbolType.isText : SymbolType → Bool
| .string | .int | .hex => true
| _ => false

/- A hexadecimal number that is stored with a new `0x`. -/
def lacksMark (type : SymbolType) (newval : Text) : Bool :=
  type == .hex &&
    match newval with
    | '0' :: 'x' :: _ | '0' :: 'X' :: _ => false
    | _ => true

/- What `sym_set_string_value` stores of a text. -/
def storedText (type : SymbolType) (newval : Text) : Text :=
  if lacksMark type newval then
    '0' :: 'x' :: newval
  else
    newval

/- The digits of hexadecimal numbers. -/
theorem digitValue_lt_of_isHexDigit
    {c : Char}
    (hHex : isHexDigit c = true) :
    digitValue c < 16 := by
  simp only [isHexDigit, Bool.or_eq_true, Bool.and_eq_true,
    decide_eq_true_eq] at hHex
  unfold digitValue
  by_cases hDigit : c.isDigit = true
  · rw [if_pos hDigit]
    simp only [Char.isDigit, Bool.and_eq_true,
      decide_eq_true_eq] at hDigit
    have hHigh : c.toNat ≤ 57 := hDigit.2
    omega
  · rw [if_neg hDigit]
    rcases hHex with (hIs | hLower) | hUpper
    · exact absurd hIs hDigit
    · rw [if_pos hLower]
      have hHigh : c.toNat ≤ 102 := hLower.2
      omega
    · have hHigh : c.toNat ≤ 70 := hUpper.2
      split <;> omega

namespace CalcTable

variable (t : CalcTable)

/- The numbers that `sym_string_within_range` accepts. -/
def numberWithinRange
    (call : SymId → CalcState → CalcState)
    (s : SymId)
    (base : Nat)
    (str : Text)
    (st : CalcState) : Bool × CalcState :=
  if symStringValid (t.type s) str = false then
    (false, st)
  else
    let prop :=
      t.firstVisible call RangeProp.visible (t.ranges s) st
    match prop.1 with
    | none => (true, prop.2)
    | some (p, _) =>
        let val := strtolInt t.longBits base str
        let low := t.symGetRangeVal call p.low base prop.2
        if low.1 ≤ val then
          let high := t.symGetRangeVal call p.high base low.2
          (decide (val ≤ high.1), high.2)
        else
          (false, low.2)

/- `sym_string_within_range`. -/
def symStringWithinRange
    (call : SymId → CalcState → CalcState)
    (s : SymId)
    (str : Text)
    (st : CalcState) : Bool × CalcState :=
  match t.type s with
  | .string => (symStringValid .string str, st)
  | .int => t.numberWithinRange call s 10 str st
  | .hex => t.numberWithinRange call s 16 str st
  | .boolean | .tristate =>
      match triOfText str with
      | some val => (t.symTristateWithinRange st s val, st)
      | none => (false, st)
  | .unknown | .other => (false, st)

/- The settings that `sym_set_string_value` leaves. -/
def withText (s : SymId) (newval : Text) : CalcTable :=
  (t.markUser s).modify s (fun sym =>
    { sym with
      defUser :=
        { sym.defUser with
          val := storedText (t.type s) newval } })

/-
  `sym_set_string_value`; `oldval` is the text that the user's
  setting points to, where it points to one.
-/
def symSetStringValue
    (fuel : Nat)
    (s : SymId)
    (oldval : Option Text)
    (newval : Text)
    (st : CalcState) : Bool × CalcTable × CalcState :=
  match t.type s with
  | .boolean | .tristate =>
      match triOfText newval with
      | some val => t.symSetTristateValue fuel s val st
      | none => (false, t, st)
  | _ =>
      let within :=
        t.symStringWithinRange (t.symCalcValue fuel) s newval st
      if within.1 = false then
        (false, t, within.2)
      else if lacksMark (t.type s) newval = false ∧
          oldval = some newval then
        (true, t.markUser s, within.2)
      else
        let t' := t.withText s newval
        (true, t', t'.symClearAllValid fuel within.2)

variable {t : CalcTable}
variable {rank : SymId → Nat}
variable {v : SymId → SymbolValue}
variable {s : SymId}
variable {newval : Text}
variable {st : CalcState}
variable {fuel : Nat}

/- A change of a text or a number is stored if it is accepted. -/
theorem symSetStringValue_of_change
    {oldval : Option Text}
    (hText : (t.type s).isText = true)
    (hChange : oldval = some newval →
      lacksMark (t.type s) newval = true) :
    t.symSetStringValue fuel s oldval newval st =
      let within :=
        t.symStringWithinRange (t.symCalcValue fuel) s newval st
      if within.1 = false then
        (false, t, within.2)
      else
        (true, t.withText s newval,
          (t.withText s newval).symClearAllValid fuel
            within.2) := by
  have hMarks : ¬ (lacksMark (t.type s) newval = false ∧
      oldval = some newval) := by
    rintro ⟨hLacks, hOld⟩
    rw [hChange hOld] at hLacks
    cases hLacks
  unfold symSetStringValue
  simp only [if_neg hMarks]
  split
  · next hType => rw [hType] at hText; cases hText
  · next hType => rw [hType] at hText; cases hText
  · rfl

theorem SameText.of_withText
    (t : CalcTable)
    (s : SymId)
    (newval : Text) :
    SameText t (t.withText s newval) := by
  have hMark : SameText t (t.markUser s) :=
    of_modify t s (fun _ => rfl) (fun _ => rfl) (fun _ => rfl)
      (fun _ => rfl)
  exact hMark.trans (of_modify (t.markUser s) s (fun _ => rfl)
    (fun _ => rfl) (fun _ => rfl) (fun _ => rfl))

theorem withText_self
    (t : CalcTable)
    (s : SymId)
    (newval : Text) :
    ((t.withText s newval).symbol s).hasUser = true ∧
      ((t.withText s newval).symbol s).defUser.val =
        storedText (t.type s) newval := by
  rw [withText, modify_self, markUser, modify_self]
  exact ⟨rfl, rfl⟩

theorem withText_other
    (newval : Text)
    {r : SymId}
    (hNe : r ≠ s) :
    (t.withText s newval).symbol r = t.symbol r := by
  rw [withText, modify_of_ne _ _ hNe, markUser,
    modify_of_ne _ _ hNe]

/- A text makes no value of a choice a candidate. -/
theorem NewSettings.of_withText
    (t : CalcTable)
    (s : SymId)
    (newval : Text) :
    NewSettings t (t.withText s newval) := by
  have hSame := SameText.of_withText t s newval
  refine ⟨hSame, ?_⟩
  intro key
  have hChosen :
      ((t.withText s newval).symbol key).defUser.chosen =
        (t.symbol key).defUser.chosen := by
    by_cases hSelf : key = s
    · subst hSelf
      rw [withText, modify_self, markUser, modify_self]
    · rw [withText_other newval hSelf]
  unfold CalcTable.candidates
  rw [hSame.defaults_eq, hSame.values]
  cases key with
  | choice c =>
      simp only [hChosen]
      exact List.Subset.refl _
  | _ => exact List.Subset.refl _

------------------------------------------------------------
-- Accepted Texts
------------------------------------------------------------

/- The texts a symbol can be given under an assignment. -/
structure TextInRange
    (t : CalcTable)
    (v : SymId → SymbolValue)
    (s : SymId)
    (newval : Text) : Prop where
  type : (t.type s).isText = true
  valid : symStringValid (t.type s) newval = true
  range : ∀ base, (t.type s).base = some base →
    ∀ p tri,
      t.firstIn v RangeProp.visible (t.ranges s) =
        some (p, tri) →
      t.boundIn v p.low base ≤
          strtolInt t.longBits base newval ∧
        strtolInt t.longBits base newval ≤
          t.boundIn v p.high base

/- Calls in a settled state, with no others open. -/
theorem calls_symCalcValue
    (hWell : WellFormed t)
    (hRank : t.equations.Ranked rank)
    (hSolves : t.equations.Solves v)
    (hFuel : ∀ s, rank s < fuel) :
    Calls t rank v [] (t.symCalcValue fuel) := by
  refine ⟨?_, ?_⟩
  · intro s st hValid
    cases fuel with
    | zero => rfl
    | succ fuel => simp [symCalcValue, hValid]
  · intro s st hSettled hCallable
    exact symCalcValue_settles hWell hRank hSolves fuel
      (hFuel s) hSettled hCallable

section Settled

variable {call : SymId → CalcState → CalcState}
variable (hCalls : Calls t rank v [] call)
variable (hSettled : Settled t v [] st)
variable (hModules : st.valid .modules = true)

include hCalls hSettled hModules

theorem numberWithinRange_settles
    {base : Nat}
    (hBase : (t.type s).base = some base) :
    Follows t v [] st
        (t.numberWithinRange call s base newval st).2 ∧
      ((t.numberWithinRange call s base newval st).1 = true →
        TextInRange t v s newval) := by
  have hReady : ∀ {st'}, Keeps t ∅ ∅ st st' →
      ∀ r, Ready rank v [] v st' r :=
    fun hKeeps r => Or.inr
      ⟨⟨fun _ h => absurd h List.not_mem_nil,
        Or.inl ⟨hKeeps.valid _ hModules, List.not_mem_nil⟩⟩,
        rfl⟩
  have hText : (t.type s).isText = true := by
    cases hType : t.type s <;> rw [hType] at hBase <;>
      first | rfl | cases hBase
  have hStart := Follows.refl hSettled
  have hProp :
      Follows t v [] st
          (t.firstVisible call RangeProp.visible
            (t.ranges s) st).2 ∧
        (t.firstVisible call RangeProp.visible
            (t.ranges s) st).1 =
          t.firstIn v RangeProp.visible (t.ranges s) :=
    firstVisible_follows hCalls (t.ranges s) hSettled
      (fun _ _ r _ => hReady hStart.keeps r)
  rcases hProp with ⟨hFirst, hFound⟩
  unfold numberWithinRange
  by_cases hValid : symStringValid (t.type s) newval = false
  · rw [if_pos hValid]
    exact ⟨hStart, fun hTrue => by cases hTrue⟩
  rw [if_neg hValid]
  rw [Bool.not_eq_false] at hValid
  have hInRange : ∀ found,
      t.firstIn v RangeProp.visible (t.ranges s) = found →
      (∀ p tri, found = some (p, tri) →
        t.boundIn v p.low base ≤
            strtolInt t.longBits base newval ∧
          strtolInt t.longBits base newval ≤
            t.boundIn v p.high base) →
      TextInRange t v s newval := by
    intro found hEq hBounds
    refine ⟨hText, hValid, ?_⟩
    intro other hOther p tri hSome
    rw [hBase] at hOther
    cases hOther
    exact hBounds p tri (hEq.symm.trans hSome)
  simp only [hFound]
  generalize t.firstIn v RangeProp.visible (t.ranges s) = found
    at hInRange
  cases found with
  | none =>
      exact ⟨hFirst, fun _ => hInRange none rfl
        (fun _ _ hSome => by cases hSome)⟩
  | some found =>
      rcases found with ⟨p, tri⟩
      rcases symGetRangeVal_follows hCalls base hFirst.settled
          (hReady hFirst.keeps p.low) with
        ⟨hSecond, hLow⟩
      have hBoth := hFirst.trans hSecond
      rcases symGetRangeVal_follows hCalls base hBoth.settled
          (hReady hBoth.keeps p.high) with
        ⟨hThird, hHigh⟩
      simp only [hLow, hHigh]
      split
      · next hAbove =>
          refine ⟨hBoth.trans hThird, ?_⟩
          intro hBelow
          refine hInRange _ rfl ?_
          intro q other hSome
          cases hSome
          exact ⟨hAbove, of_decide_eq_true hBelow⟩
      · exact ⟨hBoth, fun hTrue => by cases hTrue⟩

/- `sym_string_within_range` in a settled state. -/
theorem symStringWithinRange_settles
    (hText : (t.type s).isText = true) :
    Follows t v [] st
        (t.symStringWithinRange call s newval st).2 ∧
      ((t.symStringWithinRange call s newval st).1 = true →
        TextInRange t v s newval) := by
  unfold symStringWithinRange
  cases hType : t.type s with
  | string =>
      refine ⟨.refl hSettled, fun hValid =>
        ⟨hText, hType ▸ hValid, ?_⟩⟩
      intro base hBase
      rw [hType] at hBase
      cases hBase
  | int =>
      exact numberWithinRange_settles hCalls hSettled hModules
        (by rw [hType]; rfl)
  | hex =>
      exact numberWithinRange_settles hCalls hSettled hModules
        (by rw [hType]; rfl)
  | boolean => rw [hType] at hText; cases hText
  | tristate => rw [hType] at hText; cases hText
  | unknown => rw [hType] at hText; cases hText
  | other => rw [hType] at hText; cases hText

end Settled

------------------------------------------------------------
-- The Text That Is Calculated
------------------------------------------------------------

/- The mark makes no difference to the number. -/
theorem strtolInt_storedText
    {base : Nat}
    {type : SymbolType}
    (longBits : Nat)
    (hBase : type.base = some base)
    (hValid : symStringValid type newval = true) :
    strtolInt longBits base (storedText type newval) =
      strtolInt longBits base newval := by
  unfold storedText
  split
  · next hLacks =>
      have hHex : type = .hex := by
        cases type <;> first | rfl | cases hLacks
      subst hHex
      cases hBase
      have hDigits : newval ≠ [] ∧
          newval.all isHexDigit = true := by
        simp only [lacksMark, beq_self_eq_true,
          Bool.true_and] at hLacks
        simp only [symStringValid] at hValid
        split at hLacks
        · cases hLacks
        · cases hLacks
        · next hNot hNotUpper =>
            split at hValid
            · exact absurd rfl (hNot _)
            · exact absurd rfl (hNotUpper _)
            · simpa using hValid
      unfold strtolInt
      rw [scanNumber_mark (fun c hc =>
        digitValue_lt_of_isHexDigit
          (List.all_eq_true.mp hDigits.2 c hc)) hDigits.1]
  · rfl

/- The equation of a text or a number. -/
theorem valueIn_of_text
    (hHashed : s.isHashed = true)
    (hPlain : s.isChoice = false)
    (hText : (t.type s).isText = true) :
    t.valueIn v s =
      t.rangeIn v s (t.stringIn v s SymbolValue.empty) := by
  have hStart : (t.type s).startValue =
      some SymbolValue.empty := by
    cases hType : t.type s <;> rw [hType] at hText <;>
      first | rfl | cases hText
  have hNewval : t.newvalIn v s SymbolValue.empty =
      t.stringIn v s SymbolValue.empty := by
    unfold newvalIn typeIn typeAt
    cases hType : t.type s <;> rw [hType] at hText <;>
      first | rfl | cases hText
  unfold valueIn
  split
  · cases hHashed
  · simp only [hStart, hNewval, choiceIn_of_plain hPlain]

/-
  An accepted text is the text under the new settings,
  wherever the symbol can be seen.
-/
theorem value_withText
    {v' : SymId → SymbolValue}
    (hRank : t.equations.Ranked rank)
    (hSolves : t.equations.Solves v)
    (hSolves' : (t.withText s newval).equations.Solves v')
    (hTyped : t.isTyped s = true)
    (hPlain : s.isChoice = false)
    (hVisible : t.visibleIn v s ≠ .no)
    (hRange : TextInRange t v s newval) :
    (v' s).val = storedText (t.type s) newval := by
  have hSame := SameText.of_withText t s newval
  have hReads := value_read hSame hRank hSolves hSolves'
    (fun r hNe => withText_other newval hNe)
  have hSeen : t.visibleIn v' s ≠ .no := by
    rwa [visibleIn_congr (fun r hr =>
      hReads r (mem_reads_of_shown hTyped hr))]
  have hHashed : s.isHashed = true := by
    simp only [isTyped, Bool.and_eq_true] at hTyped
    exact hTyped.1
  rcases withText_self t s newval with ⟨hHas, hUser⟩
  have hString :
      (t.withText s newval).stringIn v' s SymbolValue.empty =
        { SymbolValue.empty with
          val := storedText (t.type s) newval } := by
    unfold stringIn
    rw [if_pos ⟨hSame.visibleIn_eq ▸ hSeen, hHas⟩, hUser]
  have hRangeReads : ∀ p ∈ t.ranges s,
      ∀ r ∈ optSyms p.visible ++ [p.low, p.high],
        v' r = v r :=
    fun p hp r hr => hReads r (mem_reads_of_range hTyped
      (List.mem_flatMap.mpr ⟨p, hp, hr⟩))
  have hFound :
      t.firstIn v' RangeProp.visible (t.ranges s) =
        t.firstIn v RangeProp.visible (t.ranges s) :=
    firstIn_congr (fun p hp r hr =>
      hRangeReads p hp r (List.mem_append_left _ hr))
  have hValue : v' s =
      t.rangeIn v' s
        { SymbolValue.empty with
          val := storedText (t.type s) newval } := by
    rw [← hString, ← hSame.rangeIn_eq,
      ← valueIn_of_text hHashed hPlain
        (hSame.type_eq ▸ hRange.type)]
    exact hSolves' s
  rw [hValue]
  unfold rangeIn
  cases hBase : (t.type s).base with
  | none => rfl
  | some base =>
      simp only [hFound]
      cases hFirst :
          t.firstIn v RangeProp.visible (t.ranges s) with
      | none => rfl
      | some found =>
          rcases found with ⟨p, tri⟩
          have hp := (firstIn_mem hFirst).1
          rcases hRange.range base hBase p tri hFirst with
            ⟨hLow, hHigh⟩
          have hBoundLow : t.boundIn v' p.low base =
              t.boundIn v p.low base := by
            unfold boundIn
            rw [hRangeReads p hp p.low (by simp)]
          have hBoundHigh : t.boundIn v' p.high base =
              t.boundIn v p.high base := by
            unfold boundIn
            rw [hRangeReads p hp p.high (by simp)]
          simp only [strtolInt_storedText t.longBits hBase
            hRange.valid, hBoundLow, hBoundHigh]
          rw [if_neg (not_lt.mpr hLow), if_pos hHigh]

end CalcTable

end Mkrootfs
