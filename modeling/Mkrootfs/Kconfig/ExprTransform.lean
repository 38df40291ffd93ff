import Mkrootfs.Kconfig.ExprValue

/-
  `expr_transform` of `expr.c`: comparisons of booleans become
  plain symbols, and negations move down to the symbols.

  The source transforms what it has just rewritten once more.
  The fuel for that is linear in the size of the expression,
  and the result is the one of a pass without repetitions.

  Main declarations:
    * `exprTransform`, `Transformed`
    * `transformed_exprTransform`
    * `calcValue_exprTransform`
    * `exprTransform_canonical`
-/

------------------------------------------------------------
-- The Transformation
------------------------------------------------------------

namespace Mkrootfs

/- `a='x'`, where `a` may be a boolean. -/
def transEqual
    (types : SymId → SymbolType)
    (s t : SymId) : Expr :=
  if types s ≠ .boolean then
    .equal s t
  else
    match t with
    | .builtin .no => .not (.symbol s)
    | .builtin .mod => .symbol (.builtin .no)
    | .builtin .yes => .symbol s
    | _ => .equal s t

/- `a!='x'`, where `a` may be a boolean. -/
def transUnequal
    (types : SymId → SymbolType)
    (s t : SymId) : Expr :=
  if types s ≠ .boolean then
    .unequal s t
  else
    match t with
    | .builtin .no => .symbol s
    | .builtin .mod => .symbol (.builtin .yes)
    | .builtin .yes => .not (.symbol s)
    | _ => .unequal s t

/- `expr_transform`, with fuel for what it repeats. -/
def exprTransformFuel (types : SymId → SymbolType) :
    Nat → Expr → Expr
| 0, e => e
| n + 1, e =>
    match e with
    | .symbol s => .symbol s
    | .equal s t => transEqual types s t
    | .unequal s t => transUnequal types s t
    | .and a b =>
        .and (exprTransformFuel types n a)
          (exprTransformFuel types n b)
    | .or a b =>
        .or (exprTransformFuel types n a)
          (exprTransformFuel types n b)
    | .not c =>
        match exprTransformFuel types n c with
        | .not a => exprTransformFuel types n a
        | .equal s t => .unequal s t
        | .unequal s t => .equal s t
        | .or a b =>
            exprTransformFuel types n (.and (.not a) (.not b))
        | .and a b =>
            exprTransformFuel types n (.or (.not a) (.not b))
        | .symbol (.builtin t) => .symbol (.builtin t.not)
        | .symbol s => .not (.symbol s)

/- `expr_transform`. -/
def exprTransform
    (types : SymId → SymbolType)
    (e : Expr) : Expr :=
  exprTransformFuel types (4 * e.size) e

------------------------------------------------------------
-- The Normal Form
------------------------------------------------------------

/- What may stand below the conjunctions and disjunctions. -/
def TransformedLeaf (types : SymId → SymbolType) : Expr → Prop
| .symbol _ => True
| .equal s t => types s = .boolean → ∀ c, t ≠ .builtin c
| .unequal s t => types s = .boolean → ∀ c, t ≠ .builtin c
| .not (.symbol s) => ∀ c, s ≠ .builtin c
| _ => False

/-
  Only symbols other than `y`, `m` and `n` are negated, and
  no boolean is compared with these.
-/
def Transformed
    (types : SymId → SymbolType)
    (e : Expr) : Prop :=
  e.Every (TransformedLeaf types)

/- Types under which no other symbols are boolean. -/
def TypesBelow (types types' : SymId → SymbolType) : Prop :=
  ∀ s, types s = .boolean → types' s = .boolean

theorem Transformed.below
    {types types' : SymId → SymbolType}
    (hBelow : TypesBelow types types')
    {e : Expr}
    (hNormal : Transformed types' e) :
    Transformed types e := by
  induction e with
  | symbol s => trivial
  | equal s t => exact fun h => hNormal (hBelow s h)
  | unequal s t => exact fun h => hNormal (hBelow s h)
  | not a _ => cases a <;> exact hNormal
  | and a b iha ihb => exact ⟨iha hNormal.1, ihb hNormal.2⟩
  | or a b iha ihb => exact ⟨iha hNormal.1, ihb hNormal.2⟩

/- The negation of a transformed expression. -/
def negate : Expr → Expr
| .symbol (.builtin t) => .symbol (.builtin t.not)
| .symbol s => .not (.symbol s)
| .equal s t => .unequal s t
| .unequal s t => .equal s t
| .not a => a
| .and a b => .or (negate a) (negate b)
| .or a b => .and (negate a) (negate b)

/- The transformation in one pass. -/
def normalize (types : SymId → SymbolType) : Expr → Expr
| .symbol s => .symbol s
| .equal s t => transEqual types s t
| .unequal s t => transUnequal types s t
| .not a => negate (normalize types a)
| .and a b => .and (normalize types a) (normalize types b)
| .or a b => .or (normalize types a) (normalize types b)

section Normal

variable {types : SymId → SymbolType}

theorem transformed_negate
    {e : Expr}
    (hNormal : Transformed types e) :
    Transformed types (negate e) := by
  induction e with
  | symbol s => cases s <;> simp [negate, Transformed,
      Expr.Every, TransformedLeaf]
  | equal s t => exact hNormal
  | unequal s t => exact hNormal
  | not a iha =>
      cases a with
      | symbol s => trivial
      | _ => exact hNormal.elim
  | and a b iha ihb => exact ⟨iha hNormal.1, ihb hNormal.2⟩
  | or a b iha ihb => exact ⟨iha hNormal.1, ihb hNormal.2⟩

/- Comparisons of booleans with constants disappear. -/
theorem transformed_trans
    (hTypes : ∀ c, types (.builtin c) ≠ .boolean)
    (s t : SymId) :
    Transformed types (transEqual types s t) ∧
      Transformed types (transUnequal types s t) := by
  unfold transEqual transUnequal
  by_cases hType : types s = .boolean
  · have hNot : ∀ c, s ≠ .builtin c :=
      fun c h => hTypes c (h ▸ hType)
    simp only [hType, ne_eq, not_true_eq_false, if_false]
    cases t with
    | builtin c =>
        cases c with
        | no => exact ⟨hNot, trivial⟩
        | mod => exact ⟨trivial, trivial⟩
        | yes => exact ⟨trivial, hNot⟩
    | _ =>
        exact ⟨fun _ => by simp, fun _ => by simp⟩
  · simp only [hType, ne_eq, not_false_eq_true, if_true]
    exact ⟨fun h => absurd h hType, fun h => absurd h hType⟩

theorem transformed_normalize
    (hTypes : ∀ c, types (.builtin c) ≠ .boolean)
    (e : Expr) :
    Transformed types (normalize types e) := by
  induction e with
  | symbol s => trivial
  | equal s t => exact (transformed_trans hTypes s t).1
  | unequal s t => exact (transformed_trans hTypes s t).2
  | not a iha => exact transformed_negate iha
  | and a b iha ihb => exact ⟨iha, ihb⟩
  | or a b iha ihb => exact ⟨iha, ihb⟩

theorem transEqual_of_transformed
    {s t : SymId}
    (hNormal : types s = .boolean → ∀ c, t ≠ .builtin c) :
    transEqual types s t = .equal s t ∧
      transUnequal types s t = .unequal s t := by
  unfold transEqual transUnequal
  by_cases hType : types s = .boolean
  · have hNot := hNormal hType
    cases t with
    | builtin c => exact absurd rfl (hNot c)
    | _ => simp [hType]
  · simp [hType]

/- What is transformed stays as it is. -/
theorem normalize_of_transformed
    {e : Expr}
    (hNormal : Transformed types e) :
    normalize types e = e := by
  induction e with
  | symbol s => rfl
  | equal s t => exact (transEqual_of_transformed hNormal).1
  | unequal s t => exact (transEqual_of_transformed hNormal).2
  | not a iha =>
      cases a with
      | symbol s =>
          cases s with
          | builtin c => exact absurd rfl (hNormal c)
          | _ => rfl
      | _ => exact hNormal.elim
  | and a b iha ihb =>
      exact congrArg₂ Expr.and (iha hNormal.1) (ihb hNormal.2)
  | or a b iha ihb =>
      exact congrArg₂ Expr.or (iha hNormal.1) (ihb hNormal.2)

theorem negate_negate
    {e : Expr}
    (hNormal : Transformed types e) :
    negate (negate e) = e := by
  induction e with
  | symbol s =>
      cases s with
      | builtin t => simp [negate]
      | _ => rfl
  | equal s t => rfl
  | unequal s t => rfl
  | not a iha =>
      cases a with
      | symbol s =>
          cases s with
          | builtin c => exact absurd rfl (hNormal c)
          | _ => rfl
      | _ => exact hNormal.elim
  | and a b iha ihb =>
      exact congrArg₂ Expr.and (iha hNormal.1) (ihb hNormal.2)
  | or a b iha ihb =>
      exact congrArg₂ Expr.or (iha hNormal.1) (ihb hNormal.2)

theorem size_trans_le (s t : SymId) :
    ((transEqual types s t).size ≤ 2 ∧
        (negate (transEqual types s t)).size ≤ 2) ∧
      (transUnequal types s t).size ≤ 2 ∧
        (negate (transUnequal types s t)).size ≤ 2 := by
  have hSymbol : ∀ s, (negate (.symbol s)).size ≤ 2 := by
    intro s
    cases s <;> simp [negate, Expr.size]
  unfold transEqual transUnequal
  by_cases hType : types s = .boolean
  · simp only [hType, ne_eq, not_true_eq_false, if_false]
    cases t with
    | builtin c =>
        cases c <;> simp [hSymbol, negate, Expr.size]
    | _ => simp [negate, Expr.size]
  · simp [hType, negate, Expr.size]

/- Moved negations at most double an expression. -/
theorem size_normalize_le
    (hTypes : ∀ c, types (.builtin c) ≠ .boolean)
    (e : Expr) :
    (normalize types e).size ≤ 2 * e.size ∧
      (negate (normalize types e)).size ≤ 2 * e.size := by
  induction e with
  | symbol s =>
      cases s <;> simp [normalize, negate, Expr.size]
  | equal s t => exact (size_trans_le s t).1
  | unequal s t => exact (size_trans_le s t).2
  | not a iha =>
      simp only [normalize, Expr.size,
        negate_negate (transformed_normalize hTypes a)]
      omega
  | and a b iha ihb =>
      simp only [normalize, negate, Expr.size]
      omega
  | or a b iha ihb =>
      simp only [normalize, negate, Expr.size]
      omega

------------------------------------------------------------
-- The Recursion Ends
------------------------------------------------------------

/- Fuel for an expression that is transformed already. -/
theorem exprTransformFuel_of_transformed
    {n : Nat}
    {e : Expr}
    (hNormal : Transformed types e)
    (hFuel : e.size ≤ n) :
    exprTransformFuel types n e = e := by
  induction e generalizing n with
  | symbol s =>
      cases n with
      | zero => rfl
      | succ n => rfl
  | equal s t =>
      cases n with
      | zero => rfl
      | succ n => exact (transEqual_of_transformed hNormal).1
  | unequal s t =>
      cases n with
      | zero => rfl
      | succ n => exact (transEqual_of_transformed hNormal).2
  | not a _ =>
      match n, a with
      | 0, _ => rfl
      | 1, a =>
          have ha := a.size_pos
          simp only [Expr.size] at hFuel
          omega
      | n + 2, .symbol (.builtin c) => exact absurd rfl (hNormal c)
      | n + 2, .symbol (.named _) => rfl
      | n + 2, .symbol (.const _) => rfl
      | n + 2, .symbol (.choice _) => rfl
      | n + 2, .symbol .modules => rfl
  | and a b iha ihb =>
      have ha := a.size_pos
      have hb := b.size_pos
      simp only [Expr.size] at hFuel
      cases n with
      | zero => rfl
      | succ n =>
          exact congrArg₂ Expr.and (iha hNormal.1 (by omega))
            (ihb hNormal.2 (by omega))
  | or a b iha ihb =>
      have ha := a.size_pos
      have hb := b.size_pos
      simp only [Expr.size] at hFuel
      cases n with
      | zero => rfl
      | succ n =>
          exact congrArg₂ Expr.or (iha hNormal.1 (by omega))
            (ihb hNormal.2 (by omega))

/- A negation whose operand has been transformed. -/
theorem exprTransformFuel_not
    {n : Nat}
    {e c : Expr}
    (hOperand : exprTransformFuel types n e = c)
    (hNormal : Transformed types c)
    (hFuel : 2 * c.size ≤ n) :
    exprTransformFuel types (n + 1) (.not e) = negate c := by
  induction c generalizing n e with
  | symbol s => cases s <;> simp [exprTransformFuel, hOperand, negate]
  | equal s t => simp [exprTransformFuel, hOperand, negate]
  | unequal s t => simp [exprTransformFuel, hOperand, negate]
  | not a _ =>
      simp only [exprTransformFuel, hOperand, negate]
      cases a with
      | symbol s =>
          apply exprTransformFuel_of_transformed
          · trivial
          · simp only [Expr.size] at hFuel ⊢
            omega
      | _ => exact hNormal.elim
  | and a b iha ihb =>
      have ha := a.size_pos
      have hb := b.size_pos
      simp only [Expr.size] at hFuel
      obtain ⟨k, rfl⟩ : ∃ k, n = k + 2 := ⟨n - 2, by omega⟩
      have hLeft := exprTransformFuel_of_transformed
        (n := k) hNormal.1 (by omega)
      have hRight := exprTransformFuel_of_transformed
        (n := k) hNormal.2 (by omega)
      rw [exprTransformFuel, hOperand]
      exact congrArg₂ Expr.or (iha hLeft hNormal.1 (by omega))
        (ihb hRight hNormal.2 (by omega))
  | or a b iha ihb =>
      have ha := a.size_pos
      have hb := b.size_pos
      simp only [Expr.size] at hFuel
      obtain ⟨k, rfl⟩ : ∃ k, n = k + 2 := ⟨n - 2, by omega⟩
      have hLeft := exprTransformFuel_of_transformed
        (n := k) hNormal.1 (by omega)
      have hRight := exprTransformFuel_of_transformed
        (n := k) hNormal.2 (by omega)
      rw [exprTransformFuel, hOperand]
      exact congrArg₂ Expr.and (iha hLeft hNormal.1 (by omega))
        (ihb hRight hNormal.2 (by omega))

theorem exprTransformFuel_eq
    (hTypes : ∀ c, types (.builtin c) ≠ .boolean)
    {n : Nat}
    {e : Expr}
    (hFuel : 4 * e.size ≤ n) :
    exprTransformFuel types n e = normalize types e := by
  have hPos := e.size_pos
  induction e generalizing n with
  | symbol s =>
      obtain ⟨k, rfl⟩ : ∃ k, n = k + 1 := ⟨n - 1, by omega⟩
      rfl
  | equal s t =>
      obtain ⟨k, rfl⟩ : ∃ k, n = k + 1 := ⟨n - 1, by omega⟩
      rfl
  | unequal s t =>
      obtain ⟨k, rfl⟩ : ∃ k, n = k + 1 := ⟨n - 1, by omega⟩
      rfl
  | not a iha =>
      have hSize := (size_normalize_le hTypes a).1
      simp only [Expr.size] at hFuel
      obtain ⟨k, rfl⟩ : ∃ k, n = k + 1 := ⟨n - 1, by omega⟩
      exact exprTransformFuel_not (iha (by omega) a.size_pos)
        (transformed_normalize hTypes a) (by omega)
  | and a b iha ihb =>
      have ha := a.size_pos
      have hb := b.size_pos
      simp only [Expr.size] at hFuel
      obtain ⟨k, rfl⟩ : ∃ k, n = k + 1 := ⟨n - 1, by omega⟩
      exact congrArg₂ Expr.and (iha (by omega) ha)
        (ihb (by omega) hb)
  | or a b iha ihb =>
      have ha := a.size_pos
      have hb := b.size_pos
      simp only [Expr.size] at hFuel
      obtain ⟨k, rfl⟩ : ∃ k, n = k + 1 := ⟨n - 1, by omega⟩
      exact congrArg₂ Expr.or (iha (by omega) ha)
        (ihb (by omega) hb)

/- The source's function is the transformation in one pass. -/
theorem exprTransform_eq
    (hTypes : ∀ c, types (.builtin c) ≠ .boolean)
    (e : Expr) :
    exprTransform types e = normalize types e :=
  exprTransformFuel_eq hTypes (Nat.le_refl _)

theorem transformed_exprTransform
    (hTypes : ∀ c, types (.builtin c) ≠ .boolean)
    (e : Expr) :
    Transformed types (exprTransform types e) := by
  rw [exprTransform_eq hTypes]
  exact transformed_normalize hTypes e

end Normal

------------------------------------------------------------
-- Values
------------------------------------------------------------

section Values

variable {types : SymId → SymbolType} {v : Values}

theorem calcValue_trans
    (hTyped : v.Typed types)
    (s t : SymId) :
    (transEqual types s t).calcValue v =
        (Expr.equal s t).calcValue v ∧
      (transUnequal types s t).calcValue v =
        (Expr.unequal s t).calcValue v := by
  unfold transEqual transUnequal
  by_cases hType : types s = .boolean
  · have hStr := hTyped.strTri s (Or.inl hType)
    have hTwo := hTyped.boolean s hType
    simp only [hType, ne_eq, not_true_eq_false, if_false]
    cases t with
    | builtin c =>
        have hConst := hTyped.builtinStr c
        have hTri := hTyped.builtinTri
        cases c <;> cases hv : v.tri s <;>
          simp_all [Expr.calcValue, Tristate.text, Tristate.not]
    | _ => exact ⟨rfl, rfl⟩
  · simp [hType]

/-
  Every step of the transformation keeps the value, so it is
  kept whatever the fuel.
-/
theorem calcValue_exprTransformFuel
    (hTyped : v.Typed types)
    (n : Nat)
    (e : Expr) :
    (exprTransformFuel types n e).calcValue v =
      e.calcValue v := by
  induction n generalizing e with
  | zero => rfl
  | succ n ih =>
      cases e with
      | symbol s => rfl
      | equal s t => exact (calcValue_trans hTyped s t).1
      | unequal s t => exact (calcValue_trans hTyped s t).2
      | and a b => exact congrArg₂ Tristate.and (ih a) (ih b)
      | or a b => exact congrArg₂ Tristate.or (ih a) (ih b)
      | not a =>
          rw [exprTransformFuel, Expr.calcValue, ← ih a]
          generalize exprTransformFuel types n a = c
          cases c with
          | symbol s =>
              cases s with
              | builtin t =>
                  simp only [Expr.calcValue, hTyped.builtinTri]
              | _ => rfl
          | equal s t =>
              simp only [Expr.calcValue]
              split <;> rfl
          | unequal s t =>
              simp only [Expr.calcValue]
              split <;> rfl
          | not b =>
              simp only [ih, Expr.calcValue, Tristate.not_not]
          | and b c =>
              simp only [ih, Expr.calcValue, Tristate.not_and]
          | or b c =>
              simp only [ih, Expr.calcValue, Tristate.not_or]

theorem decides_negate
    (hTyped : v.Typed types)
    {e : Expr}
    (hDecides : v.Decides e) :
    v.Decides (negate e) := by
  induction e with
  | symbol s =>
      cases s with
      | builtin c =>
          have hc := (hDecides _ List.mem_cons_self).1
          rw [hTyped.builtinTri] at hc
          refine hTyped.decides_builtin ?_
          revert hc
          cases c <;> decide
      | _ => exact hDecides
  | equal s t => cases t <;> exact hDecides
  | unequal s t => cases t <;> exact hDecides
  | not a _ => exact hDecides
  | and a b iha ihb =>
      have hBoth := List.forall_mem_append.mp hDecides
      exact List.forall_mem_append.mpr ⟨iha hBoth.1, ihb hBoth.2⟩
  | or a b iha ihb =>
      have hBoth := List.forall_mem_append.mp hDecides
      exact List.forall_mem_append.mpr ⟨iha hBoth.1, ihb hBoth.2⟩

theorem decides_trans
    (hTyped : v.Typed types)
    {s t : SymId}
    (hDecides : v.Decides (.equal s t)) :
    v.Decides (transEqual types s t) ∧
      v.Decides (transUnequal types s t) := by
  have hSame : v.Decides (.unequal s t) := by
    cases t <;> exact hDecides
  unfold transEqual transUnequal
  split
  · exact ⟨hDecides, hSame⟩
  · cases t with
    | builtin c =>
        have hConst : ∀ c, c ≠ Tristate.mod →
            v.Decides (.symbol (.builtin c)) :=
          fun c hc => hTyped.decides_builtin hc
        cases c with
        | no => exact ⟨hDecides, hDecides⟩
        | mod =>
            exact ⟨hConst .no (by decide), hConst .yes (by decide)⟩
        | yes => exact ⟨hDecides, hDecides⟩
    | _ => exact ⟨hDecides, hSame⟩

theorem decides_exprTransform
    (hTyped : v.Typed types)
    (hTypes : ∀ c, types (.builtin c) ≠ .boolean)
    {e : Expr}
    (hDecides : v.Decides e) :
    v.Decides (exprTransform types e) := by
  rw [exprTransform_eq hTypes]
  induction e with
  | symbol s => exact hDecides
  | equal s t => exact (decides_trans hTyped hDecides).1
  | unequal s t =>
      refine (decides_trans hTyped ?_).2
      cases t <;> exact hDecides
  | not a iha => exact decides_negate hTyped (iha hDecides)
  | and a b iha ihb =>
      have hBoth := List.forall_mem_append.mp hDecides
      exact List.forall_mem_append.mpr ⟨iha hBoth.1, ihb hBoth.2⟩
  | or a b iha ihb =>
      have hBoth := List.forall_mem_append.mp hDecides
      exact List.forall_mem_append.mpr ⟨iha hBoth.1, ihb hBoth.2⟩

/- `expr_transform` keeps the value of an expression. -/
theorem calcValue_exprTransform
    (hTyped : v.Typed types)
    (e : Expr) :
    (exprTransform types e).calcValue v = e.calcValue v :=
  calcValue_exprTransformFuel hTyped _ e

end Values

------------------------------------------------------------
-- Symbols
------------------------------------------------------------

theorem syms_trans
    (types : SymId → SymbolType)
    (s t : SymId) :
    ∀ x, x ∈ (transEqual types s t).syms ∨
        x ∈ (transUnequal types s t).syms →
      x ∈ [s, t] ∨ ∃ c, x = .builtin c := by
  intro x hx
  unfold transEqual transUnequal at hx
  by_cases hType : types s = .boolean
  · simp only [hType, ne_eq, not_true_eq_false, if_false] at hx
    cases t with
    | builtin c =>
        cases c <;> simp [Expr.syms] at hx ⊢ <;> tauto
    | _ => simpa [Expr.syms] using Or.inl hx
  · simp only [hType, ne_eq, not_false_eq_true, if_true,
      Expr.syms, or_self] at hx
    exact Or.inl hx

/- Only `y`, `m` and `n` are new in a transformed expression. -/
theorem syms_exprTransformFuel
    (types : SymId → SymbolType)
    (n : Nat)
    (e : Expr) :
    ∀ x ∈ (exprTransformFuel types n e).syms,
      x ∈ e.syms ∨ ∃ c, x = .builtin c := by
  induction n generalizing e with
  | zero => exact fun x hx => Or.inl hx
  | succ n ih =>
      intro x hx
      cases e with
      | symbol s => exact Or.inl hx
      | equal s t => exact syms_trans types s t x (Or.inl hx)
      | unequal s t => exact syms_trans types s t x (Or.inr hx)
      | and a b =>
          rcases List.mem_append.mp hx with ha | hb
          · exact (ih a x ha).imp_left (List.mem_append_left _)
          · exact (ih b x hb).imp_left (List.mem_append_right _)
      | or a b =>
          rcases List.mem_append.mp hx with ha | hb
          · exact (ih a x ha).imp_left (List.mem_append_left _)
          · exact (ih b x hb).imp_left (List.mem_append_right _)
      | not a =>
          have hOperand := ih a
          rw [exprTransformFuel] at hx
          generalize exprTransformFuel types n a = c
            at hx hOperand
          have hInner : x ∈ c.syms →
              x ∈ a.syms ∨ ∃ t, x = .builtin t := hOperand x
          cases c with
          | symbol s =>
              cases s with
              | builtin t =>
                  exact Or.inr ⟨_, List.mem_singleton.mp hx⟩
              | _ => exact hInner hx
          | equal s t => exact hInner hx
          | unequal s t => exact hInner hx
          | not b =>
              rcases ih b x hx with h | h
              · exact hInner h
              · exact Or.inr h
          | and b d =>
              rcases ih _ x hx with h | h
              · exact hInner h
              · exact Or.inr h
          | or b d =>
              rcases ih _ x hx with h | h
              · exact hInner h
              · exact Or.inr h

theorem wellNamed_exprTransform
    (types : SymId → SymbolType)
    {e : Expr}
    (hNamed : e.WellNamed) :
    (exprTransform types e).WellNamed := by
  intro s hs
  rcases syms_exprTransformFuel types _ e s hs with h | ⟨c, rfl⟩
  · exact hNamed s h
  · trivial

------------------------------------------------------------
-- The Whole Transformation
------------------------------------------------------------

/-
  `expr_transform` keeps the value under all assignments,
  pushes `!` down to symbols, leaves no boolean compared with
  `y`, `m` or `n`, and finds nothing to do a second time.
-/
theorem exprTransform_canonical
    {types : SymId → SymbolType}
    (hTypes : ∀ c, types (.builtin c) ≠ .boolean)
    (e : Expr) :
    (∀ v : Values, v.Typed types →
        (exprTransform types e).calcValue v = e.calcValue v) ∧
      Transformed types (exprTransform types e) ∧
      exprTransform types (exprTransform types e) =
        exprTransform types e := by
  have hNormal := transformed_exprTransform hTypes e
  refine ⟨fun v hTyped => calcValue_exprTransform hTyped e,
    hNormal, ?_⟩
  rw [exprTransform_eq hTypes (exprTransform types e)]
  exact normalize_of_transformed hNormal

/- `!(A = y && !B)` becomes `!A || B`. -/
theorem exprTransform_canonical_nand :
    let e : Expr := .not (.and
      (.equal (.named "A".toList) (.builtin .yes))
      (.not (.symbol (.named "B".toList))))
    exprTransform optionTypes e =
        .or (.not (.symbol (.named "A".toList)))
          (.symbol (.named "B".toList)) ∧
      (exprTransform optionTypes e).calcValue
          (.setting ["A".toList]) =
        e.calcValue (.setting ["A".toList]) ∧
      Transformed optionTypes (exprTransform optionTypes e) := by
  intro e
  have hTypes : ∀ c, optionTypes (.builtin c) ≠ .boolean :=
    fun _ h => by cases h
  have hCanonical := exprTransform_canonical hTypes e
  exact ⟨by decide +kernel,
    hCanonical.1 _ (Values.setting_typed _), hCanonical.2.1⟩

end Mkrootfs
