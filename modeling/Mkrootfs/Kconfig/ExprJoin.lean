import Mkrootfs.Kconfig.ExprEq
import Mkrootfs.Kconfig.ExprTransform

/-
  Two operands that one can stand for (`expr.c`): the rules of
  `expr_join_or` and `expr_join_and`.

  Main declarations:
    * `exprJoinOr`, `exprJoinAnd`, `exprJoin`
    * `calcValue_exprJoin`
-/

------------------------------------------------------------
-- The Rules
------------------------------------------------------------

namespace Mkrootfs

/- `sym1`: the symbol that the first operand is about. -/
def joinSym1 : Expr → Option SymId
| .symbol s => some s
| .equal s _ => some s
| .unequal s _ => some s
| .not (.symbol s) => some s
| .not (.equal s _) => some s
| .not (.unequal s _) => some s
| _ => none

/- `sym2`: a comparison may not be negated here. -/
def joinSym2 : Expr → Option SymId
| .symbol s => some s
| .equal s _ => some s
| .unequal s _ => some s
| .not (.symbol s) => some s
| _ => none

/-
  The frame of `expr_join_or` and `expr_join_and`: equal
  operands, or rules for two operands about one symbol.
-/
def exprJoinWith
    (types : SymId → SymbolType)
    (rules : SymbolType → SymId → Expr → Expr → Option Expr)
    (e1 e2 : Expr) : Option Expr :=
  if exprEq e1 e2 then
    some e1
  else
    match joinSym1 e1, joinSym2 e2 with
    | some sym1, some sym2 =>
        if sym1 ≠ sym2 then
          none
        else if types sym1 ≠ .boolean ∧
            types sym1 ≠ .tristate then
          none
        else
          rules (types sym1) sym1 e1 e2
    | _, _ => none

/- The rules of `expr_join_or`. -/
def joinOrRules
    (type : SymbolType)
    (sym : SymId) : Expr → Expr → Option Expr
| .equal _ (.builtin a), .equal _ (.builtin b) =>
    if type ≠ .tristate then
      none
    else
      match a, b with
      | .yes, .mod => some (.unequal sym (.builtin .no))
      | .mod, .yes => some (.unequal sym (.builtin .no))
      | .yes, .no => some (.unequal sym (.builtin .mod))
      | .no, .yes => some (.unequal sym (.builtin .mod))
      | .mod, .no => some (.unequal sym (.builtin .yes))
      | .no, .mod => some (.unequal sym (.builtin .yes))
      | _, _ => none
| .not (.symbol _), .symbol _ =>
    if type = .boolean then
      some (.symbol (.builtin .yes))
    else
      none
| .symbol _, .not (.symbol _) =>
    if type = .boolean then
      some (.symbol (.builtin .yes))
    else
      none
| _, _ => none

/- `(a='b') && (a!='c')`, for a tristate `a`. -/
def joinEqualUnequal
    (type : SymbolType)
    (sym b c : SymId) : Option Expr :=
  if type = .tristate ∧ c.isConst ∧ b.isConst then
    if b ≠ c then
      some (.equal sym b)
    else
      some (.symbol (.builtin .no))
  else
    none

/- The rules of `expr_join_and`. -/
def joinAndRules
    (type : SymbolType)
    (sym : SymId) : Expr → Expr → Option Expr
| .symbol _, .equal _ (.builtin .yes) =>
    some (.equal sym (.builtin .yes))
| .equal _ (.builtin .yes), .symbol _ =>
    some (.equal sym (.builtin .yes))
| .symbol _, .unequal _ (.builtin .no) => some (.symbol sym)
| .unequal _ (.builtin .no), .symbol _ => some (.symbol sym)
| .symbol _, .unequal _ (.builtin .mod) =>
    some (.equal sym (.builtin .yes))
| .unequal _ (.builtin .mod), .symbol _ =>
    some (.equal sym (.builtin .yes))
| .equal _ b, .unequal _ c => joinEqualUnequal type sym b c
| .unequal _ c, .equal _ b => joinEqualUnequal type sym b c
| .unequal _ (.builtin a), .unequal _ (.builtin b) =>
    if type ≠ .tristate then
      none
    else
      match a, b with
      | .yes, .no => some (.equal sym (.builtin .mod))
      | .no, .yes => some (.equal sym (.builtin .mod))
      | .yes, .mod => some (.equal sym (.builtin .no))
      | .mod, .yes => some (.equal sym (.builtin .no))
      | .mod, .no => some (.equal sym (.builtin .yes))
      | .no, .mod => some (.equal sym (.builtin .yes))
      | _, _ => none
| _, _ => none

/- `expr_join_or`. -/
def exprJoinOr
    (types : SymId → SymbolType) :
    Expr → Expr → Option Expr :=
  exprJoinWith types joinOrRules

/- `expr_join_and`. -/
def exprJoinAnd
    (types : SymId → SymbolType) :
    Expr → Expr → Option Expr :=
  exprJoinWith types joinAndRules

/- The one of the two for a type of node. -/
def exprJoin
    (types : SymId → SymbolType)
    (type : Junction) : Expr → Expr → Option Expr :=
  match type with
  | .or => exprJoinOr types
  | .and => exprJoinAnd types

------------------------------------------------------------
-- What A Rule Leaves
------------------------------------------------------------

/-
  Operands about one symbol, as both are when a rule applies.
-/
inductive AboutSym (sym : SymId) : Expr → Prop where
| symbol : AboutSym sym (.symbol sym)
| equal (t) : AboutSym sym (.equal sym t)
| unequal (t) : AboutSym sym (.unequal sym t)
| not : AboutSym sym (.not (.symbol sym))
| notEqual (t) : AboutSym sym (.not (.equal sym t))
| notUnequal (t) : AboutSym sym (.not (.unequal sym t))

theorem aboutSym_of_joinSym1
    {e : Expr}
    {sym : SymId}
    (hSym : joinSym1 e = some sym) :
    AboutSym sym e := by
  unfold joinSym1 at hSym
  split at hSym
  all_goals first
    | cases hSym; constructor
    | cases hSym

theorem aboutSym_of_joinSym2
    {e : Expr}
    {sym : SymId}
    (hSym : joinSym2 e = some sym) :
    AboutSym sym e := by
  unfold joinSym2 at hSym
  split at hSym
  all_goals first
    | cases hSym; constructor
    | cases hSym

/- Either the operands are equal, or a rule applied. -/
theorem exprJoinWith_cases
    {types : SymId → SymbolType}
    {rules : SymbolType → SymId → Expr → Expr → Option Expr}
    {e1 e2 tmp : Expr}
    (hJoin : exprJoinWith types rules e1 e2 = some tmp) :
    (exprEq e1 e2 = true ∧ tmp = e1) ∨
      ∃ sym, AboutSym sym e1 ∧ AboutSym sym e2 ∧
        (types sym = .boolean ∨ types sym = .tristate) ∧
        rules (types sym) sym e1 e2 = some tmp := by
  unfold exprJoinWith at hJoin
  split at hJoin
  · rename_i hEq
    exact Or.inl ⟨hEq, (Option.some.inj hJoin).symm⟩
  · split at hJoin
    · rename_i sym1 sym2 h1 h2
      split at hJoin
      · cases hJoin
      · rename_i hSame
        split at hJoin
        · cases hJoin
        · rename_i hType
          have hEq : sym1 = sym2 := not_not.mp hSame
          subst hEq
          refine Or.inr ⟨sym1, aboutSym_of_joinSym1 h1,
            aboutSym_of_joinSym2 h2, ?_, hJoin⟩
          by_contra hNone
          exact hType ⟨fun h => hNone (Or.inl h),
            fun h => hNone (Or.inr h)⟩
    · cases hJoin

/-
  What can stand for two operands about a symbol.  Only where
  it is no boolean is a comparison with a constant new.
-/
inductive JoinResult
    (types : SymId → SymbolType)
    (sym : SymId)
    (e1 e2 : Expr) : Expr → Prop where
| const (c)
    (hConst : c ≠ .mod) :
    JoinResult types sym e1 e2 (.symbol (.builtin c))
| left : JoinResult types sym e1 e2 e1
| right : JoinResult types sym e1 e2 e2
| equal (c)
    (hSym : sym ∈ e1.tristateSyms)
    (hType : ∀ types', TypesBelow types' types →
      Transformed types' e1 → Transformed types' e2 →
      types' sym ≠ .boolean) :
    JoinResult types sym e1 e2 (.equal sym (.builtin c))
| unequal (c)
    (hSym : sym ∈ e1.tristateSyms)
    (hType : ∀ types', TypesBelow types' types →
      Transformed types' e1 → Transformed types' e2 →
      types' sym ≠ .boolean) :
    JoinResult types sym e1 e2 (.unequal sym (.builtin c))

section Results

variable {types : SymId → SymbolType}

theorem joinOrRules_result
    {sym : SymId}
    {e1 e2 tmp : Expr}
    (h1 : AboutSym sym e1)
    (hRule : joinOrRules (types sym) sym e1 e2 = some tmp) :
    JoinResult types sym e1 e2 tmp := by
  unfold joinOrRules at hRule
  split at hRule
  case h_1 _ a _ b =>
      split at hRule
      · cases hRule
      · rename_i hType
        rw [ne_eq, not_not] at hType
        have hTri : types sym ≠ .boolean := by simp [hType]
        cases h1
        cases a <;> cases b <;> cases hRule <;>
          exact .unequal _ List.mem_cons_self
            (fun _ hBelow _ _ h => hTri (hBelow _ h))
  case h_2 | h_3 =>
      split at hRule
      · cases hRule
        exact .const _ (by decide)
      · cases hRule
  case h_4 => cases hRule

theorem joinAndRules_result
    {sym : SymId}
    {e1 e2 tmp : Expr}
    (h1 : AboutSym sym e1)
    (h2 : AboutSym sym e2)
    (hRule : joinAndRules (types sym) sym e1 e2 = some tmp) :
    JoinResult types sym e1 e2 tmp := by
  unfold joinAndRules at hRule
  split at hRule
  case h_1 =>
      cases h2
      cases hRule
      exact .right
  case h_2 =>
      cases h1
      cases hRule
      exact .left
  case h_3 =>
      cases h1
      cases hRule
      exact .left
  case h_4 =>
      cases h2
      cases hRule
      exact .right
  case h_5 =>
      cases h1
      cases h2
      cases hRule
      exact .equal _ List.mem_cons_self
        (fun _ _ _ h hBool => h hBool _ rfl)
  case h_6 =>
      cases h1
      cases hRule
      exact .equal _ List.mem_cons_self
        (fun _ _ h _ hBool => h hBool _ rfl)
  case h_7 =>
      cases h1
      unfold joinEqualUnequal at hRule
      split at hRule
      · split at hRule <;> cases hRule
        · exact .left
        · exact .const _ (by decide)
      · cases hRule
  case h_8 =>
      cases h2
      unfold joinEqualUnequal at hRule
      split at hRule
      · split at hRule <;> cases hRule
        · exact .right
        · exact .const _ (by decide)
      · cases hRule
  case h_9 _ a _ b =>
      split at hRule
      · cases hRule
      · rename_i hType
        rw [ne_eq, not_not] at hType
        have hTri : types sym ≠ .boolean := by simp [hType]
        cases h1
        cases a <;> cases b <;> cases hRule <;>
          exact .equal _ List.mem_cons_self
            (fun _ hBelow _ _ h => hTri (hBelow _ h))
  case h_10 => cases hRule

/- Two operands are equal, or one about their symbol is left. -/
theorem exprJoin_result
    {type : Junction}
    {e1 e2 tmp : Expr}
    (hJoin : exprJoin types type e1 e2 = some tmp) :
    tmp = e1 ∨
      ∃ sym, AboutSym sym e1 ∧ AboutSym sym e2 ∧
        JoinResult types sym e1 e2 tmp := by
  cases type with
  | and =>
      rcases exprJoinWith_cases hJoin with
        ⟨_, h⟩ | ⟨sym, h1, h2, _, hRule⟩
      · exact Or.inl h
      · exact Or.inr ⟨sym, h1, h2,
          joinAndRules_result h1 h2 hRule⟩
  | or =>
      rcases exprJoinWith_cases hJoin with
        ⟨_, h⟩ | ⟨sym, h1, h2, _, hRule⟩
      · exact Or.inl h
      · exact Or.inr ⟨sym, h1, h2, joinOrRules_result h1 hRule⟩

variable {type : Junction} {e1 e2 tmp : Expr}

theorem JoinResult.size
    {sym : SymId}
    (hResult : JoinResult types sym e1 e2 tmp) :
    tmp.size = 1 ∨ tmp = e1 ∨ tmp = e2 := by
  cases hResult with
  | left => exact Or.inr (Or.inl rfl)
  | right => exact Or.inr (Or.inr rfl)
  | _ => exact Or.inl rfl

theorem size_exprJoin
    (hJoin : exprJoin types type e1 e2 = some tmp) :
    tmp.size + 1 ≤ e1.size + e2.size := by
  have h1 := e1.size_pos
  have h2 := e2.size_pos
  rcases exprJoin_result hJoin with rfl | ⟨sym, _, _, hResult⟩
  · omega
  · rcases hResult.size with h | rfl | rfl <;> omega

theorem size_exprJoin_le
    {n : Nat}
    (h1 : e1.size ≤ n)
    (h2 : e2.size ≤ n)
    (hJoin : exprJoin types type e1 e2 = some tmp) :
    tmp.size ≤ n := by
  have hPos := e1.size_pos
  rcases exprJoin_result hJoin with rfl | ⟨sym, _, _, hResult⟩
  · exact h1
  · rcases hResult.size with h | rfl | rfl <;> omega

theorem wellNamed_exprJoin
    (h1 : e1.WellNamed)
    (h2 : e2.WellNamed)
    (hJoin : exprJoin types type e1 e2 = some tmp) :
    tmp.WellNamed := by
  rcases exprJoin_result hJoin with rfl | ⟨sym, hAbout, _, hResult⟩
  · exact h1
  · have hSym : sym.WellNamed := by
      cases hAbout <;> exact h1 sym (by simp [Expr.syms])
    have hPair : ∀ c s, s ∈ [sym, .builtin c] → s.WellNamed := by
      intro c s hs
      rcases List.mem_pair.mp hs with rfl | rfl
      · exact hSym
      · trivial
    cases hResult with
    | const c _ =>
        exact fun s hs => List.mem_singleton.mp hs ▸ trivial
    | left => exact h1
    | right => exact h2
    | equal c _ _ => exact hPair c
    | unequal c _ _ => exact hPair c

theorem transformed_exprJoin
    {types' : SymId → SymbolType}
    (hBelow : TypesBelow types' types)
    (h1 : Transformed types' e1)
    (h2 : Transformed types' e2)
    (hJoin : exprJoin types type e1 e2 = some tmp) :
    Transformed types' tmp := by
  rcases exprJoin_result hJoin with rfl | ⟨sym, _, _, hResult⟩
  · exact h1
  · cases hResult with
    | const c _ => trivial
    | left => exact h1
    | right => exact h2
    | equal c _ hType =>
        exact fun h => absurd h (hType _ hBelow h1 h2)
    | unequal c _ hType =>
        exact fun h => absurd h (hType _ hBelow h1 h2)

/- What is left is an operand again. -/
theorem junction_exprJoin
    (h1 : e1.junction? ≠ some type)
    (hJoin : exprJoin types type e1 e2 = some tmp) :
    tmp.junction? ≠ some type := by
  rcases exprJoin_result hJoin with
    rfl | ⟨sym, hAbout1, hAbout2, hResult⟩
  · exact h1
  · cases hResult with
    | left => exact h1
    | right => cases hAbout2 <;> simp [Expr.junction?]
    | _ => simp [Expr.junction?]

end Results

------------------------------------------------------------
-- Values
------------------------------------------------------------

section Values

variable {types : SymId → SymbolType} {v : Values}

/- A tristate or boolean compared with a constant. -/
theorem Values.Typed.str_eq_builtin
    (hTyped : v.Typed types)
    {sym : SymId}
    (hType : types sym = .boolean ∨ types sym = .tristate)
    (c : Tristate) :
    v.str sym = v.str (.builtin c) ↔ v.tri sym = c := by
  rw [hTyped.strTri sym hType, hTyped.builtinStr]
  exact Tristate.text_injective.eq_iff

theorem calcValue_joinOrRules
    (hTyped : v.Typed types)
    {sym : SymId}
    {e1 e2 tmp : Expr}
    (h1 : AboutSym sym e1)
    (h2 : AboutSym sym e2)
    (hType : types sym = .boolean ∨ types sym = .tristate)
    (hRule : joinOrRules (types sym) sym e1 e2 = some tmp) :
    tmp.calcValue v = (e1.calcValue v).or (e2.calcValue v) := by
  have hStr := hTyped.str_eq_builtin hType
  have hTri := hTyped.builtinTri
  unfold joinOrRules at hRule
  split at hRule
  · cases h1
    cases h2
    rename_i a b
    split at hRule
    · cases hRule
    · cases a <;> cases b <;> cases hRule <;>
        simp only [Expr.calcValue, hStr] <;>
        cases v.tri sym <;> rfl
  · cases h1
    cases h2
    split at hRule
    · rename_i hBool
      cases hRule
      have hTwo := hTyped.boolean sym hBool
      simp only [Expr.calcValue, hTri]
      revert hTwo
      cases v.tri sym <;> decide
    · cases hRule
  · cases h1
    cases h2
    split at hRule
    · rename_i hBool
      cases hRule
      have hTwo := hTyped.boolean sym hBool
      simp only [Expr.calcValue, hTri]
      revert hTwo
      cases v.tri sym <;> decide
    · cases hRule
  · cases hRule

/- `a` is one constant, so it is not the other. -/
theorem calcValue_joinEqualUnequal
    (hTyped : v.Typed types)
    {sym b c : SymId}
    {tmp : Expr}
    (hb : b.WellNamed)
    (hc : c.WellNamed)
    (hRule : joinEqualUnequal (types sym) sym b c = some tmp) :
    tmp.calcValue v =
      ((Expr.equal sym b).calcValue v).and
        ((Expr.unequal sym c).calcValue v) := by
  unfold joinEqualUnequal at hRule
  split at hRule
  · rename_i hConst
    split at hRule
    · rename_i hNe
      cases hRule
      have hStr := hTyped.str_ne_of_const
        hConst.2.2 hConst.2.1 hb hc hNe
      simp only [Expr.calcValue]
      by_cases hEq : v.str sym = v.str b
      · simp [hEq, hStr]
      · simp [hEq]
    · rename_i hSame
      rw [not_not] at hSame
      cases hRule
      simp only [Expr.calcValue, hTyped.builtinTri, hSame]
      split <;> rfl
  · cases hRule

theorem calcValue_joinAndRules
    (hTyped : v.Typed types)
    {sym : SymId}
    {e1 e2 tmp : Expr}
    (h1 : AboutSym sym e1)
    (h2 : AboutSym sym e2)
    (hNamed1 : e1.WellNamed)
    (hNamed2 : e2.WellNamed)
    (hType : types sym = .boolean ∨ types sym = .tristate)
    (hRule : joinAndRules (types sym) sym e1 e2 = some tmp) :
    tmp.calcValue v =
      (e1.calcValue v).and (e2.calcValue v) := by
  have hStr := hTyped.str_eq_builtin hType
  unfold joinAndRules at hRule
  split at hRule
  case h_1 | h_2 | h_3 | h_4 | h_5 | h_6 =>
      cases h1
      cases h2
      cases hRule
      simp only [Expr.calcValue, hStr]
      cases v.tri sym <;> rfl
  case h_7 _ b _ c =>
      cases h1
      cases h2
      exact calcValue_joinEqualUnequal hTyped
        (hNamed1 b (by simp [Expr.syms]))
        (hNamed2 c (by simp [Expr.syms])) hRule
  case h_8 _ c _ b =>
      cases h1
      cases h2
      rw [Tristate.and_comm]
      exact calcValue_joinEqualUnequal hTyped
        (hNamed2 b (by simp [Expr.syms]))
        (hNamed1 c (by simp [Expr.syms])) hRule
  case h_9 _ a _ b =>
      cases h1
      cases h2
      split at hRule
      · cases hRule
      · cases a <;> cases b <;> cases hRule <;>
          simp only [Expr.calcValue, hStr] <;>
          cases v.tri sym <;> rfl
  case h_10 => cases hRule

theorem decides_exprJoin
    (hTyped : v.Typed types)
    {type : Junction}
    {e1 e2 tmp : Expr}
    (h1 : v.Decides e1)
    (h2 : v.Decides e2)
    (hJoin : exprJoin types type e1 e2 = some tmp) :
    v.Decides tmp := by
  rcases exprJoin_result hJoin with rfl | ⟨sym, _, _, hResult⟩
  · exact h1
  · cases hResult with
    | const c hConst => exact hTyped.decides_builtin hConst
    | left => exact h1
    | right => exact h2
    | equal c hSym _ =>
        exact List.forall_mem_singleton.mpr (h1 sym hSym)
    | unequal c hSym _ =>
        exact List.forall_mem_singleton.mpr (h1 sym hSym)

/- A joined operand has the value of both. -/
theorem calcValue_exprJoin
    (hTyped : v.Typed types)
    {type : Junction}
    {e1 e2 tmp : Expr}
    (hNamed1 : e1.WellNamed)
    (hNamed2 : e2.WellNamed)
    (hJoin : exprJoin types type e1 e2 = some tmp) :
    tmp.calcValue v =
      type.eval (e1.calcValue v) (e2.calcValue v) := by
  have hSame : ∀ {e1 e2 : Expr}, exprEq e1 e2 = true →
      e1.calcValue v =
        type.eval (e1.calcValue v) (e2.calcValue v) := by
    intro e1 e2 hEq
    rw [← calcValue_eq_of_exprEq hTyped.builtinTri e1 e2 hEq]
    exact (type.eval_self _).symm
  cases type with
  | and =>
      rcases exprJoinWith_cases hJoin with
        ⟨hEq, rfl⟩ | ⟨sym, h1, h2, hType, hRule⟩
      · exact hSame hEq
      · exact calcValue_joinAndRules hTyped h1 h2
          hNamed1 hNamed2 hType hRule
  | or =>
      rcases exprJoinWith_cases hJoin with
        ⟨hEq, rfl⟩ | ⟨sym, h1, h2, hType, hRule⟩
      · exact hSame hEq
      · exact calcValue_joinOrRules hTyped h1 h2 hType hRule

end Values

end Mkrootfs
