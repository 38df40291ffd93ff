import Mkrootfs.Kconfig.ExprJoin

/-
  `expr_eliminate_dups` of `expr.c`: every operand of a node
  meets every other one, until a pass changes nothing.

  Both pointers of the source walk the same tree, so an
  operand is named by its place, and a pair of places is one
  step.  A step that changes something leaves a constant
  behind, which is dropped before the next pass: this is why
  the passes end.

  Main declarations:
    * `exprDups1`, `exprDups2`, `exprEliminateDups`
    * `Reduces`
    * `exprEliminateDups_eq`, `exprEliminateDups_settles`
-/

------------------------------------------------------------
-- The Passes
------------------------------------------------------------

namespace Mkrootfs

namespace Junction

/- The other type of node. -/
def dual : Junction → Junction
| and => .or
| or => .and

end Junction

/- What is passed over so far, and how often it changed. -/
abbrev Counted (α : Type) := Nat × α

/- A pass over an operand that is a node itself. -/
def passOperand
    (nested : Junction → Expr → Counted Expr)
    (e : Expr) : Counted Expr :=
  match e.junction? with
  | some type => nested type e
  | none => (0, e)

/- Two operands `e1` and `e2` in `expr_eliminate_dups1`. -/
def dups1Pair
    (types : SymId → SymbolType)
    (nested : Junction → Expr → Counted Expr)
    (type : Junction)
    (s : Counted (Operands Expr))
    (pair : Place × Place) : Counted (Operands Expr) :=
  match s.2.leafAt pair.1 with
  | none => s
  | some e1 =>
      if pair.1 = pair.2 then
        s
      else
        let r := passOperand nested e1
        let t := s.2.put pair.1 r.2
        match (t.leafAt pair.2).bind
            (exprJoin types type r.2) with
        | some tmp =>
            (s.1 + r.1 + 1,
              (t.put pair.1 type.unit).put pair.2 tmp)
        | none => (s.1 + r.1, t)

/-
  An operand `e1` and a part `e2` of the whole expression in
  `expr_eliminate_dups2`: `e1` is replaced by a constant if
  `e2` holds all of its negation.
-/
def dups2Pair
    (types : SymId → SymbolType)
    (nested : Junction → Expr → Counted Expr)
    (type : Junction)
    (s : Counted (Operands Expr))
    (pair : Place × Place) : Counted (Operands Expr) :=
  match s.2.leafAt pair.1 with
  | none => s
  | some e1 =>
      match e1.junction? with
      | none => s
      | some inner =>
          if pair.1 = pair.2 then
            s
          else
            let r := nested inner e1
            let t := s.2.put pair.1 r.2
            match t.sub pair.2 with
            | none => (s.1 + r.1, t)
            | some e2 =>
                let rest := exprExtractEq inner.dual
                  (exprTransform types (.not r.2))
                  (type.join e2)
                if rest.2.1 = inner.dual.unit then
                  (s.1 + r.1 + 1, t.put pair.1
                    (.symbol (.builtin inner.dual.absorbing)))
                else
                  (s.1 + r.1, t)

/- `expr_eliminate_dups1` on one expression twice. -/
def exprDups1Fuel (types : SymId → SymbolType) :
    Nat → Junction → Expr → Counted Expr
| 0, _, e => (0, e)
| n + 1, type, e =>
    let t := e.operands type
    let r := (t.leafPlaces.product t.leafPlaces).foldl
      (dups1Pair types (exprDups1Fuel types n) type) (0, t)
    (r.1, type.join r.2)

/- `expr_eliminate_dups2` on one expression twice. -/
def exprDups2Fuel (types : SymId → SymbolType) :
    Nat → Junction → Expr → Counted Expr
| 0, _, e => (0, e)
| n + 1, type, e =>
    let t := e.operands type
    let r := (t.leafPlaces.product t.nodePlaces).foldl
      (dups2Pair types (exprDups2Fuel types n) type) (0, t)
    (r.1, type.join r.2)

/- Operands are smaller than the expression. -/
def exprDups1
    (types : SymId → SymbolType)
    (type : Junction)
    (e : Expr) : Counted Expr :=
  exprDups1Fuel types e.size type e

def exprDups2
    (types : SymId → SymbolType)
    (type : Junction)
    (e : Expr) : Counted Expr :=
  exprDups2Fuel types e.size type e

/- The body of the loop, up to the test of `trans_count`. -/
def dupsPass
    (types : SymId → SymbolType)
    (e : Expr) : Counted Expr :=
  match e.junction? with
  | none => (0, e)
  | some type =>
      let r := exprDups1 types type e
      let r' := exprDups2 types type r.2
      (r.1 + r'.1, r'.2)

/- `expr_eliminate_dups`, with fuel for the loop. -/
def exprEliminateDupsFuel (types : SymId → SymbolType) :
    Nat → Expr → Expr
| 0, e => e
| n + 1, e =>
    let r := dupsPass types e
    if r.1 = 0 then
      r.2
    else
      exprEliminateDupsFuel types n (exprEliminateYn r.2)

/- `expr_eliminate_dups`. -/
def exprEliminateDups
    (types : SymId → SymbolType)
    (e : Expr) : Expr :=
  exprEliminateDupsFuel types e.size e

------------------------------------------------------------
-- What A Step Can Do
------------------------------------------------------------

/- No constant stands below a conjunction or disjunction. -/
def Constless (e : Expr) : Prop :=
  e.Every (fun a => a ≠ .symbol (.builtin .yes) ∧
    a ≠ .symbol (.builtin .no))

/-
  What becomes of an expression: its definite values stay,
  and it does not grow.
-/
structure Simplifies
    (types : SymId → SymbolType)
    (e e' : Expr) : Prop where
  kept : ∀ v : Values, v.Typed types → e.WellNamed →
    (e.calcValue v).Kept (e'.calcValue v)
  wellNamed : e.WellNamed → e'.WellNamed
  decides : ∀ v : Values, v.Typed types → v.Decides e →
    v.Decides e'
  transformed : ∀ types', TypesBelow types' types →
    Transformed types' e → Transformed types' e'
  size : e'.size ≤ e.size

/- A step or a pass: each change leaves a constant behind. -/
structure Reduces
    (types : SymId → SymbolType)
    (e : Expr)
    (r : Counted Expr) : Prop extends
    Simplifies types e r.2 where
  change : (r.1 = 0 ∧ r.2 = e) ∨ (0 < r.1 ∧ ¬ Constless r.2)

namespace Simplifies

variable {types : SymId → SymbolType}

theorem refl (e : Expr) : Simplifies types e e where
  kept := fun _ _ _ => Tristate.Kept.refl _
  wellNamed := id
  decides := fun _ _ => id
  transformed := fun _ _ => id
  size := Nat.le_refl _

theorem trans
    {e e' e'' : Expr}
    (hFirst : Simplifies types e e')
    (hNext : Simplifies types e' e'') :
    Simplifies types e e'' where
  kept := fun v hTyped hNamed =>
    (hFirst.kept v hTyped hNamed).trans
      (hNext.kept v hTyped (hFirst.wellNamed hNamed))
  wellNamed := fun h => hNext.wellNamed (hFirst.wellNamed h)
  decides := fun v hTyped h =>
    hNext.decides v hTyped (hFirst.decides v hTyped h)
  transformed := fun types' hBelow h =>
    hNext.transformed types' hBelow
      (hFirst.transformed types' hBelow h)
  size := hNext.size.trans hFirst.size

theorem eliminateYn (e : Expr) :
    Simplifies types e (exprEliminateYn e) where
  kept := fun _ hTyped _ =>
    Tristate.Kept.of_eq
      (calcValue_exprEliminateYn hTyped.builtinTri e)
  wellNamed := by
    simp only [Expr.wellNamed_iff]
    exact every_exprEliminateYn
  decides := by
    simp only [Values.decides_iff]
    exact fun _ _ => every_exprEliminateYn
  transformed := fun _ _ => every_exprEliminateYn
  size := size_exprEliminateYn_le e

end Simplifies

namespace Reduces

variable {types : SymId → SymbolType}

theorem refl (e : Expr) : Reduces types e (0, e) where
  toSimplifies := Simplifies.refl e
  change := Or.inl ⟨rfl, rfl⟩

theorem trans
    {e e' e'' : Expr}
    {n m : Nat}
    (hFirst : Reduces types e (n, e'))
    (hNext : Reduces types e' (m, e'')) :
    Reduces types e (n + m, e'') where
  toSimplifies :=
    hFirst.toSimplifies.trans hNext.toSimplifies
  change := by
    rcases hNext.change with ⟨hm, he⟩ | ⟨hm, he⟩
    · simp only at hm he
      subst hm he
      exact hFirst.change
    · exact Or.inr ⟨Nat.add_pos_right n hm, he⟩

end Reduces

section Steps

variable {types : SymId → SymbolType} {type : Junction}

/- A constant among the operands is one of the expression. -/
theorem not_constless_join
    {t : Operands Expr}
    {a : Expr}
    (hMem : a ∈ t.leaves)
    (hConst : ¬ Constless a) :
    ¬ Constless (type.join t) :=
  fun h => hConst ((type.every_join t).mp h a hMem)

theorem not_constless_const (type : Junction) :
    ¬ Constless (.symbol (.builtin type.neutral)) ∧
      ¬ Constless (.symbol (.builtin type.absorbing)) := by
  cases type <;>
    simp [Constless, Expr.Every, Junction.neutral,
      Junction.absorbing]

theorem transformed_symbol (s : SymId) :
    Transformed types (.symbol s) :=
  trivial

/- A step at one operand is one of the whole expression. -/
theorem reduces_put
    {t : Operands Expr}
    {p : Place}
    {e1 : Expr}
    {r : Counted Expr}
    (hAt : t.leafAt p = some e1)
    (hStep : Reduces types e1 r) :
    Reduces types (type.join t)
      (r.1, type.join (t.put p r.2)) where
  kept := by
    intro v hTyped hNamed
    rcases Operands.fold_put type.eval type.neutral
      (Expr.calcValue v) hAt with ⟨c, hc⟩
    have hOld := hc e1
    rw [Operands.put_self hAt] at hOld
    simp only [Junction.calcValue_join, hOld, hc]
    exact type.eval_kept
      (hStep.kept v hTyped
        (Junction.wellNamed_leafAt hNamed hAt))
      (Tristate.Kept.refl c)
  wellNamed := fun h =>
    Junction.wellNamed_put h p
      (hStep.wellNamed (Junction.wellNamed_leafAt h hAt))
  decides := fun v hTyped h =>
    Junction.decides_put h p
      (hStep.decides v hTyped (Junction.decides_leafAt h hAt))
  transformed := fun types' hBelow h =>
    Junction.every_put h p
      (hStep.transformed types' hBelow
        (Junction.every_leafAt h hAt))
  size := by
    rcases Operands.fold_put (β := Nat) (· + ·) 0 Expr.size hAt
      with ⟨c, hc⟩
    have hOld := hc e1
    rw [Operands.put_self hAt] at hOld
    simp only [Junction.size_join, hOld, hc]
    exact Nat.add_le_add_right hStep.size c
  change := by
    rcases hStep.change with ⟨hn, he⟩ | ⟨hn, he⟩
    · refine Or.inl ⟨hn, ?_⟩
      simp only
      rw [he, Operands.put_self hAt]
    · exact Or.inr ⟨hn, not_constless_join
        (Operands.leafAt_mem_leaves
          (Operands.leafAt_put_self hAt r.2)) he⟩

/- Two joined operands leave a constant and what they join to. -/
theorem reduces_join
    {t : Operands Expr}
    {p q : Place}
    {e1 e2 tmp : Expr}
    (hNe : p ≠ q)
    (hp : t.leafAt p = some e1)
    (hq : t.leafAt q = some e2)
    (hJoin : exprJoin types type e1 e2 = some tmp) :
    Reduces types (type.join t)
      (1, type.join ((t.put p type.unit).put q tmp)) where
  kept := by
    intro v hTyped hNamed
    rcases Operands.fold_put_put type.eval type.neutral
      (Expr.calcValue v) hNe hp hq with ⟨c, hc⟩
    have hOld := hc e1 e2
    have hq' : (t.put p e1).leafAt q = some e2 := by
      rw [Operands.leafAt_put_of_ne t hNe, hq]
    rw [Operands.put_self hq', Operands.put_self hp] at hOld
    have hValue := calcValue_exprJoin hTyped
      (Junction.wellNamed_leafAt hNamed hp)
      (Junction.wellNamed_leafAt hNamed hq) hJoin
    have hUnit : type.unit.calcValue v = type.neutral :=
      hTyped.builtinTri _
    apply Tristate.Kept.of_eq
    simp only [Junction.calcValue_join, hOld, hc, hValue,
      hUnit]
    exact congrArg (type.eval · c) (type.neutral_eval _).symm
  wellNamed := fun h =>
    Junction.wellNamed_put
      (Junction.wellNamed_put h p (Expr.wellNamed_builtin _)) q
      (wellNamed_exprJoin (Junction.wellNamed_leafAt h hp)
        (Junction.wellNamed_leafAt h hq) hJoin)
  decides := fun _ hTyped h =>
    Junction.decides_put
      (Junction.decides_put h p
        (hTyped.decides_builtin (by cases type <;> decide))) q
      (decides_exprJoin hTyped (Junction.decides_leafAt h hp)
        (Junction.decides_leafAt h hq) hJoin)
  transformed := fun _ hBelow h =>
    Junction.every_put
      (Junction.every_put h p (transformed_symbol _)) q
      (transformed_exprJoin hBelow (Junction.every_leafAt h hp)
        (Junction.every_leafAt h hq) hJoin)
  size := by
    rcases Operands.fold_put_put (β := Nat) (· + ·) 0
      Expr.size hNe hp hq with ⟨c, hc⟩
    have hOld := hc e1 e2
    have hq' : (t.put p e1).leafAt q = some e2 := by
      rw [Operands.leafAt_put_of_ne t hNe, hq]
    rw [Operands.put_self hq', Operands.put_self hp] at hOld
    have hSize := size_exprJoin hJoin
    have hUnit : type.unit.size = 1 := rfl
    simp only [Junction.size_join, hOld, hc, hUnit]
    omega
  change := by
    refine Or.inr ⟨Nat.one_pos, not_constless_join
      (a := type.unit) ?_ (not_constless_const type).1⟩
    apply Operands.leafAt_mem_leaves (p := p)
    rw [Operands.leafAt_put_of_ne _ hNe.symm]
    exact Operands.leafAt_put_self hp _

theorem Junction.eval_eq_neutral
    {type : Junction}
    {a b : Tristate}
    (hEval : type.eval a b = type.neutral) :
    a = type.neutral ∧ b = type.neutral := by
  revert hEval
  cases type <;> cases a <;> cases b <;> decide

/-
  An operand whose negation is part of the expression: both
  together are never the neutral constant, so that the
  absorbing one only replaces `m`.
-/
theorem reduces_absorb
    {t s : Operands Expr}
    {p q : Place}
    {e1 : Expr}
    (hp : t.leafAt p = some e1)
    (hq : t.sub q = some s)
    (hRest :
      (exprExtractEq type (exprTransform types (.not e1))
        (type.join s)).2.1 = type.unit) :
    Reduces types (type.join t)
      (1, type.join
        (t.put p (.symbol (.builtin type.absorbing)))) where
  kept := by
    intro v hTyped _
    have hConst : ∀ c, (Expr.symbol (.builtin c)).calcValue v = c :=
      hTyped.builtinTri
    rcases Operands.fold_put type.eval type.neutral
      (Expr.calcValue v) hp with ⟨c, hc⟩
    rcases Operands.fold_sub type.eval type.neutral
      (Expr.calcValue v) hq with ⟨d, hd⟩
    rcases exprExtractEq_factors hTyped.builtinTri type
      (exprTransform types (.not e1)) (type.join s)
      with ⟨k, hNot, hPart⟩
    have hOld := hc e1
    rw [Operands.put_self hp] at hOld
    rw [calcValue_exprTransform hTyped, hRest,
      ← type.eval_unit hTyped.builtinTri] at hNot
    simp only [Junction.calcValue_join] at hPart ⊢
    have hNever :
        t.fold type.eval (Expr.calcValue v) ≠ type.neutral := by
      intro hNeutral
      have hSelf := (Junction.eval_eq_neutral
        (hOld.symm.trans hNeutral)).1
      have hSub := (Junction.eval_eq_neutral
        (hd.symm.trans hNeutral)).1
      have hk := (Junction.eval_eq_neutral
        (hPart.symm.trans hSub)).1
      rw [Expr.calcValue, hSelf, hk] at hNot
      revert hNot
      cases type <;> decide
    rw [hc, hConst]
    revert hNever
    generalize t.fold type.eval (Expr.calcValue v) = a
    cases type <;> cases a <;> cases c <;> decide
  wellNamed := fun h =>
    Junction.wellNamed_put h p (Expr.wellNamed_builtin _)
  decides := fun _ hTyped h =>
    Junction.decides_put h p
      (hTyped.decides_builtin (by cases type <;> decide))
  transformed := fun _ _ h =>
    Junction.every_put h p (transformed_symbol _)
  size := by
    rcases Operands.fold_put (β := Nat) (· + ·) 0 Expr.size hp
      with ⟨c, hc⟩
    have hOld := hc e1
    have hPos := e1.size_pos
    rw [Operands.put_self hp] at hOld
    simp only [Junction.size_join, hOld, hc, Expr.size]
    omega
  change :=
    Or.inr ⟨Nat.one_pos, not_constless_join
      (Operands.leafAt_mem_leaves
        (Operands.leafAt_put_self hp _))
      (not_constless_const type).2⟩

end Steps

------------------------------------------------------------
-- What A Pass Can Do
------------------------------------------------------------

/- What is assumed of the passes over operands. -/
def ReducesOperands
    (types : SymId → SymbolType)
    (nested : Junction → Expr → Counted Expr) : Prop :=
  ∀ type e, e.junction? = some type →
    Reduces types e (nested type e) ∧
      (nested type e).2.junction? = some type

/- The state of a pass that began with the operands `t`. -/
structure PassState
    (types : SymId → SymbolType)
    (type : Junction)
    (t : Operands Expr)
    (s : Counted (Operands Expr)) : Prop where
  reduces :
    Reduces types (type.join t) (s.1, type.join s.2)
  isNode : s.2.isNode = t.isNode
  flat : ∀ a ∈ s.2.leaves, a.junction? ≠ some type

section Passes

variable {types : SymId → SymbolType}
variable {nested : Junction → Expr → Counted Expr}
variable {type : Junction} {t : Operands Expr}
variable {s : Counted (Operands Expr)}

theorem passOperand_reduces
    (hNested : ReducesOperands types nested)
    (e : Expr) :
    Reduces types e (passOperand nested e) ∧
      (passOperand nested e).2.junction? = e.junction? := by
  unfold passOperand
  cases hType : e.junction? with
  | none => exact ⟨Reduces.refl e, hType⟩
  | some type => exact hNested type e hType

/- A step at one operand that leaves an operand. -/
theorem PassState.put
    (hState : PassState types type t s)
    {p : Place}
    {e1 : Expr}
    {r : Counted Expr}
    (hAt : s.2.leafAt p = some e1)
    (hStep : Reduces types e1 r)
    (hFlat : r.2.junction? ≠ some type) :
    PassState types type t (s.1 + r.1, s.2.put p r.2) where
  reduces := hState.reduces.trans (reduces_put hAt hStep)
  isNode := (Operands.isNode_put s.2 p r.2).trans hState.isNode
  flat := by
    intro a ha
    rcases Operands.mem_leaves_put ha with rfl | hOld
    · exact hFlat
    · exact hState.flat a hOld

theorem dups1Pair_state
    (hNested : ReducesOperands types nested)
    (hState : PassState types type t s)
    (pair : Place × Place) :
    PassState types type t
      (dups1Pair types nested type s pair) := by
  unfold dups1Pair
  split
  · exact hState
  · rename_i e1 hAt
    split
    · exact hState
    · rename_i hNe
      have hOperand := passOperand_reduces hNested e1
      have hFlat1 : (passOperand nested e1).2.junction? ≠
          some type := by
        rw [hOperand.2]
        exact hState.flat e1 (Operands.leafAt_mem_leaves hAt)
      have hMid := hState.put hAt hOperand.1 hFlat1
      simp only
      split
      · rename_i tmp hTmp
        rcases Option.bind_eq_some_iff.mp hTmp with
          ⟨e2, hAt2, hJoin⟩
        refine ⟨hMid.reduces.trans (reduces_join hNe
          (Operands.leafAt_put_self hAt _) hAt2 hJoin), ?_, ?_⟩
        · simpa using hMid.isNode
        · intro a ha
          rcases Operands.mem_leaves_put ha with rfl | hOld
          · exact junction_exprJoin hFlat1 hJoin
          · rcases Operands.mem_leaves_put hOld with
              rfl | hOlder
            · simp [Junction.unit, Expr.junction?]
            · exact hMid.flat a hOlder
      · exact hMid

theorem dups2Pair_state
    (hNested : ReducesOperands types nested)
    (hState : PassState types type t s)
    (pair : Place × Place) :
    PassState types type t
      (dups2Pair types nested type s pair) := by
  unfold dups2Pair
  split
  · exact hState
  · rename_i e1 hAt
    split
    · exact hState
    · rename_i inner hInner
      split
      · exact hState
      · have hNe : inner ≠ type := by
          intro h
          exact hState.flat e1 (Operands.leafAt_mem_leaves hAt)
            (h ▸ hInner)
        have hDual : inner.dual = type := by
          revert hNe
          cases inner <;> cases type <;> decide
        have hOperand := hNested inner e1 hInner
        have hFlat1 : (nested inner e1).2.junction? ≠
            some type := by
          rw [hOperand.2]
          exact fun h => hNe (Option.some.inj h)
        have hMid := hState.put hAt hOperand.1 hFlat1
        simp only
        split
        · exact hMid
        · rename_i e2 hSub
          rw [hDual]
          split
          · rename_i hRest
            refine ⟨hMid.reduces.trans (reduces_absorb
              (Operands.leafAt_put_self hAt _) hSub hRest),
              ?_, ?_⟩
            · simpa using hMid.isNode
            · intro a ha
              rcases Operands.mem_leaves_put ha with rfl | hOld
              · simp [Expr.junction?]
              · exact hMid.flat a hOld
          · exact hMid

/- Every step of a walk keeps the state of the pass. -/
theorem foldl_state
    {step : Counted (Operands Expr) → Place × Place →
      Counted (Operands Expr)}
    (hStep : ∀ s pair, PassState types type t s →
      PassState types type t (step s pair))
    (hState : PassState types type t s)
    (pairs : List (Place × Place)) :
    PassState types type t (pairs.foldl step s) := by
  induction pairs generalizing s with
  | nil => exact hState
  | cons pair pairs ih => exact ih (hStep s pair hState)

/- A pass begins with the operands of the expression. -/
theorem passState_operands (e : Expr) :
    PassState types type (e.operands type)
      (0, e.operands type) where
  reduces := Reduces.refl _
  isNode := rfl
  flat := fun _ ha => Expr.junction_of_mem_operands ha

/- It ends with an expression of the same type. -/
theorem PassState.result
    {e : Expr}
    (hType : e.junction? = some type)
    (hState : PassState types type (e.operands type) s) :
    Reduces types e (s.1, type.join s.2) ∧
      (type.join s.2).junction? = some type := by
  have hReduces := hState.reduces
  rw [Junction.join_operands] at hReduces
  refine ⟨hReduces, type.junction_join_of_isNode ?_⟩
  rw [hState.isNode]
  cases e with
  | and a b => cases hType; rfl
  | or a b => cases hType; rfl
  | _ => cases hType

theorem exprDups1Fuel_reduces (n : Nat) :
    ReducesOperands types (exprDups1Fuel types n) := by
  induction n with
  | zero => exact fun type e h => ⟨Reduces.refl e, h⟩
  | succ n ih =>
      intro type e hType
      exact (foldl_state (fun _ pair h => dups1Pair_state ih h pair)
        (passState_operands e) _).result hType

theorem exprDups2Fuel_reduces (n : Nat) :
    ReducesOperands types (exprDups2Fuel types n) := by
  induction n with
  | zero => exact fun type e h => ⟨Reduces.refl e, h⟩
  | succ n ih =>
      intro type e hType
      exact (foldl_state (fun _ pair h => dups2Pair_state ih h pair)
        (passState_operands e) _).result hType

end Passes

theorem dupsPass_reduces
    (types : SymId → SymbolType)
    (e : Expr) :
    Reduces types e (dupsPass types e) ∧
      (dupsPass types e).2.junction? = e.junction? := by
  unfold dupsPass
  cases hType : e.junction? with
  | none => exact ⟨Reduces.refl e, hType⟩
  | some type =>
      have hFirst : Reduces types e (exprDups1 types type e) ∧
          (exprDups1 types type e).2.junction? = some type :=
        exprDups1Fuel_reduces e.size type e hType
      have hNext : ReducesOperands types
          (exprDups2Fuel types (exprDups1 types type e).2.size) :=
        exprDups2Fuel_reduces _
      have hNext := hNext type _ hFirst.2
      exact ⟨hFirst.1.trans hNext.1, hNext.2⟩

------------------------------------------------------------
-- The Passes End
------------------------------------------------------------

section Fuel

variable {types : SymId → SymbolType}
variable {nested nested' : Junction → Expr → Counted Expr}
variable {n : Nat}

theorem leaves_put_size_le
    {t : Operands Expr}
    {p : Place}
    {a : Expr}
    (hSmall : ∀ b ∈ t.leaves, b.size ≤ n)
    (ha : a.size ≤ n) :
    ∀ b ∈ (t.put p a).leaves, b.size ≤ n := by
  intro b hb
  rcases Operands.mem_leaves_put hb with rfl | hOld
  · exact ha
  · exact hSmall b hOld

theorem dups1Pair_congr
    (hNested : ReducesOperands types nested)
    (hAgree : ∀ type e, e.junction? = some type →
      e.size ≤ n → nested type e = nested' type e)
    (type : Junction)
    (s : Counted (Operands Expr))
    (pair : Place × Place)
    (hSmall : ∀ a ∈ s.2.leaves, a.size ≤ n) :
    dups1Pair types nested type s pair =
        dups1Pair types nested' type s pair ∧
      ∀ a ∈ (dups1Pair types nested type s pair).2.leaves,
        a.size ≤ n := by
  unfold dups1Pair
  split
  · exact ⟨rfl, hSmall⟩
  · rename_i e1 hAt
    have hSize1 := hSmall e1 (Operands.leafAt_mem_leaves hAt)
    have hSame : passOperand nested e1 =
        passOperand nested' e1 := by
      unfold passOperand
      split
      · exact hAgree _ e1 ‹_› hSize1
      · rfl
    rw [← hSame]
    refine ⟨rfl, ?_⟩
    split
    · exact hSmall
    · have hSize := ((passOperand_reduces hNested e1).1.size).trans
        hSize1
      have hMid := leaves_put_size_le (p := pair.1) hSmall hSize
      simp only
      split
      · rename_i tmp hTmp
        rcases Option.bind_eq_some_iff.mp hTmp with
          ⟨e2, hAt2, hJoin⟩
        have hSize2 := hMid e2 (Operands.leafAt_mem_leaves hAt2)
        have hUnit : type.unit.size ≤ n :=
          e1.size_pos.trans_le hSize1
        exact leaves_put_size_le
          (leaves_put_size_le hMid hUnit)
          (size_exprJoin_le hSize hSize2 hJoin)
      · exact hMid

theorem dups2Pair_congr
    (hNested : ReducesOperands types nested)
    (hAgree : ∀ type e, e.junction? = some type →
      e.size ≤ n → nested type e = nested' type e)
    (type : Junction)
    (s : Counted (Operands Expr))
    (pair : Place × Place)
    (hSmall : ∀ a ∈ s.2.leaves, a.size ≤ n) :
    dups2Pair types nested type s pair =
        dups2Pair types nested' type s pair ∧
      ∀ a ∈ (dups2Pair types nested type s pair).2.leaves,
        a.size ≤ n := by
  unfold dups2Pair
  split
  · exact ⟨rfl, hSmall⟩
  · rename_i e1 hAt
    have hSize1 := hSmall e1 (Operands.leafAt_mem_leaves hAt)
    split
    · exact ⟨rfl, hSmall⟩
    · rename_i inner hInner
      rw [← hAgree inner e1 hInner hSize1]
      refine ⟨rfl, ?_⟩
      split
      · exact hSmall
      · have hSize :=
          ((hNested inner e1 hInner).1.size).trans hSize1
        have hMid := leaves_put_size_le (p := pair.1) hSmall hSize
        simp only
        split
        · exact hMid
        · split
          · exact leaves_put_size_le hMid
              (e1.size_pos.trans_le hSize1)
          · exact hMid

theorem operands_size_le
    {type : Junction}
    {e : Expr}
    (hType : e.junction? = some type)
    (hSize : e.size ≤ n + 1) :
    ∀ a ∈ (e.operands type).leaves, a.size ≤ n := by
  intro a ha
  have hLess : a.size < e.size := by
    cases e with
    | and b c =>
        cases hType
        have hMem : a ∈ ((Junction.and.alloc b c).operands
            .and).leaves := ha
        exact size_lt_of_mem_operands hMem
    | or b c =>
        cases hType
        have hMem : a ∈ ((Junction.or.alloc b c).operands
            .or).leaves := ha
        exact size_lt_of_mem_operands hMem
    | _ => cases hType
  omega

/- One walk over pairs of places in an expression. -/
def walkPairs
    (pairs : Operands Expr → List (Place × Place))
    (step : Junction → Counted (Operands Expr) →
      Place × Place → Counted (Operands Expr))
    (type : Junction)
    (e : Expr) : Counted Expr :=
  let t := e.operands type
  let r := (pairs t).foldl (step type) (0, t)
  (r.1, type.join r.2)

/-
  What both passes are, with their fuel: a walk whose steps
  use the pass itself on operands only.
-/
structure FuelledPass
    (types : SymId → SymbolType)
    (pairs : Operands Expr → List (Place × Place))
    (step : (Junction → Expr → Counted Expr) →
      Junction → Counted (Operands Expr) →
      Place × Place → Counted (Operands Expr))
    (pass : Nat → Junction → Expr → Counted Expr) :
    Prop where
  succ : ∀ n type e,
    pass (n + 1) type e =
      walkPairs pairs (step (pass n)) type e
  reduces : ∀ n, ReducesOperands types (pass n)
  congr : ∀ {nested nested' : Junction → Expr → Counted Expr}
      {n : Nat},
    ReducesOperands types nested →
    (∀ type e, e.junction? = some type → e.size ≤ n →
      nested type e = nested' type e) →
    ∀ (type : Junction) (s : Counted (Operands Expr))
      (pair : Place × Place),
      (∀ a ∈ s.2.leaves, a.size ≤ n) →
      step nested type s pair = step nested' type s pair ∧
        ∀ a ∈ (step nested type s pair).2.leaves,
          a.size ≤ n

section Passes

variable {pairs : Operands Expr → List (Place × Place)}
variable {step : (Junction → Expr → Counted Expr) →
  Junction → Counted (Operands Expr) →
  Place × Place → Counted (Operands Expr)}
variable {pass : Nat → Junction → Expr → Counted Expr}

/- More fuel than the size of an expression is not used. -/
theorem FuelledPass.of_size_le
    (hPass : FuelledPass types pairs step pass)
    {m : Nat}
    {type : Junction}
    {e : Expr}
    (hType : e.junction? = some type)
    (hn : e.size ≤ n)
    (hm : e.size ≤ m) :
    pass n type e = pass m type e := by
  induction n generalizing m type e with
  | zero => exact absurd e.size_pos (by omega)
  | succ n ih =>
      cases m with
      | zero => exact absurd e.size_pos (by omega)
      | succ m =>
          have hSmall := operands_size_le (n := min n m)
            hType (by omega)
          have hAgree : ∀ type e, e.junction? = some type →
              e.size ≤ min n m →
              pass n type e = pass m type e :=
            fun _ _ h hSize => ih h (by omega) (by omega)
          rw [hPass.succ, hPass.succ]
          simp only [walkPairs]
          rw [foldl_congr_of_invariant
            (hPass.congr (hPass.reduces n) hAgree type)
            hSmall]

/- So the pass calls itself. -/
theorem FuelledPass.eq
    (hPass : FuelledPass types pairs step pass)
    {type : Junction}
    {e : Expr}
    (hType : e.junction? = some type) :
    pass e.size type e =
      walkPairs pairs
        (step (fun type e => pass e.size type e)) type e := by
  have hPos := e.size_pos
  obtain ⟨n, hn⟩ : ∃ n, e.size = n + 1 :=
    ⟨e.size - 1, by omega⟩
  have hSmall := operands_size_le hType (Nat.le_of_eq hn)
  rw [hn, hPass.succ]
  simp only [walkPairs]
  rw [foldl_congr_of_invariant
    (hPass.congr (hPass.reduces n)
      (fun _ _ h hSize => hPass.of_size_le h hSize
        (Nat.le_refl _)) type) hSmall]

end Passes

theorem fuelledPass_exprDups1
    (types : SymId → SymbolType) :
    FuelledPass types
      (fun t => t.leafPlaces.product t.leafPlaces)
      (dups1Pair types) (exprDups1Fuel types) where
  succ _ _ _ := rfl
  reduces := exprDups1Fuel_reduces
  congr := dups1Pair_congr

theorem fuelledPass_exprDups2
    (types : SymId → SymbolType) :
    FuelledPass types
      (fun t => t.leafPlaces.product t.nodePlaces)
      (dups2Pair types) (exprDups2Fuel types) where
  succ _ _ _ := rfl
  reduces := exprDups2Fuel_reduces
  congr := dups2Pair_congr

/- Both passes call themselves as the source does. -/
theorem exprDups1_eq
    {type : Junction}
    {e : Expr}
    (hType : e.junction? = some type) :
    exprDups1 types type e =
      walkPairs (fun t => t.leafPlaces.product t.leafPlaces)
        (dups1Pair types (exprDups1 types)) type e :=
  (fuelledPass_exprDups1 types).eq hType

theorem exprDups2_eq
    {type : Junction}
    {e : Expr}
    (hType : e.junction? = some type) :
    exprDups2 types type e =
      walkPairs (fun t => t.leafPlaces.product t.nodePlaces)
        (dups2Pair types (exprDups2 types)) type e :=
  (fuelledPass_exprDups2 types).eq hType

end Fuel

------------------------------------------------------------
-- The Loop Ends
------------------------------------------------------------

/- A constant operand goes away. -/
theorem Junction.size_eliminateYn_lt
    (type : Junction)
    {a b : Expr}
    {c : Tristate}
    (hc : c ≠ .mod)
    (hConst : a = .symbol (.builtin c) ∨
      b = .symbol (.builtin c)) :
    (type.eliminateYn a b).size < a.size + b.size := by
  have ha := a.size_pos
  have hb := b.size_pos
  have hEnds : c = type.neutral ∨ c = type.absorbing := by
    revert hc
    cases type <;> cases c <;> decide
  have hOne : (Expr.symbol (.builtin type.absorbing)).size = 1 :=
    rfl
  unfold eliminateYn
  split
  · omega
  · split
    · omega
    · split
      · omega
      · split
        · omega
        · rename_i h1 h2 h3 h4
          exfalso
          rcases hConst with rfl | rfl
          · rcases hEnds with rfl | rfl
            · exact h2 rfl
            · exact h1 rfl
          · rcases hEnds with rfl | rfl
            · exact h4 rfl
            · exact h3 rfl

theorem size_eliminateYn_of_not_constless
    {e : Expr}
    (hConst : ¬ Constless e) :
    (∃ c, c ≠ Tristate.mod ∧ e = .symbol (.builtin c)) ∨
      (exprEliminateYn e).size < e.size := by
  have hNode : ∀ (type : Junction) (a b : Expr),
      ((∃ c, c ≠ Tristate.mod ∧ a = .symbol (.builtin c)) ∨
        (exprEliminateYn a).size < a.size) ∨
      ((∃ c, c ≠ Tristate.mod ∧ b = .symbol (.builtin c)) ∨
        (exprEliminateYn b).size < b.size) →
      (type.eliminateYn (exprEliminateYn a)
        (exprEliminateYn b)).size < a.size + b.size := by
    intro type a b hSide
    have hla := size_exprEliminateYn_le a
    have hlb := size_exprEliminateYn_le b
    have hle := type.size_eliminateYn_le
      (exprEliminateYn a) (exprEliminateYn b)
    rcases hSide with (⟨c, hc, rfl⟩ | h) | (⟨c, hc, rfl⟩ | h)
    · exact (type.size_eliminateYn_lt hc (Or.inl rfl)).trans_le
        (Nat.add_le_add hla hlb)
    · omega
    · exact (type.size_eliminateYn_lt hc (Or.inr rfl)).trans_le
        (Nat.add_le_add hla hlb)
    · omega
  induction e with
  | symbol s =>
      refine Or.inl ?_
      simp only [Constless, Expr.Every, ne_eq, not_and_or,
        not_not] at hConst
      rcases hConst with h | h
      · exact ⟨.yes, by decide, h⟩
      · exact ⟨.no, by decide, h⟩
  | equal s t => simp [Constless, Expr.Every] at hConst
  | unequal s t => simp [Constless, Expr.Every] at hConst
  | not a _ => simp [Constless, Expr.Every] at hConst
  | and a b iha ihb =>
      exact Or.inr (hNode .and a b
        ((not_and_or.mp hConst).imp iha ihb))
  | or a b iha ihb =>
      exact Or.inr (hNode .or a b
        ((not_and_or.mp hConst).imp iha ihb))

section Loop

variable (types : SymId → SymbolType)

/- A pass with changes leaves less for the next one. -/
theorem size_dupsPass_lt
    {e : Expr}
    (hChange : (dupsPass types e).1 ≠ 0) :
    (exprEliminateYn (dupsPass types e).2).size < e.size := by
  have hPass := dupsPass_reduces types e
  rcases hPass.1.change with h | ⟨_, hConst⟩
  · exact absurd h.1 hChange
  · rcases size_eliminateYn_of_not_constless hConst
      with ⟨c, _, h⟩ | h
    · have hNone : e.junction? = none := by
        rw [← hPass.2, h]
        rfl
      simp [dupsPass, hNone] at hChange
    · exact h.trans_le hPass.1.size

theorem exprEliminateDupsFuel_of_size_le
    {n m : Nat}
    {e : Expr}
    (hn : e.size ≤ n)
    (hm : e.size ≤ m) :
    exprEliminateDupsFuel types n e =
      exprEliminateDupsFuel types m e := by
  induction n generalizing m e with
  | zero => exact absurd e.size_pos (by omega)
  | succ n ih =>
      cases m with
      | zero => exact absurd e.size_pos (by omega)
      | succ m =>
          simp only [exprEliminateDupsFuel]
          split
          · rfl
          · rename_i hChange
            have hLess := size_dupsPass_lt types hChange
            exact ih (by omega) (by omega)

/- `expr_eliminate_dups` loops as the source does. -/
theorem exprEliminateDups_eq (e : Expr) :
    exprEliminateDups types e =
      if (dupsPass types e).1 = 0 then
        (dupsPass types e).2
      else
        exprEliminateDups types
          (exprEliminateYn (dupsPass types e).2) := by
  have hPos := e.size_pos
  obtain ⟨n, hn⟩ : ∃ n, e.size = n + 1 :=
    ⟨e.size - 1, by omega⟩
  unfold exprEliminateDups
  rw [hn]
  simp only [exprEliminateDupsFuel]
  split
  · rfl
  · rename_i hChange
    have hLess := size_dupsPass_lt types hChange
    exact exprEliminateDupsFuel_of_size_le types
      (by omega) (Nat.le_refl _)

/-
  The loop keeps what its passes keep, and it ends where a
  pass has nothing to change.
-/
theorem exprEliminateDups_simplifies (e : Expr) :
    Simplifies types e (exprEliminateDups types e) ∧
      (dupsPass types (exprEliminateDups types e)).1 = 0 := by
  have hPass := (dupsPass_reduces types e).1
  rw [exprEliminateDups_eq]
  split
  · rename_i hNone
    refine ⟨hPass.toSimplifies, ?_⟩
    rcases hPass.change with h | h
    · rw [h.2, hNone]
    · omega
  · rename_i hChange
    have hLess := size_dupsPass_lt types hChange
    have hRest := exprEliminateDups_simplifies
      (exprEliminateYn (dupsPass types e).2)
    exact ⟨(hPass.toSimplifies.trans
      (Simplifies.eliminateYn _)).trans hRest.1, hRest.2⟩
termination_by e.size
decreasing_by exact hLess

/-
  `expr_eliminate_dups` ends for every expression, with one
  that is not larger and that a pass would not change.  Where
  the expression was `y` or `n` it still is.
-/
theorem exprEliminateDups_settles
    {v : Values}
    {types : SymId → SymbolType}
    (hTyped : v.Typed types)
    {e : Expr}
    (hNamed : e.WellNamed) :
    let e' := exprEliminateDups types e
    (e.calcValue v).Kept (e'.calcValue v) ∧
      e'.size ≤ e.size ∧
      (Transformed types e → Transformed types e') ∧
      (dupsPass types e').1 = 0 := by
  intro e'
  have hAll := exprEliminateDups_simplifies types e
  exact ⟨hAll.1.kept v hTyped hNamed, hAll.1.size,
    hAll.1.transformed types (fun _ h => h), hAll.2⟩

end Loop

/- `A && B && (A || !A)` becomes `A && B`. -/
theorem exprEliminateDups_settles_and :
    let a : Expr := .symbol (.named "A".toList)
    let b : Expr := .symbol (.named "B".toList)
    let e : Expr := .and (.and a b) (.or a (.not a))
    exprEliminateDups optionTypes e = .and a b ∧
      (e.calcValue (.setting ["A".toList])).Kept
        ((exprEliminateDups optionTypes e).calcValue
          (.setting ["A".toList])) := by
  intro a b e
  refine ⟨by decide +kernel, ?_⟩
  exact (exprEliminateDups_settles (e := e)
    (Values.setting_typed ["A".toList])
    (fun s hs => by
      have hName : s = .named "A".toList ∨
          s = .named "B".toList := by
        revert hs
        simp only [e, a, b, Expr.syms, List.cons_append,
          List.nil_append, List.mem_cons, List.not_mem_nil,
          or_false]
        tauto
      rcases hName with rfl | rfl <;> trivial)).1

end Mkrootfs
