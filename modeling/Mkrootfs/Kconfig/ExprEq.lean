import Mkrootfs.Kconfig.ExprValue

/-
  Equal expressions in `expr.c`: constants are dropped, what
  two expressions share is taken out of both, and they are
  equal when nothing else is left.

  `expr_eq` and `expr_eliminate_eq` call each other on copies
  that get smaller, so the size of an expression is fuel
  enough.

  Main declarations:
    * `exprEliminateYn`
    * `exprEq`, `exprEliminateEq`, `exprExtractEq`
    * `exprEq_eq`
    * `calcValue_eq_of_exprEq`
-/

------------------------------------------------------------
-- Constant Operands
------------------------------------------------------------

namespace Mkrootfs

namespace Junction

/- The constant that decides such a node. -/
def absorbing : Junction → Tristate
| and => .no
| or => .yes

/- A node whose operands hold no constants any more. -/
def eliminateYn (type : Junction) (a b : Expr) : Expr :=
  if a = .symbol (.builtin type.absorbing) then
    .symbol (.builtin type.absorbing)
  else if a = type.unit then
    b
  else if b = .symbol (.builtin type.absorbing) then
    .symbol (.builtin type.absorbing)
  else if b = type.unit then
    a
  else
    type.alloc a b

end Junction

/- `expr_eliminate_yn`. -/
def exprEliminateYn : Expr → Expr
| .and a b =>
    Junction.eliminateYn .and
      (exprEliminateYn a) (exprEliminateYn b)
| .or a b =>
    Junction.eliminateYn .or
      (exprEliminateYn a) (exprEliminateYn b)
| e => e

namespace Junction

variable {v : Values}

theorem calcValue_eliminateYn
    (hBuiltin : ∀ t, v.tri (.builtin t) = t)
    (type : Junction)
    (a b : Expr) :
    (type.eliminateYn a b).calcValue v =
      type.eval (a.calcValue v) (b.calcValue v) := by
  have hConst : ∀ t : Tristate,
      (Expr.symbol (.builtin t)).calcValue v = t := hBuiltin
  unfold eliminateYn unit
  split
  · rename_i ha
    rw [ha, hConst]
    cases type <;> simp [absorbing, eval]
  · split
    · rename_i ha
      rw [ha, hConst]
      cases type <;> simp [neutral, eval]
    · split
      · rename_i hb
        rw [hb, hConst]
        cases type <;> simp [absorbing, eval]
      · split
        · rename_i hb
          rw [hb, hConst]
          cases type <;> simp [neutral, eval]
        · exact calcValue_alloc type v a b

theorem size_eliminateYn_le
    (type : Junction)
    (a b : Expr) :
    (type.eliminateYn a b).size ≤ a.size + b.size := by
  have ha := a.size_pos
  have hb := b.size_pos
  unfold eliminateYn
  split
  · exact Nat.le_add_right_of_le ha
  · split
    · omega
    · split
      · exact Nat.le_add_right_of_le ha
      · split
        · omega
        · cases type <;> exact Nat.le_refl _

theorem every_eliminateYn
    {P : Expr → Prop}
    (type : Junction)
    {a b : Expr}
    (ha : a.Every P)
    (hb : b.Every P) :
    (type.eliminateYn a b).Every P := by
  unfold eliminateYn
  split
  · rename_i hEq
    exact hEq ▸ ha
  · split
    · exact hb
    · split
      · rename_i hEq
        exact hEq ▸ hb
      · split
        · exact ha
        · cases type <;> exact ⟨ha, hb⟩

end Junction

/- Dropping constants keeps every value. -/
theorem calcValue_exprEliminateYn
    {v : Values}
    (hBuiltin : ∀ t, v.tri (.builtin t) = t)
    (e : Expr) :
    (exprEliminateYn e).calcValue v = e.calcValue v := by
  induction e with
  | symbol _ => rfl
  | equal _ _ => rfl
  | unequal _ _ => rfl
  | not _ _ => rfl
  | and a b iha ihb =>
      rw [exprEliminateYn,
        Junction.calcValue_eliminateYn hBuiltin, iha, ihb]
      rfl
  | or a b iha ihb =>
      rw [exprEliminateYn,
        Junction.calcValue_eliminateYn hBuiltin, iha, ihb]
      rfl

theorem size_exprEliminateYn_le (e : Expr) :
    (exprEliminateYn e).size ≤ e.size := by
  induction e with
  | symbol _ => exact Nat.le_refl _
  | equal _ _ => exact Nat.le_refl _
  | unequal _ _ => exact Nat.le_refl _
  | not _ _ => exact Nat.le_refl _
  | and a b iha ihb =>
      exact (Junction.size_eliminateYn_le .and _ _).trans
        (Nat.add_le_add iha ihb)
  | or a b iha ihb =>
      exact (Junction.size_eliminateYn_le .or _ _).trans
        (Nat.add_le_add iha ihb)

theorem every_exprEliminateYn
    {P : Expr → Prop}
    {e : Expr}
    (hEvery : e.Every P) :
    (exprEliminateYn e).Every P := by
  induction e with
  | symbol _ => exact hEvery
  | equal _ _ => exact hEvery
  | unequal _ _ => exact hEvery
  | not _ _ => exact hEvery
  | and a b iha ihb =>
      exact Junction.every_eliminateYn .and
        (iha hEvery.1) (ihb hEvery.2)
  | or a b iha ihb =>
      exact Junction.every_eliminateYn .or
        (iha hEvery.1) (ihb hEvery.2)

------------------------------------------------------------
-- Common Operands
------------------------------------------------------------

/-
  One pair of operands in `__expr_eliminate_eq`: a constant
  `y` or `n` on both sides is left alone.
-/
def eliminateEqStep
    (eq : Expr → Expr → Bool)
    (type : Junction)
    (_ : Unit)
    (e1 e2 : Expr) : Unit × Expr × Expr :=
  if e1 = e2 ∧ (e1 = .symbol (.builtin .yes) ∨
      e1 = .symbol (.builtin .no)) then
    ((), e1, e2)
  else if eq e1 e2 then
    ((), type.unit, type.unit)
  else
    ((), e1, e2)

/- `__expr_eliminate_eq`. -/
def eliminateEqPass
    (eq : Expr → Expr → Bool)
    (type : Junction)
    (e1 e2 : Expr) : Expr × Expr :=
  let r := Operands.pairPass (eliminateEqStep eq type) ()
    (e1.operands type) (e2.operands type)
  (type.join r.2.1, type.join r.2.2)

/- `expr_eliminate_eq`, given how operands are compared. -/
def eliminateEqWith
    (eq : Expr → Expr → Bool)
    (e1 e2 : Expr) : Expr × Expr :=
  let r :=
    match e1.junction? with
    | some type => eliminateEqPass eq type e1 e2
    | none => (e1, e2)
  let r :=
    match r.2.junction? with
    | some type =>
        if r.1.junction? = some type then
          r
        else
          eliminateEqPass eq type r.1 r.2
    | none => r
  (exprEliminateYn r.1, exprEliminateYn r.2)

/- Whether both expressions are the same symbol. -/
def sameSymbol : Expr → Expr → Bool
| .symbol s, .symbol t => s == t
| _, _ => false

/- `expr_eq`, with fuel for the nesting of the operands. -/
def exprEqFuel : Nat → Expr → Expr → Bool
| 0, _, _ => false
| n + 1, e1, e2 =>
    match e1, e2 with
    | .equal s t, .equal s' t' => s == s' && t == t'
    | .unequal s t, .unequal s' t' => s == s' && t == t'
    | .symbol s, .symbol s' => s == s'
    | .not a, .not b => exprEqFuel n a b
    | .and a b, .and c d =>
        let r := eliminateEqWith (exprEqFuel n)
          (.and a b) (.and c d)
        sameSymbol r.1 r.2
    | .or a b, .or c d =>
        let r := eliminateEqWith (exprEqFuel n)
          (.or a b) (.or c d)
        sameSymbol r.1 r.2
    | _, _ => false

/- `expr_eq`. -/
def exprEq (e1 e2 : Expr) : Bool :=
  exprEqFuel e1.size e1 e2

/- `expr_eliminate_eq`. -/
def exprEliminateEq (e1 e2 : Expr) : Expr × Expr :=
  eliminateEqWith exprEq e1 e2

/- One pair of operands in `expr_extract_eq`. -/
def extractEqStep
    (type : Junction)
    (ep : Option Expr)
    (e1 e2 : Expr) : Option Expr × Expr × Expr :=
  if exprEq e1 e2 then
    (some (ep.elim e1 (type.alloc · e1)), type.unit, type.unit)
  else
    (ep, e1, e2)

/- `expr_extract_eq_and` and `expr_extract_eq_or`. -/
def exprExtractEq
    (type : Junction)
    (e1 e2 : Expr) : Option Expr × Expr × Expr :=
  let r := Operands.pairPass (extractEqStep type) none
    (e1.operands type) (e2.operands type)
  match r.1 with
  | none => (none, type.join r.2.1, type.join r.2.2)
  | some e =>
      (some e, exprEliminateYn (type.join r.2.1),
        exprEliminateYn (type.join r.2.2))

------------------------------------------------------------
-- The Recursion Ends
------------------------------------------------------------

theorem size_le_of_mem_operands
    {type : Junction}
    {e a : Expr}
    (hMem : a ∈ (e.operands type).leaves) :
    a.size ≤ e.size := by
  have hSelf : ∀ e' : Expr, a ∈ [e'] → a.size ≤ e'.size :=
    fun e' h => Nat.le_of_eq
      (congrArg _ (List.mem_singleton.mp h))
  induction e with
  | symbol _ => exact hSelf _ hMem
  | equal _ _ => exact hSelf _ hMem
  | unequal _ _ => exact hSelf _ hMem
  | not _ _ => exact hSelf _ hMem
  | and b c ihb ihc =>
      cases type with
      | and =>
          rcases List.mem_append.mp hMem with hb | hc
          · exact Nat.le_add_right_of_le (ihb hb)
          · exact Nat.le_add_left_of_le (ihc hc)
      | or => exact hSelf _ hMem
  | or b c ihb ihc =>
      cases type with
      | and => exact hSelf _ hMem
      | or =>
          rcases List.mem_append.mp hMem with hb | hc
          · exact Nat.le_add_right_of_le (ihb hb)
          · exact Nat.le_add_left_of_le (ihc hc)

/- The operands of a node are smaller than it is. -/
theorem size_lt_of_mem_operands
    {type : Junction}
    {b c a : Expr}
    (hMem : a ∈ ((type.alloc b c).operands type).leaves) :
    a.size < b.size + c.size := by
  have hb := b.size_pos
  have hc := c.size_pos
  have hSides : a ∈ (b.operands type).leaves ++
      (c.operands type).leaves := by
    cases type <;> exact hMem
  rcases List.mem_append.mp hSides with h | h
  · have := size_le_of_mem_operands h
    omega
  · have := size_le_of_mem_operands h
    omega

/- Comparisons that agree below a size eliminate alike. -/
theorem eliminateEqPass_congr
    {eq eq' : Expr → Expr → Bool}
    {n : Nat}
    (hAgree : ∀ a b, a.size ≤ n → eq a b = eq' a b)
    (hPos : 0 < n)
    (type : Junction)
    (e1 e2 : Expr)
    (hSmall : ∀ a ∈ (e1.operands type).leaves, a.size ≤ n) :
    eliminateEqPass eq type e1 e2 =
      eliminateEqPass eq' type e1 e2 := by
  have hStep : ∀ s a b, a.size ≤ n →
      eliminateEqStep eq type s a b =
          eliminateEqStep eq' type s a b ∧
        (eliminateEqStep eq type s a b).2.1.size ≤ n := by
    intro s a b hSize
    have hUnit : type.unit.size ≤ n := hPos
    unfold eliminateEqStep
    rw [hAgree a b hSize]
    refine ⟨rfl, ?_⟩
    split
    · exact hSize
    · split
      · exact hUnit
      · exact hSize
  unfold eliminateEqPass
  rw [Operands.pairPass_congr hStep () _ _ hSmall]

/- On two nodes of one type there is only one pass. -/
theorem eliminateEqWith_alloc
    (eq : Expr → Expr → Bool)
    (type : Junction)
    (a b c d : Expr) :
    eliminateEqWith eq (type.alloc a b) (type.alloc c d) =
      let r := eliminateEqPass eq type
        (type.alloc a b) (type.alloc c d)
      (exprEliminateYn r.1, exprEliminateYn r.2) := by
  have hType : ∀ x y, (type.alloc x y).junction? = some type :=
    fun x y => by cases type <;> rfl
  have hNode : ∀ x y,
      ((type.alloc x y).operands type).isNode = true :=
    fun x y => by cases type <;> rfl
  have hWalk :
      (Operands.pairPass (eliminateEqStep eq type) ()
          ((type.alloc a b).operands type)
          ((type.alloc c d).operands type)).2.1.isNode =
        ((type.alloc a b).operands type).isNode ∧
      (Operands.pairPass (eliminateEqStep eq type) ()
          ((type.alloc a b).operands type)
          ((type.alloc c d).operands type)).2.2.isNode =
        ((type.alloc c d).operands type).isNode :=
    Operands.isNode_pairPass () _ _
  have hLeft := type.junction_join_of_isNode
    (hWalk.1.trans (hNode a b))
  have hRight := type.junction_join_of_isNode
    (hWalk.2.trans (hNode c d))
  unfold eliminateEqWith
  simp only [hType]
  simp only [eliminateEqPass, hLeft, hRight, if_true]

theorem eliminateEqWith_congr
    {eq eq' : Expr → Expr → Bool}
    {n : Nat}
    (hAgree : ∀ a b, a.size ≤ n → eq a b = eq' a b)
    (type : Junction)
    (a b c d : Expr)
    (hSize : a.size + b.size ≤ n + 1) :
    eliminateEqWith eq (type.alloc a b) (type.alloc c d) =
      eliminateEqWith eq' (type.alloc a b)
        (type.alloc c d) := by
  have ha := a.size_pos
  have hb := b.size_pos
  rw [eliminateEqWith_alloc, eliminateEqWith_alloc,
    eliminateEqPass_congr hAgree (by omega) type]
  intro x hx
  have := size_lt_of_mem_operands hx
  omega

/- More fuel than the size of an expression is not used. -/
theorem exprEqFuel_of_size_le
    {n m : Nat}
    {e1 : Expr}
    (hn : e1.size ≤ n)
    (hm : e1.size ≤ m)
    (e2 : Expr) :
    exprEqFuel n e1 e2 = exprEqFuel m e1 e2 := by
  induction n generalizing m e1 e2 with
  | zero => exact absurd e1.size_pos (by omega)
  | succ n ih =>
      cases m with
      | zero => exact absurd e1.size_pos (by omega)
      | succ m =>
          have hNodes : ∀ (type : Junction) (a b c d : Expr),
              a.size + b.size ≤ n + 1 →
                a.size + b.size ≤ m + 1 →
              eliminateEqWith (exprEqFuel n)
                  (type.alloc a b) (type.alloc c d) =
                eliminateEqWith (exprEqFuel m)
                  (type.alloc a b) (type.alloc c d) := by
            intro type a b c d hn hm
            refine eliminateEqWith_congr (n := min n m)
              (fun x y h => ?_) type a b c d (by omega)
            exact ih (by omega) (by omega) y
          cases e1 with
          | not a =>
              cases e2 with
              | not b =>
                  exact ih (Nat.le_of_succ_le_succ hn)
                    (Nat.le_of_succ_le_succ hm) b
              | _ => rfl
          | and a b =>
              cases e2 with
              | and c d =>
                  exact congrArg (fun r => sameSymbol r.1 r.2)
                    (hNodes .and a b c d hn hm)
              | _ => rfl
          | or a b =>
              cases e2 with
              | or c d =>
                  exact congrArg (fun r => sameSymbol r.1 r.2)
                    (hNodes .or a b c d hn hm)
              | _ => rfl
          | _ => cases e2 <;> rfl

/- `expr_eq` calls itself as the source does. -/
theorem exprEq_eq (e1 e2 : Expr) :
    exprEq e1 e2 =
      match e1, e2 with
      | .equal s t, .equal s' t' => s == s' && t == t'
      | .unequal s t, .unequal s' t' => s == s' && t == t'
      | .symbol s, .symbol s' => s == s'
      | .not a, .not b => exprEq a b
      | .and a b, .and c d =>
          let r := exprEliminateEq (.and a b) (.and c d)
          sameSymbol r.1 r.2
      | .or a b, .or c d =>
          let r := exprEliminateEq (.or a b) (.or c d)
          sameSymbol r.1 r.2
      | _, _ => false := by
  have hNodes : ∀ (type : Junction) (n : Nat) (a b c d : Expr),
      a.size + b.size = n + 1 →
      eliminateEqWith (exprEqFuel n)
          (type.alloc a b) (type.alloc c d) =
        exprEliminateEq (type.alloc a b) (type.alloc c d) := by
    intro type n a b c d hSize
    refine eliminateEqWith_congr (n := n)
      (fun x y h => ?_) type a b c d (Nat.le_of_eq hSize)
    exact exprEqFuel_of_size_le h (Nat.le_refl _) y
  have hPos : ∀ a b : Expr,
      ∃ n, a.size + b.size = n + 1 := by
    intro a b
    have := a.size_pos
    exact ⟨a.size + b.size - 1, by omega⟩
  unfold exprEq
  cases e1 with
  | and a b =>
      rcases hPos a b with ⟨n, hn⟩
      simp only [Expr.size, hn]
      cases e2 with
      | and c d =>
          exact congrArg (fun r => sameSymbol r.1 r.2)
            (hNodes .and n a b c d hn)
      | _ => rfl
  | or a b =>
      rcases hPos a b with ⟨n, hn⟩
      simp only [Expr.size, hn]
      cases e2 with
      | or c d =>
          exact congrArg (fun r => sameSymbol r.1 r.2)
            (hNodes .or n a b c d hn)
      | _ => rfl
  | _ => cases e2 <;> rfl

------------------------------------------------------------
-- Equal Expressions Have Equal Values
------------------------------------------------------------

namespace Junction

theorem eval_le_eval
    (type : Junction)
    (c : Tristate)
    {a b : Tristate}
    (hLe : a ≤ b) :
    type.eval c a ≤ type.eval c b := by
  revert hLe
  cases type <;> cases a <;> cases b <;> cases c <;> decide

theorem neutral_eval (type : Junction) (a : Tristate) :
    a = type.eval type.neutral a :=
  (Std.LawfulLeftIdentity.left_id a).symm

/- An operand that was taken out does not count. -/
theorem eval_unit
    {v : Values}
    (hBuiltin : ∀ t, v.tri (.builtin t) = t)
    (type : Junction)
    (a : Tristate) :
    a = type.eval a (type.unit.calcValue v) := by
  rw [show type.unit.calcValue v = type.neutral from
    hBuiltin _]
  exact (Std.LawfulRightIdentity.right_id a).symm

end Junction

section Values

variable {v : Values}

/- Whether a comparison only accepts equal values. -/
def SoundFor (v : Values) (eq : Expr → Expr → Bool) : Prop :=
  ∀ e1 e2, eq e1 e2 = true → e1.calcValue v = e2.calcValue v

/- A pass takes the same part out of both expressions. -/
theorem eliminateEqPass_factors
    (hBuiltin : ∀ t, v.tri (.builtin t) = t)
    {eq : Expr → Expr → Bool}
    (hSound : SoundFor v eq)
    (type : Junction)
    (e1 e2 : Expr) :
    ∃ c,
      e1.calcValue v =
          type.eval c
            ((eliminateEqPass eq type e1 e2).1.calcValue v) ∧
        e2.calcValue v =
          type.eval c
            ((eliminateEqPass eq type e1 e2).2.calcValue v) := by
  have hStep : ∀ s a b, ∃ c,
      a.calcValue v =
          type.eval c
            ((eliminateEqStep eq type s a b).2.1.calcValue v) ∧
        b.calcValue v =
          type.eval c
            ((eliminateEqStep eq type s a b).2.2.calcValue
              v) := by
    intro s a b
    have hKeep : ∀ x, x = type.eval type.neutral x :=
      type.neutral_eval
    unfold eliminateEqStep
    split
    · exact ⟨type.neutral, hKeep _, hKeep _⟩
    · split
      · rename_i hEq
        refine ⟨a.calcValue v,
          Junction.eval_unit hBuiltin _ _, ?_⟩
        rw [hSound a b hEq]
        exact Junction.eval_unit hBuiltin _ _
      · exact ⟨type.neutral, hKeep _, hKeep _⟩
  have hWalk := Operands.pairPass_factors type.eval hStep ()
    (e1.operands type) (e2.operands type)
  simp only [← Junction.calcValue_join,
    Junction.join_operands] at hWalk
  exact hWalk

/- What is left of two expressions is ordered as they are. -/
theorem eliminateEqPass_reflects
    (hBuiltin : ∀ t, v.tri (.builtin t) = t)
    {eq : Expr → Expr → Bool}
    (hSound : SoundFor v eq)
    (type : Junction)
    (e1 e2 : Expr) :
    let r := eliminateEqPass eq type e1 e2
    (r.1.calcValue v ≤ r.2.calcValue v →
        e1.calcValue v ≤ e2.calcValue v) ∧
      (r.2.calcValue v ≤ r.1.calcValue v →
        e2.calcValue v ≤ e1.calcValue v) := by
  rcases eliminateEqPass_factors hBuiltin hSound type e1 e2
    with ⟨c, h1, h2⟩
  rw [h1, h2]
  exact ⟨type.eval_le_eval c, type.eval_le_eval c⟩

theorem eliminateEqWith_reflects
    (hBuiltin : ∀ t, v.tri (.builtin t) = t)
    {eq : Expr → Expr → Bool}
    (hSound : SoundFor v eq)
    (e1 e2 : Expr) :
    let r := eliminateEqWith eq e1 e2
    (r.1.calcValue v ≤ r.2.calcValue v →
        e1.calcValue v ≤ e2.calcValue v) ∧
      (r.2.calcValue v ≤ r.1.calcValue v →
        e2.calcValue v ≤ e1.calcValue v) := by
  unfold eliminateEqWith
  simp only [calcValue_exprEliminateYn hBuiltin]
  have hSecond := fun (type : Junction) (r : Expr × Expr) =>
    eliminateEqPass_reflects hBuiltin hSound type r.1 r.2
  cases e1.junction? with
  | none =>
      simp only
      split
      · split
        · exact ⟨id, id⟩
        · exact hSecond _ (e1, e2)
      · exact ⟨id, id⟩
  | some type =>
      have hFirst := hSecond type (e1, e2)
      simp only at hFirst ⊢
      split
      · split
        · exact hFirst
        · have hNext := hSecond ‹Junction›
            (eliminateEqPass eq type e1 e2)
          exact ⟨fun h => hFirst.1 (hNext.1 h),
            fun h => hFirst.2 (hNext.2 h)⟩
      · exact hFirst

theorem exprEqFuel_sound
    (hBuiltin : ∀ t, v.tri (.builtin t) = t)
    (n : Nat) :
    SoundFor v (exprEqFuel n) := by
  induction n with
  | zero => intro e1 e2 h; cases h
  | succ n ih =>
      have hNodes : ∀ e1 e2,
          sameSymbol (eliminateEqWith (exprEqFuel n) e1 e2).1
            (eliminateEqWith (exprEqFuel n) e1 e2).2 = true →
          e1.calcValue v = e2.calcValue v := by
        intro e1 e2 h
        have hOrder := eliminateEqWith_reflects hBuiltin ih e1 e2
        have hSame : (eliminateEqWith (exprEqFuel n) e1 e2).1 =
            (eliminateEqWith (exprEqFuel n) e1 e2).2 := by
          revert h
          generalize eliminateEqWith (exprEqFuel n) e1 e2 = r
          rcases r with ⟨a, b⟩
          cases a <;> cases b <;> simp [sameSymbol]
        exact le_antisymm
          (hOrder.1 (le_of_eq (congrArg _ hSame)))
          (hOrder.2 (le_of_eq (congrArg _ hSame.symm)))
      intro e1 e2 h
      cases e1 with
      | symbol s => cases e2 <;> simp_all [exprEqFuel]
      | equal s t => cases e2 <;> simp_all [exprEqFuel]
      | unequal s t => cases e2 <;> simp_all [exprEqFuel]
      | not a =>
          cases e2 with
          | not b => exact congrArg Tristate.not (ih a b h)
          | _ => cases h
      | and a b =>
          cases e2 with
          | and c d => exact hNodes _ _ h
          | _ => cases h
      | or a b =>
          cases e2 with
          | or c d => exact hNodes _ _ h
          | _ => cases h

/- Expressions that `expr_eq` accepts have the same value. -/
theorem calcValue_eq_of_exprEq
    (hBuiltin : ∀ t, v.tri (.builtin t) = t) :
    SoundFor v exprEq :=
  fun e1 e2 h => exprEqFuel_sound hBuiltin e1.size e1 e2 h

/- An expression that nothing is left of lies above. -/
theorem calcValue_le_of_exprEliminateEq
    (hBuiltin : ∀ t, v.tri (.builtin t) = t)
    {e1 e2 : Expr}
    (hYes : (exprEliminateEq e1 e2).2 =
      .symbol (.builtin .yes)) :
    e1.calcValue v ≤ e2.calcValue v := by
  have hOrder := eliminateEqWith_reflects hBuiltin
    (calcValue_eq_of_exprEq hBuiltin) e1 e2
  apply hOrder.1
  rw [show (eliminateEqWith exprEq e1 e2).2 =
    .symbol (.builtin .yes) from hYes]
  rw [show (Expr.symbol (.builtin .yes)).calcValue v = .yes from
    hBuiltin .yes]
  exact Tristate.le_yes _

/- What `expr_extract_eq` takes out, it takes out of both. -/
theorem exprExtractEq_factors
    (hBuiltin : ∀ t, v.tri (.builtin t) = t)
    (type : Junction)
    (e1 e2 : Expr) :
    ∃ c,
      e1.calcValue v =
          type.eval c
            ((exprExtractEq type e1 e2).2.1.calcValue v) ∧
        e2.calcValue v =
          type.eval c
            ((exprExtractEq type e1 e2).2.2.calcValue v) := by
  have hStep : ∀ s a b, ∃ c,
      a.calcValue v =
          type.eval c
            ((extractEqStep type s a b).2.1.calcValue v) ∧
        b.calcValue v =
          type.eval c
            ((extractEqStep type s a b).2.2.calcValue v) := by
    intro s a b
    unfold extractEqStep
    split
    · rename_i hEq
      refine ⟨a.calcValue v, Junction.eval_unit hBuiltin _ _, ?_⟩
      rw [calcValue_eq_of_exprEq hBuiltin a b hEq]
      exact Junction.eval_unit hBuiltin _ _
    · exact ⟨type.neutral, type.neutral_eval _,
        type.neutral_eval _⟩
  have hWalk := Operands.pairPass_factors type.eval hStep none
    (e1.operands type) (e2.operands type)
  simp only [← Junction.calcValue_join,
    Junction.join_operands] at hWalk
  unfold exprExtractEq
  simp only
  split
  · exact hWalk
  · simpa only [calcValue_exprEliminateYn hBuiltin] using hWalk

/-
  `expr_eliminate_eq` takes only what both expressions have:
  what it leaves is ordered under every assignment as the
  expressions were, so that a rest `y` lies above, and
  `expr_eq` accepts only expressions of the same value.
-/
theorem exprEliminateEq_sound
    (hBuiltin : ∀ t, v.tri (.builtin t) = t)
    (e1 e2 : Expr) :
    let rest := exprEliminateEq e1 e2
    (rest.1.calcValue v ≤ rest.2.calcValue v →
        e1.calcValue v ≤ e2.calcValue v) ∧
      (rest.2.calcValue v ≤ rest.1.calcValue v →
        e2.calcValue v ≤ e1.calcValue v) ∧
      (rest.2 = .symbol (.builtin .yes) →
        e1.calcValue v ≤ e2.calcValue v) ∧
      (exprEq e1 e2 = true → e1.calcValue v = e2.calcValue v) := by
  intro rest
  have hOrder := eliminateEqWith_reflects hBuiltin
    (calcValue_eq_of_exprEq hBuiltin) e1 e2
  exact ⟨hOrder.1, hOrder.2,
    calcValue_le_of_exprEliminateEq hBuiltin,
    calcValue_eq_of_exprEq hBuiltin e1 e2⟩

end Values

/- `A && B` lies below `B`, and is `B && A`. -/
theorem exprEliminateEq_sound_and :
    let a : Expr := .symbol (.named "A".toList)
    let b : Expr := .symbol (.named "B".toList)
    let v := Values.setting ["B".toList]
    (exprEliminateEq (.and a b) b).2 =
        .symbol (.builtin .yes) ∧
      (Expr.and a b).calcValue v ≤ b.calcValue v ∧
      exprEq (.and a b) (.and b a) = true ∧
      (Expr.and a b).calcValue v = (Expr.and b a).calcValue v := by
  intro a b v
  have hRest : (exprEliminateEq (.and a b) b).2 =
      .symbol (.builtin .yes) := by decide +kernel
  have hEq : exprEq (.and a b) (.and b a) = true := by
    decide +kernel
  exact ⟨hRest,
    (exprEliminateEq_sound (v := v) (fun _ => rfl)
      (.and a b) b).2.2.1 hRest,
    hEq,
    (exprEliminateEq_sound (v := v) (fun _ => rfl)
      (.and a b) (.and b a)).2.2.2 hEq⟩

end Mkrootfs
