import Mkrootfs.Kconfig.ExprTransform

/-
  The questions that `menu_finalize` asks about conditions
  (`expr.c`): comparisons with `n`, symbols that a condition
  mentions, and symbols that it needs.

  Main declarations:
    * `exprTransBool`, `exprTransCompare`
    * `exprContainsSymbol`, `exprDependsSymbol`
    * `calcValue_exprTransCompare`
-/

------------------------------------------------------------
-- Conditions Of Symbols That Are Not Tristate
------------------------------------------------------------

namespace Mkrootfs

/- `expr_trans_bool`: `FOO!=n` becomes `FOO`. -/
def exprTransBool (types : SymId → SymbolType) : Expr → Expr
| .and a b =>
    .and (exprTransBool types a) (exprTransBool types b)
| .or a b =>
    .or (exprTransBool types a) (exprTransBool types b)
| .not a => .not (exprTransBool types a)
| .unequal s t =>
    if types s = .tristate ∧ t = .builtin .no then
      .symbol s
    else
      .unequal s t
| e => e

/-
  It lowers `y` to `m` at most, in an expression whose
  negations stand at the symbols.
-/
theorem calcValue_exprTransBool
    {types : SymId → SymbolType}
    {v : Values}
    (hTyped : v.Typed types)
    {types' : SymId → SymbolType}
    {e : Expr}
    (hNormal : Transformed types' e) :
    (exprTransBool types e).calcValue v ≤ e.calcValue v ∧
      ((exprTransBool types e).calcValue v = .no →
        e.calcValue v = .no) := by
  induction e with
  | symbol s => exact ⟨le_refl _, id⟩
  | equal s t => exact ⟨le_refl _, id⟩
  | unequal s t =>
      unfold exprTransBool
      split
      · rename_i hType
        rw [hType.2]
        simp only [Expr.calcValue]
        rw [hTyped.strTri s (Or.inr hType.1),
          hTyped.builtinStr]
        cases v.tri s <;> decide
      · exact ⟨le_refl _, id⟩
  | not a _ =>
      cases a with
      | symbol s => exact ⟨le_refl _, id⟩
      | _ => exact hNormal.elim
  | and a b iha ihb =>
      have ha := iha hNormal.1
      have hb := ihb hNormal.2
      simp only [exprTransBool, Expr.calcValue]
      revert ha hb
      generalize (exprTransBool types a).calcValue v = a'
      generalize (exprTransBool types b).calcValue v = b'
      generalize a.calcValue v = a
      generalize b.calcValue v = b
      cases a <;> cases b <;> cases a' <;> cases b' <;> decide
  | or a b iha ihb =>
      have ha := iha hNormal.1
      have hb := ihb hNormal.2
      simp only [exprTransBool, Expr.calcValue]
      revert ha hb
      generalize (exprTransBool types a).calcValue v = a'
      generalize (exprTransBool types b).calcValue v = b'
      generalize a.calcValue v = a
      generalize b.calcValue v = b
      cases a <;> cases b <;> cases a' <;> cases b' <;> decide

/- It takes no other symbols for tristates. -/
theorem decides_exprTransBool
    {v : Values}
    (types : SymId → SymbolType)
    {e : Expr}
    (hDecides : v.Decides e) :
    v.Decides (exprTransBool types e) := by
  induction e with
  | symbol s => exact hDecides
  | equal s t => exact hDecides
  | unequal s t =>
      unfold exprTransBool
      split
      · rename_i hType
        rw [hType.2] at hDecides
        exact hDecides
      · exact hDecides
  | not a iha => exact iha hDecides
  | and a b iha ihb =>
      have hBoth := List.forall_mem_append.mp hDecides
      exact List.forall_mem_append.mpr ⟨iha hBoth.1, ihb hBoth.2⟩
  | or a b iha ihb =>
      have hBoth := List.forall_mem_append.mp hDecides
      exact List.forall_mem_append.mpr ⟨iha hBoth.1, ihb hBoth.2⟩

theorem wellNamed_exprTransBool
    (types : SymId → SymbolType)
    {e : Expr}
    (hNamed : e.WellNamed) :
    (exprTransBool types e).WellNamed := by
  induction e with
  | symbol s => exact hNamed
  | equal s t => exact hNamed
  | unequal s t =>
      unfold exprTransBool
      split
      · exact fun x hx => hNamed x
          (List.mem_singleton.mp hx ▸ List.mem_cons_self)
      · exact hNamed
  | not a iha => exact iha hNamed
  | and a b iha ihb =>
      have hBoth := List.forall_mem_append.mp hNamed
      exact List.forall_mem_append.mpr ⟨iha hBoth.1, ihb hBoth.2⟩
  | or a b iha ihb =>
      have hBoth := List.forall_mem_append.mp hNamed
      exact List.forall_mem_append.mpr ⟨iha hBoth.1, ihb hBoth.2⟩

theorem transformed_exprTransBool
    (types : SymId → SymbolType)
    {types' : SymId → SymbolType}
    {e : Expr}
    (hNormal : Transformed types' e) :
    Transformed types' (exprTransBool types e) := by
  induction e with
  | symbol s => trivial
  | equal s t => exact hNormal
  | unequal s t =>
      unfold exprTransBool
      split
      · trivial
      · exact hNormal
  | not a _ =>
      cases a with
      | symbol s => exact hNormal
      | _ => exact hNormal.elim
  | and a b iha ihb => exact ⟨iha hNormal.1, ihb hNormal.2⟩
  | or a b iha ihb => exact ⟨iha hNormal.1, ihb hNormal.2⟩

------------------------------------------------------------
-- Comparisons With A Constant
------------------------------------------------------------

/- `E_EQUAL` and `E_UNEQUAL`. -/
inductive Comparison where
| equal
| unequal
deriving DecidableEq, Repr

namespace Comparison

/- `expr_alloc_comp`. -/
def alloc : Comparison → SymId → SymId → Expr
| equal => .equal
| unequal => .unequal

def opposite : Comparison → Comparison
| equal => unequal
| unequal => equal

/- A comparison that was built as an equality. -/
def finish : Comparison → Expr → Expr
| equal, e => e
| unequal, e => .not e

/- The value of a comparison. -/
def eval (type : Comparison) (a b : Tristate) : Tristate :=
  match type with
  | equal => if a = b then .yes else .no
  | unequal => if a = b then .no else .yes

end Comparison

/-
  `expr_trans_compare` of an expression that is there, with
  one of `y`, `m` and `n`.
-/
def Expr.transCompare (c : Tristate) : Comparison → Expr → Expr
| type, .and a b =>
    type.finish
      (match c with
      | .yes =>
          .and (a.transCompare c .equal) (b.transCompare c .equal)
      | .no =>
          .or (a.transCompare c .equal) (b.transCompare c .equal)
      | .mod => .and a b)
| type, .or a b =>
    type.finish
      (match c with
      | .yes =>
          .or (a.transCompare c .equal) (b.transCompare c .equal)
      | .no =>
          .and (a.transCompare c .equal) (b.transCompare c .equal)
      | .mod => .or a b)
| type, .not a => a.transCompare c type.opposite
| .equal, .equal s t =>
    match c with
    | .yes => .equal s t
    | .mod => .symbol (.builtin .no)
    | .no => .not (.equal s t)
| .unequal, .equal s t =>
    match c with
    | .yes => .not (.equal s t)
    | .mod => .symbol (.builtin .yes)
    | .no => .equal s t
| .equal, .unequal s t =>
    match c with
    | .yes => .unequal s t
    | .mod => .symbol (.builtin .no)
    | .no => .not (.unequal s t)
| .unequal, .unequal s t =>
    match c with
    | .yes => .not (.unequal s t)
    | .mod => .symbol (.builtin .yes)
    | .no => .unequal s t
| type, .symbol s => type.alloc s (.builtin c)

/- `expr_trans_compare`. -/
def exprTransCompare
    (c : Tristate)
    (type : Comparison) : Option Expr → Expr
| none => type.finish (.symbol (.builtin c))
| some e => e.transCompare c type

section Decided

variable {v : Values}

theorem Comparison.calcValue_finish
    (type : Comparison)
    {e : Expr}
    {a c : Tristate}
    (hEqual : e.calcValue v = Comparison.equal.eval a c) :
    (type.finish e).calcValue v = type.eval a c := by
  cases type with
  | equal => exact hEqual
  | unequal =>
      simp only [finish, Expr.calcValue, hEqual, eval]
      split <;> rfl

/- Without `m`, a comparison with `y` or `n` is what it says. -/
theorem calcValue_transCompare
    (hBuiltin : ∀ c, v.str (.builtin c) = c.text)
    {c : Tristate}
    (hc : c ≠ .mod)
    (type : Comparison)
    {e : Expr}
    (hDecides : v.Decides e) :
    (e.transCompare c type).calcValue v =
      type.eval (e.calcValue v) c := by
  induction e generalizing type with
  | symbol s =>
      have hStr := (hDecides s List.mem_cons_self).2
      have hIff : v.str s = v.str (.builtin c) ↔ v.tri s = c := by
        rw [hStr, hBuiltin]
        exact Tristate.text_injective.eq_iff
      cases type <;>
        simp only [Expr.transCompare, Comparison.alloc,
          Expr.calcValue, Comparison.eval] <;>
        by_cases hEq : v.tri s = c <;> simp [hIff, hEq]
  | equal s t =>
      cases type <;> cases c <;>
        simp only [Expr.transCompare, Expr.calcValue] <;>
        first
          | exact absurd rfl hc
          | split <;> rfl
  | unequal s t =>
      cases type <;> cases c <;>
        simp only [Expr.transCompare, Expr.calcValue] <;>
        first
          | exact absurd rfl hc
          | split <;> rfl
  | not a iha =>
      have ha : a.calcValue v ≠ .mod :=
        Values.Decides.ne_mod hDecides
      rw [Expr.transCompare, iha type.opposite hDecides,
        Expr.calcValue]
      revert ha hc
      cases a.calcValue v <;> cases c <;> cases type <;> decide
  | and a b iha ihb =>
      have hBoth := List.forall_mem_append.mp hDecides
      have hLeft : v.Decides a := hBoth.1
      have hRight : v.Decides b := hBoth.2
      have ha := hLeft.ne_mod
      have hb := hRight.ne_mod
      simp only [Expr.transCompare]
      apply type.calcValue_finish
      cases c with
      | mod => exact absurd rfl hc
      | _ =>
          simp only [Expr.calcValue, iha _ hLeft, ihb _ hRight]
          revert ha hb
          cases a.calcValue v <;> cases b.calcValue v <;> decide
  | or a b iha ihb =>
      have hBoth := List.forall_mem_append.mp hDecides
      have hLeft : v.Decides a := hBoth.1
      have hRight : v.Decides b := hBoth.2
      have ha := hLeft.ne_mod
      have hb := hRight.ne_mod
      simp only [Expr.transCompare]
      apply type.calcValue_finish
      cases c with
      | mod => exact absurd rfl hc
      | _ =>
          simp only [Expr.calcValue, iha _ hLeft, ihb _ hRight]
          revert ha hb
          cases a.calcValue v <;> cases b.calcValue v <;> decide

theorem calcValue_exprTransCompare
    (hTri : ∀ c, v.tri (.builtin c) = c)
    (hStr : ∀ c, v.str (.builtin c) = c.text)
    {c : Tristate}
    (hc : c ≠ .mod)
    (type : Comparison)
    {e : Option Expr}
    (hDecides : ∀ e', e = some e' → v.Decides e') :
    (exprTransCompare c type e).calcValue v =
      type.eval (exprCalcValue v e) c := by
  cases e with
  | none =>
      apply type.calcValue_finish
      simp only [Expr.calcValue, hTri, exprCalcValue]
      revert hc
      cases c <;> decide
  | some e =>
      exact calcValue_transCompare hStr hc type
        (hDecides e rfl)

/- Comparisons bring in no symbol but the constant. -/
theorem wellNamed_transCompare
    (c : Tristate)
    (type : Comparison)
    {e : Expr}
    (hNamed : e.WellNamed) :
    (e.transCompare c type).WellNamed := by
  have hFinish : ∀ {type : Comparison} {e : Expr},
      e.WellNamed → (type.finish e).WellNamed := by
    intro type e h
    cases type <;> exact h
  induction e generalizing type with
  | symbol s =>
      intro x hx
      cases type <;>
        · rcases List.mem_pair.mp hx with rfl | rfl
          · exact hNamed x List.mem_cons_self
          · trivial
  | equal s t =>
      cases type <;> cases c <;>
        first
          | exact hNamed
          | exact Expr.wellNamed_builtin _
  | unequal s t =>
      cases type <;> cases c <;>
        first
          | exact hNamed
          | exact Expr.wellNamed_builtin _
  | not a iha => exact iha type.opposite hNamed
  | and a b iha ihb =>
      have hBoth := List.forall_mem_append.mp hNamed
      have hAll := List.forall_mem_append.mpr
        ⟨iha .equal hBoth.1, ihb .equal hBoth.2⟩
      apply hFinish
      cases c with
      | mod => exact hNamed
      | _ => exact hAll
  | or a b iha ihb =>
      have hBoth := List.forall_mem_append.mp hNamed
      have hAll := List.forall_mem_append.mpr
        ⟨iha .equal hBoth.1, ihb .equal hBoth.2⟩
      apply hFinish
      cases c with
      | mod => exact hNamed
      | _ => exact hAll

end Decided

------------------------------------------------------------
-- Symbols Of A Condition
------------------------------------------------------------

/- `expr_contains_symbol` of an expression that is there. -/
def Expr.contains (sym : SymId) : Expr → Bool
| .and a b => a.contains sym || b.contains sym
| .or a b => a.contains sym || b.contains sym
| .symbol s => s == sym
| .equal s t => s == sym || t == sym
| .unequal s t => s == sym || t == sym
| .not a => a.contains sym

/- `expr_depends_symbol` of an expression that is there. -/
def Expr.depends (sym : SymId) : Expr → Bool
| .and a b => a.depends sym || b.depends sym
| .symbol s => s == sym
| .equal s t =>
    s == sym && (t == .builtin .yes || t == .builtin .mod)
| .unequal s t => s == sym && t == .builtin .no
| _ => false

/- `expr_contains_symbol`. -/
def exprContainsSymbol (dep : Option Expr) (sym : SymId) :
    Bool :=
  dep.elim false (Expr.contains sym)

/- `expr_depends_symbol`. -/
def exprDependsSymbol (dep : Option Expr) (sym : SymId) :
    Bool :=
  dep.elim false (Expr.depends sym)

/- A condition that depends on a symbol fails at its `n`. -/
theorem Expr.calcValue_eq_no_of_depends
    {v : Values}
    (hBuiltin : ∀ c, v.str (.builtin c) = c.text)
    {sym : SymId}
    {e : Expr}
    (hDecides : v.Decides e)
    (hDepends : e.depends sym = true)
    (hNo : v.tri sym = .no) :
    e.calcValue v = .no := by
  induction e with
  | symbol s =>
      rw [beq_iff_eq.mp hDepends]
      exact hNo
  | equal s t =>
      simp only [depends, Bool.and_eq_true, Bool.or_eq_true,
        beq_iff_eq] at hDepends
      rcases hDepends with ⟨rfl, rfl | rfl⟩ <;>
        simp only [calcValue, hNo, hBuiltin,
          (hDecides s List.mem_cons_self).2] <;> decide
  | unequal s t =>
      simp only [depends, Bool.and_eq_true,
        beq_iff_eq] at hDepends
      rcases hDepends with ⟨rfl, rfl⟩
      simp only [calcValue, hNo, hBuiltin,
        (hDecides s List.mem_cons_self).2]
      decide
  | not a _ => cases hDepends
  | and a b iha ihb =>
      have hBoth := List.forall_mem_append.mp hDecides
      rw [calcValue, Tristate.and_eq_no_iff]
      exact (Bool.or_eq_true_iff.mp hDepends).imp
        (iha hBoth.1) (ihb hBoth.2)
  | or a b _ _ => cases hDepends

end Mkrootfs
