import Mathlib.Order.Basic
import Mkrootfs.Library.Operands
import Mkrootfs.Kconfig.WriteDep

/-
  What the rewritings of `expr.c` are measured by: the values
  of an expression under all assignments that its symbols can
  have.

  `m` counts as undecided.  Some rewritings keep only the
  values `y` and `n`, and these compose.

  Main declarations:
    * `Values.Typed`
    * `Tristate.Kept`
    * `Junction`, `Expr.operands`
-/

------------------------------------------------------------
-- Tristates
------------------------------------------------------------

namespace Mkrootfs

namespace Tristate

theorem toNat_injective : Function.Injective toNat := by
  intro a b h
  cases a <;> cases b <;> first | rfl | cases h

/- The order that `EXPR_AND` and `EXPR_OR` compare by. -/
instance : PartialOrder Tristate :=
  PartialOrder.lift toNat toNat_injective

instance : DecidableLE Tristate :=
  fun a b => inferInstanceAs (Decidable (a.toNat ≤ b.toNat))

/- The name of the symbol with a value. -/
def text : Tristate → Text
| no => ['n']
| mod => ['m']
| yes => ['y']

theorem text_injective : Function.Injective text := by
  intro a b h
  cases a <;> cases b <;> first | rfl | cases h

theorem le_yes (a : Tristate) : a ≤ yes := by
  cases a <;> decide

theorem no_le (a : Tristate) : no ≤ a := by
  cases a <;> decide

theorem and_le_left (a b : Tristate) : a.and b ≤ a := by
  cases a <;> cases b <;> decide

theorem and_le_right (a b : Tristate) : a.and b ≤ b := by
  cases a <;> cases b <;> decide

theorem or_le
    {a b c : Tristate}
    (ha : a ≤ c)
    (hb : b ≤ c) :
    a.or b ≤ c := by
  revert ha hb
  cases a <;> cases b <;> cases c <;> decide

@[simp] theorem yes_and (a : Tristate) : yes.and a = a := by
  cases a <;> rfl

@[simp] theorem and_yes (a : Tristate) : a.and yes = a := by
  cases a <;> rfl

@[simp] theorem no_and (a : Tristate) : no.and a = no := by
  cases a <;> rfl

@[simp] theorem and_no (a : Tristate) : a.and no = no := by
  cases a <;> rfl

@[simp] theorem yes_or (a : Tristate) : yes.or a = yes := by
  cases a <;> rfl

@[simp] theorem or_yes (a : Tristate) : a.or yes = yes := by
  cases a <;> rfl

@[simp] theorem no_or (a : Tristate) : no.or a = a := by
  cases a <;> rfl

@[simp] theorem or_no (a : Tristate) : a.or no = a := by
  cases a <;> rfl

@[simp] theorem not_not (a : Tristate) : a.not.not = a := by
  cases a <;> rfl

theorem and_comm (a b : Tristate) : a.and b = b.and a := by
  cases a <;> cases b <;> rfl

theorem not_and (a b : Tristate) :
    (a.and b).not = a.not.or b.not := by
  cases a <;> cases b <;> rfl

theorem not_or (a b : Tristate) :
    (a.or b).not = a.not.and b.not := by
  cases a <;> cases b <;> rfl

/-
  `b` has the value of `a`, unless that is `m`.
-/
def Kept (a b : Tristate) : Prop :=
  a ≠ mod → b = a

instance (a b : Tristate) : Decidable (Kept a b) :=
  inferInstanceAs (Decidable (a ≠ mod → b = a))

namespace Kept

theorem refl (a : Tristate) : Kept a a :=
  fun _ => rfl

theorem of_eq {a b : Tristate} (h : b = a) : Kept a b :=
  fun _ => h

theorem trans
    {a b c : Tristate}
    (hab : Kept a b)
    (hbc : Kept b c) :
    Kept a c := by
  intro ha
  have hb : b = a := hab ha
  subst hb
  exact hbc ha

theorem and
    {a b c d : Tristate}
    (hab : Kept a b)
    (hcd : Kept c d) :
    Kept (a.and c) (b.and d) := by
  revert hab hcd
  cases a <;> cases b <;> cases c <;> cases d <;> decide

theorem or
    {a b c d : Tristate}
    (hab : Kept a b)
    (hcd : Kept c d) :
    Kept (a.or c) (b.or d) := by
  revert hab hcd
  cases a <;> cases b <;> cases c <;> cases d <;> decide

end Kept

end Tristate

------------------------------------------------------------
-- Assignments
------------------------------------------------------------

/-
  The values that symbols of these types can have: `y`, `m`
  and `n` have their own, a quoted word is its own string, a
  boolean is not `m`, and the string of a boolean or tristate
  is the name of its value.
-/
structure Values.Typed
    (types : SymId → SymbolType)
    (v : Values) : Prop where
  builtinTri : ∀ t, v.tri (.builtin t) = t
  builtinStr : ∀ t, v.str (.builtin t) = t.text
  constStr : ∀ text, v.str (.const text) = text
  boolean : ∀ s, types s = .boolean → v.tri s ≠ .mod
  strTri : ∀ s, types s = .boolean ∨ types s = .tristate →
    v.str s = (v.tri s).text

/- Types under which the options of a tree are booleans. -/
def optionTypes : SymId → SymbolType
| .named _ => .boolean
| _ => .unknown

/- The assignment that sets just these options. -/
def Values.setting (names : List Text) : Values where
  tri := fun s =>
    match s with
    | .builtin t => t
    | .named name => if name ∈ names then .yes else .no
    | _ => .no
  str := fun s =>
    match s with
    | .builtin t => t.text
    | .const text => text
    | .named name =>
        (if name ∈ names then Tristate.yes else .no).text
    | _ => Tristate.no.text

theorem Values.setting_typed (names : List Text) :
    (setting names).Typed optionTypes := by
  refine ⟨fun _ => rfl, fun _ => rfl, fun _ => rfl, ?_, ?_⟩
  · intro s hType
    cases s with
    | named name =>
        simp only [setting]
        split <;> decide
    | _ => cases hType
  · intro s hType
    cases s with
    | named name => rfl
    | _ => rcases hType with h | h <;> cases h

/- `sym_lookup` finds `y`, `m` and `n` for such words. -/
def SymId.WellNamed : SymId → Prop
| .const text => ∀ t : Tristate, text ≠ t.text
| _ => True

/- A property of all that `E_AND` and `E_OR` connect. -/
def Expr.Every (P : Expr → Prop) : Expr → Prop
| .and a b => a.Every P ∧ b.Every P
| .or a b => a.Every P ∧ b.Every P
| e => P e

/- An expression over symbols as `sym_lookup` finds them. -/
def Expr.WellNamed (e : Expr) : Prop :=
  ∀ s ∈ e.syms, s.WellNamed

theorem Expr.wellNamed_iff (e : Expr) :
    e.WellNamed ↔ e.Every Expr.WellNamed := by
  induction e with
  | symbol _ => rfl
  | equal _ _ => rfl
  | unequal _ _ => rfl
  | not _ _ => rfl
  | and a b iha ihb =>
      simp [Expr.Every, ← iha, ← ihb, Expr.WellNamed,
        Expr.syms, or_imp, forall_and]
  | or a b iha ihb =>
      simp [Expr.Every, ← iha, ← ihb, Expr.WellNamed,
        Expr.syms, or_imp, forall_and]

/-
  The symbols that an expression takes for booleans or
  tristates: they stand alone, or beside `y`, `m` or `n`.
-/
def Expr.tristateSyms : Expr → List SymId
| .symbol s => [s]
| .equal s (.builtin _) => [s]
| .equal _ _ => []
| .unequal s (.builtin _) => [s]
| .unequal _ _ => []
| .not e => e.tristateSyms
| .and a b => a.tristateSyms ++ b.tristateSyms
| .or a b => a.tristateSyms ++ b.tristateSyms

/-
  Assignments under which these symbols are booleans or
  tristates indeed, and none of them is `m`.
-/
def Values.Decides (v : Values) (e : Expr) : Prop :=
  ∀ s ∈ e.tristateSyms,
    v.tri s ≠ .mod ∧ v.str s = (v.tri s).text

theorem Values.decides_iff (v : Values) (e : Expr) :
    v.Decides e ↔ e.Every v.Decides := by
  induction e with
  | symbol _ => rfl
  | equal _ _ => rfl
  | unequal _ _ => rfl
  | not _ _ => rfl
  | and a b iha ihb =>
      simp only [Expr.Every, ← iha, ← ihb, Decides,
        Expr.tristateSyms, List.forall_mem_append]
  | or a b iha ihb =>
      simp only [Expr.Every, ← iha, ← ihb, Decides,
        Expr.tristateSyms, List.forall_mem_append]

/- Such an assignment decides the expression. -/
theorem Values.Decides.ne_mod
    {v : Values}
    {e : Expr}
    (hDecides : v.Decides e) :
    e.calcValue v ≠ .mod := by
  induction e with
  | symbol s => exact (hDecides s List.mem_cons_self).1
  | equal s t =>
      simp only [Expr.calcValue]
      split <;> decide
  | unequal s t =>
      simp only [Expr.calcValue]
      split <;> decide
  | not a iha =>
      have ha := iha hDecides
      simp only [Expr.calcValue]
      revert ha
      cases a.calcValue v <;> decide
  | and a b iha ihb =>
      have hBoth := List.forall_mem_append.mp hDecides
      have ha := iha hBoth.1
      have hb := ihb hBoth.2
      simp only [Expr.calcValue]
      revert ha hb
      cases a.calcValue v <;> cases b.calcValue v <;> decide
  | or a b iha ihb =>
      have hBoth := List.forall_mem_append.mp hDecides
      have ha := iha hBoth.1
      have hb := ihb hBoth.2
      simp only [Expr.calcValue]
      revert ha hb
      cases a.calcValue v <;> cases b.calcValue v <;> decide

/- `y` and `n` are decided. -/
theorem Values.Typed.decides_builtin
    {types : SymId → SymbolType}
    {v : Values}
    (hTyped : v.Typed types)
    {c : Tristate}
    (hc : c ≠ .mod) :
    v.Decides (.symbol (.builtin c)) := by
  intro s hs
  rw [List.mem_singleton.mp hs, hTyped.builtinTri,
    hTyped.builtinStr]
  exact ⟨hc, rfl⟩

/- Constant symbols are told apart by their strings. -/
theorem Values.Typed.str_ne_of_const
    {types : SymId → SymbolType}
    {v : Values}
    (hTyped : v.Typed types)
    {s t : SymId}
    (hs : s.isConst = true)
    (ht : t.isConst = true)
    (hsNamed : s.WellNamed)
    (htNamed : t.WellNamed)
    (hNe : s ≠ t) :
    v.str s ≠ v.str t := by
  intro hEq
  cases s with
  | builtin a =>
      cases t with
      | builtin b =>
          rw [hTyped.builtinStr, hTyped.builtinStr] at hEq
          exact hNe (congrArg _ (Tristate.text_injective hEq))
      | const text =>
          rw [hTyped.builtinStr, hTyped.constStr] at hEq
          exact htNamed a hEq.symm
      | named _ => cases ht
      | choice _ => cases ht
      | modules => cases ht
  | const text =>
      cases t with
      | builtin b =>
          rw [hTyped.builtinStr, hTyped.constStr] at hEq
          exact hsNamed b hEq
      | const other =>
          rw [hTyped.constStr, hTyped.constStr] at hEq
          exact hNe (congrArg _ hEq)
      | named _ => cases ht
      | choice _ => cases ht
      | modules => cases ht
  | named _ => cases hs
  | choice _ => cases hs
  | modules => cases hs

------------------------------------------------------------
-- Conjunctions And Disjunctions
------------------------------------------------------------

/- The node types `E_AND` and `E_OR`. -/
inductive Junction where
| and
| or
deriving DecidableEq, Repr

namespace Junction

/- `expr_alloc_two`. -/
def alloc : Junction → Expr → Expr → Expr
| and => .and
| or => .or

/- The constant that such a node can do without. -/
def neutral : Junction → Tristate
| and => .yes
| or => .no

/- The symbol that a removed operand is replaced by. -/
def unit (type : Junction) : Expr :=
  .symbol (.builtin type.neutral)

/- `EXPR_AND` and `EXPR_OR`. -/
def eval : Junction → Tristate → Tristate → Tristate
| and => Tristate.and
| or => Tristate.or

instance (type : Junction) : Std.Associative type.eval where
  assoc := by
    intro a b c
    cases type <;> cases a <;> cases b <;> cases c <;> rfl

instance (type : Junction) : Std.Commutative type.eval where
  comm := by
    intro a b
    cases type <;> cases a <;> cases b <;> rfl

instance (type : Junction) :
    Std.LawfulCommIdentity type.eval type.neutral where
  right_id := by
    intro a
    cases type <;> cases a <;> rfl

theorem eval_self (type : Junction) (a : Tristate) :
    type.eval a a = a := by
  cases type <;> cases a <;> rfl

theorem eval_kept
    (type : Junction)
    {a b c d : Tristate}
    (hab : a.Kept b)
    (hcd : c.Kept d) :
    (type.eval a c).Kept (type.eval b d) := by
  cases type with
  | and => exact hab.and hcd
  | or => exact hab.or hcd

end Junction

namespace Expr

/- The type of an expression, where it has operands. -/
def junction? : Expr → Option Junction
| and _ _ => some .and
| or _ _ => some .or
| _ => none

/- The operands of an expression of a type. -/
def operands (type : Junction) : Expr → Operands Expr
| and a b =>
    match type with
    | .and => .node (a.operands type) (b.operands type)
    | .or => .leaf (and a b)
| or a b =>
    match type with
    | .and => .leaf (or a b)
    | .or => .node (a.operands type) (b.operands type)
| e => .leaf e

/- The number of leaves and negations. -/
def size : Expr → Nat
| symbol _ => 1
| equal _ _ => 1
| unequal _ _ => 1
| not e => e.size + 1
| and a b => a.size + b.size
| or a b => a.size + b.size

theorem size_pos (e : Expr) : 0 < e.size := by
  induction e with
  | symbol _ => exact Nat.one_pos
  | equal _ _ => exact Nat.one_pos
  | unequal _ _ => exact Nat.one_pos
  | not e _ => exact Nat.succ_pos _
  | and a b iha _ => exact Nat.add_pos_left iha _
  | or a b iha _ => exact Nat.add_pos_left iha _

end Expr

/- The expression with these operands. -/
def Junction.join (type : Junction) : Operands Expr → Expr
| .leaf e => e
| .node l r => type.alloc (type.join l) (type.join r)

namespace Junction

@[simp] theorem join_operands (type : Junction) (e : Expr) :
    type.join (e.operands type) = e := by
  induction e with
  | symbol _ => rfl
  | equal _ _ => rfl
  | unequal _ _ => rfl
  | not _ _ => rfl
  | and a b iha ihb =>
      cases type with
      | and => exact congrArg₂ Expr.and iha ihb
      | or => rfl
  | or a b iha ihb =>
      cases type with
      | and => rfl
      | or => exact congrArg₂ Expr.or iha ihb

@[simp] theorem calcValue_alloc
    (type : Junction)
    (v : Values)
    (a b : Expr) :
    (type.alloc a b).calcValue v =
      type.eval (a.calcValue v) (b.calcValue v) := by
  cases type <;> rfl

/- The value of an expression from those of its operands. -/
theorem calcValue_join
    (type : Junction)
    (v : Values)
    (t : Operands Expr) :
    (type.join t).calcValue v =
      t.fold type.eval (Expr.calcValue v) := by
  induction t with
  | leaf e => rfl
  | node l r ihl ihr =>
      simp only [join, calcValue_alloc, Operands.fold,
        ihl, ihr]

theorem size_join (type : Junction) (t : Operands Expr) :
    (type.join t).size = t.fold (· + ·) Expr.size := by
  induction t with
  | leaf e => rfl
  | node l r ihl ihr =>
      cases type <;>
        simp only [join, alloc, Expr.size, Operands.fold,
          ihl, ihr]

theorem every_join
    {P : Expr → Prop}
    (type : Junction)
    (t : Operands Expr) :
    (type.join t).Every P ↔ ∀ a ∈ t.leaves, a.Every P := by
  induction t with
  | leaf e => simp [join, Operands.leaves]
  | node l r ihl ihr =>
      cases type <;>
        simp [join, alloc, Expr.Every, Operands.leaves,
          ihl, ihr, or_imp, forall_and]

/- A stored operand with the property keeps it everywhere. -/
theorem every_put
    {P : Expr → Prop}
    {type : Junction}
    {t : Operands Expr}
    {a : Expr}
    (hEvery : (type.join t).Every P)
    (p : Place)
    (ha : a.Every P) :
    (type.join (t.put p a)).Every P := by
  rw [every_join] at hEvery ⊢
  intro b hb
  rcases Operands.mem_leaves_put hb with rfl | hOld
  · exact ha
  · exact hEvery b hOld

theorem every_leafAt
    {P : Expr → Prop}
    {type : Junction}
    {t : Operands Expr}
    {p : Place}
    {a : Expr}
    (hEvery : (type.join t).Every P)
    (hAt : t.leafAt p = some a) :
    a.Every P :=
  (type.every_join t).mp hEvery a
    (Operands.leafAt_mem_leaves hAt)

theorem wellNamed_put
    {type : Junction}
    {t : Operands Expr}
    {a : Expr}
    (hNamed : (type.join t).WellNamed)
    (p : Place)
    (ha : a.WellNamed) :
    (type.join (t.put p a)).WellNamed := by
  rw [Expr.wellNamed_iff] at hNamed ha ⊢
  exact every_put hNamed p ha

theorem wellNamed_leafAt
    {type : Junction}
    {t : Operands Expr}
    {p : Place}
    {a : Expr}
    (hNamed : (type.join t).WellNamed)
    (hAt : t.leafAt p = some a) :
    a.WellNamed := by
  rw [Expr.wellNamed_iff] at hNamed ⊢
  exact every_leafAt hNamed hAt

theorem decides_put
    {v : Values}
    {type : Junction}
    {t : Operands Expr}
    {a : Expr}
    (hDecides : v.Decides (type.join t))
    (p : Place)
    (ha : v.Decides a) :
    v.Decides (type.join (t.put p a)) := by
  rw [Values.decides_iff] at hDecides ha ⊢
  exact every_put hDecides p ha

theorem decides_leafAt
    {v : Values}
    {type : Junction}
    {t : Operands Expr}
    {p : Place}
    {a : Expr}
    (hDecides : v.Decides (type.join t))
    (hAt : t.leafAt p = some a) :
    v.Decides a := by
  rw [Values.decides_iff] at hDecides ⊢
  exact every_leafAt hDecides hAt

end Junction

theorem Expr.wellNamed_builtin (c : Tristate) :
    (Expr.symbol (.builtin c)).WellNamed :=
  fun _ hs => List.mem_singleton.mp hs ▸ trivial

theorem Junction.junction_join_of_isNode
    (type : Junction)
    {t : Operands Expr}
    (hNode : t.isNode = true) :
    (type.join t).junction? = some type := by
  cases t with
  | leaf e => cases hNode
  | node l r => cases type <;> rfl

/- An operand is not of the type it is an operand of. -/
theorem Expr.junction_of_mem_operands
    {type : Junction}
    {e a : Expr}
    (hMem : a ∈ (e.operands type).leaves) :
    a.junction? ≠ some type := by
  induction e with
  | symbol _ =>
      rw [List.mem_singleton.mp hMem]
      simp [junction?]
  | equal _ _ =>
      rw [List.mem_singleton.mp hMem]
      simp [junction?]
  | unequal _ _ =>
      rw [List.mem_singleton.mp hMem]
      simp [junction?]
  | not _ _ =>
      rw [List.mem_singleton.mp hMem]
      simp [junction?]
  | and b c ihb ihc =>
      cases type with
      | and =>
          rcases List.mem_append.mp hMem with hb | hc
          · exact ihb hb
          · exact ihc hc
      | or =>
          rw [List.mem_singleton.mp hMem]
          simp [junction?]
  | or b c ihb ihc =>
      cases type with
      | and =>
          rw [List.mem_singleton.mp hMem]
          simp [junction?]
      | or =>
          rcases List.mem_append.mp hMem with hb | hc
          · exact ihb hb
          · exact ihc hc

end Mkrootfs
