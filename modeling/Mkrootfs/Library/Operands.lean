import Mathlib.Data.List.Basic

/-
  The operands of an operator that is applied several times:
  a binary tree with the operands at its leaves.

  A tree is folded with the operator, its leaves are named by
  places, and two trees can be walked pair by pair.

  Main declarations:
    * `Operands`, `Operands.fold`
    * `Operands.leafAt`, `Operands.put`
    * `Operands.leafPlaces`, `Operands.nodePlaces`
    * `Operands.fold_put`, `Operands.fold_put_put`
    * `Operands.pairPass`, `Operands.pairPass_factors`
-/

------------------------------------------------------------
-- Trees Of Operands
------------------------------------------------------------

namespace Mkrootfs

inductive Operands (α : Type) where
| leaf : α → Operands α
| node : Operands α → Operands α → Operands α
deriving DecidableEq, Repr

/- The two operands of a node. -/
inductive Side where
| left
| right
deriving DecidableEq, Repr

/- The way from the root of a tree to one of its nodes. -/
abbrev Place := List Side

namespace Operands

variable {α β γ : Type}

/- The operands, from left to right. -/
def leaves : Operands α → List α
| leaf a => [a]
| node l r => l.leaves ++ r.leaves

/- Whether there is more than one operand. -/
def isNode : Operands α → Bool
| leaf _ => false
| node _ _ => true

/- The value of a tree under an operator. -/
def fold (op : β → β → β) (f : α → β) : Operands α → β
| leaf a => f a
| node l r => op (l.fold op f) (r.fold op f)

/- The places of the leaves, from left to right. -/
def leafPlaces : Operands α → List Place
| leaf _ => [[]]
| node l r =>
    l.leafPlaces.map (Side.left :: ·) ++
      r.leafPlaces.map (Side.right :: ·)

/- All places, those below a node before its own. -/
def nodePlaces : Operands α → List Place
| leaf _ => [[]]
| node l r =>
    l.nodePlaces.map (Side.left :: ·) ++
      r.nodePlaces.map (Side.right :: ·) ++ [[]]

/- The tree at a place. -/
def sub : Operands α → Place → Option (Operands α)
| t, [] => some t
| node l _, .left :: p => l.sub p
| node _ r, .right :: p => r.sub p
| leaf _, _ :: _ => none

/- The operand at a place. -/
def leafAt : Operands α → Place → Option α
| leaf a, [] => some a
| node l _, .left :: p => l.leafAt p
| node _ r, .right :: p => r.leafAt p
| _, _ => none

/- Store an operand at the place of a leaf. -/
def put : Operands α → Place → α → Operands α
| leaf _, [], b => leaf b
| node l r, .left :: p, b => node (l.put p b) r
| node l r, .right :: p, b => node l (r.put p b)
| t, _, _ => t

------------------------------------------------------------
-- Places
------------------------------------------------------------

/- A stored operand leaves the shape of the tree. -/
@[simp] theorem leafPlaces_put
    (t : Operands α)
    (p : Place)
    (b : α) :
    (t.put p b).leafPlaces = t.leafPlaces := by
  induction t generalizing p with
  | leaf a =>
      cases p <;> rfl
  | node l r ihl ihr =>
      match p with
      | [] => rfl
      | .left :: p => simp [put, leafPlaces, ihl]
      | .right :: p => simp [put, leafPlaces, ihr]

@[simp] theorem nodePlaces_put
    (t : Operands α)
    (p : Place)
    (b : α) :
    (t.put p b).nodePlaces = t.nodePlaces := by
  induction t generalizing p with
  | leaf a =>
      cases p <;> rfl
  | node l r ihl ihr =>
      match p with
      | [] => rfl
      | .left :: p => simp [put, nodePlaces, ihl]
      | .right :: p => simp [put, nodePlaces, ihr]

@[simp] theorem isNode_put
    (t : Operands α)
    (p : Place)
    (b : α) :
    (t.put p b).isNode = t.isNode := by
  unfold put
  split <;> rfl

/- A stored operand is read back. -/
theorem leafAt_put_self
    {t : Operands α}
    {p : Place}
    {a : α}
    (hAt : t.leafAt p = some a)
    (b : α) :
    (t.put p b).leafAt p = some b := by
  induction t generalizing p with
  | leaf _ =>
      match p with
      | [] => rfl
  | node l r ihl ihr =>
      match p with
      | .left :: p => exact ihl hAt
      | .right :: p => exact ihr hAt

/- The other operands are not touched. -/
theorem leafAt_put_of_ne
    (t : Operands α)
    {p q : Place}
    (hNe : p ≠ q)
    (b : α) :
    (t.put p b).leafAt q = t.leafAt q := by
  induction t generalizing p q with
  | leaf _ =>
      match p, q with
      | [], [] => exact absurd rfl hNe
      | [], _ :: _ => rfl
      | _ :: _, _ => rfl
  | node l r ihl ihr =>
      match p, q with
      | [], _ => rfl
      | .left :: p, [] => rfl
      | .right :: p, [] => rfl
      | .left :: p, .right :: q => rfl
      | .right :: p, .left :: q => rfl
      | .left :: p, .left :: q =>
          exact ihl (fun h => hNe (congrArg _ h))
      | .right :: p, .right :: q =>
          exact ihr (fun h => hNe (congrArg _ h))

/- Storing what is there changes nothing. -/
theorem put_self
    {t : Operands α}
    {p : Place}
    {a : α}
    (hAt : t.leafAt p = some a) :
    t.put p a = t := by
  induction t generalizing p with
  | leaf _ =>
      match p with
      | [] => exact congrArg leaf (Option.some.inj hAt).symm
  | node l r ihl ihr =>
      match p with
      | .left :: p => exact congrArg (node · r) (ihl hAt)
      | .right :: p => exact congrArg (node l ·) (ihr hAt)

theorem leafAt_mem_leaves
    {t : Operands α}
    {p : Place}
    {a : α}
    (hAt : t.leafAt p = some a) :
    a ∈ t.leaves := by
  induction t generalizing p with
  | leaf _ =>
      match p with
      | [] => exact List.mem_singleton.mpr (Option.some.inj hAt).symm
  | node l r ihl ihr =>
      match p with
      | .left :: p => exact List.mem_append_left _ (ihl hAt)
      | .right :: p => exact List.mem_append_right _ (ihr hAt)

theorem mem_leaves_put
    {t : Operands α}
    {p : Place}
    {a b : α}
    (hMem : b ∈ (t.put p a).leaves) :
    b = a ∨ b ∈ t.leaves := by
  induction t generalizing p with
  | leaf _ =>
      match p with
      | [] => exact Or.inl (List.mem_singleton.mp hMem)
      | _ :: _ => exact Or.inr hMem
  | node l r ihl ihr =>
      match p with
      | [] => exact Or.inr hMem
      | .left :: p =>
          rcases List.mem_append.mp hMem with hL | hR
          · exact (ihl hL).imp_right (List.mem_append_left _)
          · exact Or.inr (List.mem_append_right _ hR)
      | .right :: p =>
          rcases List.mem_append.mp hMem with hL | hR
          · exact Or.inr (List.mem_append_left _ hL)
          · exact (ihr hR).imp_right (List.mem_append_right _)

------------------------------------------------------------
-- Values Of Changed Trees
------------------------------------------------------------

/- Sizes are folded with addition. -/
instance : Std.LawfulCommIdentity (α := Nat) (· + ·) 0 where
  right_id := Nat.add_zero

section Fold

variable (op : β → β → β) (e : β) (f : α → β)
variable [Std.Associative op] [Std.Commutative op]
variable [Std.LawfulCommIdentity op e]

include e

/- The rest of the tree beside a subtree. -/
theorem fold_sub
    {t s : Operands α}
    {p : Place}
    (hSub : t.sub p = some s) :
    ∃ c, t.fold op f = op (s.fold op f) c := by
  have hUnit : ∀ b, b = op b e :=
    fun b => (Std.LawfulRightIdentity.right_id b).symm
  induction t generalizing p with
  | leaf a =>
      match p with
      | [] => exact ⟨e, Option.some.inj hSub ▸ hUnit _⟩
  | node l r ihl ihr =>
      match p with
      | [] => exact ⟨e, Option.some.inj hSub ▸ hUnit _⟩
      | .left :: p =>
          rcases ihl hSub with ⟨c, hc⟩
          refine ⟨op c (r.fold op f), ?_⟩
          simp only [fold, hc]
          ac_rfl
      | .right :: p =>
          rcases ihr hSub with ⟨c, hc⟩
          refine ⟨op c (l.fold op f), ?_⟩
          simp only [fold, hc]
          ac_rfl

/- An operand contributes to the value by itself. -/
theorem fold_put
    {t : Operands α}
    {p : Place}
    {a : α}
    (hAt : t.leafAt p = some a) :
    ∃ c, ∀ b, (t.put p b).fold op f = op (f b) c := by
  induction t generalizing p with
  | leaf _ =>
      match p with
      | [] =>
          exact ⟨e, fun b =>
            (Std.LawfulRightIdentity.right_id (f b)).symm⟩
  | node l r ihl ihr =>
      match p with
      | .left :: p =>
          rcases ihl hAt with ⟨c, hc⟩
          refine ⟨op c (r.fold op f), fun b => ?_⟩
          simp only [put, fold, hc]
          ac_rfl
      | .right :: p =>
          rcases ihr hAt with ⟨c, hc⟩
          refine ⟨op c (l.fold op f), fun b => ?_⟩
          simp only [put, fold, hc]
          ac_rfl

/- Two operands at different places do so as well. -/
theorem fold_put_put
    {t : Operands α}
    {p q : Place}
    {a b : α}
    (hNe : p ≠ q)
    (hp : t.leafAt p = some a)
    (hq : t.leafAt q = some b) :
    ∃ c, ∀ x y,
      ((t.put p x).put q y).fold op f =
        op (op (f x) (f y)) c := by
  induction t generalizing p q with
  | leaf _ =>
      match p, q with
      | [], [] => exact absurd rfl hNe
  | node l r ihl ihr =>
      match p, q with
      | .left :: p, .left :: q =>
          have hTail : p ≠ q := fun h => hNe (congrArg _ h)
          rcases ihl hTail hp hq with ⟨c, hc⟩
          refine ⟨op c (r.fold op f), fun x y => ?_⟩
          simp only [put, fold, hc]
          ac_rfl
      | .right :: p, .right :: q =>
          have hTail : p ≠ q := fun h => hNe (congrArg _ h)
          rcases ihr hTail hp hq with ⟨c, hc⟩
          refine ⟨op c (l.fold op f), fun x y => ?_⟩
          simp only [put, fold, hc]
          ac_rfl
      | .left :: p, .right :: q =>
          rcases fold_put op e f (t := l) hp with ⟨c, hc⟩
          rcases fold_put op e f (t := r) hq with ⟨d, hd⟩
          refine ⟨op c d, fun x y => ?_⟩
          simp only [put, fold, hc, hd]
          ac_rfl
      | .right :: p, .left :: q =>
          rcases fold_put op e f (t := r) hp with ⟨c, hc⟩
          rcases fold_put op e f (t := l) hq with ⟨d, hd⟩
          refine ⟨op c d, fun x y => ?_⟩
          simp only [put, fold, hc, hd]
          ac_rfl

end Fold

------------------------------------------------------------
-- Walking Two Trees
------------------------------------------------------------

section Walk

variable {σ : Type} (step : σ → α → β → σ × α × β)

/- One operand meets those of a tree. -/
def leafPass (s : σ) (a : α) :
    Operands β → σ × α × Operands β
| leaf b =>
    let (s, a, b) := step s a b
    (s, a, leaf b)
| node l r =>
    let (s, a, l) := leafPass s a l
    let (s, a, r) := leafPass s a r
    (s, a, node l r)

/- Each operand of a tree meets those of another. -/
def pairPass (s : σ) :
    Operands α → Operands β → σ × Operands α × Operands β
| leaf a, t =>
    let (s, a, t) := leafPass step s a t
    (s, leaf a, t)
| node l r, t =>
    let (s, l, t) := pairPass s l t
    let (s, r, t) := pairPass s r t
    (s, node l r, t)

variable {step}

/- A walk keeps the shapes of both trees. -/
theorem isNode_leafPass
    (s : σ)
    (a : α)
    (t : Operands β) :
    (leafPass step s a t).2.2.isNode = t.isNode := by
  cases t <;> rfl

theorem isNode_pairPass
    (s : σ)
    (t : Operands α)
    (u : Operands β) :
    (pairPass step s t u).2.1.isNode = t.isNode ∧
      (pairPass step s t u).2.2.isNode = u.isNode := by
  induction t generalizing s u with
  | leaf a => exact ⟨rfl, isNode_leafPass s a u⟩
  | node l r ihl ihr =>
      exact ⟨rfl, ((ihr _ _).2).trans (ihl s u).2⟩

/- Steps that agree where a property holds walk alike. -/
theorem leafPass_congr
    {step' : σ → α → β → σ × α × β}
    {P : α → Prop}
    (hStep : ∀ s a b, P a →
      step s a b = step' s a b ∧ P (step s a b).2.1)
    (s : σ)
    {a : α}
    (t : Operands β)
    (hP : P a) :
    leafPass step s a t = leafPass step' s a t ∧
      P (leafPass step s a t).2.1 := by
  induction t generalizing s a with
  | leaf b =>
      have hOne := hStep s a b hP
      exact ⟨by simp only [leafPass, hOne.1], hOne.2⟩
  | node l r ihl ihr =>
      have hLeft := ihl s hP
      have hRight := ihr (leafPass step s a l).1 hLeft.2
      refine ⟨?_, hRight.2⟩
      simp only [leafPass, ← hLeft.1, ← hRight.1]

theorem pairPass_congr
    {step' : σ → α → β → σ × α × β}
    {P : α → Prop}
    (hStep : ∀ s a b, P a →
      step s a b = step' s a b ∧ P (step s a b).2.1)
    (s : σ)
    (t : Operands α)
    (u : Operands β)
    (hP : ∀ a ∈ t.leaves, P a) :
    pairPass step s t u = pairPass step' s t u := by
  induction t generalizing s u with
  | leaf a =>
      have hOne :=
        leafPass_congr hStep s u (hP a List.mem_cons_self)
      simp only [pairPass, hOne.1]
  | node l r ihl ihr =>
      have hLeft := ihl s u
        (fun a ha => hP a (List.mem_append_left _ ha))
      have hRight := ihr (pairPass step s l u).1
        (pairPass step s l u).2.2
        (fun a ha => hP a (List.mem_append_right _ ha))
      simp only [pairPass, ← hLeft, ← hRight]

variable (op : γ → γ → γ)
variable [Std.Associative op] [Std.Commutative op]
variable {f : α → γ} {g : β → γ}

/-
  Steps that take a common part out of both operands take one
  out of both trees.
-/
theorem leafPass_factors
    (hStep : ∀ s a b, ∃ c,
      f a = op c (f (step s a b).2.1) ∧
        g b = op c (g (step s a b).2.2))
    (s : σ)
    (a : α)
    (t : Operands β) :
    ∃ c, f a = op c (f (leafPass step s a t).2.1) ∧
      t.fold op g =
        op c ((leafPass step s a t).2.2.fold op g) := by
  induction t generalizing s a with
  | leaf b =>
      exact hStep s a b
  | node l r ihl ihr =>
      rcases ihl s a with ⟨c, hfl, hgl⟩
      rcases ihr (leafPass step s a l).1
        (leafPass step s a l).2.1 with ⟨d, hfr, hgr⟩
      refine ⟨op c d, ?_, ?_⟩
      · simp only [leafPass]
        rw [hfl, hfr]
        ac_rfl
      · simp only [leafPass, fold]
        rw [hgl, hgr]
        ac_rfl

theorem pairPass_factors
    (hStep : ∀ s a b, ∃ c,
      f a = op c (f (step s a b).2.1) ∧
        g b = op c (g (step s a b).2.2))
    (s : σ)
    (t : Operands α)
    (u : Operands β) :
    ∃ c,
      t.fold op f =
          op c ((pairPass step s t u).2.1.fold op f) ∧
        u.fold op g =
          op c ((pairPass step s t u).2.2.fold op g) := by
  induction t generalizing s u with
  | leaf a =>
      exact leafPass_factors op hStep s a u
  | node l r ihl ihr =>
      rcases ihl s u with ⟨c, hfl, hgl⟩
      rcases ihr (pairPass step s l u).1
        (pairPass step s l u).2.2 with ⟨d, hfr, hgr⟩
      refine ⟨op c d, ?_, ?_⟩
      · simp only [pairPass, fold]
        rw [hfl, hfr]
        ac_rfl
      · simp only [pairPass]
        rw [hgl, hgr]
        ac_rfl

end Walk

end Operands

/- Steps that agree where an invariant holds run alike. -/
theorem foldl_congr_of_invariant
    {σ ι : Type}
    {step step' : σ → ι → σ}
    {Inv : σ → Prop}
    (hStep : ∀ s i, Inv s →
      step s i = step' s i ∧ Inv (step s i))
    {s : σ}
    (hInv : Inv s)
    (list : List ι) :
    list.foldl step s = list.foldl step' s := by
  induction list generalizing s with
  | nil => rfl
  | cons i list ih =>
      rw [List.foldl_cons, List.foldl_cons,
        ih (hStep s i hInv).2, (hStep s i hInv).1]

end Mkrootfs
