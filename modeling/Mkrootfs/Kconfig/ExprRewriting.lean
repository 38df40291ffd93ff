import Mkrootfs.Kconfig.ExprDups
import Mkrootfs.Kconfig.ExprCompare

/-
  The rewriting that `menu_finalize` (`menu.c`) has done by
  `expr.c`, and what it leaves of the conditions: what cannot
  be seen without the rewriting cannot be seen with it, and
  what can be seen for certain can still be seen.

  Main declarations:
    * `exprCond`, `exprRewriting`
    * `SameVisibility`, `TableAgrees`
    * `finalizeRoot_agrees`
-/

------------------------------------------------------------
-- The Rewriting
------------------------------------------------------------

namespace Mkrootfs

/-
  A condition below another one: what both loops of
  `menu_finalize` do with `expr_transform`, `expr_alloc_and`
  and `expr_eliminate_dups`.
-/
def exprBase
    (types : SymId → SymbolType)
    (base dep : Option Expr) : Option Expr :=
  (exprAllocAnd base (dep.map (exprTransform types))).map
    (exprEliminateDups types)

/- The condition of a property of an entry. -/
def exprCond
    (types : Nat → SymId → SymbolType)
    (notTristate : Nat → Bool)
    (id : Nat)
    (base visible : Option Expr) : Option Expr :=
  if notTristate id then
    (exprBase (types id) base visible).map
      (exprTransBool (types id))
  else
    exprBase (types id) base visible

/-
  The rewriting, given the types of the symbols when an entry
  is reached, and which entries have a symbol that is not a
  tristate.
-/
def exprRewriting
    (types : Nat → SymId → SymbolType)
    (notTristate : Nat → Bool)
    (submenu : Nat → Bool) : Rewriting where
  dep := fun id => exprBase (types id)
  cond := fun id _ => exprCond types notTristate id
  submenu := submenu

/- Conditions are only put together. -/
def plainRewriting (submenu : Nat → Bool) : Rewriting :=
  { Rewriting.plain with submenu := submenu }

------------------------------------------------------------
-- Conditions
------------------------------------------------------------

/- `b` is `n` where `a` is, and is not `n` where `a` is `y`. -/
def SameVisibility (a b : Tristate) : Prop :=
  (a = .no → b = .no) ∧ (a = .yes → b ≠ .no)

namespace SameVisibility

theorem refl (a : Tristate) : SameVisibility a a :=
  ⟨id, fun h => by rw [h]; decide⟩

theorem and
    {a b c d : Tristate}
    (hab : SameVisibility a b)
    (hcd : SameVisibility c d) :
    SameVisibility (a.and c) (b.and d) := by
  revert hab hcd
  unfold SameVisibility
  cases a <;> cases b <;> cases c <;> cases d <;> decide

theorem or
    {a b c d : Tristate}
    (hab : SameVisibility a b)
    (hcd : SameVisibility c d) :
    SameVisibility (a.or c) (b.or d) := by
  revert hab hcd
  unfold SameVisibility
  cases a <;> cases b <;> cases c <;> cases d <;> decide

end SameVisibility

/- A condition over symbols as `sym_lookup` finds them. -/
def OptWellNamed (e : Option Expr) : Prop :=
  ∀ x ∈ e, x.WellNamed

theorem optWellNamed_none : OptWellNamed none := by
  rintro x ⟨⟩

theorem exprCalcValue_exprAllocAnd
    (v : Values)
    (e f : Option Expr) :
    exprCalcValue v (exprAllocAnd e f) =
      (exprCalcValue v e).and (exprCalcValue v f) := by
  cases e <;> cases f <;>
    simp [exprAllocAnd, exprCalcValue, Expr.calcValue]

/-
  A dependency `e'` that was rewritten from `e`: it has the
  definite values, and can be rewritten again.
-/
structure Follows (v : Values) (e e' : Option Expr) : Prop where
  kept : (exprCalcValue v e).Kept (exprCalcValue v e')
  named : OptWellNamed e'
  normal : ∀ x ∈ e', Transformed (fun _ => .unknown) x

section Conditions

variable {v : Values} {types : SymId → SymbolType}

theorem Follows.sameVisibility
    {e e' : Option Expr}
    (hFollows : Follows v e e') :
    SameVisibility (exprCalcValue v e) (exprCalcValue v e') := by
  have hKept := hFollows.kept
  unfold SameVisibility
  revert hKept
  cases exprCalcValue v e <;> cases exprCalcValue v e' <;> decide

theorem Expr.WellNamed.and
    {a b : Expr}
    (ha : a.WellNamed)
    (hb : b.WellNamed) :
    (Expr.and a b).WellNamed := by
  intro s hs
  rcases List.mem_append.mp hs with h | h
  · exact ha s h
  · exact hb s h

theorem forall_mem_exprAllocAnd
    {P : Expr → Prop}
    (hAnd : ∀ {a b}, P a → P b → P (.and a b))
    {e f : Option Expr}
    (he : ∀ x ∈ e, P x)
    (hf : ∀ x ∈ f, P x) :
    ∀ x ∈ exprAllocAnd e f, P x := by
  cases e with
  | none => exact hf
  | some a =>
      cases f with
      | none => exact he
      | some b =>
          rintro x ⟨⟩
          exact hAnd (he a rfl) (hf b rfl)

/- A choice, as the values below it depend on it. -/
theorem Follows.choice
    {sym : SymId}
    (hChoice : sym.isChoice = true) :
    Follows v (some (.symbol sym)) (some (.symbol sym)) := by
  refine ⟨Tristate.Kept.refl _, ?_, ?_⟩
  · rintro x ⟨⟩ s hs
    rw [List.mem_singleton.mp hs]
    cases sym with
    | choice c => trivial
    | _ => cases hChoice
  · rintro x ⟨⟩
    trivial

theorem exprBase_follows
    (hTyped : v.Typed types)
    (hTypes : ∀ c, types (.builtin c) ≠ .boolean)
    {e e' dep : Option Expr}
    (hFollows : Follows v e e')
    (hNamed : OptWellNamed dep) :
    Follows v (exprAllocAnd e dep) (exprBase types e' dep) := by
  have hBelow : TypesBelow (fun _ => .unknown) types := by
    intro s h
    cases h
  have hDepNormal : ∀ x ∈ dep.map (exprTransform types),
      Transformed (fun _ => .unknown) x := by
    intro x hx
    rcases Option.map_eq_some_iff.mp hx with ⟨a, _, rfl⟩
    exact (transformed_exprTransform hTypes a).below hBelow
  have hDepNamed : OptWellNamed (dep.map (exprTransform types)) := by
    intro x hx
    rcases Option.map_eq_some_iff.mp hx with ⟨a, ha, rfl⟩
    exact wellNamed_exprTransform types (hNamed a ha)
  have hDepValue :
      exprCalcValue v (dep.map (exprTransform types)) =
        exprCalcValue v dep := by
    cases dep with
    | none => rfl
    | some a => exact calcValue_exprTransform hTyped a
  have hJoinNamed : OptWellNamed
      (exprAllocAnd e' (dep.map (exprTransform types))) :=
    forall_mem_exprAllocAnd Expr.WellNamed.and hFollows.named
      hDepNamed
  have hJoinNormal :=
    forall_mem_exprAllocAnd (fun ha hb => ⟨ha, hb⟩)
      hFollows.normal hDepNormal
  have hValue :
      (exprCalcValue v (exprAllocAnd e dep)).Kept
        (exprCalcValue v
          (exprAllocAnd e' (dep.map (exprTransform types)))) := by
    rw [exprCalcValue_exprAllocAnd, exprCalcValue_exprAllocAnd,
      hDepValue]
    exact hFollows.kept.and (Tristate.Kept.refl _)
  revert hJoinNamed hJoinNormal hValue
  unfold exprBase
  cases exprAllocAnd e' (dep.map (exprTransform types)) with
  | none =>
      exact fun hNamed hNormal hKept => ⟨hKept, hNamed, hNormal⟩
  | some x =>
      intro hNamed hNormal hKept
      have hx := (exprEliminateDups_simplifies types x).1
      refine ⟨hKept.trans (hx.kept v hTyped (hNamed x rfl)), ?_, ?_⟩
      · rintro y ⟨⟩
        exact hx.wellNamed (hNamed x rfl)
      · rintro y ⟨⟩
        exact hx.transformed _ hBelow (hNormal x rfl)

/- `expr_trans_bool` only lowers `y` to `m`. -/
theorem sameVisibility_exprTransBool
    (hTyped : v.Typed types)
    {e e' : Option Expr}
    (hFollows : Follows v e e') :
    SameVisibility (exprCalcValue v e)
      (exprCalcValue v (e'.map (exprTransBool types))) := by
  have hSame := hFollows.sameVisibility
  cases e' with
  | none => exact hSame
  | some x =>
      have hBool := calcValue_exprTransBool hTyped
        (hFollows.normal x rfl)
      exact ⟨fun h => le_antisymm
          (hBool.1.trans (le_of_eq (hSame.1 h)))
          (Tristate.no_le _),
        fun h hNo => hSame.2 h (hBool.2 hNo)⟩

end Conditions

------------------------------------------------------------
-- Tables
------------------------------------------------------------

/-
  A property after the rewriting.  The entries `done` have
  handed it their dependency.
-/
structure PropAgrees
    (v : Values)
    (done : List Nat)
    (p p' : Property) : Prop where
  same : p' = { p with visible := p'.visible }
  visible : SameVisibility (exprCalcValue v p.visible)
    (exprCalcValue v p'.visible)
  open' : ∀ id, p.menu = some id → id ∉ done →
    p'.visible = p.visible ∧ OptWellNamed p.visible

/- `rev_dep`, where `NULL` is `n`. -/
def revDepValue (v : Values) (e : Option Expr) : Tristate :=
  e.elim .no (Expr.calcValue v)

structure SymbolAgrees
    (v : Values)
    (done : List Nat)
    (s s' : Symbol) : Prop where
  same : s' = { s with props := s'.props, revDep := s'.revDep }
  props : List.Forall₂ (PropAgrees v done) s.props s'.props
  revDep : SameVisibility (revDepValue v s.revDep)
    (revDepValue v s'.revDep)

/- The table of a run with the rewriting beside one without. -/
def TableAgrees
    (v : Values)
    (done : List Nat)
    (t t' : SymbolTable) : Prop :=
  List.Forall₂ (SymbolAgrees v done) t t'

section Tables

variable {v : Values} {done done' : List Nat}

theorem PropAgrees.mono
    (hDone : done ⊆ done')
    {p p' : Property}
    (hAgrees : PropAgrees v done p p') :
    PropAgrees v done' p p' :=
  ⟨hAgrees.same, hAgrees.visible, fun id hMenu hOpen =>
    hAgrees.open' id hMenu (fun h => hOpen (hDone h))⟩

theorem SymbolAgrees.mono
    (hDone : done ⊆ done')
    {s s' : Symbol}
    (hAgrees : SymbolAgrees v done s s') :
    SymbolAgrees v done' s s' :=
  ⟨hAgrees.same,
    hAgrees.props.imp (fun _ _ h => h.mono hDone),
    hAgrees.revDep⟩

theorem SymbolAgrees.id
    {s s' : Symbol}
    (hAgrees : SymbolAgrees v done s s') :
    s'.id = s.id := by
  rw [hAgrees.same]

theorem SymbolAgrees.type
    {s s' : Symbol}
    (hAgrees : SymbolAgrees v done s s') :
    s'.type = s.type := by
  rw [hAgrees.same]

namespace TableAgrees

variable {t t' : SymbolTable}

theorem mono
    (hDone : done ⊆ done')
    (hAgrees : TableAgrees v done t t') :
    TableAgrees v done' t t' :=
  List.Forall₂.imp (fun _ _ h => h.mono hDone) hAgrees

/- The symbol of an identity, in both tables. -/
theorem getSymbol
    (hAgrees : TableAgrees v done t t')
    (id : SymId) :
    Option.Rel (SymbolAgrees v done)
      (Mkrootfs.getSymbol t id) (Mkrootfs.getSymbol t' id) := by
  unfold Mkrootfs.getSymbol
  induction hAgrees with
  | nil => exact Option.Rel.none
  | cons hHead _ ih =>
      rw [List.find?_cons, List.find?_cons, hHead.id]
      split
      · exact Option.Rel.some hHead
      · exact ih

theorem typeOf
    (hAgrees : TableAgrees v done t t')
    (id : SymId) :
    Mkrootfs.typeOf t' id = Mkrootfs.typeOf t id := by
  have hGet := hAgrees.getSymbol id
  unfold Mkrootfs.typeOf
  generalize Mkrootfs.getSymbol t id = found at hGet ⊢
  generalize Mkrootfs.getSymbol t' id = found' at hGet ⊢
  cases hGet with
  | some h => simp [h.type]
  | none => rfl

/- Updates that agree on a symbol agree on the table. -/
theorem modify
    (hAgrees : TableAgrees v done t t')
    (hDone : done ⊆ done')
    (id : SymId)
    {f f' : Symbol → Symbol}
    (hStep : ∀ s s', SymbolAgrees v done s s' →
      SymbolAgrees v done' (f s) (f' s')) :
    TableAgrees v done' (modifySymbol t id f)
      (modifySymbol t' id f') := by
  unfold modifySymbol TableAgrees
  rw [List.forall₂_map_left_iff, List.forall₂_map_right_iff]
  refine List.Forall₂.imp ?_ hAgrees
  intro s s' h
  rw [h.id]
  split
  · exact hStep s s' h
  · exact h.mono hDone

end TableAgrees

/- Folds over lists that agree. -/
theorem foldl_agrees
    {A : Type}
    {rel : A → A → Prop}
    {step step' : SymbolTable → A → SymbolTable}
    (hStep : ∀ t t' a a', TableAgrees v done t t' → rel a a' →
      TableAgrees v done (step t a) (step' t' a'))
    {t t' : SymbolTable}
    (hAgrees : TableAgrees v done t t')
    {list list' : List A}
    (hList : List.Forall₂ rel list list') :
    TableAgrees v done (list.foldl step t)
      (list'.foldl step' t') := by
  induction hList generalizing t t' with
  | nil => exact hAgrees
  | cons hHead _ ih => exact ih (hStep _ _ _ _ hAgrees hHead)

theorem revDepValue_exprAllocOr (e f : Option Expr) :
    revDepValue v (exprAllocOr e f) =
      (revDepValue v e).or (revDepValue v f) := by
  cases e <;> cases f <;>
    simp [exprAllocOr, revDepValue, Expr.calcValue]

/- `rev_dep` learns of one more reason. -/
theorem SymbolAgrees.addRevDep
    {s s' : Symbol}
    (hAgrees : SymbolAgrees v done s s')
    {e e' : Option Expr}
    (hReason : SameVisibility (revDepValue v e)
      (revDepValue v e')) :
    SymbolAgrees v done
      { s with revDep := exprAllocOr s.revDep e }
      { s' with revDep := exprAllocOr s'.revDep e' } where
  same := by
    have h := hAgrees.same
    rw [h]
  props := hAgrees.props
  revDep := by
    simp only [revDepValue_exprAllocOr]
    exact hAgrees.revDep.or hReason

end Tables

------------------------------------------------------------
-- Steps Of The Traversal
------------------------------------------------------------

section Steps

variable {v : Values} {done : List Nat}
variable {t t' : SymbolTable}

/- What the rewriting must do to a condition of an entry. -/
def CondFollows
    (v : Values)
    (rw : Rewriting)
    (menu : Nat)
    (base base' : Option Expr) : Prop :=
  ∀ k visible, OptWellNamed visible →
    SameVisibility (exprCalcValue v (exprAllocAnd base visible))
      (exprCalcValue v (rw.cond menu k base' visible))

theorem finalizeProp_agrees
    {rw : Rewriting}
    {submenu : Nat → Bool}
    {menu : Nat}
    {base base' : Option Expr}
    (hCond : CondFollows v rw menu base base')
    (hOpen : menu ∉ done)
    (k : Nat)
    {p p' : Property}
    (hAgrees : PropAgrees v done p p') :
    PropAgrees v (menu :: done)
      (finalizeProp (plainRewriting submenu) menu base k p)
      (finalizeProp rw menu base' k p') := by
  have hMenu : p'.menu = p.menu := by rw [hAgrees.same]
  unfold finalizeProp
  rw [hMenu]
  split
  · rename_i hHere
    rcases hAgrees.open' menu hHere hOpen with ⟨hSame, hNamed⟩
    refine ⟨?_, ?_, ?_⟩
    · rw [hAgrees.same]
    · rw [hSame]
      exact hCond k p.visible hNamed
    · intro id hId hNot
      rw [hHere] at hId
      cases hId
      exact absurd List.mem_cons_self hNot
  · exact hAgrees.mono (List.subset_cons_self _ _)

theorem forall₂_mapIdx
    {A B : Type}
    {rel : A → A → Prop}
    {rel' : B → B → Prop}
    {f f' : Nat → A → B}
    (hStep : ∀ k a a', rel a a' → rel' (f k a) (f' k a'))
    {list list' : List A}
    (hList : List.Forall₂ rel list list') :
    List.Forall₂ rel' (list.mapIdx f) (list'.mapIdx f') := by
  induction hList generalizing f f' with
  | nil => exact List.Forall₂.nil
  | cons hHead _ ih =>
      rw [List.mapIdx_cons, List.mapIdx_cons]
      exact List.Forall₂.cons (hStep 0 _ _ hHead)
        (ih (fun k => hStep (k + 1)))

theorem addRevDep_agrees
    (sym : SymId)
    (menu : Nat)
    (hAgrees : TableAgrees v done t t')
    {p p' : Property}
    (hProp : PropAgrees v done p p') :
    TableAgrees v done (addRevDep sym menu t p)
      (addRevDep sym menu t' p') := by
  have hSelected : p'.selected menu = p.selected menu := by
    rw [hProp.same]
    rfl
  unfold addRevDep
  rw [hSelected]
  split
  · exact hAgrees
  · refine hAgrees.modify (List.Subset.refl _) _
      (fun s s' h => h.addRevDep ?_)
    have hReason : ∀ e : Option Expr,
        revDepValue v (exprAllocAnd (some (.symbol sym)) e) =
          (v.tri sym).and (exprCalcValue v e) := by
      intro e
      cases e <;>
        simp [exprAllocAnd, revDepValue, exprCalcValue,
          Expr.calcValue]
    rw [hReason, hReason]
    exact (SameVisibility.refl _).and hProp.visible

theorem finalizeProps_agrees
    {rw : Rewriting}
    {submenu : Nat → Bool}
    {menu : Nat}
    {base base' : Option Expr}
    (hCond : CondFollows v rw menu base base')
    (hOpen : menu ∉ done)
    (sym : SymId)
    (hAgrees : TableAgrees v done t t') :
    TableAgrees v (menu :: done)
      (finalizeProps (plainRewriting submenu) menu sym base t)
      (finalizeProps rw menu sym base' t') := by
  have hConds : TableAgrees v (menu :: done)
      (modifySymbol t sym (fun s => { s with
        props := s.props.mapIdx
          (finalizeProp (plainRewriting submenu) menu base) }))
      (modifySymbol t' sym (fun s => { s with
        props := s.props.mapIdx (finalizeProp rw menu base') })) := by
    refine hAgrees.modify (List.subset_cons_self menu done) sym ?_
    intro s s' h
    refine ⟨?_, ?_, h.revDep⟩
    · have hSame := h.same
      rw [hSame]
    · refine forall₂_mapIdx ?_ h.props
      exact fun k p p' hp => finalizeProp_agrees hCond hOpen k hp
  have hGet := hConds.getSymbol sym
  unfold finalizeProps
  simp only
  generalize getSymbol (modifySymbol t sym _) sym = found
    at hGet ⊢
  generalize getSymbol (modifySymbol t' sym _) sym = found'
    at hGet ⊢
  cases hGet with
  | none => exact hConds
  | some h =>
      refine foldl_agrees ?_ hConds h.props
      exact fun _ _ _ _ ht hp => addRevDep_agrees sym menu ht hp

/- What an entry gets from the menu above it. -/
theorem propagate_agrees
    {rw : Rewriting}
    {submenu : Nat → Bool}
    {parent parent' : Option Expr}
    (m : Menu)
    (hCond : CondFollows v rw m.id (exprAllocAnd parent m.dep)
      (rw.dep m.id parent' m.dep))
    (hOpen : m.id ∉ done)
    (hAgrees : TableAgrees v done t t') :
    TableAgrees v (m.id :: done)
      (propagate (plainRewriting submenu) parent t m)
      (propagate rw parent' t' m) := by
  unfold propagate
  split
  · exact hAgrees.mono (List.subset_cons_self _ _)
  · exact finalizeProps_agrees hCond hOpen _ hAgrees

theorem setUnknownType_agrees
    (type : SymbolType)
    {s s' : Symbol}
    (hAgrees : SymbolAgrees v done s s') :
    SymbolAgrees v done (setUnknownType type s)
      (setUnknownType type s') := by
  have hSame := hAgrees.same
  unfold setUnknownType
  rw [hAgrees.type]
  split
  · refine ⟨?_, hAgrees.props, hAgrees.revDep⟩
    rw [hSame]
  · exact hAgrees

theorem settleTypes_agrees
    (sym : SymId)
    (list : List Menu)
    (hAgrees : TableAgrees v done t t') :
    TableAgrees v done (settleTypes sym list t)
      (settleTypes sym list t') := by
  have hTypes : typeOf t' = typeOf t :=
    funext hAgrees.typeOf
  have hSet : ∀ (type : SymbolType) (id : SymId)
      (t t' : SymbolTable), TableAgrees v done t t' →
      TableAgrees v done (modifySymbol t id (setUnknownType type))
        (modifySymbol t' id (setUnknownType type)) :=
    fun type id t t' h =>
      h.modify (List.Subset.refl _) id
        (fun _ _ => setUnknownType_agrees type)
  have hFold : ∀ (type : SymbolType) (values : List SymId)
      (t t' : SymbolTable), TableAgrees v done t t' →
      TableAgrees v done
        (values.foldl (fun t value =>
          modifySymbol t value (setUnknownType type)) t)
        (values.foldl (fun t value =>
          modifySymbol t value (setUnknownType type)) t') := by
    intro type values t t' h
    have hEach : List.Forall₂ Eq values values :=
      List.forall₂_refl values
    refine foldl_agrees ?_ h hEach
    rintro t t' id _ ht rfl
    exact hSet type id t t' ht
  unfold settleTypes
  simp only [hTypes]
  split
  · rw [hAgrees.typeOf]
    exact hFold _ _ _ _ hAgrees
  · split
    · rename_i type _ _
      have hMid := hSet type sym t t' hAgrees
      rw [hMid.typeOf]
      exact hFold _ _ _ _ hMid
    · rw [hAgrees.typeOf]
      exact hFold _ _ _ _ hAgrees

/- A guard that is put in front of a condition. -/
theorem PropAgrees.guard
    {p p' : Property}
    (hAgrees : PropAgrees v done p p')
    {menu : Nat}
    (hMenu : p.menu = some menu)
    (hDone : menu ∈ done)
    (guard : Expr) :
    PropAgrees v done
      { p with
        visible := exprAllocAnd (some guard) p.visible }
      { p' with
        visible := exprAllocAnd (some guard) p'.visible } where
  same := by
    have hSame := hAgrees.same
    rw [hSame]
  visible := by
    simp only [exprCalcValue_exprAllocAnd]
    exact (SameVisibility.refl _).and hAgrees.visible
  open' := by
    intro id hId hOpen
    rw [hMenu] at hId
    cases hId
    exact absurd hDone hOpen

theorem adoptValue_agrees
    (c : ChoiceId)
    {value : Nat × SymId}
    (hDone : value.1 ∈ done)
    (hAgrees : TableAgrees v done t t') :
    TableAgrees v done (adoptValue c t value)
      (adoptValue c t' value) := by
  unfold adoptValue
  simp only [hAgrees.typeOf]
  refine hAgrees.modify (List.Subset.refl _) value.2 ?_
  intro s s' h
  have hSame := h.same
  have hChoice : s'.choiceOf = s.choiceOf := by rw [hSame]
  rw [hChoice]
  split
  · exact h
  · refine ⟨?_, ?_, h.revDep⟩
    · rw [hSame]
    · refine List.rel_append ?_ (List.Forall₂.cons ?_ .nil)
      · rw [List.forall₂_map_left_iff,
          List.forall₂_map_right_iff]
        refine h.props.imp ?_
        intro p p' hp
        have hMenu : p'.menu = p.menu := by rw [hp.same]
        rw [hMenu]
        split
        · rename_i hGuard
          have hNew := hp.guard hGuard.2 hDone
            (.equal (.choice c) (.builtin .yes))
          rw [hMenu] at hNew
          exact hNew
        · exact hp
      · exact ⟨rfl, SameVisibility.refl _,
          fun _ _ _ => ⟨rfl, fun x hx => by cases hx⟩⟩

/- The last prompt of an entry, in both tables. -/
theorem lastPrompt_agrees
    {props props' : List Property}
    (hAgrees : List.Forall₂ (PropAgrees v done) props props')
    (menu : Nat) :
    Option.Rel (PropAgrees v done)
      (props.filter (·.isPromptOf menu)).getLast?
      (props'.filter (·.isPromptOf menu)).getLast? := by
  have hFilter : List.Forall₂ (PropAgrees v done)
      (props.filter (·.isPromptOf menu))
      (props'.filter (·.isPromptOf menu)) := by
    refine List.rel_filter ?_ hAgrees
    intro p p' hp
    rw [hp.same]
    rfl
  have hLast : ∀ list list' : List Property,
      List.Forall₂ (PropAgrees v done) list list' →
      Option.Rel (PropAgrees v done)
        list.getLast? list'.getLast? := by
    intro list list' h
    induction h with
    | nil => exact Option.Rel.none
    | cons hHead hTail ih =>
        cases hTail with
        | nil => exact Option.Rel.some hHead
        | cons _ _ => exact ih
  exact hLast _ _ hFilter

theorem choiceRevDep_agrees
    (menu : Nat)
    {s s' : Symbol}
    (hAgrees : SymbolAgrees v done s s') :
    SymbolAgrees v done (choiceRevDep menu s)
      (choiceRevDep menu s') := by
  have hPrompt := lastPrompt_agrees hAgrees.props menu
  have hSame := hAgrees.same
  have hOptional : s'.optional = s.optional := by rw [hSame]
  unfold choiceRevDep
  generalize (s.props.filter (·.isPromptOf menu)).getLast? = found
    at hPrompt ⊢
  generalize (s'.props.filter (·.isPromptOf menu)).getLast? =
    found' at hPrompt ⊢
  cases hPrompt with
  | none => exact hAgrees
  | some hp =>
      simp only
      by_cases hOpt : s.optional = true
      · rw [if_pos hOpt, if_pos (hOptional.trans hOpt)]
        exact hAgrees
      · rw [if_neg hOpt, if_neg (hOptional ▸ hOpt)]
        refine hAgrees.addRevDep ?_
        have hReason : ∀ e : Option Expr,
            revDepValue v
                (exprAllocAnd e (some (.symbol (.builtin .mod)))) =
              (exprCalcValue v e).and (v.tri (.builtin .mod)) := by
          intro e
          cases e <;>
            simp [exprAllocAnd, revDepValue, exprCalcValue,
              Expr.calcValue]
        rw [hReason, hReason]
        exact hp.visible.and (SameVisibility.refl _)

end Steps

------------------------------------------------------------
-- The Whole Traversal
------------------------------------------------------------

mutual

/- The entries below an entry, of every kind. -/
def Menu.nodesBelow : Menu → List Menu
| .config _ _ _ _ _ => []
| .choice _ _ _ _ list => nodesOf list
| .menu _ _ list => nodesOf list
| .ifBlock _ _ list => nodesOf list

/- The entries of a list, at any depth. -/
def nodesOf : List Menu → List Menu
| [] => []
| m :: list => m :: (m.nodesBelow ++ nodesOf list)

end

/-
  An entry as the parser makes them: a choice has the symbol
  of a choice, and a menu has no symbol of another type.
-/
structure Menu.Regular
    (notTristate : Nat → Bool)
    (m : Menu) : Prop where
  named : OptWellNamed m.dep
  choice : ∀ id sym file dep list,
    m = .choice id sym file dep list → sym.isChoice = true
  menu : ∀ id dep list,
    m = .menu id dep list → notTristate id = false

/- The entries that the second loop of a list works on. -/
def belowAll (list : List Menu) : List Menu :=
  list.flatMap Menu.nodesBelow

theorem nodesOf_perm (list : List Menu) :
    (nodesOf list).Perm (list ++ belowAll list) := by
  induction list with
  | nil => exact List.Perm.nil
  | cons m list ih =>
      have hTail : (m.nodesBelow ++ nodesOf list).Perm
          (list ++ (m.nodesBelow ++ belowAll list)) :=
        (ih.append_left m.nodesBelow).trans (by
          rw [← List.append_assoc, ← List.append_assoc]
          exact List.perm_append_comm.append_right _)
      simpa [nodesOf, belowAll] using hTail.cons m

mutual

/- The values of a choice are entries of its list. -/
theorem mem_nodesOf_of_mem_choiceEntry
    (rw : Rewriting)
    (m : Menu)
    {value : Nat × SymId}
    (hMem : value ∈ m.choiceEntry rw) :
    value.1 ∈ (m :: m.nodesBelow).map Menu.id := by
  cases m with
  | config id sym file isMenu dep =>
      unfold Menu.choiceEntry at hMem
      split at hMem
      · cases hMem
      · rw [List.mem_singleton.mp hMem]
        exact List.mem_cons_self
  | choice id sym file dep list =>
      unfold Menu.choiceEntry at hMem
      split at hMem
      · cases hMem
      · rw [List.mem_singleton.mp hMem]
        exact List.mem_cons_self
  | menu id dep list =>
      unfold Menu.choiceEntry at hMem
      cases hMem
  | ifBlock id dep list =>
      unfold Menu.choiceEntry at hMem
      split at hMem
      · cases hMem
      · unfold Menu.nodesBelow
        exact List.mem_cons_of_mem _
          (mem_nodesOf_of_mem_choiceEntries rw list hMem)

theorem mem_nodesOf_of_mem_choiceEntries
    (rw : Rewriting)
    (list : List Menu)
    {value : Nat × SymId}
    (hMem : value ∈ choiceEntries rw list) :
    value.1 ∈ (nodesOf list).map Menu.id := by
  cases list with
  | nil =>
      unfold choiceEntries at hMem
      cases hMem
  | cons m list =>
      unfold choiceEntries at hMem
      have hNodes : nodesOf (m :: list) =
          (m :: m.nodesBelow) ++ nodesOf list := by
        simp [nodesOf]
      rw [hNodes, List.map_append, List.mem_append]
      rcases List.mem_append.mp hMem with hHead | hTail
      · exact Or.inl
          (mem_nodesOf_of_mem_choiceEntry rw m hHead)
      · exact Or.inr
          (mem_nodesOf_of_mem_choiceEntries rw list hTail)

end

section Traversal

variable {v : Values} {types : Nat → SymId → SymbolType}
variable {notTristate : Nat → Bool} (submenu : Nat → Bool)

theorem sameVisibility_exprCond
    (hTyped : ∀ id, v.Typed (types id))
    (hTypes : ∀ id c, types id (.builtin c) ≠ .boolean)
    {base base' visible : Option Expr}
    (hFollows : Follows v base base')
    (hNamed : OptWellNamed visible)
    (id : Nat) :
    SameVisibility (exprCalcValue v (exprAllocAnd base visible))
      (exprCalcValue v
        (exprCond types notTristate id base' visible)) := by
  have hNext := exprBase_follows (hTyped id) (hTypes id)
    hFollows hNamed
  unfold exprCond
  split
  · exact sameVisibility_exprTransBool (hTyped id) hNext
  · exact hNext.sameVisibility

theorem condFollows_exprRewriting
    (hTyped : ∀ id, v.Typed (types id))
    (hTypes : ∀ id c, types id (.builtin c) ≠ .boolean)
    {base base' : Option Expr}
    (hFollows : Follows v base base')
    (menu : Nat) :
    CondFollows v (exprRewriting types notTristate submenu) menu
      base base' :=
  fun _ _ hNamed =>
    sameVisibility_exprCond hTyped hTypes hFollows hNamed menu

/- The first loop of `menu_finalize`. -/
theorem foldl_propagate_agrees
    (hTyped : ∀ id, v.Typed (types id))
    (hTypes : ∀ id c, types id (.builtin c) ≠ .boolean)
    {parent parent' : Option Expr}
    (hFollows : Follows v parent parent')
    {done : List Nat}
    {t t' : SymbolTable}
    (hAgrees : TableAgrees v done t t')
    {list : List Menu}
    (hRegular : ∀ m ∈ list, m.Regular notTristate)
    (hOpen : ∀ m ∈ list, m.id ∉ done)
    (hNodup : (list.map Menu.id).Nodup) :
    TableAgrees v (list.map Menu.id ++ done)
      (list.foldl (propagate (plainRewriting submenu) parent) t)
      (list.foldl
        (propagate (exprRewriting types notTristate submenu)
          parent') t') := by
  induction list generalizing done t t' with
  | nil => exact hAgrees
  | cons m list ih =>
      rw [List.map_cons, List.nodup_cons] at hNodup
      have hDep := exprBase_follows (hTyped m.id) (hTypes m.id)
        hFollows (hRegular m List.mem_cons_self).named
      have hHead : TableAgrees v (m.id :: done)
          (propagate (plainRewriting submenu) parent t m)
          (propagate (exprRewriting types notTristate submenu)
            parent' t' m) :=
        propagate_agrees m
          (condFollows_exprRewriting submenu hTyped hTypes hDep m.id)
          (hOpen m List.mem_cons_self) hAgrees
      have hTail := ih hHead
        (fun n hn => hRegular n (List.mem_cons_of_mem m hn))
        (fun n hn hDone => by
          rcases List.mem_cons.mp hDone with hSame | hOld
          · exact hNodup.1
              (hSame ▸ List.mem_map_of_mem hn)
          · exact hOpen n (List.mem_cons_of_mem m hn) hOld)
        hNodup.2
      refine hTail.mono ?_
      intro id hid
      simp only [List.mem_append, List.mem_cons,
        List.map_cons] at hid ⊢
      tauto

/- What both loops need to know of the entries below a list. -/
structure ListOpen
    (notTristate : Nat → Bool)
    (done : List Nat)
    (list : List Menu) : Prop where
  regular : ∀ m ∈ list, m.Regular notTristate
  notDone : ∀ m ∈ list, m.id ∉ done
  nodup : (list.map Menu.id).Nodup

/- The second loop follows the first one. -/
theorem ListOpen.split
    {done : List Nat}
    {list : List Menu}
    (hOpen : ListOpen notTristate done (nodesOf list)) :
    ListOpen notTristate done list ∧
      ListOpen notTristate (list.map Menu.id ++ done)
        (belowAll list) := by
  have hPerm := nodesOf_perm list
  have hMem : ∀ {m}, m ∈ list ++ belowAll list →
      m ∈ nodesOf list := fun h => hPerm.mem_iff.mpr h
  have hNodup := (hPerm.map Menu.id).nodup_iff.mp hOpen.nodup
  rw [List.map_append, List.nodup_append] at hNodup
  refine ⟨⟨?_, ?_, hNodup.1⟩, ?_, ?_, hNodup.2.1⟩
  · exact fun m hm => hOpen.regular m
      (hMem (List.mem_append_left _ hm))
  · exact fun m hm => hOpen.notDone m
      (hMem (List.mem_append_left _ hm))
  · exact fun m hm => hOpen.regular m
      (hMem (List.mem_append_right _ hm))
  · intro m hm hDone
    rcases List.mem_append.mp hDone with hTop | hOld
    · exact hNodup.2.2 _ hTop _ (List.mem_map_of_mem hm) rfl
    · exact hOpen.notDone m
        (hMem (List.mem_append_right _ hm)) hOld

theorem ListOpen.top
    {done : List Nat}
    {list : List Menu}
    (hOpen : ListOpen notTristate done (nodesOf list)) :
    ∀ m ∈ list, m.Regular notTristate :=
  hOpen.split.1.regular

/- One entry of the second loop comes before the others. -/
theorem ListOpen.cons
    {done : List Nat}
    {m : Menu}
    {list : List Menu}
    (hOpen : ListOpen notTristate done
      (belowAll (m :: list))) :
    ListOpen notTristate done m.nodesBelow ∧
      ListOpen notTristate (m.nodesBelow.map Menu.id ++ done)
        (belowAll list) := by
  have hNodup := hOpen.nodup
  simp only [belowAll, List.flatMap_cons, List.map_append,
    List.nodup_append] at hNodup
  refine ⟨⟨?_, ?_, hNodup.1⟩, ?_, ?_, hNodup.2.1⟩
  · exact fun n hn => hOpen.regular n
      (List.mem_append_left _ hn)
  · exact fun n hn => hOpen.notDone n
      (List.mem_append_left _ hn)
  · exact fun n hn => hOpen.regular n
      (List.mem_append_right _ hn)
  · intro n hn hDone
    rcases List.mem_append.mp hDone with hTop | hOld
    · exact hNodup.2.2 _ hTop _ (List.mem_map_of_mem hn) rfl
    · exact hOpen.notDone n (List.mem_append_right _ hn) hOld

mutual

theorem choiceEntry_congr
    {rw rw' : Rewriting}
    (hSubmenu : rw.submenu = rw'.submenu)
    (m : Menu) :
    m.choiceEntry rw' = m.choiceEntry rw := by
  cases m with
  | config id sym file isMenu dep =>
      simp only [Menu.choiceEntry, hSubmenu]
  | choice id sym file dep list =>
      simp only [Menu.choiceEntry, hSubmenu]
  | menu id dep list => rfl
  | ifBlock id dep list =>
      simp only [Menu.choiceEntry, hSubmenu,
        choiceEntries_congr hSubmenu list]

theorem choiceEntries_congr
    {rw rw' : Rewriting}
    (hSubmenu : rw.submenu = rw'.submenu)
    (list : List Menu) :
    choiceEntries rw' list = choiceEntries rw list := by
  cases list with
  | nil => rfl
  | cons m list =>
      simp only [choiceEntries, choiceEntry_congr hSubmenu m,
        choiceEntries_congr hSubmenu list]

end

theorem adoptValues_agrees
    {rw rw' : Rewriting}
    (hSubmenu : rw.submenu = rw'.submenu)
    (sym : SymId)
    {list : List Menu}
    {done : List Nat}
    (hDone : (nodesOf list).map Menu.id ⊆ done)
    {t t' : SymbolTable}
    (hAgrees : TableAgrees v done t t') :
    TableAgrees v done (adoptValues rw sym list t)
      (adoptValues rw' sym list t') := by
  have hSame := choiceEntries_congr hSubmenu list
  unfold adoptValues
  split
  · rename_i c
    rw [hSame]
    have hEach : List.Forall₂
        (fun a b => a = b ∧ a.1 ∈ done)
        (choiceEntries rw list) (choiceEntries rw list) :=
      List.forall₂_same.mpr (fun value hMem => ⟨rfl, hDone
        (mem_nodesOf_of_mem_choiceEntries rw list hMem)⟩)
    refine foldl_agrees ?_ hAgrees hEach
    rintro t t' value _ ht ⟨rfl, hIn⟩
    exact adoptValue_agrees c hIn ht
  · exact hAgrees

/- Both loops over a list, given what the second one does. -/
theorem loops_agree
    (hTyped : ∀ id, v.Typed (types id))
    (hTypes : ∀ id c, types id (.builtin c) ≠ .boolean)
    {list : List Menu}
    {above above' : Option Expr}
    (hFollows : Follows v above above')
    (hEach : ∀ {done : List Nat} {t t' : SymbolTable},
      TableAgrees v done t t' →
      ListOpen notTristate done (belowAll list) →
      TableAgrees v ((belowAll list).map Menu.id ++ done)
        (finalizeEach (plainRewriting submenu) above list t)
        (finalizeEach (exprRewriting types notTristate submenu)
          above' list t'))
    {done : List Nat}
    {t t' : SymbolTable}
    (hAgrees : TableAgrees v done t t')
    (hOpen : ListOpen notTristate done (nodesOf list)) :
    TableAgrees v ((nodesOf list).map Menu.id ++ done)
      (finalizeEach (plainRewriting submenu) above list
        (list.foldl
          (propagate (plainRewriting submenu) above) t))
      (finalizeEach (exprRewriting types notTristate submenu)
        above' list
        (list.foldl
          (propagate (exprRewriting types notTristate submenu)
            above') t')) := by
  rcases hOpen.split with ⟨hTop, hBelow⟩
  have hFirst := foldl_propagate_agrees submenu
    hTyped hTypes hFollows hAgrees hTop.regular hTop.notDone
    hTop.nodup
  refine (hEach hFirst hBelow).mono ?_
  intro id hid
  have hPerm := ((nodesOf_perm list).map Menu.id).mem_iff
    (a := id)
  rw [List.map_append, List.mem_append] at hPerm
  simp only [List.mem_append, hPerm] at hid ⊢
  tauto

mutual

/- The second loop below one entry. -/
theorem finalizeMenu_agrees
    (hTyped : ∀ id, v.Typed (types id))
    (hTypes : ∀ id c, types id (.builtin c) ≠ .boolean)
    (m : Menu)
    {parent parent' : Option Expr}
    (hFollows : Follows v parent parent')
    {done : List Nat}
    {t t' : SymbolTable}
    (hAgrees : TableAgrees v done t t')
    (hSelf : m.Regular notTristate)
    (hOpen : ListOpen notTristate done m.nodesBelow) :
    TableAgrees v (m.nodesBelow.map Menu.id ++ done)
      (finalizeMenu (plainRewriting submenu) parent m t)
      (finalizeMenu (exprRewriting types notTristate submenu)
        parent' m t') := by
  match m with
  | .config id sym file isMenu dep =>
      rw [finalizeMenu, finalizeMenu]
      exact hAgrees
  | .choice id sym file dep list =>
      have hChoice := hSelf.choice _ _ _ _ _ rfl
      have hAbove := Follows.choice (v := v) hChoice
      rw [finalizeMenu, finalizeMenu]
      simp only [choiceDep, hChoice, if_true]
      have hTypedTable := settleTypes_agrees sym list hAgrees
      have hLoops := loops_agree submenu
        hTyped hTypes hAbove
        (fun ht ho => finalizeEach_agrees hTyped hTypes list
          hAbove ht hOpen.top ho) hTypedTable hOpen
      have hSubmenu : (plainRewriting submenu).submenu =
          (exprRewriting types notTristate submenu).submenu :=
        rfl
      have hAdopted := adoptValues_agrees hSubmenu sym
        (List.subset_append_left _ _) hLoops
      exact hAdopted.modify (List.Subset.refl _) sym
        (fun _ _ => choiceRevDep_agrees id)
  | .menu id dep list =>
      have hPlain := hSelf.menu _ _ _ rfl
      have hDep := exprBase_follows (hTyped id) (hTypes id)
        hFollows hSelf.named
      have hPrompt := exprBase_follows (hTyped id) (hTypes id)
        hDep optWellNamed_none
      have hAbove : Follows v
          ((plainRewriting submenu).cond id 0
            ((plainRewriting submenu).dep id parent dep) none)
          ((exprRewriting types notTristate submenu).cond id 0
            ((exprRewriting types notTristate submenu).dep id
              parent' dep) none) := by
        have hCond : ∀ base,
            (exprRewriting types notTristate submenu).cond id 0
              base none = exprBase (types id) base none := by
          simp [exprRewriting, exprCond, hPlain]
        rw [hCond]
        exact hPrompt
      rw [finalizeMenu, finalizeMenu]
      exact loops_agree submenu hTyped hTypes hAbove
        (fun ht ho => finalizeEach_agrees hTyped hTypes list
          hAbove ht hOpen.top ho) hAgrees hOpen
  | .ifBlock id dep list =>
      have hAbove : Follows v
          ((plainRewriting submenu).dep id parent dep)
          ((exprRewriting types notTristate submenu).dep id
            parent' dep) :=
        exprBase_follows (hTyped id) (hTypes id) hFollows
          hSelf.named
      rw [finalizeMenu, finalizeMenu]
      exact loops_agree submenu hTyped hTypes hAbove
        (fun ht ho => finalizeEach_agrees hTyped hTypes list
          hAbove ht hOpen.top ho) hAgrees hOpen

theorem finalizeEach_agrees
    (hTyped : ∀ id, v.Typed (types id))
    (hTypes : ∀ id c, types id (.builtin c) ≠ .boolean)
    (list : List Menu)
    {parent parent' : Option Expr}
    (hFollows : Follows v parent parent')
    {done : List Nat}
    {t t' : SymbolTable}
    (hAgrees : TableAgrees v done t t')
    (hSelf : ∀ m ∈ list, m.Regular notTristate)
    (hOpen : ListOpen notTristate done (belowAll list)) :
    TableAgrees v ((belowAll list).map Menu.id ++ done)
      (finalizeEach (plainRewriting submenu) parent list t)
      (finalizeEach (exprRewriting types notTristate submenu)
        parent' list t') := by
  match list with
  | [] =>
      rw [finalizeEach, finalizeEach]
      exact hAgrees
  | m :: list =>
      rcases hOpen.cons with ⟨hHead, hTail⟩
      have hFirst := finalizeMenu_agrees hTyped hTypes m hFollows
        hAgrees (hSelf m List.mem_cons_self) hHead
      have hRest := finalizeEach_agrees hTyped hTypes list
        hFollows hFirst
        (fun n hn => hSelf n (List.mem_cons_of_mem m hn)) hTail
      rw [finalizeEach, finalizeEach]
      refine hRest.mono ?_
      intro id hid
      simp only [belowAll, List.flatMap_cons, List.map_append,
        List.mem_append] at hid ⊢
      tauto

end

/- `menu_finalize(&rootmenu)`, with the rewriting and without. -/
theorem finalizeRoot_agrees
    (hTyped : ∀ id, v.Typed (types id))
    (hTypes : ∀ id c, types id (.builtin c) ≠ .boolean)
    {list : List Menu}
    {t : SymbolTable}
    (hAgrees : TableAgrees v [] t t)
    (hRegular : ∀ m ∈ nodesOf list, m.Regular notTristate)
    (hNodup : ((nodesOf list).map Menu.id).Nodup) :
    TableAgrees v ((nodesOf list).map Menu.id)
      (finalizeRoot (plainRewriting submenu) list t)
      (finalizeRoot (exprRewriting types notTristate submenu)
        list t) := by
  have hNone : Follows v none none :=
    ⟨Tristate.Kept.refl _, optWellNamed_none, by rintro x ⟨⟩⟩
  have hOpen : ListOpen notTristate [] (nodesOf list) :=
    ⟨hRegular, fun _ _ => List.not_mem_nil, hNodup⟩
  have hLoops := loops_agree submenu hTyped hTypes hNone
    (fun ht ho => finalizeEach_agrees submenu hTyped hTypes
      list hNone ht hOpen.top ho) hAgrees hOpen
  rw [List.append_nil] at hLoops
  exact hLoops

end Traversal

/- A table whose conditions are well named agrees with itself. -/
theorem tableAgrees_self
    (v : Values)
    {t : SymbolTable}
    (hNamed : ∀ s ∈ t, ∀ p ∈ s.props, OptWellNamed p.visible) :
    TableAgrees v [] t t := by
  refine List.forall₂_same.mpr (fun s hs => ⟨rfl, ?_, ?_⟩)
  · exact List.forall₂_same.mpr (fun p hp =>
      ⟨rfl, SameVisibility.refl _,
        fun _ _ _ => ⟨rfl, hNamed s hs p hp⟩⟩)
  · exact SameVisibility.refl _

end Mkrootfs
