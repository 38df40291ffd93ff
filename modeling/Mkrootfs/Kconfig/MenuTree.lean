import Mkrootfs.Library.Outline
import Mkrootfs.Kconfig.ExprRewriting

/-
  The menu that `menu_finalize` (`menu.c`) builds: entries get
  their dependencies, those that depend on the entry before
  them move into its automatic submenu, and the lists of
  entries without a prompt move up.

  The condition that the values of a tristate choice get when
  they are adopted (`adoptValue`) is left out here.

  Main declarations:
    * `MenuItem`, `menuRules`, `menuFinalize`
    * `menuIsVisible`
    * `menuFinalize_order`, `menuFinalize_shown`
-/

------------------------------------------------------------
-- Entries
------------------------------------------------------------

namespace Mkrootfs

open Outline

/-
  `struct menu` without its place: `prompt` is the condition
  `prompt->visible.expr`, of an entry that has a prompt.
-/
structure MenuItem where
  id : Nat
  sym : Option SymId
  prompt : Option (Option Expr)
  dep : Option Expr
deriving DecidableEq, Repr

/-
  The types of the symbols when the first loop is at an entry,
  and when `menu_finalize` itself is.
-/
structure TypesSeen where
  loop : Nat → SymId → SymbolType
  scan : Nat → SymId → SymbolType

namespace MenuItem

/- `sym && sym_is_choice(sym)`. -/
def isChoice (m : MenuItem) : Bool :=
  m.sym.any SymId.isChoice

/- `parentdep`, of the entries in the list of this one. -/
def parentDep (m : MenuItem) : Option Expr :=
  if m.isChoice then
    m.sym.map Expr.symbol
  else
    m.prompt.getD m.dep

/- What both loops take for the condition of an entry. -/
def cond (m : MenuItem) : Option Expr :=
  m.prompt.getD m.dep

/- The body of the first loop. -/
def enter
    (seen : TypesSeen)
    (parent m : MenuItem) : MenuItem :=
  let notTristate :=
    m.sym.any (fun s => seen.loop m.id s != .tristate)
  let rw := exprRewriting seen.loop (fun _ => notTristate)
    (fun _ => false)
  let basedep := rw.dep m.id parent.parentDep m.dep
  { m with
    dep := basedep
    prompt := m.prompt.map (rw.cond m.id 0 basedep) }

/- A condition, where it is not `n`. -/
def notNo
    (types : SymId → SymbolType)
    (e : Option Expr) : Expr :=
  exprEliminateDups types
    (exprTransform types (exprTransCompare .no .unequal e))

/-
  The tests of an entry `m` that follows `parent`: it names
  the symbol, and either depends on it or is not visible
  where the prompt of `parent` is not.
-/
def takes
    (seen : TypesSeen)
    (parent m : MenuItem) : Bool :=
  match parent.sym with
  | none => false
  | some sym =>
      let types := seen.scan parent.id
      exprContainsSymbol m.cond sym &&
        (exprDependsSymbol m.cond sym ||
          (exprEliminateEq (notNo types m.cond)
            (notNo types (parent.prompt.getD none))).2 ==
              .symbol (.builtin .yes))

end MenuItem

/- The loops of `menu_finalize`. -/
def menuRules (seen : TypesSeen) : OutlineRules MenuItem where
  enter := MenuItem.enter seen
  takes := MenuItem.takes seen
  hides := fun m => m.prompt.isNone

/- `rootmenu`, whose prompt has no condition. -/
def rootMenu : MenuItem where
  id := 0
  sym := none
  prompt := some none
  dep := none

/- `menu_finalize(&rootmenu)`. -/
def menuFinalize
    (seen : TypesSeen)
    (list : List (Outline MenuItem)) : Outline MenuItem :=
  (menuRules seen).finalize (.node rootMenu list)

/- The entries that get a submenu, with those moved there. -/
def menuTaken
    (seen : TypesSeen)
    (list : List (Outline MenuItem)) :
    List (MenuItem × MenuItem) :=
  (menuRules seen).taken (.node rootMenu list)

mutual

/- `menu_is_visible`. -/
def menuIsVisible (v : Values) : Outline MenuItem → Bool
| .node m list =>
    match m.prompt with
    | none => false
    | some visible =>
        exprCalcValue v visible != .no ||
          (m.sym.any (fun s => v.tri s != .no) &&
            anyIsVisible v list)

def anyIsVisible (v : Values) : List (Outline MenuItem) → Bool
| [] => false
| m :: list => menuIsVisible v m || anyIsVisible v list

end

------------------------------------------------------------
-- Order
------------------------------------------------------------

/-
  The menu holds each entry of the tree once, and in the order
  of the files.
-/
theorem menuFinalize_order
    (seen : TypesSeen)
    (list : List (Outline MenuItem)) :
    (preorderAll (menuFinalize seen list).list).map
        (fun m => (m.id, m.sym, m.prompt.isSome)) =
      (preorderAll list).map
        (fun m => (m.id, m.sym, m.prompt.isSome)) := by
  have hKeep := (menuRules seen).map_preorder_finalize
    (fun m => (m.id, m.sym, m.prompt.isSome))
    (fun a b => by
      simp [menuRules, MenuItem.enter])
    (.node rootMenu list)
  rw [preorder_eq_cons, preorder_eq_cons, List.map_cons,
    List.map_cons] at hKeep
  exact (List.cons.inj hKeep).2

------------------------------------------------------------
-- Conditions
------------------------------------------------------------

/- A condition that an assignment decides. -/
def CondDecided (v : Values) (e : Option Expr) : Prop :=
  ∀ x ∈ e, x.WellNamed ∧ v.Decides x

/- A condition after the first loop. -/
structure CondPlaced (v : Values) (e : Option Expr) : Prop where
  decided : CondDecided v e
  normal : ∀ x ∈ e, Transformed (fun _ => .unknown) x

section Conditions

variable {v : Values} {types : SymId → SymbolType}

theorem CondDecided.ne_mod
    {e : Option Expr}
    (hDecided : CondDecided v e) :
    exprCalcValue v e ≠ .mod := by
  cases e with
  | none => exact fun h => by cases h
  | some x => exact (hDecided x rfl).2.ne_mod

theorem Values.Decides.and
    {a b : Expr}
    (ha : v.Decides a)
    (hb : v.Decides b) :
    v.Decides (.and a b) :=
  List.forall_mem_append.mpr ⟨ha, hb⟩

/- The conjunction that the first loop builds is exact. -/
theorem exprBase_placed
    (hTyped : v.Typed types)
    (hTypes : ∀ c, types (.builtin c) ≠ .boolean)
    {base dep : Option Expr}
    (hBase : CondPlaced v base)
    (hDep : CondDecided v dep) :
    CondPlaced v (exprBase types base dep) ∧
      exprCalcValue v (exprBase types base dep) =
        (exprCalcValue v base).and (exprCalcValue v dep) := by
  have hSelf : Follows v base base :=
    ⟨Tristate.Kept.refl _, fun x hx => (hBase.decided x hx).1,
      hBase.normal⟩
  have hNext := exprBase_follows hTyped hTypes hSelf
    (fun x hx => (hDep x hx).1)
  have hSum : CondDecided v (exprAllocAnd base dep) :=
    forall_mem_exprAllocAnd
      (fun ha hb => ⟨ha.1.and hb.1, ha.2.and hb.2⟩)
      hBase.decided hDep
  have hJoin : ∀ x ∈ exprAllocAnd base
      (dep.map (exprTransform types)), v.Decides x := by
    refine forall_mem_exprAllocAnd Values.Decides.and
      (fun x hx => (hBase.decided x hx).2) ?_
    intro x hx
    rcases Option.map_eq_some_iff.mp hx with ⟨a, ha, rfl⟩
    exact decides_exprTransform hTyped hTypes (hDep a ha).2
  refine ⟨⟨fun x hx => ⟨hNext.named x hx, ?_⟩,
    hNext.normal⟩, ?_⟩
  · rcases Option.map_eq_some_iff.mp hx with ⟨a, ha, rfl⟩
    exact (exprEliminateDups_simplifies types a).1.decides v
      hTyped (hJoin a ha)
  · rw [hNext.kept hSum.ne_mod, exprCalcValue_exprAllocAnd]

/- Without `m`, `expr_trans_bool` changes no condition. -/
theorem exprTransBool_placed
    (hTyped : v.Typed types)
    {e : Option Expr}
    (hPlaced : CondPlaced v e) :
    CondPlaced v (e.map (exprTransBool types)) ∧
      exprCalcValue v (e.map (exprTransBool types)) =
        exprCalcValue v e := by
  cases e with
  | none => exact ⟨hPlaced, rfl⟩
  | some x =>
      rcases hPlaced.decided x rfl with ⟨hNamed, hDecides⟩
      have hNormal := hPlaced.normal x rfl
      have hBool := decides_exprTransBool types hDecides
      refine ⟨⟨?_, ?_⟩, ?_⟩
      · rintro y ⟨⟩
        exact ⟨wellNamed_exprTransBool types hNamed, hBool⟩
      · rintro y ⟨⟩
        exact transformed_exprTransBool types hNormal
      · have hValue := calcValue_exprTransBool hTyped hNormal
        have hNe := hDecides.ne_mod
        have hNe' := hBool.ne_mod
        simp only [Option.map_some, exprCalcValue]
        revert hValue hNe hNe'
        generalize (exprTransBool types x).calcValue v = a
        generalize x.calcValue v = b
        cases a <;> cases b <;> decide

/- The comparison with `n` that the second loop makes. -/
theorem calcValue_notNo
    (hTyped : v.Typed types)
    {e : Option Expr}
    (hDecided : CondDecided v e) :
    (MenuItem.notNo types e).calcValue v =
      if exprCalcValue v e = .no then .no else .yes := by
  have hCompare := calcValue_exprTransCompare hTyped.builtinTri
    hTyped.builtinStr (c := .no) (by decide) .unequal
    (fun x hx => (hDecided x hx).2)
  have hNamed : (exprTransCompare .no .unequal e).WellNamed := by
    cases e with
    | none => exact Expr.wellNamed_builtin _
    | some x =>
        exact wellNamed_transCompare .no .unequal
          (hDecided x rfl).1
  have hKept := (exprEliminateDups_simplifies types
    (exprTransform types
      (exprTransCompare .no .unequal e))).1.kept v hTyped
        (wellNamed_exprTransform types hNamed)
  rw [calcValue_exprTransform hTyped, hCompare] at hKept
  unfold MenuItem.notNo
  rw [hKept]
  · rfl
  · simp only [Comparison.eval]
    split <;> decide

end Conditions

------------------------------------------------------------
-- Visibility
------------------------------------------------------------

namespace MenuItem

/-
  An entry whose conditions an assignment decides.  A choice
  without a prompt has no value, since nothing is visible.
-/
structure Decided (v : Values) (m : MenuItem) : Prop where
  dep : CondDecided v m.dep
  prompt : ∀ c ∈ m.prompt, CondDecided v c
  choice : ∀ s ∈ m.sym, s.isChoice = true →
    v.Decides (.symbol s) ∧ (m.prompt = none → v.tri s = .no)

/- An entry after the first loop. -/
structure Placed (v : Values) (m : MenuItem) : Prop extends
    Decided v m where
  depPlaced : CondPlaced v m.dep
  promptPlaced : ∀ c ∈ m.prompt, CondPlaced v c

/- An entry whose conditions imply those of its list. -/
structure Below (v : Values) (a b : MenuItem) : Prop where
  dep : exprCalcValue v b.dep ≤ exprCalcValue v a.parentDep
  prompt : ∀ c ∈ b.prompt,
    exprCalcValue v c ≤ exprCalcValue v a.parentDep

/- An entry that is visible, or whose symbol is set. -/
def Opens (v : Values) (m : MenuItem) : Prop :=
  (∃ c ∈ m.prompt, exprCalcValue v c ≠ .no) ∨
    ∃ s ∈ m.sym, v.tri s ≠ .no

section Placement

variable {v : Values} {seen : TypesSeen}

theorem Placed.parentDep
    {m : MenuItem}
    (hPlaced : m.Placed v) :
    CondPlaced v m.parentDep := by
  unfold MenuItem.parentDep
  split
  · rename_i hChoice
    unfold isChoice at hChoice
    cases hSym : m.sym with
    | none =>
        rw [hSym] at hChoice
        cases hChoice
    | some s =>
        rw [hSym] at hChoice
        have hIs : s.isChoice = true := hChoice
        refine ⟨?_, ?_⟩
        · rintro x ⟨⟩
          refine ⟨?_, (hPlaced.choice s hSym hIs).1⟩
          intro t ht
          rw [List.mem_singleton.mp ht]
          cases s with
          | choice c => trivial
          | _ => cases hIs
        · rintro x ⟨⟩
          trivial
  · cases hPrompt : m.prompt with
    | none => exact hPlaced.depPlaced
    | some c => exact hPlaced.promptPlaced c hPrompt

/- What the first loop hands down. -/
theorem enter_placed
    (hTyped : ∀ id, v.Typed (seen.loop id))
    (hTypes : ∀ id c, seen.loop id (.builtin c) ≠ .boolean)
    {a b : MenuItem}
    (ha : a.Placed v)
    (hb : b.Decided v) :
    (enter seen a b).Placed v ∧ Below v a (enter seen a b) := by
  have hDep := exprBase_placed (hTyped b.id) (hTypes b.id)
    ha.parentDep hb.dep
  have hPrompt : ∀ c ∈ (enter seen a b).prompt,
      CondPlaced v c ∧
        exprCalcValue v c ≤ exprCalcValue v a.parentDep := by
    intro c hc
    rcases Option.map_eq_some_iff.mp hc with ⟨visible, hv, rfl⟩
    have hVisible := exprBase_placed (hTyped b.id)
      (hTypes b.id) hDep.1 (hb.prompt visible hv)
    have hLe : exprCalcValue v
        (exprBase (seen.loop b.id)
          (exprBase (seen.loop b.id) a.parentDep b.dep)
          visible) ≤ exprCalcValue v a.parentDep := by
      rw [hVisible.2, hDep.2]
      exact (Tristate.and_le_left _ _).trans
        (Tristate.and_le_left _ _)
    simp only [exprRewriting, exprCond]
    split
    · have hBool := exprTransBool_placed (hTyped b.id)
        hVisible.1
      exact ⟨hBool.1, hBool.2.trans_le hLe⟩
    · exact ⟨hVisible.1, hLe⟩
  have hNone : (enter seen a b).prompt = none →
      b.prompt = none := Option.map_eq_none_iff.mp
  refine ⟨⟨⟨hDep.1.decided, fun c hc => (hPrompt c hc).1.decided,
    fun s hs hIs => ?_⟩, hDep.1, fun c hc => (hPrompt c hc).1⟩,
    ?_, fun c hc => (hPrompt c hc).2⟩
  · exact ⟨(hb.choice s hs hIs).1,
      fun h => (hb.choice s hs hIs).2 (hNone h)⟩
  · exact hDep.2.trans_le (Tristate.and_le_left _ _)

/- The tests of the second loop are sound. -/
theorem opens_of_takes
    (hTyped : ∀ id, v.Typed (seen.scan id))
    {a b : MenuItem}
    (ha : a.Placed v)
    (hb : b.Placed v)
    (hTakes : takes seen a b = true)
    (hPrompt : a.prompt ≠ none)
    (hCond : exprCalcValue v b.cond ≠ .no) :
    a.Opens v := by
  have hDecided : CondDecided v b.cond := by
    unfold MenuItem.cond
    cases h : b.prompt with
    | none => exact hb.dep
    | some c => exact hb.prompt c h
  cases hSym : a.sym with
  | none => simp [takes, hSym] at hTakes
  | some s =>
      simp only [takes, hSym, Bool.and_eq_true,
        Bool.or_eq_true, beq_iff_eq] at hTakes
      rcases hTakes.2 with hDepends | hRest
      · refine Or.inr ⟨s, hSym, fun hNo => hCond ?_⟩
        revert hDepends hDecided
        cases b.cond with
        | none => exact fun _ h => by cases h
        | some x =>
            exact fun hx hDepends =>
              Expr.calcValue_eq_no_of_depends
                (hTyped a.id).builtinStr (hx x rfl).2
                hDepends hNo
      · obtain ⟨c, hc⟩ := Option.ne_none_iff_exists'.mp hPrompt
        refine Or.inl ⟨c, hc, fun hNo => ?_⟩
        have hLe := calcValue_le_of_exprEliminateEq
          (hTyped a.id).builtinTri hRest
        rw [hc, Option.getD_some,
          calcValue_notNo (hTyped a.id) hDecided,
          calcValue_notNo (hTyped a.id) (ha.prompt c hc),
          if_neg hCond, if_pos hNo] at hLe
        exact absurd hLe (by decide)

/- Conditions below an entry without a prompt. -/
theorem Placed.ne_no_of_hidden
    {a : MenuItem}
    (ha : a.Placed v)
    (hHidden : a.prompt = none)
    {t : Tristate}
    (ht : t ≤ exprCalcValue v a.parentDep)
    (hNo : t ≠ .no) :
    exprCalcValue v a.dep ≠ .no ∧
      exprCalcValue v a.parentDep = exprCalcValue v a.dep := by
  unfold MenuItem.parentDep at ht ⊢
  split at ht
  · rename_i hChoice
    unfold isChoice at hChoice
    cases hSym : a.sym with
    | none =>
        rw [hSym] at hChoice
        cases hChoice
    | some s =>
        rw [hSym] at hChoice ht
        have hValue := (ha.choice s hSym hChoice).2 hHidden
        have hZero : exprCalcValue v
            (Option.map Expr.symbol (some s)) = .no := hValue
        rw [hZero] at ht
        exact absurd (le_antisymm ht (Tristate.no_le _)) hNo
  · rename_i hOther
    rw [if_neg hOther, hHidden] at *
    refine ⟨fun h => hNo ?_, rfl⟩
    rw [Option.getD_none, h] at ht
    exact le_antisymm ht (Tristate.no_le _)

end Placement

/- Entries, one in the list of the other. -/
structure Bound
    (v : Values)
    (a b : MenuItem) : Prop where
  placed : a.Placed v ∧ b.Placed v
  below : Below v a b

/- An entry that is visible is in the list of an open one. -/
def Fits (v : Values) (a b : MenuItem) : Prop :=
  ∀ c ∈ b.prompt, exprCalcValue v c ≠ .no → a.Opens v

/- The loops of `menu_finalize` make entries fit. -/
theorem menuRules_fit
    {v : Values}
    {seen : TypesSeen}
    (hTyped : ∀ id, v.Typed (seen.scan id)) :
    (menuRules seen).shy.Fit (Bound v) (Fits v) where
  hidden := by
    intro a b c hHides hab hbc
    have hNone := Option.isNone_iff_eq_none.mp hHides
    have hStep : ∀ t : Tristate,
        t ≤ exprCalcValue v b.parentDep →
        t ≤ exprCalcValue v a.parentDep := by
      intro t ht
      by_cases hNo : t = .no
      · rw [hNo]
        exact Tristate.no_le _
      · have hDep := hab.placed.2.ne_no_of_hidden hNone
          ht hNo
        exact ht.trans (hDep.2 ▸ hab.below.dep)
    exact ⟨⟨hab.placed.1, hbc.placed.2⟩,
      ⟨hStep _ hbc.below.dep,
        fun c hc => hStep _ (hbc.below.prompt c hc)⟩⟩
  listed := by
    intro a b hShown hab c hc hValue
    have hParent : exprCalcValue v a.parentDep ≠ .no := by
      intro hNo
      have hLe := hab.below.prompt c hc
      rw [hNo] at hLe
      exact hValue (le_antisymm hLe (Tristate.no_le _))
    unfold MenuItem.parentDep at hParent
    split at hParent
    · cases hSym : a.sym with
      | none =>
          rename_i hChoice
          simp [isChoice, hSym] at hChoice
      | some s =>
          rw [hSym] at hParent
          exact Or.inr ⟨s, hSym, hParent⟩
    · cases hPrompt : a.prompt with
      | none =>
          simp [menuRules, OutlineRules.shy, hPrompt]
            at hShown
      | some p =>
          rw [hPrompt] at hParent
          exact Or.inl ⟨p, hPrompt, hParent⟩
  taken := by
    intro p a b hpa hpb hTakes hShown c hc hValue
    have hCond : b.cond = c := by
      rw [MenuItem.cond, hc, Option.getD_some]
    refine opens_of_takes hTyped hpa.placed.2 hpb.placed.2
      (Bool.and_eq_true_iff.mp hTakes).2 ?_ (hCond ▸ hValue)
    exact fun h => by
      simp [menuRules, OutlineRules.shy, h] at hShown
  takenBelow := by
    intro p a b c hpa hpb hTakes hShown hHides hbc x hx hValue
    have hNone := Option.isNone_iff_eq_none.mp hHides
    have hDep := hpb.placed.2.ne_no_of_hidden hNone
      (hbc.below.prompt x hx) hValue
    have hCond : b.cond = b.dep := by
      rw [MenuItem.cond, hNone, Option.getD_none]
    refine opens_of_takes hTyped hpa.placed.2 hpb.placed.2
      (Bool.and_eq_true_iff.mp hTakes).2 ?_ (hCond ▸ hDep.1)
    exact fun h => by
      simp [menuRules, OutlineRules.shy, h] at hShown
  quiet := by
    intro p a b hpa hpb hHides
    change (!(menuRules seen).hides a && _) = false
    have hHidden : (menuRules seen).hides a = true := hHides
    rw [hHidden]
    rfl

end MenuItem

theorem anyIsVisible_of_mem
    {v : Values}
    {m : Outline MenuItem}
    {list : List (Outline MenuItem)}
    (hMem : m ∈ list)
    (hVisible : menuIsVisible v m = true) :
    anyIsVisible v list = true := by
  induction list with
  | nil => cases hMem
  | cons x list ih =>
      rw [anyIsVisible, Bool.or_eq_true]
      rcases List.mem_cons.mp hMem with rfl | hTail
      · exact Or.inl hVisible
      · exact Or.inr (ih hTail)

/- A prompt that can be seen is enough. -/
theorem menuIsVisible_of_prompt
    {v : Values}
    {m : Outline MenuItem}
    {c : Option Expr}
    (hPrompt : m.label.prompt = some c)
    (hValue : exprCalcValue v c ≠ .no) :
    menuIsVisible v m = true := by
  cases m with
  | node a list =>
      have hSome : a.prompt = some c := hPrompt
      simp [menuIsVisible, hSome, hValue]

/- An open entry is visible if one in its list is. -/
theorem menuIsVisible_of_opens
    {v : Values}
    {m c : Outline MenuItem}
    (hPrompt : m.label.prompt ≠ none)
    (hOpens : m.label.Opens v)
    (hMem : c ∈ m.list)
    (hVisible : menuIsVisible v c = true) :
    menuIsVisible v m = true := by
  rcases hOpens with ⟨p, hp, hValue⟩ | ⟨s, hs, hSet⟩
  · exact menuIsVisible_of_prompt hp hValue
  · cases m with
    | node a list =>
        obtain ⟨p, hp⟩ := Option.ne_none_iff_exists'.mp hPrompt
        have hSome : a.prompt = some p := hp
        have hSym : a.sym = some s := hs
        have hAny : anyIsVisible v list = true :=
          anyIsVisible_of_mem hMem hVisible
        simp [menuIsVisible, hSome, hSym, hSet, hAny]

/-
  Without `m`, no entry gets lost in the menu: one that is
  visible stands in the list of one that is shown, and those
  without a prompt have no list.  Only where an option without
  a prompt takes entries may one have moved elsewhere.
-/
theorem menuFinalize_shown
    {v : Values}
    {seen : TypesSeen}
    (hLoop : ∀ id, v.Typed (seen.loop id))
    (hScan : ∀ id, v.Typed (seen.scan id))
    (hTypes : ∀ id c, seen.loop id (.builtin c) ≠ .boolean)
    {list : List (Outline MenuItem)}
    (hDecided : ∀ m ∈ preorderAll list, m.Decided v)
    (hQuiet : ∀ ab ∈ menuTaken seen list,
      ab.1.prompt ≠ none) :
    ∀ m ∈ (menuFinalize seen list).subtrees,
      (m.label.prompt = none → m.list = []) ∧
        ∀ c ∈ m.list, ∀ visible ∈ c.label.prompt,
          exprCalcValue v visible ≠ .no →
          menuIsVisible v m = true := by
  have hRoot : rootMenu.Placed v := by
    refine ⟨⟨?_, ?_, ?_⟩, ⟨?_, ?_⟩, ?_⟩
    · rintro x ⟨⟩
    · rintro c ⟨⟩ x ⟨⟩
    · rintro s ⟨⟩
    · rintro x ⟨⟩
    · rintro x ⟨⟩
    · rintro c ⟨⟩
      exact ⟨by rintro x ⟨⟩, by rintro x ⟨⟩⟩
  have hEnter : ∀ a b : MenuItem, a.Placed v → b.Decided v →
      ((menuRules seen).shy.enter a b).Placed v ∧
        MenuItem.Bound v a
          ((menuRules seen).shy.enter a b) := by
    intro a b ha hb
    have hBoth := MenuItem.enter_placed hLoop hTypes ha hb
    exact ⟨hBoth.1, ⟨ha, hBoth.1⟩, hBoth.2⟩
  have hSpread := OutlineRules.each_spread
    (m := .node rootMenu list) hEnter hRoot hDecided
  have hSettled :=
    (MenuItem.menuRules_fit hScan).settled_finalize hSpread.1
  have hShy : (menuRules seen).shy.finalize
        (.node rootMenu list) =
      menuFinalize seen list := by
    apply OutlineRules.finalize_shy
    intro ab hTaken
    rw [menuRules, Option.isNone_eq_false_iff,
      Option.isSome_iff_ne_none]
    exact hQuiet ab hTaken
  rw [hShy] at hSettled
  intro m hm
  have hFlat : m.label.prompt = none → m.list = [] := by
    intro hNone
    rcases hSettled.flat_of_mem_subtrees hm with rfl | hFlat
    · have hLabel := (menuRules seen).label_settle
        (OutlineRules.cost (.node rootMenu list) [])
        (.node rootMenu list) []
      rw [menuFinalize, OutlineRules.finalize, hLabel]
        at hNone
      cases hNone
    · exact hFlat (Option.isNone_iff_eq_none.mpr hNone)
  refine ⟨hFlat, fun c hc visible hVisible hValue => ?_⟩
  have hPrompt : m.label.prompt ≠ none := by
    intro hNone
    rw [hFlat hNone] at hc
    cases hc
  have hFits : MenuItem.Fits v m.label c.label := by
    cases hSettled.of_mem_subtrees hm with
    | node below flat bound fits =>
        refine fits ?_ c hc
        rw [← Bool.not_eq_true]
        exact fun h => hPrompt (Option.isNone_iff_eq_none.mp h)
  exact menuIsVisible_of_opens hPrompt
    (hFits visible hVisible hValue) hc
    (menuIsVisible_of_prompt hVisible hValue)

/-
  `T` depends on `S`, which stands before it, and `R` on `P`,
  which has no prompt and is not next to it.
-/
def dependentMenu : List (Outline MenuItem) :=
  let s : SymId := .named "S".toList
  let p : SymId := .named "P".toList
  [.node ⟨1, some s, some none, none⟩ [],
    .node ⟨2, some (.named "T".toList), some none,
      some (.symbol s)⟩ [],
    .node ⟨3, some p, none, none⟩ [],
    .node ⟨4, some (.named "Q".toList), some none, none⟩ [],
    .node ⟨5, some (.named "R".toList), some none,
      some (.symbol p)⟩ []]

def optionsSeen : TypesSeen :=
  ⟨fun _ => optionTypes, fun _ => optionTypes⟩

theorem menuFinalize_shown_dependent :
    let menu := menuFinalize optionsSeen dependentMenu
    menu.list.map (fun m =>
        (m.label.id, m.list.map (fun c => c.label.id))) =
      [(1, [2]), (3, []), (4, []), (5, [])] ∧
    ∀ m ∈ menu.subtrees,
      (m.label.prompt = none → m.list = []) ∧
        ∀ c ∈ m.list, ∀ visible ∈ c.label.prompt,
          exprCalcValue (.setting ["S".toList]) visible ≠ .no →
          menuIsVisible (.setting ["S".toList]) m = true := by
  have hTyped := Values.setting_typed ["S".toList]
  refine ⟨by decide +kernel, menuFinalize_shown
    (fun _ => hTyped) (fun _ => hTyped)
    (fun _ c h => by cases h) ?_ (by decide +kernel)⟩
  have hNone : CondDecided (.setting ["S".toList]) none := by
    rintro x ⟨⟩
  have hOption : ∀ name : Text,
      CondDecided (.setting ["S".toList])
        (some (.symbol (.named name))) := by
    rintro name x ⟨⟩
    refine ⟨fun s hs => ?_, fun s hs => ?_⟩
    · rw [List.mem_singleton.mp hs]
      trivial
    · rw [List.mem_singleton.mp hs]
      refine ⟨?_, rfl⟩
      simp only [Values.setting]
      split
      · decide
      · decide
  have hDecided : ∀ (id : Nat) (sym : Text)
      (prompt : Option (Option Expr)) (dep : Option Expr),
      (∀ c ∈ prompt, c = none) →
      CondDecided (.setting ["S".toList]) dep →
      MenuItem.Decided (.setting ["S".toList])
        ⟨id, some (.named sym), prompt, dep⟩ := by
    refine fun id sym prompt dep hPrompt hDep =>
      ⟨hDep, ?_, ?_⟩
    · intro c hc
      rw [hPrompt c hc]
      exact hNone
    · rintro s ⟨⟩ hIs
      cases hIs
  have hPlain : ∀ c ∈ some (none : Option Expr), c = none := by
    rintro c ⟨⟩
    rfl
  simp only [dependentMenu, preorderAll, preorder,
    List.append_nil, List.cons_append, List.nil_append,
    List.forall_mem_cons]
  refine ⟨hDecided _ _ _ _ hPlain hNone,
    hDecided _ _ _ _ hPlain (hOption _),
    hDecided _ _ _ _ (by rintro c ⟨⟩) hNone,
    hDecided _ _ _ _ hPlain hNone,
    hDecided _ _ _ _ hPlain (hOption _), ?_⟩
  rintro m ⟨⟩

/-
  Where an option without a prompt stands between: `C`, which
  needs `B` unset, moves under `B` and from there into the
  list of `S`.  It is visible, and `S` is not.
-/
example :
    let s : SymId := .named "S".toList
    let b : SymId := .named "B".toList
    let menu := menuFinalize optionsSeen
      [.node ⟨1, some s, some none,
          some (.symbol (.named "X".toList))⟩ [],
        .node ⟨2, some b, none, some (.symbol s)⟩ [],
        .node ⟨3, some (.named "C".toList), some none,
          some (.not (.symbol b))⟩ []]
    menu.list.map (fun m => (m.label.id,
        menuIsVisible (.setting []) m,
        m.list.map (fun c => (c.label.id,
          menuIsVisible (.setting []) c)))) =
      [(1, false, [(2, false), (3, true)])] := by
  decide +kernel

end Mkrootfs
