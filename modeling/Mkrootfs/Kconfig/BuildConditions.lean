import Mkrootfs.Kconfig.ParsedConditions
import Mkrootfs.Kconfig.ReverseDeps

/-
  The conditions of `build_select` lines: as the files give
  them, and as `menu_finalize` leaves them.

  Main declarations:
    * `depsOf`
    * `KeepsCondition`, `RewritesLines`
    * `LineLeft`, `TableLeft`
    * `finalizeRoot_left`
    * `HasLine`, `exists_hasLine_of_counts`
-/

------------------------------------------------------------
-- Dependencies Of Entries
------------------------------------------------------------

namespace Mkrootfs

mutual

/- The dependencies that the entries below an entry get. -/
def Menu.depsBelow
    (rw : Rewriting)
    (dep : Option Expr) :
    Menu → List (Nat × Option Expr)
| .config _ _ _ _ _ => []
| .choice _ sym _ _ list => depsOf rw (some (.symbol sym)) list
| .menu id _ list => depsOf rw (rw.cond id 0 dep none) list
| .ifBlock _ _ list => depsOf rw dep list

/-
  The dependency of each entry of a list, at any depth: its
  own with what is above it.  With `Rewriting.plain` these
  are the conditions as the files give them.
-/
def depsOf
    (rw : Rewriting)
    (above : Option Expr) :
    List Menu → List (Nat × Option Expr)
| [] => []
| m :: list =>
    (m.id, rw.dep m.id above m.dep) ::
      (m.depsBelow rw (rw.dep m.id above m.dep) ++
        depsOf rw above list)

end

/- The dependencies below the entries of a list. -/
def depsBelowAll
    (rw : Rewriting)
    (above : Option Expr)
    (list : List Menu) : List (Nat × Option Expr) :=
  list.flatMap (fun m => m.depsBelow rw (rw.dep m.id above m.dep))

/- The dependencies of the entries of a list alone. -/
def depsHere
    (rw : Rewriting)
    (above : Option Expr)
    (list : List Menu) : List (Nat × Option Expr) :=
  list.map (fun m => (m.id, rw.dep m.id above m.dep))

theorem mem_depsOf_iff
    {rw : Rewriting}
    {above : Option Expr}
    {list : List Menu}
    {dep : Nat × Option Expr} :
    dep ∈ depsOf rw above list ↔
      dep ∈ depsHere rw above list ∨
        dep ∈ depsBelowAll rw above list := by
  induction list with
  | nil => simp [depsOf, depsHere, depsBelowAll]
  | cons m list ih =>
      simp only [depsOf, depsHere, depsBelowAll, List.map_cons,
        List.flatMap_cons, List.mem_cons, List.mem_append,
        ih]
      tauto

mutual

theorem map_fst_depsBelow
    (rw : Rewriting)
    (dep : Option Expr)
    (m : Menu) :
    (m.depsBelow rw dep).map Prod.fst =
      m.nodesBelow.map Menu.id := by
  cases m with
  | config id sym file isMenu dep => rfl
  | choice id sym file dep list =>
      exact map_fst_depsOf rw _ list
  | menu id dep list => exact map_fst_depsOf rw _ list
  | ifBlock id dep list => exact map_fst_depsOf rw _ list

theorem map_fst_depsOf
    (rw : Rewriting)
    (above : Option Expr)
    (list : List Menu) :
    (depsOf rw above list).map Prod.fst =
      (nodesOf list).map Menu.id := by
  cases list with
  | nil => rfl
  | cons m list =>
      simp only [depsOf, nodesOf, List.map_cons,
        List.map_append, map_fst_depsBelow rw _ m,
        map_fst_depsOf rw above list]

end

------------------------------------------------------------
-- Values Of A Choice
------------------------------------------------------------

mutual

/- A value of a choice is under all that is above the choice. -/
theorem exists_depsOf_of_mem_choiceEntry
    (v : Values)
    (rw : Rewriting)
    (m : Menu)
    (above : Option Expr)
    {value : Nat × SymId}
    (hMem : value ∈ m.choiceEntry rw) :
    ∃ dep,
      (value.1, dep) ∈ depsOf .plain above [m] ∧
        exprCalcValue v dep ≤ exprCalcValue v above := by
  have hDep : exprCalcValue v (exprAllocAnd above m.dep) ≤
      exprCalcValue v above := by
    rw [exprCalcValue_exprAllocAnd]
    exact Tristate.and_le_left _ _
  cases m with
  | config id sym file isMenu dep =>
      unfold Menu.choiceEntry at hMem
      split at hMem
      · cases hMem
      · rw [List.mem_singleton.mp hMem]
        exact ⟨_, List.mem_cons_self, hDep⟩
  | choice id sym file dep list =>
      unfold Menu.choiceEntry at hMem
      split at hMem
      · cases hMem
      · rw [List.mem_singleton.mp hMem]
        exact ⟨_, List.mem_cons_self, hDep⟩
  | menu id dep list =>
      unfold Menu.choiceEntry at hMem
      cases hMem
  | ifBlock id dep list =>
      unfold Menu.choiceEntry at hMem
      split at hMem
      · cases hMem
      · rcases exists_depsOf_of_mem_choiceEntries v rw list
          (exprAllocAnd above dep) hMem with
          ⟨inner, hInner, hLe⟩
        refine ⟨inner, ?_, hLe.trans hDep⟩
        simp only [depsOf, Menu.depsBelow, List.append_nil]
        exact List.mem_cons_of_mem _ hInner

theorem exists_depsOf_of_mem_choiceEntries
    (v : Values)
    (rw : Rewriting)
    (list : List Menu)
    (above : Option Expr)
    {value : Nat × SymId}
    (hMem : value ∈ choiceEntries rw list) :
    ∃ dep,
      (value.1, dep) ∈ depsOf .plain above list ∧
        exprCalcValue v dep ≤ exprCalcValue v above := by
  cases list with
  | nil =>
      unfold choiceEntries at hMem
      cases hMem
  | cons m list =>
      unfold choiceEntries at hMem
      rcases List.mem_append.mp hMem with hHead | hTail
      · rcases exists_depsOf_of_mem_choiceEntry v rw m above
          hHead with ⟨dep, hDep, hLe⟩
        refine ⟨dep, ?_, hLe⟩
        simp only [depsOf, List.append_nil, List.mem_cons,
          List.mem_append] at hDep ⊢
        tauto
      · rcases exists_depsOf_of_mem_choiceEntries v rw list
          above hTail with ⟨dep, hDep, hLe⟩
        refine ⟨dep, ?_, hLe⟩
        simp only [depsOf, List.mem_cons, List.mem_append]
        tauto

end

------------------------------------------------------------
-- The Rewriting Of A Line
------------------------------------------------------------

/- The `build_select` lines of a symbol. -/
def Symbol.buildSelects (s : Symbol) : List Property :=
  s.props.filter (fun p => p.type == .buildSelect)

/-
  A condition in which the rewriting finds nothing to do: it
  is only put behind the dependency of its entry.
-/
structure KeepsCondition
    (types : Nat → SymId → SymbolType)
    (notTristate : Nat → Bool)
    (id : Nat)
    (base : Option Expr)
    (cond : Expr) : Prop where
  checked : menuCheckDep cond = cond
  left : exprCond types notTristate id base (some cond) =
    exprAllocAnd base (some cond)

/-
  What is certain of the rewriting.  The parser hands the
  condition of a `build_select` to two properties as one
  expression, which is rewritten in place for both: what
  becomes of one that changes is left open.
-/
structure RewritesLines
    (types : Nat → SymId → SymbolType)
    (notTristate : Nat → Bool)
    (rw : Rewriting) : Prop where
  dep : ∀ id, rw.dep id = exprBase (types id)
  alone : ∀ id k base,
    rw.cond id k base none =
      exprCond types notTristate id base none
  kept : ∀ id k base cond,
    KeepsCondition types notTristate id base cond →
    rw.cond id k base (some cond) =
      exprAllocAnd base (some cond)

theorem rewritesLines_exprRewriting
    (types : Nat → SymId → SymbolType)
    (notTristate submenu : Nat → Bool) :
    RewritesLines types notTristate
      (exprRewriting types notTristate submenu) :=
  ⟨fun _ => rfl, fun _ _ _ => rfl, fun _ _ _ _ h => h.left⟩

/-
  The rewriting finds nothing to do in the conditions of the
  lines of these entries.
-/
def ConditionsKept
    (types : Nat → SymId → SymbolType)
    (notTristate : Nat → Bool)
    (t₀ : SymbolTable)
    (deps : List (Nat × Option Expr)) : Prop :=
  ∀ dep ∈ deps, ∀ s ∈ t₀, ∀ p ∈ s.buildSelects,
    p.menu = some dep.1 → ∀ cond ∈ p.visible,
      KeepsCondition types notTristate dep.1 dep.2 cond

/-
  The values of a configuration fit the types that symbols
  have when an entry is reached, those of choices always.
-/
structure FitsTypes
    (types : Nat → SymId → SymbolType)
    (v : Values) : Prop where
  typed : ∀ id, v.Typed (types id)
  builtin : ∀ id c, types id (.builtin c) ≠ .boolean
  choice : ∀ c,
    v.str (.choice c) = (v.tri (.choice c)).text

/- The conditions of the lines of an entry are followed. -/
def LinesFollow
    (v : Values)
    (rw : Rewriting)
    (t₀ : SymbolTable)
    (id : Nat)
    (base base' : Option Expr) : Prop :=
  ∀ s ∈ t₀, ∀ p ∈ s.buildSelects, p.menu = some id → ∀ k,
    SameVisibility (exprCalcValue v (exprAllocAnd base p.visible))
      (exprCalcValue v (rw.cond id k base' p.visible))

section Rewritings

variable {v : Values} {types : Nat → SymId → SymbolType}
variable {notTristate : Nat → Bool} {rw : Rewriting}

theorem linesFollow_of_kept
    (hFits : FitsTypes types v)
    (hRewrites : RewritesLines types notTristate rw)
    {t₀ : SymbolTable}
    {id : Nat}
    {base base' : Option Expr}
    (hFollows : Follows v base base')
    (hKept : ConditionsKept types notTristate t₀ [(id, base')]) :
    LinesFollow v rw t₀ id base base' := by
  intro s hs p hp hMenu k
  cases hVisible : p.visible with
  | none =>
      rw [hRewrites.alone]
      exact sameVisibility_exprCond hFits.typed hFits.builtin
        hFollows optWellNamed_none id
  | some cond =>
      have hKeeps := hKept _ (List.mem_singleton_self _) s hs p hp
        hMenu cond hVisible
      rw [hRewrites.kept id k base' cond hKeeps,
        exprCalcValue_exprAllocAnd, exprCalcValue_exprAllocAnd]
      exact hFollows.sameVisibility.and (SameVisibility.refl _)

end Rewritings

------------------------------------------------------------
-- Lines And Tables
------------------------------------------------------------

/-
  A line while `menu_finalize` works.  The entries of `done`
  have handed their dependency to their properties.
-/
structure LineLeft
    (v : Values)
    (done : List (Nat × Option Expr))
    (p₀ p : Property) : Prop where
  same : p = { p₀ with visible := p.visible }
  open' : ∀ id, p₀.menu = some id → id ∉ done.map Prod.fst →
    p.visible = p₀.visible
  left : ∀ dep ∈ done, p₀.menu = some dep.1 →
    SameVisibility
      (exprCalcValue v (exprAllocAnd dep.2 p₀.visible))
      (exprCalcValue v p.visible)

/- The lines of a symbol. -/
def LinesLeft
    (v : Values)
    (done : List (Nat × Option Expr))
    (s₀ s : Symbol) : Prop :=
  s.id = s₀.id ∧
    List.Forall₂ (LineLeft v done) s₀.buildSelects s.buildSelects

/- The lines of all symbols, beside those that were parsed. -/
def TableLeft
    (v : Values)
    (done : List (Nat × Option Expr))
    (t₀ t : SymbolTable) : Prop :=
  ∀ s ∈ t, ∃ s₀ ∈ t₀, LinesLeft v done s₀ s

section Tables

variable {v : Values} {done done' : List (Nat × Option Expr)}
variable {t₀ t : SymbolTable}

theorem LineLeft.congr
    (hSame : ∀ dep, dep ∈ done' ↔ dep ∈ done)
    {p₀ p : Property}
    (hLeft : LineLeft v done p₀ p) :
    LineLeft v done' p₀ p := by
  refine ⟨hLeft.same, ?_, fun dep hDep =>
    hLeft.left dep ((hSame dep).mp hDep)⟩
  intro id hMenu hOpen
  refine hLeft.open' id hMenu (fun hDone => hOpen ?_)
  rcases List.mem_map.mp hDone with ⟨dep, hDep, rfl⟩
  exact List.mem_map_of_mem ((hSame dep).mpr hDep)

theorem TableLeft.congr
    (hSame : ∀ dep, dep ∈ done' ↔ dep ∈ done)
    (hLeft : TableLeft v done t₀ t) :
    TableLeft v done' t₀ t := by
  intro s hs
  rcases hLeft s hs with ⟨s₀, hs₀, hId, hLines⟩
  exact ⟨s₀, hs₀, hId, hLines.imp (fun _ _ h => h.congr hSame)⟩

theorem tableLeft_self (v : Values) (t : SymbolTable) :
    TableLeft v [] t t :=
  fun s hs => ⟨s, hs, rfl, List.forall₂_same.mpr (fun _ _ =>
    ⟨rfl, fun _ _ _ => rfl, fun _ h => absurd h List.not_mem_nil⟩)⟩

/- A change that leaves the lines alone. -/
theorem TableLeft.modify
    (hLeft : TableLeft v done t₀ t)
    (id : SymId)
    {f : Symbol → Symbol}
    (hId : ∀ s, (f s).id = s.id)
    (hLines : ∀ s, (f s).buildSelects = s.buildSelects) :
    TableLeft v done t₀ (modifySymbol t id f) := by
  refine forall_mem_modifySymbol hLeft ?_
  rintro s _ _ ⟨s₀, hs₀, hSame, hOld⟩
  exact ⟨s₀, hs₀, (hId s).trans hSame, (hLines s).symm ▸ hOld⟩

/- A change of every property, line by line. -/
theorem forall₂_filter_mapIdx
    {rel rel' : Property → Property → Prop}
    {type : PropType}
    {f : Nat → Property → Property}
    (hType : ∀ k p, (f k p).type = p.type)
    (hStep : ∀ k p₀ p, rel p₀ p → rel' p₀ (f k p))
    {lines ps : List Property}
    (hLines : List.Forall₂ rel lines
      (ps.filter (fun p => p.type == type))) :
    List.Forall₂ rel' lines
      ((ps.mapIdx f).filter (fun p => p.type == type)) := by
  induction ps generalizing lines f with
  | nil =>
      cases hLines
      exact List.Forall₂.nil
  | cons p ps ih =>
      have hNext := @ih (fun k => f (k + 1))
        (fun k => hType (k + 1)) (fun k => hStep (k + 1))
      rw [List.mapIdx_cons, List.filter_cons, hType]
      rw [List.filter_cons] at hLines
      split
      · rename_i hSame
        rw [if_pos hSame] at hLines
        rcases List.forall₂_cons_right_iff.mp hLines with
          ⟨line, rest, hHead, hTail, rfl⟩
        exact List.Forall₂.cons (hStep 0 _ _ hHead)
          (hNext hTail)
      · rename_i hDiffer
        rw [if_neg hDiffer] at hLines
        exact hNext hLines

theorem TableLeft.foldl
    {A : Type}
    {step : SymbolTable → A → SymbolTable}
    (hStep : ∀ t a, TableLeft v done t₀ t →
      TableLeft v done t₀ (step t a))
    (hLeft : TableLeft v done t₀ t)
    (list : List A) :
    TableLeft v done t₀ (list.foldl step t) := by
  induction list generalizing t with
  | nil => exact hLeft
  | cons a list ih => exact ih (hStep t a hLeft)

------------------------------------------------------------
-- Steps Of The Traversal
------------------------------------------------------------

/- An entry of another symbol, or of none. -/
theorem LineLeft.cons_of_ne
    {p₀ p : Property}
    (hLeft : LineLeft v done p₀ p)
    {menu : Nat}
    (hOther : p₀.menu ≠ some menu)
    (base : Option Expr) :
    LineLeft v ((menu, base) :: done) p₀ p := by
  refine ⟨hLeft.same, ?_, ?_⟩
  · intro id hMenu hOpen
    refine hLeft.open' id hMenu (fun hDone => hOpen ?_)
    exact List.mem_cons_of_mem _ hDone
  · intro dep hDep hMenu
    rcases List.mem_cons.mp hDep with rfl | hOld
    · exact absurd hMenu hOther
    · exact hLeft.left dep hOld hMenu

theorem LineLeft.finalize
    {rw : Rewriting}
    {menu : Nat}
    {base base' : Option Expr}
    {p₀ p : Property}
    (hLeft : LineLeft v done p₀ p)
    (hOpen : menu ∉ done.map Prod.fst)
    (k : Nat)
    (hFollows : p₀.menu = some menu →
      SameVisibility
        (exprCalcValue v (exprAllocAnd base p₀.visible))
        (exprCalcValue v (rw.cond menu k base' p₀.visible))) :
    LineLeft v ((menu, base) :: done) p₀
      (finalizeProp rw menu base' k p) := by
  have hMenu : p.menu = p₀.menu := by rw [hLeft.same]
  unfold finalizeProp
  rw [hMenu]
  split
  · rename_i hHere
    have hVisible := hLeft.open' menu hHere hOpen
    refine ⟨?_, ?_, ?_⟩
    · rw [hLeft.same]
    · intro id hId hNot
      rw [hHere] at hId
      cases hId
      exact absurd List.mem_cons_self hNot
    · intro dep hDep hId
      rcases List.mem_cons.mp hDep with rfl | hOld
      · rw [hVisible]
        exact hFollows hHere
      · rw [hHere] at hId
        cases hId
        exact absurd (List.mem_map_of_mem hOld) hOpen
  · rename_i hOther
    exact hLeft.cons_of_ne hOther base

/- The lines of an entry are those of its symbol. -/
def OwnsLines (t₀ : SymbolTable) (m : Menu) : Prop :=
  ∀ s ∈ t₀, ∀ p ∈ s.buildSelects, p.menu = some m.id →
    m.sym = some s.id

theorem addRevDep_left
    (sym : SymId)
    (menu : Nat)
    (t : SymbolTable)
    (p : Property)
    (hLeft : TableLeft v done t₀ t) :
    TableLeft v done t₀ (addRevDep sym menu t p) := by
  unfold addRevDep
  split
  · exact hLeft
  · exact hLeft.modify _ (fun _ => rfl) (fun _ => rfl)

/- What an entry gets from the menu above it. -/
theorem propagate_left
    {rw : Rewriting}
    {m : Menu}
    {above' base : Option Expr}
    (hFollows : LinesFollow v rw t₀ m.id base
      (rw.dep m.id above' m.dep))
    (hOwns : OwnsLines t₀ m)
    (hOpen : m.id ∉ done.map Prod.fst)
    (hLeft : TableLeft v done t₀ t) :
    TableLeft v ((m.id, base) :: done) t₀
      (propagate rw above' t m) := by
  have hOther : ∀ s₀ ∈ t₀, m.sym ≠ some s₀.id →
      ∀ s, LinesLeft v done s₀ s →
      LinesLeft v ((m.id, base) :: done) s₀ s := by
    intro s₀ hs₀ hNot s hLines
    refine ⟨hLines.1, ?_⟩
    have hMem := (List.forall₂_and_left _ _).mpr
      ⟨fun p₀ (hp₀ : p₀ ∈ s₀.buildSelects) => hp₀, hLines.2⟩
    exact hMem.imp (fun p₀ p hp => hp.2.cons_of_ne
      (fun hMenu => hNot (hOwns s₀ hs₀ p₀ hp.1 hMenu)) base)
  unfold propagate
  split
  · next hNone =>
      intro s hs
      rcases hLeft s hs with ⟨s₀, hs₀, hLines⟩
      exact ⟨s₀, hs₀, hOther s₀ hs₀ (by simp [hNone]) s hLines⟩
  · next sym hSym =>
      have hConds : TableLeft v ((m.id, base) :: done) t₀
          (modifySymbol t sym (fun s => { s with
            props := s.props.mapIdx
              (finalizeProp rw m.id
                (rw.dep m.id above' m.dep)) })) := by
        intro s hs
        rcases List.mem_map.mp hs with ⟨old, hOld, rfl⟩
        rcases hLeft old hOld with ⟨s₀, hs₀, hLines⟩
        refine ⟨s₀, hs₀, ?_⟩
        split
        · refine ⟨hLines.1, ?_⟩
          have hMem := (List.forall₂_and_left _ _).mpr
            ⟨fun p₀ (hp₀ : p₀ ∈ s₀.buildSelects) => hp₀,
              hLines.2⟩
          refine forall₂_filter_mapIdx ?_ ?_ hMem
          · intro k p
            unfold finalizeProp
            split <;> rfl
          · intro k p₀ p hp
            exact hp.2.finalize hOpen k
              (fun hMenu => hFollows s₀ hs₀ p₀ hp.1 hMenu k)
        · rename_i hDiffer
          refine hOther s₀ hs₀ ?_ old hLines
          intro hSame
          rw [hSym] at hSame
          exact hDiffer (hLines.1.trans
            (Option.some.inj hSame).symm)
      unfold finalizeProps
      simp only
      split
      · exact hConds
      · exact hConds.foldl (addRevDep_left sym m.id) _

------------------------------------------------------------
-- Choices
------------------------------------------------------------

theorem settleTypes_left
    (sym : SymId)
    (list : List Menu)
    (hLeft : TableLeft v done t₀ t) :
    TableLeft v done t₀ (settleTypes sym list t) := by
  have hSet : ∀ (type : SymbolType) (t : SymbolTable)
      (id : SymId), TableLeft v done t₀ t →
      TableLeft v done t₀
        (modifySymbol t id (setUnknownType type)) := by
    intro type t id hOld
    refine hOld.modify id ?_ ?_
    · intro s
      unfold setUnknownType
      split <;> rfl
    · intro s
      unfold setUnknownType
      split <;> rfl
  unfold settleTypes
  simp only
  refine TableLeft.foldl (hSet _) ?_ _
  split
  · exact hLeft
  · split
    · exact hSet _ _ _ hLeft
    · exact hLeft

/- A choice that is `y` meets the guard of its values. -/
theorem exprCalcValue_guard
    {types : Nat → SymId → SymbolType}
    (hFits : FitsTypes types v)
    {c : ChoiceId}
    (hYes : v.tri (.choice c) = .yes) :
    exprCalcValue v (some (.equal (.choice c) (.builtin .yes))) =
      .yes := by
  simp [exprCalcValue, Expr.calcValue, hFits.choice c, hYes,
    (hFits.typed 0).builtinStr]

/- The guard of a value, whose conditions ask for its choice. -/
theorem LineLeft.guard
    {types : Nat → SymId → SymbolType}
    (hFits : FitsTypes types v)
    {p₀ p : Property}
    (hLeft : LineLeft v done p₀ p)
    {c : ChoiceId}
    {menu : Nat}
    (hMenu : p.menu = some menu)
    (hIn : menu ∈ done.map Prod.fst)
    (hBelow : ∀ dep ∈ done, dep.1 = menu →
      exprCalcValue v dep.2 ≤ v.tri (.choice c)) :
    LineLeft v done p₀
      { p with
        visible := exprAllocAnd
          (some (.equal (.choice c) (.builtin .yes)))
          p.visible } := by
  have hMenu₀ : p₀.menu = some menu := by
    rw [hLeft.same] at hMenu
    exact hMenu
  refine ⟨?_, ?_, ?_⟩
  · have hSame := hLeft.same
    rw [hSame]
  · intro id hId hOpen
    rw [hMenu₀] at hId
    cases hId
    exact absurd hIn hOpen
  · intro dep hDep hId
    rw [hMenu₀] at hId
    have hLe := hBelow dep hDep (Option.some.inj hId).symm
    have hOld := hLeft.left dep hDep
      (hMenu₀.trans hId)
    rw [exprCalcValue_exprAllocAnd] at hOld
    simp only [exprCalcValue_exprAllocAnd]
    refine ⟨fun hNo => ?_, fun hYes => ?_⟩
    · rw [hOld.1 hNo]
      exact Tristate.and_no _
    · have hDepYes : exprCalcValue v dep.2 = .yes := by
        refine le_antisymm (Tristate.le_yes _) ?_
        rw [← hYes]
        exact Tristate.and_le_left _ _
      rw [hDepYes] at hLe
      rw [exprCalcValue_guard hFits
        (le_antisymm (Tristate.le_yes _) hLe), Tristate.yes_and]
      exact hOld.2 hYes

theorem adoptValue_left
    {types : Nat → SymId → SymbolType}
    (hFits : FitsTypes types v)
    (c : ChoiceId)
    {value : Nat × SymId}
    (hIn : value.1 ∈ done.map Prod.fst)
    (hBelow : ∀ dep ∈ done, dep.1 = value.1 →
      exprCalcValue v dep.2 ≤ v.tri (.choice c))
    (hLeft : TableLeft v done t₀ t) :
    TableLeft v done t₀ (adoptValue c t value) := by
  unfold adoptValue
  simp only
  refine forall_mem_modifySymbol hLeft ?_
  rintro s _ _ ⟨s₀, hs₀, hId, hLines⟩
  split
  · exact ⟨s₀, hs₀, hId, hLines⟩
  · refine ⟨s₀, hs₀, hId, ?_⟩
    have hNew : ∀ expr menu, List.filter
        (fun p : Property => p.type == .buildSelect)
        [⟨.choice, none, expr, menu, none⟩] = [] :=
      fun _ _ => rfl
    unfold Symbol.buildSelects
    simp only
    rw [List.filter_append, hNew, List.append_nil,
      List.filter_map, List.forall₂_map_right_iff]
    have hType : ((fun p : Property => p.type == .buildSelect) ∘
        fun p : Property =>
          if (typeOf t (.choice c) == .tristate &&
              typeOf t value.2 != .tristate) = true ∧
              p.menu = some value.1 then
            { p with
              visible := exprAllocAnd
                (some (.equal (.choice c) (.builtin .yes)))
                p.visible }
          else
            p) = fun p => p.type == .buildSelect := by
      funext p
      simp only [Function.comp_apply]
      split <;> rfl
    rw [hType]
    refine hLines.imp (fun p₀ p hp => ?_)
    split
    · rename_i hGuard
      exact hp.guard hFits hGuard.2 hIn hBelow
    · exact hp

theorem choiceRevDep_left
    (menu : Nat)
    (sym : SymId)
    (hLeft : TableLeft v done t₀ t) :
    TableLeft v done t₀ (modifySymbol t sym (choiceRevDep menu)) := by
  refine hLeft.modify sym ?_ ?_
  · intro s
    unfold choiceRevDep
    split
    · rfl
    · split <;> rfl
  · intro s
    unfold choiceRevDep
    split
    · rfl
    · split <;> rfl

end Tables

------------------------------------------------------------
-- The Whole Traversal
------------------------------------------------------------

section Traversal

variable {v : Values} {types : Nat → SymId → SymbolType}
variable {notTristate : Nat → Bool} {rw : Rewriting}
variable {done : List (Nat × Option Expr)}
variable {t₀ t : SymbolTable}

/- The first loop of `menu_finalize`. -/
theorem foldl_propagate_left
    (hFits : FitsTypes types v)
    (hRewrites : RewritesLines types notTristate rw)
    {above above' : Option Expr}
    (hFollows : Follows v above above')
    {list : List Menu}
    (hOpen : ListOpen notTristate (done.map Prod.fst) list)
    (hOwns : ∀ m ∈ list, OwnsLines t₀ m)
    (hKept : ConditionsKept types notTristate t₀
      (depsHere rw above' list))
    (hLeft : TableLeft v done t₀ t) :
    TableLeft v (depsHere .plain above list ++ done) t₀
      (list.foldl (propagate rw above') t) := by
  induction list generalizing done t with
  | nil => exact hLeft
  | cons m list ih =>
      have hNodup := hOpen.nodup
      rw [List.map_cons, List.nodup_cons] at hNodup
      have hDep : Follows v (exprAllocAnd above m.dep)
          (rw.dep m.id above' m.dep) := by
        rw [hRewrites.dep]
        exact exprBase_follows (hFits.typed m.id)
          (hFits.builtin m.id) hFollows
          (hOpen.regular m List.mem_cons_self).named
      have hLines := linesFollow_of_kept hFits hRewrites hDep
        (fun dep hMem => hKept dep
          (List.mem_singleton.mp hMem ▸ List.mem_cons_self))
      have hHead := propagate_left hLines
        (hOwns m List.mem_cons_self)
        (hOpen.notDone m List.mem_cons_self) hLeft
      have hTailOpen : ListOpen notTristate
          (((m.id, exprAllocAnd above m.dep) :: done).map
            Prod.fst) list := by
        refine ⟨fun n hn => hOpen.regular n
          (List.mem_cons_of_mem m hn), ?_, hNodup.2⟩
        intro n hn hDone
        rcases List.mem_cons.mp hDone with hSame | hOld
        · have hId : n.id = m.id := hSame
          exact hNodup.1 (hId ▸ List.mem_map_of_mem hn)
        · exact hOpen.notDone n (List.mem_cons_of_mem m hn) hOld
      have hTail := ih hTailOpen
        (fun n hn => hOwns n (List.mem_cons_of_mem m hn))
        (fun dep hMem => hKept dep
          (List.mem_cons_of_mem _ hMem)) hHead
      refine hTail.congr (fun dep => ?_)
      simp only [depsHere, List.map_cons, List.mem_append,
        List.mem_cons, Rewriting.plain]
      tauto

/- Both loops over a list, given what the second one does. -/
theorem loops_left
    (hFits : FitsTypes types v)
    (hRewrites : RewritesLines types notTristate rw)
    {above above' : Option Expr}
    (hFollows : Follows v above above')
    {list : List Menu}
    (hEach : ∀ {done : List (Nat × Option Expr)}
      {t : SymbolTable},
      TableLeft v done t₀ t →
      (∀ m ∈ list, m.Regular notTristate) →
      ListOpen notTristate (done.map Prod.fst) (belowAll list) →
      (∀ n ∈ belowAll list, OwnsLines t₀ n) →
      ConditionsKept types notTristate t₀
        (depsBelowAll rw above' list) →
      TableLeft v (depsBelowAll .plain above list ++ done) t₀
        (finalizeEach rw above' list t))
    (hOpen : ListOpen notTristate (done.map Prod.fst)
      (nodesOf list))
    (hOwns : ∀ m ∈ nodesOf list, OwnsLines t₀ m)
    (hKept : ConditionsKept types notTristate t₀
      (depsOf rw above' list))
    (hLeft : TableLeft v done t₀ t) :
    TableLeft v (depsOf .plain above list ++ done) t₀
      (finalizeEach rw above' list
        (list.foldl (propagate rw above') t)) := by
  rcases hOpen.split with ⟨hTop, hBelow⟩
  have hFirst := foldl_propagate_left hFits hRewrites hFollows
    hTop
    (fun m hm => hOwns m ((nodesOf_perm list).mem_iff.mpr
      (List.mem_append_left _ hm)))
    (fun dep hMem => hKept dep
      (mem_depsOf_iff.mpr (Or.inl hMem))) hLeft
  have hIds : (depsHere .plain above list ++ done).map Prod.fst =
      list.map Menu.id ++ done.map Prod.fst := by
    simp [depsHere, Function.comp_def]
  rw [← hIds] at hBelow
  have hSecond := hEach hFirst hTop.regular hBelow
    (fun n hn => hOwns n ((nodesOf_perm list).mem_iff.mpr
      (List.mem_append_right _ hn)))
    (fun dep hMem => hKept dep
      (mem_depsOf_iff.mpr (Or.inr hMem)))
  refine hSecond.congr (fun dep => ?_)
  simp only [List.mem_append, mem_depsOf_iff]
  tauto

/- The values of a choice, below whose conditions it is. -/
theorem adoptValues_left
    (hFits : FitsTypes types v)
    (sym : SymId)
    {list : List Menu}
    (hOpen : ListOpen notTristate (done.map Prod.fst)
      (nodesOf list))
    (hLeft : TableLeft v
      (depsOf .plain (some (.symbol sym)) list ++ done) t₀ t) :
    TableLeft v
      (depsOf .plain (some (.symbol sym)) list ++ done) t₀
      (adoptValues rw sym list t) := by
  unfold adoptValues
  split
  · rename_i c
    have hValues : ∀ values : List (Nat × SymId),
        (∀ value ∈ values, value ∈ choiceEntries rw list) →
        ∀ t, TableLeft v
          (depsOf .plain (some (.symbol (.choice c))) list ++
            done) t₀ t →
        TableLeft v
          (depsOf .plain (some (.symbol (.choice c))) list ++
            done) t₀
          (values.foldl (adoptValue c) t) := by
      intro values
      induction values with
      | nil => exact fun _ _ h => h
      | cons value values ih =>
          intro hMem t hTable
          have hHere := hMem value List.mem_cons_self
          rcases exists_depsOf_of_mem_choiceEntries v rw list
            (some (.symbol (.choice c))) hHere with
            ⟨dep, hDep, hLe⟩
          refine ih (fun other hOther =>
            hMem other (List.mem_cons_of_mem _ hOther)) _
            (adoptValue_left hFits c ?_ ?_ hTable)
          · exact List.mem_map_of_mem (f := Prod.fst)
              (List.mem_append_left _ hDep)
          · intro other hOther hSame
            rcases List.mem_append.mp hOther with hIn | hOld
            · -- The entry of the value has one dependency.
              have hNodup := hOpen.nodup
              rw [← map_fst_depsOf .plain
                (some (.symbol (.choice c)))] at hNodup
              rw [List.inj_on_of_nodup_map hNodup hIn hDep hSame]
              exact hLe
            · exfalso
              rcases List.mem_map.mp
                (mem_nodesOf_of_mem_choiceEntries rw list hHere)
                with ⟨m, hm, hId⟩
              refine hOpen.notDone m hm ?_
              rw [hId, ← hSame]
              exact List.mem_map_of_mem hOld
    exact hValues _ (fun _ h => h) t hLeft
  · exact hLeft

mutual

/- The second loop below one entry. -/
theorem finalizeMenu_left
    (hFits : FitsTypes types v)
    (hRewrites : RewritesLines types notTristate rw)
    (m : Menu)
    {parent parent' : Option Expr}
    (hFollows : Follows v parent parent')
    {done : List (Nat × Option Expr)}
    {t : SymbolTable}
    (hLeft : TableLeft v done t₀ t)
    (hSelf : m.Regular notTristate)
    (hOpen : ListOpen notTristate (done.map Prod.fst)
      m.nodesBelow)
    (hOwns : ∀ n ∈ m.nodesBelow, OwnsLines t₀ n)
    (hKept : ConditionsKept types notTristate t₀
      (m.depsBelow rw (rw.dep m.id parent' m.dep))) :
    TableLeft v
      (m.depsBelow .plain (exprAllocAnd parent m.dep) ++ done) t₀
      (finalizeMenu rw parent' m t) := by
  have hDep : Follows v (exprAllocAnd parent m.dep)
      (rw.dep m.id parent' m.dep) := by
    rw [hRewrites.dep]
    exact exprBase_follows (hFits.typed m.id)
      (hFits.builtin m.id) hFollows hSelf.named
  match m with
  | .config id sym file isMenu dep =>
      rw [finalizeMenu]
      exact hLeft
  | .choice id sym file dep list =>
      have hChoice := hSelf.choice _ _ _ _ _ rfl
      have hAbove := Follows.choice (v := v) hChoice
      rw [finalizeMenu]
      simp only [choiceDep, hChoice, if_true]
      have hLoops := loops_left hFits hRewrites hAbove
        (finalizeEach_left hFits hRewrites list hAbove)
        hOpen hOwns hKept (settleTypes_left sym list hLeft)
      exact choiceRevDep_left id sym
        (adoptValues_left hFits sym hOpen hLoops)
  | .menu id dep list =>
      have hPlain := hSelf.menu _ _ _ rfl
      have hAbove : Follows v
          (Rewriting.plain.cond id 0 (exprAllocAnd parent dep)
            none)
          (rw.cond id 0 (rw.dep id parent' dep) none) := by
        rw [hRewrites.alone]
        simp only [exprCond, hPlain, Bool.false_eq_true,
          if_false]
        exact exprBase_follows (hFits.typed id)
          (hFits.builtin id) hDep optWellNamed_none
      rw [finalizeMenu]
      exact loops_left hFits hRewrites hAbove
        (finalizeEach_left hFits hRewrites list hAbove)
        hOpen hOwns hKept hLeft
  | .ifBlock id dep list =>
      rw [finalizeMenu]
      exact loops_left hFits hRewrites hDep
        (finalizeEach_left hFits hRewrites list hDep)
        hOpen hOwns hKept hLeft

theorem finalizeEach_left
    (hFits : FitsTypes types v)
    (hRewrites : RewritesLines types notTristate rw)
    (list : List Menu)
    {parent parent' : Option Expr}
    (hFollows : Follows v parent parent')
    {done : List (Nat × Option Expr)}
    {t : SymbolTable}
    (hLeft : TableLeft v done t₀ t)
    (hSelf : ∀ m ∈ list, m.Regular notTristate)
    (hOpen : ListOpen notTristate (done.map Prod.fst)
      (belowAll list))
    (hOwns : ∀ n ∈ belowAll list, OwnsLines t₀ n)
    (hKept : ConditionsKept types notTristate t₀
      (depsBelowAll rw parent' list)) :
    TableLeft v (depsBelowAll .plain parent list ++ done) t₀
      (finalizeEach rw parent' list t) := by
  match list with
  | [] =>
      rw [finalizeEach]
      exact hLeft
  | m :: list =>
      rcases hOpen.cons with ⟨hHead, hTail⟩
      have hFirst := finalizeMenu_left hFits hRewrites m hFollows
        hLeft (hSelf m List.mem_cons_self) hHead
        (fun n hn => hOwns n (List.mem_append_left _ hn))
        (fun dep hMem => hKept dep
          (List.mem_append_left _ hMem))
      rw [← map_fst_depsBelow .plain
        (exprAllocAnd parent m.dep), ← List.map_append] at hTail
      have hRest := finalizeEach_left hFits hRewrites list
        hFollows hFirst
        (fun n hn => hSelf n (List.mem_cons_of_mem m hn)) hTail
        (fun n hn => hOwns n (List.mem_append_right _ hn))
        (fun dep hMem => hKept dep
          (List.mem_append_right _ hMem))
      rw [finalizeEach]
      refine hRest.congr (fun dep => ?_)
      simp only [depsBelowAll, List.flatMap_cons,
        List.mem_append, Rewriting.plain]
      tauto

end

/- `menu_finalize(&rootmenu)` follows the written conditions. -/
theorem finalizeRoot_left
    (hFits : FitsTypes types v)
    (hRewrites : RewritesLines types notTristate rw)
    {list : List Menu}
    (hRegular : ∀ m ∈ nodesOf list, m.Regular notTristate)
    (hNodup : ((nodesOf list).map Menu.id).Nodup)
    (hOwns : ∀ m ∈ nodesOf list, OwnsLines t₀ m)
    (hKept : ConditionsKept types notTristate t₀
      (depsOf rw none list)) :
    TableLeft v (depsOf .plain none list) t₀
      (finalizeRoot rw list t₀) := by
  have hNone : Follows v none none :=
    ⟨Tristate.Kept.refl _, optWellNamed_none, by rintro x ⟨⟩⟩
  have hOpen : ListOpen notTristate
      (([] : List (Nat × Option Expr)).map Prod.fst)
      (nodesOf list) :=
    ⟨hRegular, fun _ _ => List.not_mem_nil, hNodup⟩
  have hLoops := loops_left hFits hRewrites hNone
    (finalizeEach_left hFits hRewrites list hNone)
    hOpen hOwns hKept (tableLeft_self v t₀)
  rw [List.append_nil] at hLoops
  exact hLoops

end Traversal

------------------------------------------------------------
-- Parsed Trees
------------------------------------------------------------

/- The symbols that `menu_finalize` starts from. -/
def parsedSymbols
    (host : ParseHost)
    (file : Text)
    (stmts : List Stmt) : SymbolTable :=
  addModulesDefault (parseTree host file stmts).1.symbols

mutual

theorem exists_node_of_mem_inner
    (m : Menu)
    {entry : MenuEntry}
    (hMem : entry ∈ m.inner) :
    ∃ n ∈ m.nodesBelow, n.id = entry.id ∧
      n.sym = some entry.sym := by
  cases m with
  | config id sym file isMenu dep => cases hMem
  | choice id sym file dep list =>
      exact exists_node_of_mem_entriesOf list hMem
  | menu id dep list =>
      exact exists_node_of_mem_entriesOf list hMem
  | ifBlock id dep list =>
      exact exists_node_of_mem_entriesOf list hMem

theorem exists_node_of_mem_entriesOf
    (list : List Menu)
    {entry : MenuEntry}
    (hMem : entry ∈ entriesOf list) :
    ∃ n ∈ nodesOf list, n.id = entry.id ∧
      n.sym = some entry.sym := by
  cases list with
  | nil => cases hMem
  | cons m list =>
      simp only [entriesOf, List.mem_append] at hMem
      simp only [nodesOf, List.mem_cons, List.mem_append,
        or_and_right, exists_or, exists_eq_left]
      rcases hMem with (hHere | hBelow) | hLater
      · left
        cases m with
        | config id sym file isMenu dep =>
            rw [List.mem_singleton.mp hHere]
            exact ⟨rfl, rfl⟩
        | choice id sym file dep list =>
            rw [List.mem_singleton.mp hHere]
            exact ⟨rfl, rfl⟩
        | menu id dep list => cases hHere
        | ifBlock id dep list => cases hHere
      · exact Or.inr (Or.inl (exists_node_of_mem_inner m hBelow))
      · exact Or.inr (Or.inr
          (exists_node_of_mem_entriesOf list hLater))

end

/- A line `build_select` belongs to an entry of its symbol. -/
theorem paired_parsedSymbols
    (host : ParseHost)
    (file : Text)
    (stmts : List Stmt)
    {s : Symbol}
    (hMem : s ∈ parsedSymbols host file stmts)
    {p : Property}
    (hLine : p ∈ s.buildSelects) :
    ∃ n ∈ nodesOf (parseTree host file stmts).2,
      p.menu = some n.id ∧ n.sym = some s.id := by
  have hPaired := paired_addModulesDefault
    (parseInvariant_paired.parseTree host file stmts)
  rcases List.mem_filter.mp hLine with ⟨hProp, hType⟩
  rcases hPaired s hMem p hProp (beq_iff_eq.mp hType) with
    ⟨entry, hEntry, _, hSym, hMenu, _⟩
  rcases exists_node_of_mem_entriesOf _ hEntry with
    ⟨n, hn, hId, hNode⟩
  exact ⟨n, hn, by rw [hMenu, hId], by rw [hNode, hSym]⟩

theorem ownsLines_parsedSymbols
    (host : ParseHost)
    (file : Text)
    (stmts : List Stmt) :
    ∀ m ∈ nodesOf (parseTree host file stmts).2,
      OwnsLines (parsedSymbols host file stmts) m := by
  intro m hm s hs p hp hMenu
  rcases paired_parsedSymbols host file stmts hs hp with
    ⟨n, hn, hLine, hSym⟩
  rw [hMenu] at hLine
  have hSame := List.inj_on_of_nodup_map
    (parseTree_parsed host file stmts).2.2 hm hn
    (Option.some.inj hLine)
  rw [hSame]
  exact hSym

section Parsed

variable {v : Values} {types : Nat → SymId → SymbolType}
variable {notTristate : Nat → Bool} {rw : Rewriting}
variable {host : ParseHost} {file : Text} {stmts : List Stmt}
variable {t : SymbolTable} {menus : List Menu}

/- What an accepted tree leaves of the written conditions. -/
theorem confParse_left
    (hFits : FitsTypes types v)
    (hRewrites : RewritesLines types notTristate rw)
    (hParse : confParse host rw file stmts = some (t, menus))
    (hKinds : ∀ m ∈ nodesOf menus, m.KindFits notTristate)
    (hKept : ConditionsKept types notTristate
      (parsedSymbols host file stmts) (depsOf rw none menus)) :
    TableLeft v (depsOf .plain none menus)
      (parsedSymbols host file stmts) t := by
  rcases confParse_eq_some hParse with ⟨rfl, rfl⟩
  rcases parseTree_parsed host file stmts with
    ⟨_, hDeps, hNodup⟩
  exact finalizeRoot_left hFits hRewrites
    (fun m hm => (hKinds m hm).regular (hDeps m hm)) hNodup
    (ownsLines_parsedSymbols host file stmts) hKept

/-
  A build line of a symbol, as the files give it: the symbol
  that it names, and the condition under which it counts.  A
  `build_depends` has none; that of a `build_select` is the
  conjunction of the line's own, of the dependencies of its
  entry and of all that is above the entry.
-/
inductive HasLine
    (t₀ : SymbolTable)
    (menus : List Menu)
    (s : Symbol) : Option Expr → SymId → Prop
| depends {s₀ : Symbol} {p : Property} {target : SymId} :
    s₀ ∈ t₀ → s₀.id = s.id →
    p ∈ s₀.props → p.type = .buildDepends →
    target ∈ optSyms p.expr →
    HasLine t₀ menus s none target
| select {s₀ : Symbol} {p : Property} {target : SymId}
    {id : Nat} {dep : Option Expr} :
    s₀ ∈ t₀ → s₀.id = s.id →
    p ∈ s₀.buildSelects → p.menu = some id →
    (id, dep) ∈ depsOf .plain none menus →
    target ∈ optSyms p.expr →
    HasLine t₀ menus s (exprAllocAnd dep p.visible) target

/- The same, of a property of the final table. -/
def Counts (v : Values) (p : Property) : Prop :=
  p.type = .buildSelect ∧ exprCalcValue v p.visible ≠ .no ∨
    p.type = .buildDepends

/- A line that counts in the end is written, and not `n`. -/
theorem exists_hasLine_of_counts
    (hParse : confParse host rw file stmts = some (t, menus))
    (hLeft : TableLeft v (depsOf .plain none menus)
      (parsedSymbols host file stmts) t)
    {s : Symbol}
    (hMem : s ∈ t)
    {p : Property}
    (hProp : p ∈ s.props)
    (hCounts : Counts v p)
    {target : SymId}
    (hTarget : target ∈ optSyms p.expr) :
    ∃ cond,
      HasLine (parsedSymbols host file stmts) menus s cond
        target ∧
      exprCalcValue v cond ≠ .no := by
  rcases confParse_eq_some hParse with ⟨rfl, hFinal⟩
  rcases hCounts with ⟨hType, hValue⟩ | hType
  · rcases hLeft s hMem with ⟨s₀, hs₀, hId, hLines⟩
    have hLine : p ∈ s.buildSelects :=
      List.mem_filter.mpr ⟨hProp, by rw [hType]; rfl⟩
    rcases exists_of_mem_right hLines hLine with
      ⟨p₀, hp₀, hHere⟩
    rcases paired_parsedSymbols host file stmts hs₀ hp₀ with
      ⟨n, hn, hMenu, _⟩
    have hDep := List.mem_map_of_mem (f := Menu.id) hn
    rw [← map_fst_depsOf .plain none] at hDep
    rcases List.mem_map.mp hDep with ⟨⟨id, dep⟩, hIn, hSame⟩
    have hMenuId : p₀.menu = some id := by rw [hMenu, ← hSame]
    have hExpr : p.expr = p₀.expr := by rw [hHere.same]
    rw [hExpr] at hTarget
    refine ⟨_, .select hs₀ hId.symm hp₀ hMenuId hIn hTarget, ?_⟩
    exact fun hNo => hValue
      ((hHere.left (id, dep) hIn hMenuId).1 hNo)
  · have hGrows := (reversed_finalizeRoot rw
      (parseTree host file stmts).2
      (parsedSymbols host file stmts)).1
    rw [hFinal] at hMem
    rcases hGrows.exists_mem hMem with ⟨s₀, hs₀, hSame⟩
    have hLine := mem_selectLines hProp (by rw [hType]; rfl)
    rw [hSame.lines] at hLine
    rcases exists_of_mem_selectLines hLine with
      ⟨p₀, hp₀, hType₀, hExpr, _⟩
    rw [← hExpr] at hTarget
    exact ⟨none, .depends hs₀ hSame.id.symm hp₀
      (hType₀.trans hType) hTarget, by simp [exprCalcValue]⟩

/- A written line that is `y` counts in the end. -/
theorem exists_counts_of_hasLine
    (hParse : confParse host rw file stmts = some (t, menus))
    (hLeft : TableLeft v (depsOf .plain none menus)
      (parsedSymbols host file stmts) t)
    {s : Symbol}
    (hMem : s ∈ t)
    {cond : Option Expr}
    {target : SymId}
    (hLine : HasLine (parsedSymbols host file stmts) menus s cond
      target)
    (hYes : exprCalcValue v cond = .yes) :
    ∃ p ∈ s.props, Counts v p ∧ target ∈ optSyms p.expr := by
  rcases confParse_eq_some hParse with ⟨rfl, hFinal⟩
  have hNodup : ((parsedSymbols host file stmts).map
      Symbol.id).Nodup :=
    (uniqueIds_addModulesDefault
      (parseInvariant_uniqueIds.parseTree host file stmts)).nodup
  cases hLine with
  | @depends s₀ p₀ _ hs₀ hId hp₀ hType hTarget =>
      have hGrows := (reversed_finalizeRoot rw
        (parseTree host file stmts).2
        (parsedSymbols host file stmts)).1
      rw [hFinal] at hMem
      rcases hGrows.exists_mem hMem with ⟨s₁, hs₁, hSame⟩
      have hOne := List.inj_on_of_nodup_map hNodup hs₁ hs₀
        (hSame.id.symm.trans hId.symm)
      subst hOne
      have hIn := mem_selectLines hp₀ (by rw [hType]; rfl)
      rw [← hSame.lines] at hIn
      rcases exists_of_mem_selectLines hIn with
        ⟨p, hp, hTypeHere, hExpr, _⟩
      exact ⟨p, hp, Or.inr (hTypeHere.trans hType),
        hExpr ▸ hTarget⟩
  | @select s₀ p₀ _ id dep hs₀ hId hp₀ hMenu hDep hTarget =>
      rcases hLeft s hMem with ⟨s₁, hs₁, hSame, hLines⟩
      have hOne := List.inj_on_of_nodup_map hNodup hs₁ hs₀
        (hSame.symm.trans hId.symm)
      subst hOne
      rcases exists_of_mem_right hLines.flip hp₀ with
        ⟨p, hp, hHere⟩
      have hProp := List.mem_filter.mp hp
      have hExpr : p.expr = p₀.expr := by rw [hHere.same]
      exact ⟨p, hProp.1, Or.inl ⟨beq_iff_eq.mp hProp.2,
        (hHere.left (id, dep) hDep hMenu).2 hYes⟩,
        hExpr ▸ hTarget⟩

end Parsed

end Mkrootfs
