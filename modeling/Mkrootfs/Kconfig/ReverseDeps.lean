import Mkrootfs.Kconfig.ParseInvariant
import Mkrootfs.Kconfig.SymCheckDeps

/-
  What `build_select` lines leave in the reverse dependencies
  of their targets, whatever the conditions became.

  Main declarations:
    * `UniqueIds`, `Paired`
    * `TableGrows`, `Reversed`
    * `buildSelect_reversed`
-/

------------------------------------------------------------
-- Symbols Are Unique
------------------------------------------------------------

namespace Mkrootfs

/-
  No identity occurs twice, and nameless choices are numbered
  from zero.
-/
structure UniqueIds
    (t : SymbolTable)
    (n : Nat) : Prop where
  nodup : (t.map Symbol.id).Nodup
  numbered : ∀ s ∈ t, ∀ m,
    s.id = .choice (.anonymous m) → m < n

namespace UniqueIds

theorem of_map_id
    {t t' : SymbolTable}
    {n : Nat}
    (hIds : t'.map Symbol.id = t.map Symbol.id)
    (hUnique : UniqueIds t n) :
    UniqueIds t' n := by
  refine ⟨hIds ▸ hUnique.nodup, ?_⟩
  intro s hs m hId
  have hMem : s.id ∈ t.map Symbol.id := by
    rw [← hIds]
    exact List.mem_map_of_mem hs
  rcases List.mem_map.mp hMem with ⟨old, hOld, hSame⟩
  exact hUnique.numbered old hOld m (hSame.trans hId)

theorem modify
    {t : SymbolTable}
    {n : Nat}
    (hUnique : UniqueIds t n)
    (id : SymId)
    {f : Symbol → Symbol}
    (hId : ∀ s, (f s).id = s.id) :
    UniqueIds (modifySymbol t id f) n :=
  hUnique.of_map_id
    (modifySymbol_map_id t id f
      (fun s hSame => (hId s).trans hSame))

theorem cons
    {t : SymbolTable}
    {n m : Nat}
    {s : Symbol}
    (hUnique : UniqueIds t n)
    (hNew : ∀ old ∈ t, old.id ≠ s.id)
    (hLe : n ≤ m)
    (hNumbered : ∀ k, s.id = .choice (.anonymous k) → k < m) :
    UniqueIds (s :: t) m := by
  constructor
  · rw [List.map_cons, List.nodup_cons]
    refine ⟨?_, hUnique.nodup⟩
    intro hMem
    rcases List.mem_map.mp hMem with ⟨old, hOld, hSame⟩
    exact hNew old hOld hSame
  · intro other hOther k hId
    rcases List.mem_cons.mp hOther with rfl | hOld
    · exact hNumbered k hId
    · exact (hUnique.numbered other hOld k hId).trans_le hLe

/- A looked up symbol has a name. -/
theorem symLookupId_ne_anonymous
    (name : Text)
    (cls : LookupClass)
    (k : Nat) :
    symLookupId name cls ≠ .choice (.anonymous k) := by
  unfold symLookupId
  split
  · next hBuiltin =>
      rcases builtinOfName_builtin hBuiltin with ⟨tri, rfl⟩
      simp
  · cases cls <;> simp

theorem lookup
    {t : SymbolTable}
    {n : Nat}
    (hUnique : UniqueIds t n)
    (name : Text)
    (cls : LookupClass)
    (file : Option Text) :
    UniqueIds (symLookup t name cls file).1 n := by
  unfold symLookup
  simp only
  split
  · exact hUnique
  · next hAbsent =>
      refine hUnique.cons ?_ (Nat.le_refl n) ?_
      · intro old hOld hSame
        refine hAbsent (List.any_eq_true.mpr ⟨old, hOld, ?_⟩)
        simpa [Symbol.alloc] using hSame
      · intro k hId
        exact absurd hId (symLookupId_ne_anonymous name cls k)

end UniqueIds

theorem parseInvariant_uniqueIds :
    ParseInvariant (fun t n _ => UniqueIds t n) where
  start :=
    { nodup := by decide
      numbered := by
        intro s hs m hId
        simp only [builtinSymbols, List.mem_cons,
          List.not_mem_nil, or_false] at hs
        rcases hs with rfl | rfl | rfl <;> cases hId }
  modules := fun _ hFresh hUnique =>
    hUnique.cons hFresh (Nat.le_refl _) (fun _ h => nomatch h)
  lookup := fun name cls file _ hUnique =>
    hUnique.lookup name cls file
  change := fun sym _ hChange hUnique =>
    hUnique.modify sym hChange.id
  buildSelect := fun entry _ _ _ _ _ hUnique =>
    hUnique.modify entry.sym (fun _ => rfl)
  config := fun _ file _ name hUnique =>
    (hUnique.lookup name .plain (some file)).modify _
      (fun _ => rfl)
  choice := fun _ file name hUnique =>
    hUnique.lookup name .choice (some file)
  anonymous := fun {t n known} _ file hUnique => by
    refine hUnique.cons ?_ (Nat.le_succ n) ?_
    · intro old hOld hSame
      exact absurd (hUnique.numbered old hOld n hSame)
        (Nat.lt_irrefl n)
    · intro k hId
      cases hId
      exact Nat.lt_succ_self n

------------------------------------------------------------
-- Lines And Their Twins
------------------------------------------------------------

/-
  Each property `build_select` names a symbol, belongs to an
  entry of its own symbol, and has a `select` beside it.
-/
def Paired (known : Set MenuEntry) (s : Symbol) : Prop :=
  ∀ p ∈ s.props, p.type = .buildSelect →
    ∃ entry ∈ known, ∃ target,
      entry.sym = s.id ∧ p.menu = some entry.id ∧
      p.expr = some (.symbol target) ∧
      ∃ q ∈ s.props, q.selected entry.id = some target

theorem Paired.change
    {known : Set MenuEntry}
    {f : Symbol → Symbol}
    (hChange : PlainChange f)
    {s : Symbol}
    (hPaired : Paired known s) :
    Paired known (f s) := by
  intro p hp hType
  rcases hPaired p (hChange.buildSelect s p hp hType) hType with
    ⟨entry, hEntry, target, hSym, hMenu, hExpr, q, hq,
      hSelected⟩
  refine ⟨entry, hEntry, target, hSym.trans (hChange.id s).symm,
    hMenu, hExpr, q, hChange.select s q hq ?_, hSelected⟩
  unfold Property.selected at hSelected
  split at hSelected
  · next hBoth => exact hBoth.1
  · cases hSelected

theorem Paired.mono
    {known known' : Set MenuEntry}
    (hKnown : known ⊆ known')
    {s : Symbol}
    (hPaired : Paired known s) :
    Paired known' s := by
  intro p hp hType
  rcases hPaired p hp hType with ⟨entry, hEntry, hRest⟩
  exact ⟨entry, hKnown hEntry, hRest⟩

theorem paired_of_props_nil
    (known : Set MenuEntry)
    {s : Symbol}
    (hProps : s.props = []) :
    Paired known s := by
  intro p hp
  rw [hProps] at hp
  cases hp

/- A new line `build_select`. -/
theorem Paired.buildSelect
    {known : Set MenuEntry}
    {s : Symbol}
    {entry : MenuEntry}
    (hPaired : Paired known s)
    (hEntry : entry ∈ known)
    (hSym : entry.sym = s.id)
    (file : Text)
    (target : SymId)
    (visible : Option Expr) :
    Paired known
      (appendProps
        (buildSelectProps file entry.id target visible) s) := by
  intro p hp hType
  rcases List.mem_append.mp hp with hOld | hNew
  · rcases hPaired p hOld hType with
      ⟨other, hOther, target, hSame, hMenu, hExpr, q, hq,
        hSelected⟩
    exact ⟨other, hOther, target, hSame, hMenu, hExpr, q,
      List.mem_append_left _ hq, hSelected⟩
  · simp only [buildSelectProps, List.mem_cons,
      List.not_mem_nil, or_false] at hNew
    rcases hNew with rfl | rfl
    · refine ⟨entry, hEntry, target, hSym, rfl, rfl, _,
        List.mem_append_right _
          (List.mem_cons_of_mem _ List.mem_cons_self), ?_⟩
      simp [Property.selected]
    · cases hType

theorem forall_mem_modifySymbol
    {P : Symbol → Prop}
    {t : SymbolTable}
    {id : SymId}
    {f : Symbol → Symbol}
    (hAll : ∀ s ∈ t, P s)
    (hNew : ∀ s ∈ t, s.id = id → P s → P (f s)) :
    ∀ s ∈ modifySymbol t id f, P s := by
  intro s hs
  rcases List.mem_map.mp hs with ⟨old, hOld, rfl⟩
  split
  · next hId => exact hNew old hOld hId (hAll old hOld)
  · exact hAll old hOld

theorem forall_mem_symLookup
    {P : Symbol → Prop}
    {t : SymbolTable}
    (hAll : ∀ s ∈ t, P s)
    {name : Text}
    {cls : LookupClass}
    {file : Option Text}
    (hNew : P (Symbol.alloc (symLookupId name cls) file)) :
    ∀ s ∈ (symLookup t name cls file).1, P s := by
  unfold symLookup
  simp only
  split
  · exact hAll
  · exact List.forall_mem_cons.mpr ⟨hNew, hAll⟩

theorem parseInvariant_paired :
    ParseInvariant (fun t _ known => ∀ s ∈ t, Paired known s)
    where
  start := by
    intro s hs
    refine paired_of_props_nil _ ?_
    simp only [builtinSymbols, List.mem_cons,
      List.not_mem_nil, or_false] at hs
    rcases hs with rfl | rfl | rfl <;> rfl
  modules := fun _ _ hAll =>
    List.forall_mem_cons.mpr
      ⟨paired_of_props_nil _ rfl, hAll⟩
  lookup := fun _ _ _ _ hAll =>
    forall_mem_symLookup hAll (paired_of_props_nil _ rfl)
  change := fun _ _ hChange hAll =>
    forall_mem_modifySymbol hAll
      (fun _ _ _ hPaired => hPaired.change hChange)
  buildSelect := fun _ file target visible _ hEntry hAll =>
    forall_mem_modifySymbol hAll
      (fun _ _ hId hPaired =>
        hPaired.buildSelect hEntry hId.symm file target visible)
  config := fun _ _ _ _ hAll =>
    forall_mem_modifySymbol
      (forall_mem_symLookup
        (fun s hs => (hAll s hs).mono (Set.subset_insert _ _))
        (paired_of_props_nil _ rfl))
      (fun _ _ _ hPaired => hPaired)
  choice := fun _ _ _ hAll =>
    forall_mem_symLookup
      (fun s hs => (hAll s hs).mono (Set.subset_insert _ _))
      (paired_of_props_nil _ rfl)
  anonymous := fun _ _ hAll =>
    List.forall_mem_cons.mpr
      ⟨paired_of_props_nil _ rfl,
        fun s hs => (hAll s hs).mono (Set.subset_insert _ _)⟩

------------------------------------------------------------
-- What `menu_finalize` Keeps
------------------------------------------------------------

/- The properties of build lines, and `select`. -/
def PropType.isLine : PropType → Bool
| .select | .buildSelect | .buildDepends => true
| _ => false

/- Such a property, without its condition. -/
def Property.selectLine (p : Property) :
    Option (PropType × Option Expr × Option Nat) :=
  if p.type.isLine then
    some (p.type, p.expr, p.menu)
  else
    none

/- These lines of a symbol. -/
def Symbol.selectLines (s : Symbol) :
    List (PropType × Option Expr × Option Nat) :=
  s.props.filterMap Property.selectLine

/-
  A symbol while `menu_finalize` works: the lines stay, and
  the reverse dependency only grows.
-/
structure SymbolGrows (s s' : Symbol) : Prop where
  id : s'.id = s.id
  file : s'.file = s.file
  lines : s'.selectLines = s.selectLines
  revDep : optSyms s.revDep ⊆ optSyms s'.revDep

/- The same for a table. -/
def TableGrows (t t' : SymbolTable) : Prop :=
  List.Forall₂ SymbolGrows t t'

/- What stands in one of two related lists. -/
theorem exists_of_mem_right
    {A B : Type}
    {rel : A → B → Prop}
    {list : List A}
    {list' : List B}
    (hList : List.Forall₂ rel list list')
    {b : B}
    (hMem : b ∈ list') :
    ∃ a ∈ list, rel a b := by
  induction hList with
  | nil => cases hMem
  | @cons a other _ _ hHead _ ih =>
      rcases List.mem_cons.mp hMem with rfl | hTail
      · exact ⟨a, List.mem_cons_self, hHead⟩
      · rcases ih hTail with ⟨old, hOld, hSame⟩
        exact ⟨old, List.mem_cons_of_mem _ hOld, hSame⟩

theorem SymbolGrows.refl (s : Symbol) : SymbolGrows s s :=
  ⟨rfl, rfl, rfl, List.Subset.refl _⟩

theorem SymbolGrows.trans
    {s s' s'' : Symbol}
    (hFirst : SymbolGrows s s')
    (hSecond : SymbolGrows s' s'') :
    SymbolGrows s s'' :=
  ⟨hSecond.id.trans hFirst.id, hSecond.file.trans hFirst.file,
    hSecond.lines.trans hFirst.lines,
    List.Subset.trans hFirst.revDep hSecond.revDep⟩

namespace TableGrows

theorem refl (t : SymbolTable) : TableGrows t t :=
  List.forall₂_same.mpr (fun s _ => SymbolGrows.refl s)

theorem trans
    {t t' t'' : SymbolTable}
    (hFirst : TableGrows t t')
    (hSecond : TableGrows t' t'') :
    TableGrows t t'' := by
  induction hFirst generalizing t'' with
  | nil => exact hSecond
  | cons hHead _ ih =>
      cases hSecond with
      | cons hHead' hTail' =>
          exact List.Forall₂.cons (hHead.trans hHead')
            (ih hTail')

theorem modify
    (t : SymbolTable)
    (id : SymId)
    {f : Symbol → Symbol}
    (hGrows : ∀ s, SymbolGrows s (f s)) :
    TableGrows t (modifySymbol t id f) := by
  unfold TableGrows modifySymbol
  rw [List.forall₂_map_right_iff, List.forall₂_same]
  intro s _
  split
  · exact hGrows s
  · exact SymbolGrows.refl s

/- A fold of steps that let the table grow. -/
theorem foldl
    {A : Type}
    {step : SymbolTable → A → SymbolTable}
    (hStep : ∀ t a, TableGrows t (step t a))
    (list : List A)
    (t : SymbolTable) :
    TableGrows t (list.foldl step t) := by
  induction list generalizing t with
  | nil => exact refl t
  | cons a list ih => exact (hStep t a).trans (ih _)

theorem map_id
    {t t' : SymbolTable}
    (hGrows : TableGrows t t') :
    t'.map Symbol.id = t.map Symbol.id := by
  induction hGrows with
  | nil => rfl
  | cons hHead _ ih => simp [hHead.id, ih]

/- Each symbol comes from one of before. -/
theorem exists_mem
    {t t' : SymbolTable}
    (hGrows : TableGrows t t')
    {s' : Symbol}
    (hMem : s' ∈ t') :
    ∃ s ∈ t, SymbolGrows s s' :=
  exists_of_mem_right hGrows hMem

theorem getSymbol
    {t t' : SymbolTable}
    (hGrows : TableGrows t t')
    {id : SymId}
    {s' : Symbol}
    (hGet : getSymbol t' id = some s') :
    ∃ s, Mkrootfs.getSymbol t id = some s ∧
      SymbolGrows s s' := by
  induction hGrows with
  | nil => cases hGet
  | @cons s other _ _ hHead _ ih =>
      unfold Mkrootfs.getSymbol at hGet ih ⊢
      rw [List.find?_cons] at hGet ⊢
      rw [hHead.id] at hGet
      split at hGet
      · cases hGet
        exact ⟨s, rfl, hHead⟩
      · exact ih hGet

end TableGrows

/- Conditions are no part of the lines. -/
theorem selectLine_congr
    {p q : Property}
    (hType : q.type = p.type)
    (hExpr : q.expr = p.expr)
    (hMenu : q.menu = p.menu) :
    q.selectLine = p.selectLine := by
  unfold Property.selectLine
  rw [hType, hExpr, hMenu]

theorem selectLines_mapIdx
    {f : Nat → Property → Property}
    (hSame : ∀ k p, (f k p).selectLine = p.selectLine)
    (props : List Property) :
    (props.mapIdx f).filterMap Property.selectLine =
      props.filterMap Property.selectLine := by
  induction props generalizing f with
  | nil => rfl
  | cons p props ih =>
      rw [List.mapIdx_cons, List.filterMap_cons,
        List.filterMap_cons, hSame,
        ih (fun k => hSame (k + 1))]

theorem mem_selectLines
    {s : Symbol}
    {p : Property}
    (hMem : p ∈ s.props)
    (hType : p.type.isLine = true) :
    (p.type, p.expr, p.menu) ∈ s.selectLines :=
  List.mem_filterMap.mpr ⟨p, hMem, if_pos hType⟩

/- A line is the line of a property. -/
theorem exists_of_mem_selectLines
    {s : Symbol}
    {type : PropType}
    {expr : Option Expr}
    {menu : Option Nat}
    (hMem : (type, expr, menu) ∈ s.selectLines) :
    ∃ p ∈ s.props,
      p.type = type ∧ p.expr = expr ∧ p.menu = menu := by
  rcases List.mem_filterMap.mp hMem with ⟨p, hp, hLine⟩
  unfold Property.selectLine at hLine
  split at hLine
  · cases hLine
    exact ⟨p, hp, rfl, rfl, rfl⟩
  · cases hLine

/- What `selected` reads is in the lines. -/
theorem selected_iff_mem_selectLines
    {s : Symbol}
    {menu : Nat}
    {target : SymId} :
    (∃ p ∈ s.props, p.selected menu = some target) ↔
      (PropType.select, some (Expr.symbol target), some menu) ∈
        s.selectLines := by
  constructor
  · rintro ⟨p, hp, hSelected⟩
    unfold Property.selected at hSelected
    split at hSelected
    · next hBoth =>
        split at hSelected
        · next hExpr =>
            cases hSelected
            have hLine := mem_selectLines hp (by rw [hBoth.1]; rfl)
            rwa [hBoth.1, hBoth.2, hExpr] at hLine
        · cases hSelected
    · cases hSelected
  · intro hMem
    rcases exists_of_mem_selectLines hMem with
      ⟨p, hp, hType, hExpr, hMenu⟩
    exact ⟨p, hp, by simp [Property.selected, hType, hMenu,
      hExpr]⟩

------------------------------------------------------------
-- Steps Of The Traversal
------------------------------------------------------------

theorem optSyms_exprAllocOr_left
    (e f : Option Expr) :
    optSyms e ⊆ optSyms (exprAllocOr e f) := by
  cases e with
  | none => exact List.nil_subset _
  | some e =>
      cases f with
      | none => exact List.Subset.refl _
      | some f => exact List.subset_append_left _ _

theorem optSyms_exprAllocOr_right
    (e f : Option Expr) :
    optSyms f ⊆ optSyms (exprAllocOr e f) := by
  cases e with
  | none => exact List.Subset.refl _
  | some e =>
      cases f with
      | none => exact List.nil_subset _
      | some f => exact List.subset_append_right _ _

theorem mem_optSyms_exprAllocAnd
    (sym : SymId)
    (e : Option Expr) :
    sym ∈ optSyms (exprAllocAnd (some (.symbol sym)) e) := by
  cases e with
  | none => exact List.mem_cons_self
  | some e => exact List.mem_cons_self

theorem grows_addRevDep
    (sym : SymId)
    (menu : Nat)
    (t : SymbolTable)
    (p : Property) :
    TableGrows t (addRevDep sym menu t p) := by
  unfold addRevDep
  split
  · exact TableGrows.refl t
  · exact TableGrows.modify t _ (fun s =>
      ⟨rfl, rfl, rfl, optSyms_exprAllocOr_left _ _⟩)

theorem grows_finalizeProps
    (rw : Rewriting)
    (menu : Nat)
    (sym : SymId)
    (basedep : Option Expr)
    (t : SymbolTable) :
    TableGrows t (finalizeProps rw menu sym basedep t) := by
  have hConds : TableGrows t
      (modifySymbol t sym (fun s =>
        { s with
          props :=
            s.props.mapIdx (finalizeProp rw menu basedep) })) := by
    refine TableGrows.modify t sym (fun s =>
      ⟨rfl, rfl, selectLines_mapIdx ?_ _,
        List.Subset.refl _⟩)
    intro k p
    unfold finalizeProp
    split
    · exact selectLine_congr rfl rfl rfl
    · rfl
  unfold finalizeProps
  simp only
  split
  · exact hConds
  · exact hConds.trans
      (TableGrows.foldl (grows_addRevDep sym menu) _ _)

theorem grows_propagate
    (rw : Rewriting)
    (parentdep : Option Expr)
    (t : SymbolTable)
    (m : Menu) :
    TableGrows t (propagate rw parentdep t m) := by
  unfold propagate
  split
  · exact TableGrows.refl t
  · exact grows_finalizeProps _ _ _ _ t

theorem grows_setUnknownType
    (type : SymbolType)
    (s : Symbol) :
    SymbolGrows s (setUnknownType type s) := by
  unfold setUnknownType
  split
  · exact ⟨rfl, rfl, rfl, List.Subset.refl _⟩
  · exact SymbolGrows.refl s

theorem grows_settleTypes
    (sym : SymId)
    (list : List Menu)
    (t : SymbolTable) :
    TableGrows t (settleTypes sym list t) := by
  unfold settleTypes
  simp only
  refine TableGrows.trans ?_ (TableGrows.foldl
    (fun t value =>
      TableGrows.modify t value (grows_setUnknownType _)) _ _)
  split
  · exact TableGrows.refl t
  · split
    · exact TableGrows.modify t sym (grows_setUnknownType _)
    · exact TableGrows.refl t

theorem grows_adoptValue
    (c : ChoiceId)
    (t : SymbolTable)
    (value : Nat × SymId) :
    TableGrows t (adoptValue c t value) := by
  unfold adoptValue
  refine TableGrows.modify t value.2 (fun s => ?_)
  split
  · exact SymbolGrows.refl s
  · refine ⟨rfl, rfl, ?_, List.Subset.refl _⟩
    unfold Symbol.selectLines
    simp only
    rw [List.filterMap_append, List.filterMap_map]
    have hChoice : ∀ q : Property, q.type = .choice →
        [q].filterMap Property.selectLine = [] := by
      intro q hType
      simp [Property.selectLine, PropType.isLine, hType]
    rw [hChoice _ rfl, List.append_nil]
    refine List.filterMap_congr ?_
    intro p _
    simp only [Function.comp_apply]
    split
    · exact selectLine_congr rfl rfl rfl
    · rfl

theorem grows_adoptValues
    (rw : Rewriting)
    (sym : SymId)
    (list : List Menu)
    (t : SymbolTable) :
    TableGrows t (adoptValues rw sym list t) := by
  unfold adoptValues
  split
  · exact TableGrows.foldl (grows_adoptValue _) _ t
  · exact TableGrows.refl t

theorem grows_choiceRevDep
    (menu : Nat)
    (s : Symbol) :
    SymbolGrows s (choiceRevDep menu s) := by
  unfold choiceRevDep
  split
  · exact SymbolGrows.refl s
  · split
    · exact SymbolGrows.refl s
    · exact ⟨rfl, rfl, rfl, optSyms_exprAllocOr_left _ _⟩

------------------------------------------------------------
-- Reverse Dependencies
------------------------------------------------------------

/-
  The targets of an entry's `select` lines have its symbol in
  their reverse dependencies.
-/
def Reversed (t : SymbolTable) (entry : MenuEntry) : Prop :=
  ∀ s, getSymbol t entry.sym = some s →
    ∀ target,
      (PropType.select, some (Expr.symbol target),
        some entry.id) ∈ s.selectLines →
      ∀ es, getSymbol t target = some es →
        entry.sym ∈ optSyms es.revDep

theorem Reversed.grows
    {t t' : SymbolTable}
    {entry : MenuEntry}
    (hReversed : Reversed t entry)
    (hGrows : TableGrows t t') :
    Reversed t' entry := by
  intro s' hGet target hLine es' hTarget
  rcases hGrows.getSymbol hGet with ⟨s, hOld, hSame⟩
  rcases hGrows.getSymbol hTarget with ⟨es, hOldTarget, hMore⟩
  rw [hSame.lines] at hLine
  exact hMore.revDep
    (hReversed s hOld target hLine es hOldTarget)

/- One of the properties that the loop goes through. -/
theorem mem_revDep_foldl
    {sym : SymId}
    {menu : Nat}
    {props : List Property}
    {p : Property}
    {target : SymId}
    (hMem : p ∈ props)
    (hSelected : p.selected menu = some target)
    {t : SymbolTable}
    {es : Symbol}
    (hGet : getSymbol (props.foldl (addRevDep sym menu) t)
      target = some es) :
    sym ∈ optSyms es.revDep := by
  induction props generalizing t with
  | nil => cases hMem
  | cons q props ih =>
      rcases List.mem_cons.mp hMem with rfl | hLater
      · have hRest := TableGrows.foldl (grows_addRevDep sym menu)
          props (addRevDep sym menu t p)
        rcases hRest.getSymbol hGet with ⟨es', hHere, hMore⟩
        refine hMore.revDep ?_
        unfold addRevDep at hHere
        simp only [hSelected] at hHere
        rw [getSymbol_modifySymbol, if_pos rfl] at hHere
        · rcases Option.map_eq_some_iff.mp hHere with
            ⟨old, _, rfl⟩
          exact optSyms_exprAllocOr_right _ _
            (mem_optSyms_exprAllocAnd sym _)
        · exact fun _ hSame => hSame
      · exact ih hLater hGet

theorem reversed_finalizeProps
    (rw : Rewriting)
    (entry : MenuEntry)
    (basedep : Option Expr)
    (t : SymbolTable) :
    Reversed (finalizeProps rw entry.id entry.sym basedep t)
      entry := by
  unfold finalizeProps
  simp only
  generalize modifySymbol t entry.sym _ = t'
  split
  · next hNone =>
      intro s hGet
      rw [hNone] at hGet
      cases hGet
  · next s₀ hSome =>
      intro s hGet target hLine es hTarget
      have hGrows := TableGrows.foldl
        (grows_addRevDep entry.sym entry.id) s₀.props t'
      rcases hGrows.getSymbol hGet with ⟨old, hOld, hSame⟩
      rw [hSome] at hOld
      cases hOld
      rw [hSame.lines] at hLine
      rcases selected_iff_mem_selectLines.mpr hLine with
        ⟨p, hp, hSelected⟩
      exact mem_revDep_foldl hp hSelected hTarget

theorem reversed_propagate
    (rw : Rewriting)
    (parentdep : Option Expr)
    (t : SymbolTable)
    {m : Menu}
    {entry : MenuEntry}
    (hEntry : entry ∈ m.entry) :
    Reversed (propagate rw parentdep t m) entry := by
  cases m with
  | config id sym file isMenu dep =>
      cases List.mem_singleton.mp hEntry
      exact reversed_finalizeProps rw _ _ t
  | choice id sym file dep list =>
      cases List.mem_singleton.mp hEntry
      exact reversed_finalizeProps rw _ _ t
  | menu id dep list => cases hEntry
  | ifBlock id dep list => cases hEntry

theorem reversed_foldl_propagate
    (rw : Rewriting)
    (parentdep : Option Expr)
    {list : List Menu}
    {m : Menu}
    {entry : MenuEntry}
    (hMem : m ∈ list)
    (hEntry : entry ∈ m.entry)
    (t : SymbolTable) :
    Reversed (list.foldl (propagate rw parentdep) t) entry := by
  induction list generalizing t with
  | nil => cases hMem
  | cons other list ih =>
      rcases List.mem_cons.mp hMem with rfl | hLater
      · exact (reversed_propagate rw parentdep t hEntry).grows
          (TableGrows.foldl (grows_propagate rw parentdep) _ _)
      · exact ih hLater _

/- An entry of a list is one of its menus or below one. -/
theorem mem_entriesOf
    {list : List Menu}
    {entry : MenuEntry} :
    entry ∈ entriesOf list ↔
      ∃ m ∈ list, entry ∈ m.entry ∨ entry ∈ m.inner := by
  induction list with
  | nil => simp [entriesOf]
  | cons m list ih =>
      simp only [entriesOf, List.mem_append, ih,
        List.exists_mem_cons_iff]

/-
  The two loops over a list, where the second one is known to
  reach what is below.
-/
theorem reversed_list
    {rw : Rewriting}
    {above : Option Expr}
    {list : List Menu}
    {t t' : SymbolTable}
    (hGrows : TableGrows
      (list.foldl (propagate rw above) t) t')
    (hInner : ∀ m ∈ list, ∀ entry ∈ m.inner,
      Reversed t' entry) :
    TableGrows t t' ∧
      ∀ entry ∈ entriesOf list, Reversed t' entry := by
  refine ⟨(TableGrows.foldl (grows_propagate rw above) list
    t).trans hGrows, ?_⟩
  intro entry hEntry
  rcases mem_entriesOf.mp hEntry with ⟨m, hm, hHere | hBelow⟩
  · exact (reversed_foldl_propagate rw above hm hHere t).grows
      hGrows
  · exact hInner m hm entry hBelow

mutual

/- `menu_finalize` reaches every entry below a menu. -/
theorem reversed_finalizeMenu
    (rw : Rewriting)
    (parentdep : Option Expr)
    (m : Menu)
    (t : SymbolTable) :
    TableGrows t (finalizeMenu rw parentdep m t) ∧
      ∀ entry ∈ m.inner,
        Reversed (finalizeMenu rw parentdep m t) entry := by
  cases m with
  | config id sym file isMenu dep =>
      unfold finalizeMenu
      exact ⟨TableGrows.refl t, by simp [Menu.inner]⟩
  | choice id sym file dep list =>
      unfold finalizeMenu Menu.inner
      simp only
      have hTyped : TableGrows t
          (if sym.isChoice then
            settleTypes sym list t
          else
            t) := by
        split
        · exact grows_settleTypes sym list t
        · exact TableGrows.refl t
      generalize (if sym.isChoice then
        settleTypes sym list t else t) = typed at hTyped ⊢
      generalize choiceDep id sym _ typed = above
      have hEach := reversed_finalizeEach rw above list
        (list.foldl (propagate rw above) typed)
      have hList := reversed_list hEach.1 hEach.2
      have hEnd := (grows_adoptValues rw sym list _).trans
        (TableGrows.modify
          (adoptValues rw sym list
            (finalizeEach rw above list
              (list.foldl (propagate rw above) typed)))
          sym (grows_choiceRevDep id))
      exact ⟨(hTyped.trans hList.1).trans hEnd,
        fun entry hEntry => (hList.2 entry hEntry).grows hEnd⟩
  | menu id dep list =>
      unfold finalizeMenu Menu.inner
      simp only
      generalize rw.cond id 0 _ none = above
      have hEach := reversed_finalizeEach rw above list
        (list.foldl (propagate rw above) t)
      exact reversed_list hEach.1 hEach.2
  | ifBlock id dep list =>
      unfold finalizeMenu Menu.inner
      simp only
      generalize rw.dep id parentdep dep = above
      have hEach := reversed_finalizeEach rw above list
        (list.foldl (propagate rw above) t)
      exact reversed_list hEach.1 hEach.2

theorem reversed_finalizeEach
    (rw : Rewriting)
    (parentdep : Option Expr)
    (list : List Menu)
    (t : SymbolTable) :
    TableGrows t (finalizeEach rw parentdep list t) ∧
      ∀ m ∈ list, ∀ entry ∈ m.inner,
        Reversed (finalizeEach rw parentdep list t) entry := by
  cases list with
  | nil =>
      unfold finalizeEach
      exact ⟨TableGrows.refl t, by simp⟩
  | cons m list =>
      unfold finalizeEach
      have hHead := reversed_finalizeMenu rw parentdep m t
      have hTail := reversed_finalizeEach rw parentdep list
        (finalizeMenu rw parentdep m t)
      refine ⟨hHead.1.trans hTail.1, ?_⟩
      intro other hOther entry hEntry
      rcases List.mem_cons.mp hOther with rfl | hLater
      · exact (hHead.2 entry hEntry).grows hTail.1
      · exact hTail.2 other hLater entry hEntry

end

/- `menu_finalize(&rootmenu)` reaches every entry. -/
theorem reversed_finalizeRoot
    (rw : Rewriting)
    (list : List Menu)
    (t : SymbolTable) :
    TableGrows t (finalizeRoot rw list t) ∧
      ∀ entry ∈ entriesOf list,
        Reversed (finalizeRoot rw list t) entry := by
  have hEach := reversed_finalizeEach rw none list
    (list.foldl (propagate rw none) t)
  exact reversed_list hEach.1 hEach.2

------------------------------------------------------------
-- Trees That Are Accepted
------------------------------------------------------------

theorem uniqueIds_addModulesDefault
    {t : SymbolTable}
    {n : Nat}
    (hUnique : UniqueIds t n) :
    UniqueIds (addModulesDefault t) n := by
  unfold addModulesDefault
  split
  · exact hUnique
  · split
    · refine UniqueIds.lookup ?_ _ _ _
      exact hUnique.modify .modules (fun _ => rfl)
    · exact hUnique

theorem paired_addModulesDefault
    {t : SymbolTable}
    {known : Set MenuEntry}
    (hAll : ∀ s ∈ t, Paired known s) :
    ∀ s ∈ addModulesDefault t, Paired known s := by
  unfold addModulesDefault
  split
  · exact hAll
  · split
    · refine forall_mem_symLookup ?_ (paired_of_props_nil _ rfl)
      refine forall_mem_modifySymbol hAll ?_
      intro s _ _ hPaired
      exact hPaired.change (f := appendProps [_])
        (.appendProps ⟨by simp, by simp⟩)
    · exact hAll

/- What is known of an accepted tree. -/
theorem confParse_eq_some
    {host : ParseHost}
    {rw : Rewriting}
    {file : Text}
    {stmts : List Stmt}
    {t : SymbolTable}
    {menus : List Menu}
    (hParse : confParse host rw file stmts = some (t, menus)) :
    menus = (parseTree host file stmts).2 ∧
      t = finalizeRoot rw menus
        (addModulesDefault
          (parseTree host file stmts).1.symbols) := by
  unfold confParse at hParse
  simp only at hParse
  split at hParse
  · cases hParse
    exact ⟨rfl, rfl⟩
  · cases hParse

/- The symbols of an accepted tree are unique. -/
theorem confParse_nodup
    {host : ParseHost}
    {rw : Rewriting}
    {file : Text}
    {stmts : List Stmt}
    {t : SymbolTable}
    {menus : List Menu}
    (hParse : confParse host rw file stmts = some (t, menus)) :
    (t.map Symbol.id).Nodup := by
  rcases confParse_eq_some hParse with ⟨rfl, rfl⟩
  have hUnique := uniqueIds_addModulesDefault
    (parseInvariant_uniqueIds.parseTree host file stmts)
  rw [(reversed_finalizeRoot rw _ _).1.map_id]
  exact hUnique.nodup

/-
  In an accepted tree a symbol with a line `build_select`
  stands in the reverse dependency of the target.
-/
theorem buildSelect_reversed
    {host : ParseHost}
    {rw : Rewriting}
    {file : Text}
    {stmts : List Stmt}
    {t : SymbolTable}
    {menus : List Menu}
    (hParse : confParse host rw file stmts = some (t, menus))
    {s es : Symbol}
    (hMem : s ∈ t)
    {p : Property}
    (hProp : p ∈ s.props)
    (hType : p.type = .buildSelect)
    {target : SymId}
    (hTarget : target ∈ optSyms p.expr)
    (hGet : getSymbol t target = some es) :
    s.id ∈ optSyms es.revDep := by
  have hSelf := getSymbol_of_mem (confParse_nodup hParse) hMem
  rcases confParse_eq_some hParse with ⟨rfl, rfl⟩
  have hFinal := reversed_finalizeRoot rw
    (parseTree host file stmts).2
    (addModulesDefault (parseTree host file stmts).1.symbols)
  have hPaired := paired_addModulesDefault
    (parseInvariant_paired.parseTree host file stmts)
  rcases hFinal.1.getSymbol hSelf with ⟨s₀, hOld, hSame⟩
  -- The line stood in the symbol that was parsed.
  have hLine := mem_selectLines hProp (by rw [hType]; rfl)
  rw [hSame.lines] at hLine
  rcases exists_of_mem_selectLines hLine with
    ⟨p₀, hProp₀, hType₀, hExpr₀, _⟩
  rcases hPaired s₀ (getSymbol_mem hOld) p₀ hProp₀
      (hType₀.trans hType) with
    ⟨entry, hEntry, target₀, hSym, _, hTarget₀, hSelect⟩
  have hSameTarget : target = target₀ := by
    rw [← hExpr₀, hTarget₀] at hTarget
    simpa [optSyms, Expr.syms] using hTarget
  subst hSameTarget
  have hSymId : entry.sym = s.id := hSym.trans hSame.id.symm
  have hSelectLine := selected_iff_mem_selectLines.mp hSelect
  rw [← hSame.lines] at hSelectLine
  rw [← hSymId]
  refine hFinal.2 entry hEntry s ?_ target hSelectLine es hGet
  rw [hSymId]
  exact hSelf

end Mkrootfs
