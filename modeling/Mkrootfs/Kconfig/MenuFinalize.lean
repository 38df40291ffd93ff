import Mkrootfs.Kconfig.Zconf

/-
  `menu_finalize` (`menu.c`): the dependencies of the menu
  reach the properties, and `select` lines reach the reverse
  dependencies of their targets.

  The rewriting of conditions (`expr.c`) and the entries that
  it moves into automatic submenus are left open.

  Main declarations:
    * `Rewriting`
    * `propagate`, `finalizeMenu`, `finalizeRoot`
    * `confParse`
-/

------------------------------------------------------------
-- Rewritten Conditions
------------------------------------------------------------

namespace Mkrootfs

/-
  What the rewriting leaves: the dependency of an entry, the
  condition of its k-th property (both from the dependency
  above and the one that was given), and whether an entry
  has moved below an earlier one.
-/
structure Rewriting where
  dep : Nat → Option Expr → Option Expr → Option Expr
  cond : Nat → Nat → Option Expr → Option Expr → Option Expr
  submenu : Nat → Bool

namespace Rewriting

/- The rewriting that finds nothing to simplify. -/
def plain : Rewriting where
  dep := fun _ => exprAllocAnd
  cond := fun _ _ => exprAllocAnd
  submenu := fun _ => false

end Rewriting

------------------------------------------------------------
-- Entries And Their Properties
------------------------------------------------------------

namespace Menu

def id : Menu → Nat
| config id _ _ _ _ => id
| choice id _ _ _ _ => id
| menu id _ _ => id
| ifBlock id _ _ => id

/- `menu->sym`. -/
def sym : Menu → Option SymId
| config _ sym _ _ _ => some sym
| choice _ sym _ _ _ => some sym
| menu _ _ _ => none
| ifBlock _ _ _ => none

/- `menu->dep`. -/
def dep : Menu → Option Expr
| config _ _ _ _ dep => dep
| choice _ _ _ dep _ => dep
| menu _ dep _ => dep
| ifBlock _ dep _ => dep

end Menu

/- The target of a property `select` of an entry. -/
def Property.selected (menu : Nat) (p : Property) :
    Option SymId :=
  if p.type = .select ∧ p.menu = some menu then
    match p.expr with
    | some (.symbol target) => some target
    | _ => none
  else
    none

/- A property with the condition that `menu_finalize` left. -/
def finalizeProp
    (rw : Rewriting)
    (menu : Nat)
    (basedep : Option Expr)
    (k : Nat)
    (p : Property) : Property :=
  if p.menu = some menu then
    { p with visible := rw.cond menu k basedep p.visible }
  else
    p

/- `es->rev_dep` of a target learns of a `select`. -/
def addRevDep
    (sym : SymId)
    (menu : Nat)
    (t : SymbolTable)
    (p : Property) : SymbolTable :=
  match p.selected menu with
  | none => t
  | some target =>
      modifySymbol t target (fun es =>
        { es with
          revDep := exprAllocOr es.revDep
            (exprAllocAnd (some (.symbol sym)) p.visible) })

/-
  The loop over the properties of an entry: they get their
  conditions, and then `select` its effect.
-/
def finalizeProps
    (rw : Rewriting)
    (menu : Nat)
    (sym : SymId)
    (basedep : Option Expr)
    (t : SymbolTable) : SymbolTable :=
  let t' :=
    modifySymbol t sym (fun s =>
      { s with
        props :=
          s.props.mapIdx (finalizeProp rw menu basedep) })
  match getSymbol t' sym with
  | none => t'
  | some s => s.props.foldl (addRevDep sym menu) t'

/- What an entry gets from the menu above it. -/
def propagate
    (rw : Rewriting)
    (parentdep : Option Expr)
    (t : SymbolTable)
    (m : Menu) : SymbolTable :=
  match m.sym with
  | none => t
  | some sym =>
      finalizeProps rw m.id sym (rw.dep m.id parentdep m.dep) t

------------------------------------------------------------
-- Choices
------------------------------------------------------------

/- `menu_set_type`, for a symbol without a type. -/
def setUnknownType
    (type : SymbolType)
    (s : Symbol) : Symbol :=
  if s.type = .unknown then { s with type := type } else s

/- The type of a symbol of the table. -/
def typeOf (t : SymbolTable) (sym : SymId) : SymbolType :=
  ((getSymbol t sym).map Symbol.type).getD .unknown

/-
  The type of a choice is that of its first typed value, and
  the values without a type get it.
-/
def settleTypes
    (sym : SymId)
    (list : List Menu)
    (t : SymbolTable) : SymbolTable :=
  let values := list.filterMap Menu.sym
  let t' :=
    match (values.map (typeOf t)).find? (· ≠ .unknown) with
    | none => t
    | some type =>
        if typeOf t sym = .unknown then
          modifySymbol t sym (setUnknownType type)
        else
          t
  values.foldl (fun t value =>
    modifySymbol t value (setUnknownType (typeOf t' sym))) t'

mutual

/- What an entry of a choice adds to the list of its values. -/
def Menu.choiceEntry (rw : Rewriting) :
    Menu → List (Nat × SymId)
| .config id sym _ _ _ =>
    if rw.submenu id then [] else [(id, sym)]
| .choice id sym _ _ _ =>
    if rw.submenu id then [] else [(id, sym)]
| .menu _ _ _ => []
| .ifBlock id _ inner =>
    if rw.submenu id then [] else choiceEntries rw inner

/-
  The entries that stay in the list of a choice, with those
  of its `if` blocks.
-/
def choiceEntries (rw : Rewriting) :
    List Menu → List (Nat × SymId)
| [] => []
| m :: list => m.choiceEntry rw ++ choiceEntries rw list

end

/-
  A symbol in the list of a choice becomes one of its values.
  Under a tristate choice other types need the choice at `y`.
-/
def adoptValue
    (c : ChoiceId)
    (t : SymbolTable)
    (value : Nat × SymId) : SymbolTable :=
  let guarded := typeOf t (.choice c) == .tristate &&
    typeOf t value.2 != .tristate
  let guard : Expr := .equal (.choice c) (.builtin .yes)
  modifySymbol t value.2 (fun s =>
    if s.choiceOf.isSome then
      s
    else
      { s with
        choiceOf := some c
        props :=
          s.props.map (fun p =>
            if guarded ∧ p.menu = some value.1 then
              { p with
                visible :=
                  exprAllocAnd (some guard) p.visible }
            else
              p) ++
          [⟨.choice, none, some (.symbol (.choice c)),
            some value.1, none⟩] })

/-
  The end of `menu_finalize` for a choice: one that is not
  optional is reached from `m` where its prompt is visible.
-/
def choiceRevDep
    (menu : Nat)
    (s : Symbol) : Symbol :=
  match (s.props.filter (·.isPromptOf menu)).getLast? with
  | none => s
  | some p =>
      if s.optional then
        s
      else
        { s with
          revDep := exprAllocOr s.revDep
            (exprAllocAnd p.visible
              (some (.symbol (.builtin .mod)))) }

/- The values of a choice, where `sym` is one. -/
def adoptValues
    (rw : Rewriting)
    (sym : SymId)
    (list : List Menu)
    (t : SymbolTable) : SymbolTable :=
  match sym with
  | .choice c => (choiceEntries rw list).foldl (adoptValue c) t
  | _ => t

/- What the entries of a choice get from it. -/
def choiceDep
    (menu : Nat)
    (sym : SymId)
    (dep : Option Expr)
    (t : SymbolTable) : Option Expr :=
  if sym.isChoice then
    some (.symbol sym)
  else
    match (getSymbol t sym).bind (fun s =>
        (s.props.filter (·.isPromptOf menu)).getLast?) with
    | some p => p.visible
    | none => dep

------------------------------------------------------------
-- The Traversal
------------------------------------------------------------

mutual

/- `menu_finalize` below an entry that has its dependency. -/
def finalizeMenu
    (rw : Rewriting)
    (parentdep : Option Expr) :
    Menu → SymbolTable → SymbolTable
| .config _ _ _ _ _, t => t
| .choice id sym _ dep list, t =>
    let typed :=
      if sym.isChoice then settleTypes sym list t else t
    let above := choiceDep id sym (rw.dep id parentdep dep) typed
    let below :=
      finalizeEach rw above list
        (list.foldl (propagate rw above) typed)
    modifySymbol (adoptValues rw sym list below) sym
      (choiceRevDep id)
| .menu id dep list, t =>
    let above := rw.cond id 0 (rw.dep id parentdep dep) none
    finalizeEach rw above list
      (list.foldl (propagate rw above) t)
| .ifBlock id dep list, t =>
    let above := rw.dep id parentdep dep
    finalizeEach rw above list
      (list.foldl (propagate rw above) t)

/- The second loop of `menu_finalize`. -/
def finalizeEach
    (rw : Rewriting)
    (parentdep : Option Expr) :
    List Menu → SymbolTable → SymbolTable
| [], t => t
| m :: list, t =>
    finalizeEach rw parentdep list
      (finalizeMenu rw parentdep m t)

end

/- `menu_finalize(&rootmenu)`. -/
def finalizeRoot
    (rw : Rewriting)
    (list : List Menu)
    (t : SymbolTable) : SymbolTable :=
  finalizeEach rw none list (list.foldl (propagate rw none) t)

/- Without an option `modules`, `MODULES` decides. -/
def addModulesDefault (t : SymbolTable) : SymbolTable :=
  match getSymbol t .modules with
  | none => t
  | some s =>
      if s.props.isEmpty then
        (symLookup
          (modifySymbol t .modules (fun s =>
            { s with
              props := s.props ++
                [⟨.default, none,
                  some (.symbol (.named "MODULES".toList)),
                  none, none⟩] }))
          "MODULES".toList .plain none).1
      else
        t

/-
  `conf_parse` up to `sym_check_deps`: the symbols and the
  menu of a tree that the parser accepts.
-/
def confParse
    (host : ParseHost)
    (rw : Rewriting)
    (file : Text)
    (stmts : List Stmt) : Option (SymbolTable × List Menu) :=
  let parsed := parseTree host file stmts
  if parsed.1.errors = 0 then
    some
      (finalizeRoot rw parsed.2
        (addModulesDefault parsed.1.symbols), parsed.2)
  else
    none

end Mkrootfs
