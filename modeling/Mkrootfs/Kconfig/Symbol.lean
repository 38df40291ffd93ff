import Mathlib.Data.List.Basic
import Mkrootfs.Library.Text

/-
  The data of the configuration programs: tristate values,
  expressions, properties and symbols (`expr.h`), and the
  lookups of the symbol table (`symbol.c`).

  A symbol is named by what `sym_lookup` tells symbols apart
  by, its name and its class.  The table lists the symbols
  newest first, as a hash chain does, with the three static
  symbols `y`, `m` and `n` at its end.

  Main declarations:
    * `Tristate`, `Expr`, `Property`, `Symbol`
    * `symFind`, `symLookup`
    * `modifySymbol`
    * `symStringValid`
-/

------------------------------------------------------------
-- Tristates
------------------------------------------------------------

namespace Mkrootfs

inductive Tristate where
| no
| mod
| yes
deriving DecidableEq, Repr

namespace Tristate

def toNat : Tristate → Nat
| no => 0
| mod => 1
| yes => 2

/- `EXPR_OR`. -/
def or (a b : Tristate) : Tristate :=
  if a.toNat > b.toNat then a else b

/- `EXPR_AND`. -/
def and (a b : Tristate) : Tristate :=
  if a.toNat < b.toNat then a else b

/- `EXPR_NOT`. -/
def not : Tristate → Tristate
| no => yes
| mod => mod
| yes => no

/- A conjunction is `n` exactly when a part is. -/
@[simp] theorem and_eq_no_iff (a b : Tristate) :
    a.and b = no ↔ a = no ∨ b = no := by
  cases a <;> cases b <;> decide

end Tristate

------------------------------------------------------------
-- Symbol Names
------------------------------------------------------------

/- A choice: named, or the n-th one without a name. -/
inductive ChoiceId where
| named : Text → ChoiceId
| anonymous : Nat → ChoiceId
deriving DecidableEq, Repr

/-
  The identity of a symbol.  `config` entries and mentions
  share `named`, quoted words are `const`, and the nameless
  `modules_sym` is `modules`.
-/
inductive SymId where
| builtin : Tristate → SymId
| named : Text → SymId
| const : Text → SymId
| choice : ChoiceId → SymId
| modules : SymId
deriving DecidableEq, Repr

namespace SymId

/- `sym->name`. -/
def name : SymId → Option Text
| builtin .yes => some ['y']
| builtin .mod => some ['m']
| builtin .no => some ['n']
| named text => some text
| const text => some text
| choice (.named text) => some text
| choice (.anonymous _) => none
| modules => none

/- `SYMBOL_CONST`. -/
def isConst : SymId → Bool
| builtin _ => true
| const _ => true
| _ => false

/- `SYMBOL_CHOICE`. -/
def isChoice : SymId → Bool
| choice _ => true
| _ => false

/- The static symbols are in no hash chain. -/
def isHashed : SymId → Bool
| builtin _ => false
| _ => true

end SymId

------------------------------------------------------------
-- Expressions And Properties
------------------------------------------------------------

/- `struct expr`, without the list and range nodes. -/
inductive Expr where
| symbol : SymId → Expr
| equal : SymId → SymId → Expr
| unequal : SymId → SymId → Expr
| not : Expr → Expr
| and : Expr → Expr → Expr
| or : Expr → Expr → Expr
deriving DecidableEq, Repr

namespace Expr

/- The symbols of an expression, in printing order. -/
def syms : Expr → List SymId
| symbol s => [s]
| equal s t => [s, t]
| unequal s t => [s, t]
| not e => e.syms
| and a b => a.syms ++ b.syms
| or a b => a.syms ++ b.syms

end Expr

/- `enum prop_type`, as far as entries create them. -/
inductive PropType where
| prompt
| menu
| comment
| default
| choice
| select
| range
| env
| package
| srcdir
| buildDepends
| buildSelect
deriving DecidableEq, Repr

/-
  `struct property`.  `expr` is absent where the C field is
  `NULL`; `menu` is the entry the property was added to.
-/
structure Property where
  type : PropType
  visible : Option Expr
  expr : Option Expr
  menu : Option Nat
  file : Option Text
deriving DecidableEq, Repr

------------------------------------------------------------
-- Symbols
------------------------------------------------------------

inductive SymbolType where
| unknown
| boolean
| tristate
| int
| hex
| string
| other
deriving DecidableEq, Repr

/-
  `struct symbol_value`: a string value or, for a choice, a
  chosen symbol share the pointer `val` in C.
-/
structure SymbolValue where
  val : Text
  chosen : Option SymId
  tri : Tristate
deriving DecidableEq, Repr

/- The value `{ NULL, no }`. -/
def SymbolValue.empty : SymbolValue where
  val := []
  chosen := none
  tri := .no

/- The two indices of `symbol.def` that are in use. -/
inductive DefIndex where
| user
| auto
deriving DecidableEq, Repr

/-
  `struct symbol`.  The bits of `flags` are separate fields;
  `SYMBOL_CONST` and `SYMBOL_CHOICE` are read off the
  identity.  `choiceOf` is the choice of a choice value.
-/
structure Symbol where
  id : SymId
  type : SymbolType
  curr : SymbolValue
  defUser : SymbolValue
  defAuto : SymbolValue
  hasUser : Bool
  hasAuto : Bool
  valid : Bool
  write : Bool
  auto : Bool
  optional : Bool
  isPackage : Bool
  isSrcdir : Bool
  choiceOf : Option ChoiceId
  props : List Property
  revDep : Option Expr
  file : Option Text
deriving DecidableEq, Repr

namespace Symbol

/- A symbol as `sym_lookup` allocates it. -/
def alloc (id : SymId) (file : Option Text) : Symbol where
  id := id
  type := .unknown
  curr := .empty
  defUser := .empty
  defAuto := .empty
  hasUser := false
  hasAuto := false
  valid := false
  write := false
  auto := false
  optional := false
  isPackage := false
  isSrcdir := false
  choiceOf := none
  props := []
  revDep := none
  file := file

/- `sym->def[def]`. -/
def defVal (s : Symbol) : DefIndex → SymbolValue
| .user => s.defUser
| .auto => s.defAuto

/- `sym->flags & (SYMBOL_DEF << def)`. -/
def hasDef (s : Symbol) : DefIndex → Bool
| .user => s.hasUser
| .auto => s.hasAuto

/- Store a value at an index of `sym->def`. -/
def setDefVal
    (s : Symbol)
    (v : SymbolValue) : DefIndex → Symbol
| .user => { s with defUser := v }
| .auto => { s with defAuto := v }

/- Set or clear a flag `SYMBOL_DEF << def`. -/
def setHasDef (s : Symbol) (b : Bool) : DefIndex → Symbol
| .user => { s with hasUser := b }
| .auto => { s with hasAuto := b }

/- Whether `for_all_symbols` visits a symbol. -/
def isVisited (s : Symbol) : Bool :=
  s.id.isHashed && s.type != .other

end Symbol

------------------------------------------------------------
-- The Symbol Table
------------------------------------------------------------

/- All symbols, newest first. -/
abbrev SymbolTable := List Symbol

/- The static symbols `symbol_yes`, `_mod`, `_no`. -/
def builtinSymbols : SymbolTable :=
  [Symbol.alloc (.builtin .yes) none,
    Symbol.alloc (.builtin .mod) none,
    Symbol.alloc (.builtin .no) none]

/- The symbol of an identity. -/
def getSymbol (t : SymbolTable) (id : SymId) :
    Option Symbol :=
  t.find? (fun s => s.id == id)

/- Update the symbol of an identity. -/
def modifySymbol
    (t : SymbolTable)
    (id : SymId)
    (f : Symbol → Symbol) : SymbolTable :=
  t.map (fun s => if s.id = id then f s else s)

/- Updates that keep identities are seen at theirs only. -/
theorem getSymbol_modifySymbol
    (t : SymbolTable)
    (id other : SymId)
    (f : Symbol → Symbol)
    (hId : ∀ s, s.id = id → (f s).id = id) :
    getSymbol (modifySymbol t id f) other =
      if other = id then
        (getSymbol t id).map f
      else
        getSymbol t other := by
  unfold getSymbol modifySymbol
  induction t with
  | nil => simp
  | cons s t ih =>
      by_cases hSelf : s.id = id
      · have hNew := hId s hSelf
        by_cases hOther : other = id
        · subst other
          simp [hSelf, hNew]
        · have hNe : id ≠ other := fun h => hOther h.symm
          simp [hSelf, hNew, hOther, hNe]
            at ih ⊢
          simpa [hOther] using ih
      · by_cases hOther : other = id
        · subst other
          simpa [hSelf, List.find?_cons] using ih
        · by_cases hHere : s.id = other
          · simp [hOther, hHere]
          · simpa [hSelf, hOther, hHere, List.find?_cons]
              using ih

theorem modifySymbol_map_id
    (t : SymbolTable)
    (id : SymId)
    (f : Symbol → Symbol)
    (hId : ∀ s, s.id = id → (f s).id = id) :
    (modifySymbol t id f).map Symbol.id =
      t.map Symbol.id := by
  unfold modifySymbol
  rw [List.map_map]
  apply List.map_congr_left
  intro s _
  by_cases hSelf : s.id = id
  · simp [hSelf, hId s hSelf]
  · simp [hSelf]

/- Two updates of one symbol. -/
theorem modifySymbol_modifySymbol
    (t : SymbolTable)
    (id : SymId)
    (f g : Symbol → Symbol)
    (hId : ∀ s, s.id = id → (f s).id = id) :
    modifySymbol (modifySymbol t id f) id g =
      modifySymbol t id (fun s => g (f s)) := by
  unfold modifySymbol
  rw [List.map_map]
  apply List.map_congr_left
  intro s _
  by_cases hSelf : s.id = id
  · simp [hSelf, hId s hSelf]
  · simp [hSelf]

theorem getSymbol_id
    {t : SymbolTable}
    {id : SymId}
    {s : Symbol}
    (hGet : getSymbol t id = some s) :
    s.id = id := by
  simpa using List.find?_some hGet

theorem getSymbol_mem
    {t : SymbolTable}
    {id : SymId}
    {s : Symbol}
    (hGet : getSymbol t id = some s) :
    s ∈ t :=
  List.mem_of_find?_eq_some hGet

/- A symbol of a table without duplicates is found. -/
theorem getSymbol_of_mem
    {t : SymbolTable}
    (hNodup : (t.map Symbol.id).Nodup)
    {s : Symbol}
    (hMem : s ∈ t) :
    getSymbol t s.id = some s := by
  induction t with
  | nil => cases hMem
  | cons head t ih =>
      rw [List.map_cons, List.nodup_cons] at hNodup
      rcases List.mem_cons.mp hMem with rfl | hTail
      · simp [getSymbol]
      · have hNe : head.id ≠ s.id := by
          intro h
          exact hNodup.1
            (h ▸ List.mem_map_of_mem hTail)
        simpa [getSymbol, hNe, List.find?_cons]
          using ih hNodup.2 hTail

/- The static symbol of a one-letter name, if there is one. -/
def builtinOfName (name : Text) : Option SymId :=
  if name = ['y'] then
    some (.builtin .yes)
  else if name = ['m'] then
    some (.builtin .mod)
  else if name = ['n'] then
    some (.builtin .no)
  else
    none

/- `sym_find`: the newest symbol that is not constant. -/
def symFind (t : SymbolTable) (name : Text) :
    Option SymId :=
  match builtinOfName name with
  | some id => some id
  | none =>
      (t.find? (fun s =>
        s.id.name == some name && !s.id.isConst)).map
          Symbol.id

theorem builtinOfName_builtin
    {name : Text}
    {id : SymId}
    (hFind : builtinOfName name = some id) :
    ∃ tri, id = .builtin tri := by
  unfold builtinOfName at hFind
  split at hFind
  · exact ⟨.yes, (Option.some.inj hFind).symm⟩
  · split at hFind
    · exact ⟨.mod, (Option.some.inj hFind).symm⟩
    · split at hFind
      · exact ⟨.no, (Option.some.inj hFind).symm⟩
      · cases hFind

theorem builtinOfName_name
    {name : Text}
    {id : SymId}
    (hFind : builtinOfName name = some id) :
    id.name = some name := by
  unfold builtinOfName at hFind
  split at hFind
  · next hName => rw [← Option.some.inj hFind, hName]; rfl
  · split at hFind
    · next hName => rw [← Option.some.inj hFind, hName]; rfl
    · split at hFind
      · next hName =>
          rw [← Option.some.inj hFind, hName]; rfl
      · cases hFind

/- The symbol that is found has the name asked for. -/
theorem symFind_name
    {t : SymbolTable}
    {name : Text}
    {id : SymId}
    (hFind : symFind t name = some id) :
    id.name = some name := by
  unfold symFind at hFind
  split at hFind
  · next hBuiltin =>
      rw [← Option.some.inj hFind]
      exact builtinOfName_name hBuiltin
  · rcases Option.map_eq_some_iff.mp hFind with
      ⟨s, hs, rfl⟩
    have hBoth := List.find?_some hs
    simp only [Bool.and_eq_true, beq_iff_eq] at hBoth
    exact hBoth.1

/- `sym_find` only looks at identities. -/
theorem symFind_congr
    {t u : SymbolTable}
    (hIds : t.map Symbol.id = u.map Symbol.id)
    (name : Text) :
    symFind t name = symFind u name := by
  have hFind : ∀ v : SymbolTable,
      (v.find? (fun s =>
          s.id.name == some name && !s.id.isConst)).map
            Symbol.id =
        (v.map Symbol.id).find? (fun id =>
          id.name == some name && !id.isConst) := by
    intro v
    rw [List.find?_map]
    rfl
  unfold symFind
  rw [hFind t, hFind u, hIds]

/- The class that the `flags` of `sym_lookup` ask for. -/
inductive LookupClass where
| plain
| const
| choice
deriving DecidableEq, Repr

/- The identity `sym_lookup` finds or creates for a name. -/
def symLookupId (name : Text) (cls : LookupClass) : SymId :=
  match builtinOfName name with
  | some id => id
  | none =>
      match cls with
      | .plain => .named name
      | .const => .const name
      | .choice => .choice (.named name)

/- A plain lookup is about a static symbol or a named one. -/
theorem symLookupId_plain
    (name : Text) :
    (∃ tri, symLookupId name .plain = .builtin tri) ∨
      symLookupId name .plain = .named name := by
  unfold symLookupId
  split
  · next hBuiltin =>
      exact Or.inl (builtinOfName_builtin hBuiltin)
  · exact Or.inr rfl

/- The symbol of a lookup has the name. -/
theorem symLookupId_name
    (name : Text)
    (cls : LookupClass) :
    (symLookupId name cls).name = some name := by
  unfold symLookupId
  split
  · next hBuiltin => exact builtinOfName_name hBuiltin
  · cases cls <;> rfl

/-
  `sym_lookup` for a name: an existing symbol is returned,
  otherwise one is added that records the current file.
-/
def symLookup
    (t : SymbolTable)
    (name : Text)
    (cls : LookupClass)
    (file : Option Text) : SymbolTable × SymId :=
  let id := symLookupId name cls
  if t.any (fun s => s.id == id) then
    (t, id)
  else
    (Symbol.alloc id file :: t, id)

------------------------------------------------------------
-- Values Of Strings
------------------------------------------------------------

/- `isxdigit`. -/
def isHexDigit (c : Char) : Bool :=
  c.isDigit || ('a' ≤ c && c ≤ 'f') || ('A' ≤ c && c ≤ 'F')

/- The decimal numbers `sym_string_valid` accepts. -/
def intDigitsValid : Text → Bool
| [] => false
| '0' :: rest => rest.isEmpty
| text => text.all Char.isDigit

/- `sym_string_valid`. -/
def symStringValid (type : SymbolType) (str : Text) : Bool :=
  match type with
  | .string => true
  | .int =>
      match str with
      | '-' :: rest => intDigitsValid rest
      | _ => intDigitsValid str
  | .hex =>
      let digits :=
        match str with
        | '0' :: 'x' :: rest => rest
        | '0' :: 'X' :: rest => rest
        | _ => str
      !digits.isEmpty && digits.all isHexDigit
  | .boolean | .tristate =>
      match str with
      | c :: _ => c ∈ ['y', 'Y', 'm', 'M', 'n', 'N']
      | [] => false
  | .unknown | .other => false

end Mkrootfs
