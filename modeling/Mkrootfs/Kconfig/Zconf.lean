import Mkrootfs.Kconfig.Symbol

/-
  The Kconfig language (`zconf.y`) and what its actions do to
  the symbols and the menu (`menu.c`, `symbol.c`).

  A tree is given by its statements, each with the statements
  of its block, or of the file it sources.  Every line ends
  within its file.  Prompts and help texts are left out.

  Main declarations:
    * `WordExpr`, `ConfigOption`, `ChoiceOption`, `Stmt`
    * `Menu`
    * `ParseState`, `configOption`, `choiceOption`
    * `parseStmt`, `parseTree`
-/

------------------------------------------------------------
-- The Language
------------------------------------------------------------

namespace Mkrootfs

/- The directory of a file, as `file_lookup` finds it. -/
def dirName (file : Text) : Text :=
  ((file.reverse.dropWhile (fun c => c ≠ '/')).drop 1).reverse

/- `symbol`: a word, or a word in quotes. -/
structure Word where
  text : Text
  quoted : Bool
deriving DecidableEq, Repr

namespace Word

/- The flags that a word gives to `sym_lookup`. -/
def lookupClass (w : Word) : LookupClass :=
  if w.quoted then .const else .plain

def id (w : Word) : SymId :=
  symLookupId w.text w.lookupClass

end Word

/- `expr`, before its words are looked up. -/
inductive WordExpr where
| symbol : Word → WordExpr
| equal : Word → Word → WordExpr
| unequal : Word → Word → WordExpr
| not : WordExpr → WordExpr
| and : WordExpr → WordExpr → WordExpr
| or : WordExpr → WordExpr → WordExpr
deriving DecidableEq, Repr

namespace WordExpr

def words : WordExpr → List Word
| symbol a => [a]
| equal a b => [a, b]
| unequal a b => [a, b]
| not e => e.words
| and e f => e.words ++ f.words
| or e f => e.words ++ f.words

def toExpr : WordExpr → Expr
| symbol a => .symbol a.id
| equal a b => .equal a.id b.id
| unequal a b => .unequal a.id b.id
| not e => .not e.toExpr
| and e f => .and e.toExpr f.toExpr
| or e f => .or e.toExpr f.toExpr

theorem toExpr_syms (e : WordExpr) :
    e.toExpr.syms = e.words.map Word.id := by
  induction e with
  | symbol a => rfl
  | equal a b => rfl
  | unequal a b => rfl
  | not e ih => exact ih
  | and e f ihe ihf =>
      simp [toExpr, words, Expr.syms, ihe, ihf]
  | or e f ihe ihf =>
      simp [toExpr, words, Expr.syms, ihe, ihf]

end WordExpr

/- The keywords of `T_TYPE` and `T_DEFAULT`. -/
inductive TypeKeyword where
| boolean
| tristate
| int
| hex
| string
| package
| srcdir
deriving DecidableEq, Repr

/- The type `menu_set_type` gives to a symbol. -/
def TypeKeyword.symbolType : TypeKeyword → SymbolType
| boolean | package => .boolean
| tristate => .tristate
| int => .int
| hex => .hex
| string | srcdir => .string

/- `if_expr`. -/
abbrev IfExpr := Option WordExpr

/- `config_option`, `symbol_option` and `depends`. -/
inductive ConfigOption where
| type : TypeKeyword → Option IfExpr → ConfigOption
| prompt : IfExpr → ConfigOption
| default :
    Option TypeKeyword → WordExpr → IfExpr → ConfigOption
| select : Text → IfExpr → ConfigOption
| buildSelect : Text → IfExpr → ConfigOption
| range : Word → Word → IfExpr → ConfigOption
| modules
| defconfigList
| env : Text → ConfigOption
| depends : WordExpr → ConfigOption
| buildDepends : WordExpr → ConfigOption
deriving DecidableEq, Repr

/- `choice_option` and `depends`. -/
inductive ChoiceOption where
| type : TypeKeyword → Option IfExpr → ChoiceOption
| prompt : IfExpr → ChoiceOption
| optional
| default : Text → IfExpr → ChoiceOption
| depends : WordExpr → ChoiceOption
| buildDepends : WordExpr → ChoiceOption
deriving DecidableEq, Repr

/- A line of a `depends_list`. -/
inductive DependsLine where
| depends : WordExpr → DependsLine
| buildDepends : WordExpr → DependsLine
deriving DecidableEq, Repr

/-
  The statements.  `config` tells `menuconfig` entries apart
  by its flag; `source` holds what the file contains.
-/
inductive Stmt where
| config : Bool → Text → List ConfigOption → Stmt
| choice :
    Option Text → List ChoiceOption → List Stmt → Stmt
| menu : List DependsLine → List Stmt → Stmt
| ifBlock : WordExpr → List Stmt → Stmt
| comment : List DependsLine → Stmt
| source : Text → List Stmt → Stmt

------------------------------------------------------------
-- The Menu
------------------------------------------------------------

/-
  `struct menu`, as the parser leaves it.  Only choices,
  menus and `if` blocks have a list; comments are left out.
-/
inductive Menu where
| config
    (id : Nat)
    (sym : SymId)
    (file : Text)
    (isMenu : Bool)
    (dep : Option Expr)
| choice
    (id : Nat)
    (sym : SymId)
    (file : Text)
    (dep : Option Expr)
    (list : List Menu)
| menu
    (id : Nat)
    (dep : Option Expr)
    (list : List Menu)
| ifBlock
    (id : Nat)
    (dep : Option Expr)
    (list : List Menu)

------------------------------------------------------------
-- Conditions
------------------------------------------------------------

/- `expr_alloc_and`, where `none` stands for `NULL`. -/
def exprAllocAnd : Option Expr → Option Expr → Option Expr
| none, e => e
| some e, none => some e
| some e, some f => some (.and e f)

/- `expr_alloc_or`. -/
def exprAllocOr : Option Expr → Option Expr → Option Expr
| none, e => e
| some e, none => some e
| some e, some f => some (.or e f)

/- The symbols of an expression, none for `NULL`. -/
def optSyms (e : Option Expr) : List SymId :=
  (e.map Expr.syms).getD []

/- `menu_check_dep`: `m` becomes `m && MODULES`. -/
def menuCheckDep : Expr → Expr
| .not e => .not (menuCheckDep e)
| .or e f => .or (menuCheckDep e) (menuCheckDep f)
| .and e f => .and (menuCheckDep e) (menuCheckDep f)
| .symbol s =>
    if s = .builtin .mod then
      .and (.symbol s) (.symbol .modules)
    else
      .symbol s
| .equal s t => .equal s t
| .unequal s t => .unequal s t

------------------------------------------------------------
-- The State Of The Parser
------------------------------------------------------------

/-
  The symbols, the dependencies of the current entry, the
  files that were entered, and counters: of entries, of
  choices without a name, and of errors.
-/
structure ParseState where
  symbols : SymbolTable
  dep : Option Expr
  sourced : List Text
  defconfigList : Option SymId
  nextMenu : Nat
  nextChoice : Nat
  errors : Nat

/- What the parser reads of its host. -/
structure ParseHost where
  getenv : Text → Option Text
  release : Text

/- A host without an environment. -/
def bareHost : ParseHost where
  getenv := fun _ => none
  release := "1".toList

namespace ParseState

/- `sym_lookup` in the current file. -/
def lookup
    (file : Option Text)
    (name : Text)
    (cls : LookupClass)
    (st : ParseState) : ParseState :=
  { st with symbols := (symLookup st.symbols name cls file).1 }

def lookupWord
    (file : Option Text)
    (st : ParseState)
    (w : Word) : ParseState :=
  st.lookup file w.text w.lookupClass

/- The lookups of an expression. -/
def lookupWords
    (file : Option Text)
    (ws : List Word)
    (st : ParseState) : ParseState :=
  ws.foldl (lookupWord file) st

def lookupIf
    (file : Option Text)
    (cond : IfExpr)
    (st : ParseState) : ParseState :=
  match cond with
  | none => st
  | some e => st.lookupWords file e.words

/- Update a symbol. -/
def modify
    (sym : SymId)
    (f : Symbol → Symbol)
    (st : ParseState) : ParseState :=
  { st with symbols := modifySymbol st.symbols sym f }

/- The properties that `prop_alloc` has appended. -/
def propAlloc
    (sym : SymId)
    (p : Property)
    (st : ParseState) : ParseState :=
  st.modify sym (fun s => { s with props := s.props ++ [p] })

/- `menu_add_prop` for an entry with a symbol. -/
def menuAddProp
    (file : Text)
    (menu : Nat)
    (sym : SymId)
    (type : PropType)
    (expr : Option Expr)
    (dep : IfExpr)
    (st : ParseState) : ParseState :=
  st.propAlloc sym
    { type := type
      visible := dep.map (fun e => menuCheckDep e.toExpr)
      expr := expr
      menu := some menu
      file := some file }

/- `menu_add_dep`. -/
def menuAddDep (e : WordExpr) (st : ParseState) :
    ParseState :=
  { st with
    dep := exprAllocAnd st.dep
      (some (menuCheckDep e.toExpr)) }

/- `menu_set_type`. -/
def menuSetType
    (file : Text)
    (sym : SymId)
    (keyword : TypeKeyword)
    (st : ParseState) : ParseState :=
  let marked :=
    match keyword with
    | .package =>
        (st.propAlloc sym
          ⟨.package, none, none, none, some file⟩).modify sym
            (fun s => { s with isPackage := true })
    | .srcdir =>
        (st.propAlloc sym
          ⟨.srcdir, none, none, none, some file⟩).modify sym
            (fun s => { s with isSrcdir := true })
    | _ => st
  marked.modify sym (fun s =>
    if s.type = .unknown then
      { s with type := keyword.symbolType }
    else
      s)

/- `sym_add_default`. -/
def symAddDefault
    (file : Option Text)
    (sym : SymId)
    (value : Text)
    (st : ParseState) : ParseState :=
  (st.propAlloc sym
    ⟨.default, none,
      some (.symbol (symLookupId value .const)),
      none, file⟩).lookup file value .const

/- `prop_add_env`. -/
def propAddEnv
    (host : ParseHost)
    (file : Text)
    (sym : SymId)
    (name : Text)
    (st : ParseState) : ParseState :=
  let flagged :=
    st.modify sym (fun s => { s with auto := true })
  match getSymbol st.symbols sym with
  | none => flagged
  | some s =>
      if s.props.any (fun p => p.type == .env) then
        flagged
      else
        let added :=
          (flagged.propAlloc sym
            ⟨.env, none,
              some (.symbol (symLookupId name .const)),
              none, some file⟩).lookup (some file) name .const
        match host.getenv name with
        | none => added
        | some value =>
            added.symAddDefault (some file) sym value

end ParseState

------------------------------------------------------------
-- Options
------------------------------------------------------------

open ParseState

/- A prompt with its condition. -/
def addPrompt
    (file : Text)
    (menu : Nat)
    (sym : SymId)
    (cond : IfExpr)
    (st : ParseState) : ParseState :=
  (st.lookupIf (some file) cond).menuAddProp file menu sym
    .prompt none cond

/- `depends`, for an entry with or without a symbol. -/
def addDepends
    (file : Text)
    (e : WordExpr)
    (st : ParseState) : ParseState :=
  (st.lookupWords (some file) e.words).menuAddDep e

/- `menu_add_build_dep`, for an entry with a symbol. -/
def addBuildDepends
    (file : Text)
    (menu : Nat)
    (sym : SymId)
    (e : WordExpr)
    (st : ParseState) : ParseState :=
  ((st.lookupWords (some file) e.words).menuAddProp file menu
    sym .buildDepends (some e.toExpr) none).menuAddDep e

/-
  `config_option` and `symbol_option`. Both properties of a
  `build_select` get its condition, in the source as one
  node.
-/
def configOption
    (host : ParseHost)
    (file : Text)
    (menu : Nat)
    (sym : SymId)
    (st : ParseState) : ConfigOption → ParseState
| .type keyword prompt =>
    let prompted :=
      match prompt with
      | none => st
      | some cond => addPrompt file menu sym cond st
    prompted.menuSetType file sym keyword
| .prompt cond => addPrompt file menu sym cond st
| .default keyword value cond =>
    let added :=
      ((st.lookupWords (some file) value.words).lookupIf
        (some file) cond).menuAddProp file menu sym .default
          (some value.toExpr) cond
    match keyword with
    | none => added
    | some keyword => added.menuSetType file sym keyword
| .select target cond =>
    ((st.lookupIf (some file) cond).lookup (some file) target
      .plain).menuAddProp file menu sym .select
        (some (.symbol (symLookupId target .plain))) cond
| .buildSelect target cond =>
    (((st.lookupIf (some file) cond).lookup (some file) target
      .plain).menuAddProp file menu sym .buildSelect
        (some (.symbol (symLookupId target .plain)))
        cond).menuAddProp file menu sym .select
          (some (.symbol (symLookupId target .plain))) cond
| .range low high cond =>
    ((st.lookupWords (some file) [low, high]).lookupIf
      (some file) cond).menuAddProp file menu sym .range none
        cond
| .modules =>
    st.propAlloc .modules
      ⟨.default, none, some (.symbol sym), none, some file⟩
| .defconfigList =>
    match st.defconfigList with
    | none => { st with defconfigList := some sym }
    | some other =>
        if other = sym then
          st
        else
          { st with errors := st.errors + 1 }
| .env name => st.propAddEnv host file sym name
| .depends e => addDepends file e st
| .buildDepends e => addBuildDepends file menu sym e st

/- `choice_option`. -/
def choiceOption
    (file : Text)
    (menu : Nat)
    (sym : SymId)
    (st : ParseState) : ChoiceOption → ParseState
| .type keyword prompt =>
    let prompted :=
      match prompt with
      | none => st
      | some cond => addPrompt file menu sym cond st
    match keyword with
    | .boolean | .tristate =>
        prompted.menuSetType file sym keyword
    | _ => { prompted with errors := prompted.errors + 1 }
| .prompt cond => addPrompt file menu sym cond st
| .optional =>
    st.modify sym (fun s => { s with optional := true })
| .default target cond =>
    ((st.lookupIf (some file) cond).lookup (some file) target
      .plain).menuAddProp file menu sym .default
        (some (.symbol (symLookupId target .plain))) cond
| .depends e => addDepends file e st
| .buildDepends e => addBuildDepends file menu sym e st

/-
  A line of a menu or a comment.  Without a symbol the
  property of `build_depends` is kept nowhere.
-/
def dependsLine
    (file : Text)
    (st : ParseState) : DependsLine → ParseState
| .depends e => addDepends file e st
| .buildDepends e => addDepends file e st

------------------------------------------------------------
-- Statements
------------------------------------------------------------

/- A prompt of an entry. -/
def Property.isPromptOf (p : Property) (menu : Nat) : Bool :=
  p.type == .prompt && p.menu == some menu

/- `menuconfig` turns the last prompt into a `P_MENU`. -/
def markLastPrompt (menu : Nat) :
    List Property → List Property
| [] => []
| p :: ps =>
    if p.isPromptOf menu &&
        !ps.any (fun q => q.isPromptOf menu) then
      { p with type := .menu } :: ps
    else
      p :: markLastPrompt menu ps

/- `menu_add_entry`. -/
def ParseState.addEntry (st : ParseState) : ParseState :=
  { st with
    dep := none
    nextMenu := st.nextMenu + 1 }

/-
  `config_entry_start` and `menuconfig_entry_start`.  Only
  the former makes the current file the symbol's.
-/
def configEntryStart
    (file : Text)
    (isMenu : Bool)
    (name : Text)
    (st : ParseState) : ParseState :=
  ((st.lookup (some file) name .plain).modify
    (symLookupId name .plain) (fun s =>
      { s with
        optional := true
        file := if isMenu then s.file else some file })).addEntry

/- The end of `menuconfig_stmt`. -/
def menuconfigEnd
    (isMenu : Bool)
    (menu : Nat)
    (sym : SymId)
    (st : ParseState) : ParseState :=
  if isMenu then
    st.modify sym (fun s =>
      { s with props := markLastPrompt menu s.props })
  else
    st

/- The symbol of a choice. -/
def choiceSym (name : Option Text) (st : ParseState) : SymId :=
  match name with
  | some name => symLookupId name .choice
  | none => .choice (.anonymous st.nextChoice)

/- `choice`, up to its options. -/
def choiceStart
    (file : Text)
    (name : Option Text)
    (st : ParseState) : ParseState :=
  let found : ParseState :=
    match name with
    | some name => st.lookup (some file) name .choice
    | none =>
        { st with
          symbols :=
            Symbol.alloc (.choice (.anonymous st.nextChoice))
              (some file) :: st.symbols
          nextChoice := st.nextChoice + 1 }
  ((found.modify (choiceSym name st) (fun s =>
    { s with auto := true })).addEntry).menuAddProp file
      st.nextMenu (choiceSym name st) .choice none none

mutual

/- A statement: the state after it, and its menus. -/
def parseStmt
    (host : ParseHost)
    (file : Text) :
    Stmt → ParseState → ParseState × List Menu
| .config isMenu name options, st =>
    let sym := symLookupId name .plain
    let done :=
      options.foldl (configOption host file st.nextMenu sym)
        (configEntryStart file isMenu name st)
    (menuconfigEnd isMenu st.nextMenu sym done,
      [.config st.nextMenu sym file isMenu done.dep])
| .choice name options block, st =>
    let sym := choiceSym name st
    let started :=
      options.foldl (choiceOption file st.nextMenu sym)
        (choiceStart file name st)
    let done := parseStmts host file block started
    (done.1,
      [.choice st.nextMenu sym file started.dep done.2])
| .menu lines block, st =>
    let started :=
      lines.foldl (dependsLine file) st.addEntry
    let done := parseStmts host file block started
    (done.1, [.menu st.nextMenu started.dep done.2])
| .ifBlock cond block, st =>
    let started :=
      ((st.lookupWords (some file) cond.words).addEntry
        ).menuAddDep cond
    let done := parseStmts host file block started
    (done.1, [.ifBlock st.nextMenu started.dep done.2])
| .comment lines, st =>
    (lines.foldl (dependsLine file) st.addEntry, [])
| .source name block, st =>
    -- A file that was sourced before ends the program.
    if name ∈ st.sourced then
      ({ st with errors := st.errors + 1 }, [])
    else
      parseStmts host name block
        { st with sourced := name :: st.sourced }

/- `stmt_list` and the blocks. -/
def parseStmts
    (host : ParseHost)
    (file : Text) :
    List Stmt → ParseState → ParseState × List Menu
| [], st => (st, [])
| stmt :: stmts, st =>
    let first := parseStmt host file stmt st
    let rest := parseStmts host file stmts first.1
    (rest.1, first.2 ++ rest.2)

end

/- `modules_sym`. -/
def modulesSymbol (file : Text) : Symbol :=
  { Symbol.alloc .modules (some file) with
    type := .boolean
    auto := true }

/- `sym_init`. -/
def symInit
    (host : ParseHost)
    (file : Text)
    (st : ParseState) : ParseState :=
  let release : Text := "UNAME_RELEASE".toList
  ((st.lookup (some file) release .plain).modify
    (.named release) (fun s =>
      { s with
        type := .string
        auto := true })).symAddDefault (some file)
          (.named release) host.release

/- The state in which `conf_parse` starts the parser. -/
def parseStart (host : ParseHost) (file : Text) :
    ParseState :=
  let started : ParseState :=
    { symbols := builtinSymbols
      dep := none
      sourced := [file]
      defconfigList := none
      nextMenu := 0
      nextChoice := 0
      errors := 0 }
  let init := symInit host file started
  { init with
    symbols := modulesSymbol file :: init.symbols }

/- `zconfparse` on the file `file` and what it sources. -/
def parseTree
    (host : ParseHost)
    (file : Text)
    (stmts : List Stmt) : ParseState × List Menu :=
  parseStmts host file stmts (parseStart host file)

end Mkrootfs
