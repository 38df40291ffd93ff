import Mkrootfs.Kconfig.Symbol

/-
  Reading and writing configuration files (`confdata.c`).

  A file is read in chunks of a 1024-byte buffer.  A chunk
  is first parsed by its own text, then applied to the
  symbol table.  Characters stand for bytes.

  Main declarations:
    * `ConfLine`, `parseConfLine`
    * `confSetSymVal`
    * `applyConfLine`, `confReadSimple`
    * `confSymbolLine`, `confWrite`
-/

------------------------------------------------------------
-- Lines Of A Configuration File
------------------------------------------------------------

namespace Mkrootfs

/- The prefix of option names in configuration files. -/
def optionPrefix : Text := ['M', 'K', 'R', '_']

/- What follows the name of an option that is off. -/
def isNotSet : Text :=
  ['i', 's', ' ', 'n', 'o', 't', ' ', 's', 'e', 't']

/- The size of the line buffer of `conf_read_simple`. -/
def confLineSize : Nat := 1024

/- What one chunk of a configuration file says. -/
inductive ConfLine where
| skipped
| unexpected
| unset : Text → ConfLine
| assigned : Text → Text → ConfLine
deriving DecidableEq, Repr

/- The name a line is about. -/
def ConfLine.name : ConfLine → Option Text
| .skipped => none
| .unexpected => none
| .unset name => some name
| .assigned name _ => some name

/-
  The value after `=`: up to the newline, if the chunk has
  one, and then without a carriage return before it.
-/
def confLineValue (p : Text) : Text :=
  if '\n' ∉ p then
    p
  else if (Text.before '\n' p).getLast? = some '\r' then
    (Text.before '\n' p).dropLast
  else
    Text.before '\n' p

/- The `switch` on the first character of a chunk. -/
def parseConfLine (chunk : Text) : ConfLine :=
  match chunk with
  | '#' :: _ =>
      if ¬ optionPrefix <+: chunk.drop 2 then
        .skipped
      else if ' ' ∉ chunk.drop 6 then
        .skipped
      else if isNotSet <+: Text.after ' ' (chunk.drop 6) then
        .unset (Text.before ' ' (chunk.drop 6))
      else
        .skipped
  | 'M' :: _ =>
      if ¬ optionPrefix <+: chunk then
        .unexpected
      else if '=' ∉ chunk.drop 4 then
        .skipped
      else
        .assigned (Text.before '=' (chunk.drop 4))
          (confLineValue (Text.after '=' (chunk.drop 4)))
  | '\r' :: _ => .skipped
  | '\n' :: _ => .skipped
  | [] => .skipped
  | _ => .unexpected

------------------------------------------------------------
-- Setting Values
------------------------------------------------------------

/- `sym->def[def].tri = tri; sym->flags |= def_flags`. -/
def setDefTri
    (s : Symbol)
    (d : DefIndex)
    (tri : Tristate) : Symbol :=
  (s.setDefVal { s.defVal d with tri := tri } d).setHasDef
    true d

/- `sym->def[def].val = strdup(p); sym->flags |= def_flags` -/
def setDefString
    (s : Symbol)
    (d : DefIndex)
    (p : Text) : Symbol :=
  (s.setDefVal { s.defVal d with val := p } d).setHasDef
    true d

/- The outcome of `conf_set_sym_val`. -/
structure SetResult where
  sym : Symbol
  warnings : Nat
  failed : Bool

/- The label `done` of `conf_set_sym_val`. -/
def confSetString
    (s : Symbol)
    (d : DefIndex)
    (p : Text) : SetResult :=
  if symStringValid s.type p then
    ⟨setDefString s d p, 0, false⟩
  else
    ⟨s, 1, true⟩

/- The case `S_BOOLEAN` of `conf_set_sym_val`. -/
def confSetBoolean
    (s : Symbol)
    (d : DefIndex)
    (p : Text) : SetResult :=
  match p.head? with
  | some 'y' => ⟨setDefTri s d .yes, 0, false⟩
  | some 'n' => ⟨setDefTri s d .no, 0, false⟩
  | _ => ⟨s, 1, false⟩

/- `conf_set_sym_val`. -/
def confSetSymVal
    (s : Symbol)
    (d : DefIndex)
    (p : Text) : SetResult :=
  match s.type with
  | .tristate =>
      if p.head? = some 'm' then
        ⟨setDefTri s d .mod, 0, false⟩
      else
        confSetBoolean s d p
  | .boolean => confSetBoolean s d p
  | .other =>
      if p.head? = some '"' then
        confSetString s d p
      else
        confSetString { s with type := .string } d p
  | .string | .int | .hex => confSetString s d p
  | .unknown => ⟨s, 0, false⟩

------------------------------------------------------------
-- Reading
------------------------------------------------------------

/- The table and the counters that reading updates. -/
structure ReadState where
  symbols : SymbolTable
  warnings : Nat
  changeCount : Nat

/- The start of `conf_read_simple` for one symbol. -/
def resetDef (d : DefIndex) (s : Symbol) : Symbol :=
  if s.isVisited then
    (({ s with valid := false }.setDefVal .empty d).setHasDef
      s.id.isChoice d)
  else
    s

/-
  The symbol a line is about: only an existing one for
  `S_DEF_USER`, otherwise one that is created on demand with
  the type the line suggests.
-/
def confLineSymbol
    (d : DefIndex)
    (name : Text)
    (suggested : SymbolType)
    (t : SymbolTable) : SymbolTable × Option SymId :=
  match d with
  | .user => (t, symFind t name)
  | .auto =>
      let found := symLookup t name .plain none
      (modifySymbol found.1 found.2 (fun s =>
          if s.type = .unknown then
            { s with type := suggested }
          else
            s),
        some found.2)

/- What a choice `cs` learns from the value of `s`. -/
def choiceNoted
    (d : DefIndex)
    (s cs : Symbol) : Symbol :=
  let tri := (s.defVal d).tri
  let old := cs.defVal d
  let flagged :=
    if tri = .mod ∧ old.tri = .yes then
      cs.setHasDef false d
    else
      cs
  flagged.setDefVal
    { old with
      chosen := if tri = .yes then some s.id else old.chosen
      tri := old.tri.or tri } d

/- The warnings about the state of a choice `cs`. -/
def choiceWarnings
    (d : DefIndex)
    (s cs : Symbol) : Nat :=
  match (s.defVal d).tri with
  | .no => 0
  | .mod => if (cs.defVal d).tri = .yes then 1 else 0
  | .yes => if (cs.defVal d).tri ≠ .no then 1 else 0

/-
  The end of the loop for a choice value: its choice learns
  the value, and a conflict is warned about.
-/
def noteChoiceValue
    (d : DefIndex)
    (s : Symbol)
    (st : ReadState) : ReadState :=
  match s.choiceOf with
  | none => st
  | some c =>
      match getSymbol st.symbols (.choice c) with
      | none => st
      | some cs =>
          { st with
            symbols := modifySymbol st.symbols (.choice c)
              (choiceNoted d s)
            warnings := st.warnings + choiceWarnings d s cs }

/- Replace a symbol by an updated version of itself. -/
def storeSymbol (t : SymbolTable) (s : Symbol) :
    SymbolTable :=
  modifySymbol t s.id (fun _ => s)

/- One iteration of the loop of `conf_read_simple`. -/
def applyConfLine
    (d : DefIndex)
    (st : ReadState)
    (line : ConfLine) : ReadState :=
  match line with
  | .skipped => st
  | .unexpected => { st with warnings := st.warnings + 1 }
  | .unset name =>
      let found := confLineSymbol d name .boolean st.symbols
      match found.2.bind (getSymbol found.1) with
      | none =>
          { st with
            symbols := found.1
            changeCount := st.changeCount + 1 }
      | some s =>
          let again : Nat := if s.hasDef d then 1 else 0
          let s' :=
            if s.type = .boolean ∨ s.type = .tristate then
              setDefTri s d .no
            else
              s
          noteChoiceValue d s'
            { st with
              symbols := storeSymbol found.1 s'
              warnings := st.warnings + again }
  | .assigned name value =>
      let found := confLineSymbol d name .other st.symbols
      match found.2.bind (getSymbol found.1) with
      | none =>
          { st with
            symbols := found.1
            changeCount := st.changeCount + 1 }
      | some s =>
          let again : Nat := if s.hasDef d then 1 else 0
          let result := confSetSymVal s d value
          let st' : ReadState :=
            { st with
              symbols := storeSymbol found.1 result.sym
              warnings :=
                st.warnings + again + result.warnings }
          if result.failed then
            st'
          else
            noteChoiceValue d result.sym st'

/- The lines of a file as `conf_read_simple` sees them. -/
def confLines (file : Text) : List ConfLine :=
  (Text.fgets confLineSize file).map parseConfLine

/-
  `conf_read_simple` on the contents of an existing file, up
  to the final evaluation of `modules_sym`.
-/
def confReadSimple
    (d : DefIndex)
    (file : Text)
    (t : SymbolTable)
    (changeCount : Nat) : ReadState :=
  (confLines file).foldl (applyConfLine d)
    ⟨t.map (resetDef d), 0, changeCount⟩

------------------------------------------------------------
-- Writing
------------------------------------------------------------

/- `sym->name` as it is printed. -/
def printedName (id : SymId) : Text :=
  id.name.getD []

/- A line `MKR_<name>=<value>`. -/
def assignmentLine (name value : Text) : Text :=
  optionPrefix ++ name ++ '=' :: value

/- A line `# MKR_<name> is not set`. -/
def notSetLine (name : Text) : Text :=
  '#' :: ' ' :: (optionPrefix ++ name ++ ' ' :: isNotSet)

/- The line that `conf_write` prints for a symbol. -/
def confSymbolLine (s : Symbol) : Option Text :=
  match s.type with
  | .boolean | .tristate =>
      match s.curr.tri with
      | .no => some (notSetLine (printedName s.id))
      | .mod => some (assignmentLine (printedName s.id) ['m'])
      | .yes => some (assignmentLine (printedName s.id) ['y'])
  | .string | .hex | .int =>
      some (assignmentLine (printedName s.id) s.curr.val)
  | .unknown | .other => none

/-
  One menu of the traversal of `conf_write`: a visible menu
  or comment with its prompt, or an entry of a symbol.
-/
inductive MenuLine where
| title : Text → MenuLine
| entry : SymId → MenuLine
deriving DecidableEq, Repr

/-
  The lines of the traversal.  A symbol is written at its
  first entry only, since `SYMBOL_WRITE` is cleared there.
  The values are those `sym_calc_value` has left.
-/
def confMenuLines :
    SymbolTable → List MenuLine → List Text
| _, [] => []
| t, .title prompt :: menus =>
    [[], ['#'], '#' :: ' ' :: prompt, ['#']] ++
      confMenuLines t menus
| t, .entry id :: menus =>
    match getSymbol t id with
    | none => confMenuLines t menus
    | some s =>
        if s.id.isChoice || !s.write then
          confMenuLines t menus
        else
          (confSymbolLine s).toList ++
            confMenuLines
              (modifySymbol t id
                (fun s => { s with write := false })) menus

/- The second header line of `conf_write`. -/
def confBanner : Text :=
  ("# Automatically generated make config: don't edit" :
    String).toList

/- The comment at the start of the file. -/
def confHeader (ctime : Option Text) : List Text :=
  [['#'], confBanner] ++
    (ctime.map (fun now => '#' :: ' ' :: now)).toList ++
      [['#']]

/- The contents `conf_write` gives to the `.config` file. -/
def confWrite
    (ctime : Option Text)
    (t : SymbolTable)
    (menus : List MenuLine) : Text :=
  Text.unlines (confHeader ctime ++ confMenuLines t menus)

end Mkrootfs
