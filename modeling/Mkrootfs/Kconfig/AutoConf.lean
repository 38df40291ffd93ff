import Mkrootfs.Kconfig.ConfigPath
import Mkrootfs.Kconfig.ConfRead

/-
  The generated `auto.conf` and the files that stand for
  single options (`conf_write_autoconf`, `conf_split_config`).

  The values of symbols come from `sym_calc_value`, of which
  only what the two loops rely on is stated.  Files are
  opened without errors.

  Main declarations:
    * `SymCalc`, `SymCalc.calcAll`
    * `splitTouches`, `confSplitConfig`
    * `autoconfAssignments`, `confWriteAutoconf`
-/

------------------------------------------------------------
-- Calculated Values
------------------------------------------------------------

namespace Mkrootfs

/-
  `sym_calc_value`: the value and the flag `SYMBOL_WRITE` of
  each symbol of a table.  Only a symbol of a known type is
  written, never one with `SYMBOL_AUTO`, and a boolean is
  never `m`.
-/
structure SymCalc where
  value : SymbolTable → Symbol → SymbolValue
  writes : SymbolTable → Symbol → Bool
  settled_of_writes : ∀ t s, writes t s = true →
    s.type.isSettled = true
  notAuto_of_writes : ∀ t s, writes t s = true →
    s.auto = false
  boolean_value : ∀ t s, s.type = .boolean →
    (value t s).tri ≠ .mod

namespace SymCalc

variable (values : SymCalc)

/- `sym_calc_value` for one symbol of a table. -/
def calcSymbol (t : SymbolTable) (s : Symbol) : Symbol :=
  { s with
    curr := values.value t s
    write := values.writes t s }

/- `sym_calc_value` for all symbols. -/
def calcAll (t : SymbolTable) : SymbolTable :=
  t.map (values.calcSymbol t)

end SymCalc

------------------------------------------------------------
-- Files Of Single Options
------------------------------------------------------------

/- Whether the loop of `conf_split_config` opens a file. -/
def splitTouches (s : Symbol) : Bool :=
  if s.auto || s.id.name.isNone then
    false
  else if s.write then
    if s.hasAuto then
      match s.type with
      | .boolean | .tristate => s.curr.tri ≠ s.defAuto.tri
      | .string | .hex | .int => s.curr.val ≠ s.defAuto.val
      | .unknown | .other => true
    else
      match s.type with
      | .boolean | .tristate => s.curr.tri ≠ .no
      | _ => true
  else
    s.hasAuto

/- The paths the loop opens in `include/config`. -/
def splitPaths (t : SymbolTable) : List Text :=
  (t.filter (fun s => s.isVisited && splitTouches s)).filterMap
    (fun s => configPath (printedName s.id))

/- `conf_split_config` for the contents of `auto.conf`. -/
def confSplitConfig
    (values : SymCalc)
    (autoConf : Text)
    (t : SymbolTable) : List Text :=
  splitPaths
    (values.calcAll (confReadSimple .auto autoConf t 0).symbols)

------------------------------------------------------------
-- The File `auto.conf`
------------------------------------------------------------

/- The value that `conf_write_autoconf` prints. -/
def autoconfValue (s : Symbol) : Option Text :=
  match s.type with
  | .boolean | .tristate =>
      match s.curr.tri with
      | .no => none
      | .mod => some ['m']
      | .yes => some ['y']
  | .string | .hex | .int => some s.curr.val
  | .unknown | .other => none

/- The name and the value of a printed line. -/
def autoconfAssignment (s : Symbol) : Option (Text × Text) :=
  if s.isVisited && s.write then
    match s.id.name with
    | none => none
    | some name => (autoconfValue s).map (fun p => (name, p))
  else
    none

/- The lines that `conf_write_autoconf` prints. -/
def autoconfAssignments (t : SymbolTable) :
    List (Text × Text) :=
  t.filterMap autoconfAssignment

/- The contents `conf_write_autoconf` gives to `auto.conf`. -/
def confWriteAutoconf
    (ctime : Text)
    (t : SymbolTable) : Text :=
  Text.unlines
    (confHeader (some ctime) ++
      (autoconfAssignments t).map
        (fun line => assignmentLine line.1 line.2))

/- The value of an option in `auto.conf`. -/
def valueIn
    (lines : List (Text × Text))
    (name : Text) : Option Text :=
  (lines.find? (fun line => line.1 = name)).map Prod.snd

end Mkrootfs
